import Mjc.Asm.AliasOptimizer
import Mjc.Asm.ArithCorrect
import Mjc.Asm.ArrayOptimizer
import Mjc.Asm.FrameCorrect
import Mjc.Asm.JumpOptimizer
import Mjc.Asm.Layout
import Mjc.Asm.LowerWidths
import Mjc.Asm.MovCorrect
import Mjc.Asm.SimpleCorrect
import Mjc.Asm.SlotRuns
import Mjc.Asm.StackCorrect
import Mjc.Firm.Stacks
import Mjc.Firm.Storage
import Mjc.Irg.ConstPropCorrect
import Mjc.Irg.CriticalEdges
import Mjc.Irg.UnusedFunctions
import Mjc.Lexer.Delivery
import Mjc.Lexer.Independence
import Mjc.Lexer.Reporting
import Mjc.Parser.Correctness
import Mjc.Parser.Literals
import Mjc.Parser.Precedence
import Mjc.PrintInt
import Mjc.Printer.Reassociated
import Mjc.Sema.Flow
import Mjc.Sema.InPlace
import Mjc.Sema.MainMethod
import Mjc.Sema.Mangling
import Mjc.Sema.NamedClasses
import Mjc.Sema.Order
import Mjc.Sema.ScopedTable
import Mjc.Sema.Scoping

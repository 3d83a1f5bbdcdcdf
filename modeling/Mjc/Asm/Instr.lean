import Mathlib.Data.Nat.Notation

/-!
# Instructions

The instructions of `asm.hpp`: `RegName`, `RegMode`, `Op`, `Mnemonic` and `Instr`, with the factory functions
of `asm.cpp`. Comments of instructions are left out; `Instr.ops` holds as many operands as `nOps` counts.
-/

namespace Mjc.Asm

set_option autoImplicit false

inductive RegName where
  | ax | bx | cx | dx | bp | sp | si | di | r8 | r9 | r10 | r11 | r12 | r13 | r14 | r15
  deriving DecidableEq, Repr

/-- `RegMode`: 64 bits, 32 bits, the low 8 bits. -/
inductive RegMode where
  | R | E | L
  deriving DecidableEq, Repr

/-- `Op`: an immediate, a register, memory at a base register and an offset, or a name. -/
inductive Op where
  | imm (value : Int)
  | reg (name : RegName) (mode : RegMode)
  | ind (base : RegName) (mode : RegMode) (offset : Int)
  | str (str : String)
  deriving DecidableEq, Repr

inductive Mnemonic where
  | Add | Sub | IMul | Div | Call | Cmp | Neg | Je | Jne | Jmp | Jg | Jge | Jl | Jle | Inc | Dec | Xor | Mov
  | Movq | Movl | Movb | Movslq | Cqto | Label
  deriving DecidableEq, Repr

structure Instr where
  mnemonic : Mnemonic
  ops : List Op
  deriving DecidableEq, Repr

def Instr.isJmp (i : Instr) : Bool :=
  i.mnemonic ∈ [Mnemonic.Jmp, .Je, .Jne, .Jg, .Jge, .Jl, .Jle]

def Instr.isMov (i : Instr) : Bool := i.mnemonic ∈ [Mnemonic.Mov, .Movq, .Movl, .Movb]

/-- The mnemonic that `makeMov` chooses for a mode. -/
def RegMode.mov : RegMode → Mnemonic
  | .R => .Movq
  | .E => .Movl
  | .L => .Movb

def makeMov (mode : RegMode) (source dest : Op) : Instr := ⟨mode.mov, [source, dest]⟩

/-- `rax`, `rbx`, `rcx`, `rbp` and `rsp`. -/
def rax : Op := .reg .ax .R
def rbx : Op := .reg .bx .R
def rcx : Op := .reg .cx .R
def rbp : Op := .reg .bp .R
def rsp : Op := .reg .sp .R

end Mjc.Asm

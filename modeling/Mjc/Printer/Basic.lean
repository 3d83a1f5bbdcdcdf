import Mjc.Lexer.Correctness
import Mjc.Parser.Basic
import Mjc.Sema.Named

/-!
# The pretty printer

`PrettyPrinterVisitor` of `pprinter.hpp`: every visit writes to the stream and changes the two fields.

* `maybePlaceParenthesis` : parentheses where the flag `requireParenthesis` asks for them; the flag is cleared, set and
  left as it is by the visits of expressions, and survives statements and members;
* `visitExpr`, `visitStmt`, `visitProgram` : the visits; `acceptChildren` sorts members with `std::sort`, which may put
  those of one name in any order;
* `parseFile`, `parseAndPrintAst` : what is printed for the bytes of a file.
-/

namespace Mjc.Printer
open Mjc.Ast
open Mjc.Sema (UnstableSort)

set_option autoImplicit false

/-- What has been written to `stream`, and the fields of the visitor. -/
structure State where
  stream : List Char
  indentLevel : Nat
  requireParenthesis : Bool
  deriving DecidableEq, Repr

namespace State

/-- `stream << text`. -/
def put (text : String) (s : State) : State := { s with stream := s.stream ++ text.toList }

def setRequire (b : Bool) (s : State) : State := { s with requireParenthesis := b }

def indent (s : State) : State := { s with indentLevel := s.indentLevel + 1 }

def unindent (s : State) : State := { s with indentLevel := s.indentLevel - 1 }

/-- `newline`; `indentWith` is a tab. -/
def newline (s : State) : State :=
  { s with stream := s.stream ++ '\n' :: List.replicate s.indentLevel '\t' }

end State

open State

/-! ## Types -/

def visitPrimitiveType : PrimType → State → State
  | .boolean => put "boolean"
  | .int => put "int"
  | .void => put "void"

/-- `visitPrimitiveType` and `visitClassType`. -/
def visitBasicType : BasicType → State → State
  | .primitive type => visitPrimitiveType type
  | .classType name => put name

/-- The loops that write `[]`. -/
def putBrackets : Nat → State → State
  | 0, s => s
  | n + 1, s => putBrackets n (s.put "[]")

/-- The visit of a type. -/
def visitType : Ty → State → State
  | .basic type, s => visitBasicType type s
  | .array elementType dimension, s => putBrackets dimension (visitBasicType elementType s)

/-! ## Expressions -/

def binaryOperationToString : BinaryOp → String
  | .assign => "="
  | .or => "||"
  | .and => "&&"
  | .equals => "=="
  | .notEquals => "!="
  | .less => "<"
  | .lessEquals => "<="
  | .greater => ">"
  | .greaterEquals => ">="
  | .plus => "+"
  | .minus => "-"
  | .mul => "*"
  | .div => "/"
  | .mod => "%"

def unaryOperationToString : UnaryOp → String
  | .neg => "-"
  | .not => "!"

def maybePlaceParenthesis (function : State → State) (s : State) : State :=
  if s.requireParenthesis then (function ((s.setRequire false).put "(")).put ")" else function s

def visitIntLiteralHelper (value : Int) (s : State) : State := (s.setRequire (value < 0)).put (toString value)

mutual

/-- The visit of an expression. -/
def visitExpr : Expr → State → State
  | .intLiteral value, s => maybePlaceParenthesis (visitIntLiteralHelper value) s
  | .boolLiteral value, s => (s.setRequire false).put (if value then "true" else "false")
  | .nullLiteral, s => (s.setRequire false).put "null"
  | .thisLiteral, s => (s.setRequire false).put "this"
  | .varRef name, s => (s.setRequire false).put name
  | .methodInvocation left name arguments, s =>
    (visitArguments arguments ((((visitExpr left s).put ".").put name).put "(")).put ")"
  | .fieldAccess left name, s => ((visitExpr left s).put ".").put name
  | .arrayAccess array index, s => (visitExpr index ((visitExpr array s).put "[")).put "]"
  | .newObject name, s => (((s.setRequire false).put "new ").put name).put "()"
  | .newArray elementType dimension size, s =>
    let s := visitBasicType elementType ((s.setRequire false).put "new ")
    putBrackets (dimension - 1) ((visitExpr size (s.put "[")).put "]")
  | .binary op left right, s =>
    let helper (s : State) : State :=
      let s := visitExpr left (if op ≠ .assign then s.setRequire true else s)
      let s := ((s.put " ").put (binaryOperationToString op)).put " "
      visitExpr right (if op ≠ .assign then s.setRequire true else s)
    maybePlaceParenthesis helper s
  | .unary op expression, s =>
    let helper (s : State) : State := visitExpr expression ((s.put (unaryOperationToString op)).setRequire true)
    maybePlaceParenthesis helper s

/-- The arguments of a call. -/
def visitArguments : List Expr → State → State
  | [], s => s
  | e :: l, s => visitMoreArguments l (visitExpr e s)

/-- The arguments after the first one. -/
def visitMoreArguments : List Expr → State → State
  | [], s => s
  | e :: l, s => visitMoreArguments l (visitExpr e (s.put ", "))

end

/-! ## Statements -/

def visitVariableDeclaration (type : Ty) (name : String) (initializer : Option Expr) (s : State) : State :=
  let s := ((visitType type s).put " ").put name
  match initializer with
  | none => s.put ";"
  | some e => (visitExpr e (s.put " = ")).put ";"

def visitReturnStatement (expression : Option Expr) (s : State) : State :=
  match expression with
  | none => s.put "return;"
  | some e => (visitExpr e (s.put "return ")).put ";"

mutual

/-- The visit of a statement. -/
def visitStmt : Stmt → State → State
  | .block statements lonely, s =>
    let s := s.put "\x7b"
    let s := if lonely then s.put " " else (visitStmts statements s.indent).unindent.newline
    s.put "\x7d"
  | .varDecl type name initializer, s => visitVariableDeclaration type name initializer s
  | .exprStmt expression, s => (visitExpr expression s).put ";"
  | .ifStmt condition thenStmt elseStmt, s =>
    let s := (visitExpr condition (s.put "if (")).put ") "
    printElseStatementAsBlock elseStmt (printStatementAsBlock thenStmt s)
  | .whileStmt condition statement, s =>
    printStatementAsBlock statement ((visitExpr condition (s.put "while (")).put ") ")
  | .returnStmt expression, s => visitReturnStatement expression s

/-- The statements of a block, each on a line of its own. -/
def visitStmts : List Stmt → State → State
  | [], s => s
  | stmt :: l, s => visitStmts l (visitStmt stmt s.newline)

def printStatementAsBlock : Option Stmt → State → State
  | none, s => s.put "\x7b \x7d"
  | some (.block statements lonely), s => visitStmt (.block statements lonely) s
  | some stmt, s => (visitStmt stmt (s.put "\x7b").indent.newline).unindent.newline.put "\x7d"

def printElseStatementAsBlock : Option Stmt → State → State
  | none, s => s
  | some (.block statements lonely), s =>
    if lonely then s else visitStmt (.block statements lonely) (s.newline.put "else ")
  | some stmt, s => (visitStmt stmt (s.newline.put "else \x7b").indent.newline).unindent.newline.put "\x7d"

end

/-! ## Classes and programs -/

/-- `visitBlock` of the body of a method. -/
def visitBlock (block : Block) : State → State := visitStmt (.block block.statements block.lonely)

def visitField (field : Ast.Field) (s : State) : State :=
  (((visitType field.type (s.newline.put "public ")).put " ").put field.name).put ";"

def visitParameter (parameter : Parameter) (s : State) : State :=
  ((visitType parameter.type s).put " ").put parameter.name

/-- The parameters of a method. -/
def visitParameters : List Parameter → State → State
  | [], s => s
  | p :: l, s => l.foldl (fun s p => visitParameter p (s.put ", ")) (visitParameter p s)

def visitRegularMethod (method : RegularMethod) (s : State) : State :=
  let s := (((visitType method.returnType (s.newline.put "public ")).put " ").put method.name).put "("
  visitBlock method.block ((visitParameters method.parameters s).put ") ")

def visitMainMethod (mainMethod : MainMethod) (s : State) : State :=
  let s := ((s.newline.put "public static void ").put mainMethod.name).put "(String[] "
  visitBlock mainMethod.block ((s.put mainMethod.argName).put ") ")

variable (std : UnstableSort)

/-- `visitFieldList`; `acceptChildren` sorts the fields. -/
def visitFieldList (fields : List Ast.Field) (s : State) : State :=
  (std.sort Ast.Field.name fields).foldl (fun s f => visitField f s) (s.newline.put "/* fields: */")

def visitMethodList (methods : List RegularMethod) (s : State) : State :=
  (std.sort RegularMethod.name methods).foldl (fun s m => visitRegularMethod m s)
    ((s.put "\n").newline.put "/* methods: */")

def visitMainMethodList (mainMethods : List MainMethod) (s : State) : State :=
  (std.sort MainMethod.name mainMethods).foldl (fun s m => visitMainMethod m s)
    ((s.put "\n").newline.put "/* main methods: */")

def visitClass (klass : Ast.Class) (s : State) : State :=
  let s := (((s.put "class ").put klass.name).put " \x7b").indent
  let s := visitFieldList std klass.fields s
  let s := visitMainMethodList std klass.mainMethods (visitMethodList std klass.methods s)
  (s.unindent.newline.put "\x7d").newline

def visitProgram (program : Program) (s : State) : State :=
  (std.sort Ast.Class.name program.classes).foldl (fun s c => visitClass std c s) s

/-- The text that is printed for a program. -/
def print (program : Program) : List Char := (visitProgram std program ⟨[], 0, false⟩).stream

/-! ## Files -/

/-- The program that the parser returns for the bytes of a file, if the lexer and the parser accept them. -/
def parseFile (file : List UInt8) : Option Program :=
  match Lexer.lexFile .normal file with
  | (ts, .eof _) => (Parser.parseProgram (ts.map Prod.fst)).toOption
  | _ => none

/-- `parseAndPrintAst`: the bytes that are written for the bytes of a file. -/
def parseAndPrintAst (file : List UInt8) : Option (List UInt8) :=
  (parseFile file).map fun program => Lexer.bytes (print std program)

end Mjc.Printer

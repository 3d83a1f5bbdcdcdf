import Mjc.Checklist
import Mjc.Sema.Conforms

/-!
# The visitor's checks in their order

What the visitor asks of a program, as one list in the order in which it comes to the checks: the classes by their names,
and in a class the fields and the methods by their names. The types are read off from the declarations and do not say that
anything is right.

The list is the visitor's own. It lets some programs through that are not MiniJava: the names of the streams have no type,
so they stand as statements and go with each other (`System;`, `System == System.out`); and only the static methods that
are called `main` are counted.

* `Frame.sees`, `streamOf`, `typeOf` : what a name stands for, the names of the streams, and the type of an expression;
* `Breach` : what a check that fails means;
* `exprChecks`, `stmtChecks`, `classChecks`, `programChecks` : the checks.
-/

namespace Mjc.Sema
open Mjc.Ast Mjc.Checklist

set_option autoImplicit false

/-! ## Names and types -/

/-- The definition that is visible under a name. -/
def Frame.sees (fr : Frame) (ls : Locals) (x : String) : Option Definition :=
  match ls.lookup x, fr.params.find? fun p => p.name = x with
  | some (idx, type), _ => some (.variable idx type)
  | none, some p => some (.parameter p.idx p.type)
  | none, none =>
    if fr.mainArg = some x then some .mainArg
    else (fr.fields.find? fun f => f.name = x).map fun f => .field f.type

/-- `System`, `System.out` and `System.in`. -/
inductive Stream where
  | system | out | «in»
  deriving DecidableEq, Repr

/-- The stream that an expression names. -/
def streamOf (fr : Frame) (ls : Locals) : Expr → Option Stream
  | .varRef x => if x = "System" ∧ fr.sees ls x = none then some .system else none
  | .fieldAccess left name =>
    if streamOf fr ls left = some .system then
      if name = "out" then some .out else if name = "in" then some .in else none
    else none
  | _ => none

namespace Env

variable (Γ : Env)

/-- The class of a name; the first one, if there are several. -/
def class? (name : String) : Option Ast.Class := Γ.classes.find? fun c => c.name = name

def field? (className name : String) : Option Ast.Field :=
  (Γ.class? className).bind fun c => c.fields.find? fun f => f.name = name

def method? (className name : String) : Option RegularMethod :=
  (Γ.class? className).bind fun c => c.methods.find? fun m => m.name = name

end Env

/-- The type of the result of an operator; an assignment has the type of its left side. -/
def binaryType (left : Option RuleType) : BinaryOp → Option RuleType
  | .plus | .minus | .mul | .div | .mod => some .int
  | .less | .lessEquals | .greater | .greaterEquals | .or | .and | .equals | .notEquals => some .boolean
  | .assign => left

/-- The type of the operand of an operator, and of its result. -/
def unaryType : UnaryOp → RuleType
  | .neg => .int
  | .not => .boolean

/-- The type of the elements of an array. -/
def elementOf : Option RuleType → Option RuleType
  | some (.array elementType dimension) => some (ruleElement elementType (dimension - 1))
  | _ => none

/-- The name of a class type. -/
def classOf : Option RuleType → Option String
  | some (.cls name) => some name
  | _ => none

/-- The type of an expression, if it passes its checks. The names of the streams have none. -/
def typeOf (Γ : Env) (ls : Locals) : Expr → Option RuleType
  | .intLiteral _ => some .int
  | .boolLiteral _ => some .boolean
  | .nullLiteral => some .null
  | .thisLiteral => some (.cls Γ.className)
  | .varRef x => ((Γ.frame.sees ls x).bind Definition.type).map ruleType
  | .methodInvocation left name _ =>
    match streamOf Γ.frame ls left with
    | some .in => some .int
    | some _ => some .void
    | none => ((classOf (typeOf Γ ls left)).bind fun C => Γ.method? C name).map fun m => ruleType m.returnType
  | .fieldAccess left name =>
    ((classOf (typeOf Γ ls left)).bind fun C => Γ.field? C name).map fun f => ruleType f.type
  | .arrayAccess array _ => elementOf (typeOf Γ ls array)
  | .newObject name => some (.cls name)
  | .newArray elementType dimension _ => some (.array elementType dimension)
  | .binary op left _ => binaryType (typeOf Γ ls left) op
  | .unary op _ => some (unaryType op)

/-! ## Checks -/

inductive Breach where
  /-- a mistake that the visitor has a message for -/
  | mistake
  /-- a member of an object whose class is not declared -/
  | unknownReceiver
  deriving DecidableEq, Repr

def must (p : Prop) : Rule Breach := ⟨.mistake, p⟩

/-- That the class of a receiver is declared is not checked: `findClassByName` gives a null pointer. -/
def receiver (p : Prop) : Rule Breach := ⟨.unknownReceiver, p⟩

/-- A value of the second type may be assigned to the first one; expressions without a type go together. -/
def MayAssign : Option RuleType → Option RuleType → Prop
  | some τ, some σ => Assignable τ σ
  | none, none => True
  | _, _ => False

/-- What an operator asks of its operands. -/
def OperandsFit (isVariable : Bool) (left right : Option RuleType) : BinaryOp → Prop
  | .plus | .minus | .mul | .div | .mod | .less | .lessEquals | .greater | .greaterEquals =>
    left = some .int ∧ right = some .int
  | .or | .and => left = some .boolean ∧ right = some .boolean
  | .assign => isVariable = true ∧ MayAssign left right
  | .equals | .notEquals =>
    left ≠ some .void ∧ right ≠ some .void ∧ (MayAssign left right ∨ MayAssign right left)

section Expressions

variable (Γ : Env) (ls : Locals)

/-- The receiver of a member is an object of a declared class. -/
def objectChecks (type : Option RuleType) : List (Rule Breach) :=
  [must (classOf type ≠ none), receiver (∀ C, classOf type = some C → Γ.HasClass C)]

/-- The receiver has a member. -/
def memberChecks (type : Option RuleType) (found : String → Prop) : List (Rule Breach) :=
  objectChecks Γ type ++ [must (∀ C, classOf type = some C → found C)]

def accessChecks (left : Expr) (name : String) : List (Rule Breach) :=
  match streamOf Γ.frame ls left with
  | some .system => [must (name = "out" ∨ name = "in")]
  | some _ => [must False]
  | none => memberChecks Γ (typeOf Γ ls left) fun C => ∃ f, Γ.field? C name = some f

/-- What a method asks of the arguments of a call. -/
def ArgumentsFit (params : List Parameter) (arguments : List Expr) : Prop :=
  List.Forall₂ (fun p a => MayAssign (some (ruleType p.type)) (typeOf Γ ls a)) params arguments

/-- The checks of a call, after those of its receiver and its arguments. -/
def callChecks (left : Expr) (name : String) (arguments : List Expr) : List (Rule Breach) :=
  match streamOf Γ.frame ls left with
  | some .system => [must False]
  | some .out =>
    [must ((name = "println" ∨ name = "write") ∧ (∃ e, arguments = [e] ∧ typeOf Γ ls e = some .int) ∨
      name = "flush" ∧ arguments = [])]
  | some .in => [must (name = "read" ∧ arguments = [])]
  | none =>
    memberChecks Γ (typeOf Γ ls left) (fun C => ∃ m, Γ.method? C name = some m) ++
      [must (∀ C m, classOf (typeOf Γ ls left) = some C → Γ.method? C name = some m →
        ArgumentsFit Γ ls m.parameters arguments)]

mutual

def exprChecks : Expr → List (Rule Breach)
  | .intLiteral _ | .boolLiteral _ | .nullLiteral => []
  | .thisLiteral => [must (Γ.frame.mainArg = none)]
  | .varRef x => [must (∃ d, Resolves Γ.frame ls x d)]
  | .methodInvocation left name arguments =>
    exprChecks left ++ (exprsChecks arguments ++ callChecks Γ ls left name arguments)
  | .fieldAccess left name => exprChecks left ++ accessChecks Γ ls left name
  | .arrayAccess array index =>
    exprChecks array ++ (exprChecks index ++
      [must (typeOf Γ ls index = some .int ∧
        ∃ elementType dimension, typeOf Γ ls array = some (.array elementType dimension))])
  | .newObject name => [must (Γ.HasClass name)]
  | .newArray elementType _ size =>
    [must (Γ.DeclaresBasic elementType)] ++ (exprChecks size ++
      [must (typeOf Γ ls size = some .int ∧ elementType ≠ .primitive .void)])
  | .binary op left right =>
    exprChecks left ++ (exprChecks right ++
      [must (OperandsFit (isLValue left) (typeOf Γ ls left) (typeOf Γ ls right) op)])
  | .unary op e => exprChecks e ++ [must (typeOf Γ ls e = some (unaryType op))]

def exprsChecks : List Expr → List (Rule Breach)
  | [] => []
  | e :: l => exprChecks e ++ exprsChecks l

end

def optExprChecks : Option Expr → List (Rule Breach)
  | none => []
  | some e => exprChecks Γ ls e

end Expressions

section Statements

variable (Γ : Env)

/-- What a method asks of a value that is returned, which may be missing. -/
def ReturnFits (ls : Locals) : Option Expr → Prop
  | none => Γ.returnType = .void
  | some e => Γ.returnType ≠ .void ∧ MayAssign (some Γ.returnType) (typeOf Γ ls e)

mutual

/-- The checks of a statement that stands where `ls` is visible and `n` variables are declared before. -/
def stmtChecks (ls : Locals) (n : Nat) : Stmt → List (Rule Breach)
  | .block l _ => stmtsChecks ls n l
  | .varDecl type name o =>
    [must (¬ Taken Γ.frame ls name)] ++ ([must (Γ.DeclaresBasic (baseType type))] ++
      (optExprChecks Γ ((name, n, type) :: ls) o ++
        [must ((∀ e ∈ o, MayAssign (some (ruleType type)) (typeOf Γ ((name, n, type) :: ls) e)) ∧
          baseType type ≠ .primitive .void)]))
  | .exprStmt e => exprChecks Γ ls e
  | .ifStmt c s₁ s₂ =>
    exprChecks Γ ls c ++ (optChecks ls n s₁ ++ (optChecks (optDeclared n s₁ ++ ls) (n + optVarCount s₁) s₂ ++
      [must (typeOf Γ ls c = some .boolean)]))
  | .whileStmt c s => exprChecks Γ ls c ++ (optChecks ls n s ++ [must (typeOf Γ ls c = some .boolean)])
  | .returnStmt o => optExprChecks Γ ls o ++ [must (ReturnFits Γ ls o)]

def stmtsChecks (ls : Locals) (n : Nat) : List Stmt → List (Rule Breach)
  | [] => []
  | s :: l => stmtChecks ls n s ++ stmtsChecks (declared n s ++ ls) (n + varCount s) l

def optChecks (ls : Locals) (n : Nat) : Option Stmt → List (Rule Breach)
  | none => []
  | some s => stmtChecks ls n s

end

mutual

/-- A statement after which nothing is executed: every path through it ends in a `return`. -/
def returns : Stmt → Bool
  | .block l _ => someReturns l
  | .ifStmt _ s₁ s₂ => optReturns s₁ && optReturns s₂
  | .returnStmt _ => true
  | .varDecl _ _ _ | .exprStmt _ | .whileStmt _ _ => false

def someReturns : List Stmt → Bool
  | [] => false
  | s :: l => returns s || someReturns l

def optReturns : Option Stmt → Bool
  | none => false
  | some s => returns s

end

/-- The checks of the parameters of a method, after those with the names `done`. -/
def paramChecks (done : List String) : List Parameter → List (Rule Breach)
  | [] => []
  | q :: l =>
    [must (Γ.DeclaresBasic (baseType q.type)), must (q.name ∉ done ∧ baseType q.type ≠ .primitive .void)] ++
      paramChecks (q.name :: done) l

def fieldChecks (f : Ast.Field) : List (Rule Breach) :=
  [must (Γ.DeclaresBasic (baseType f.type) ∧ baseType f.type ≠ .primitive .void)]

end Statements

section Programs

variable (p : Program)

def methodChecks (c : Ast.Class) (m : RegularMethod) : List (Rule Breach) :=
  [must ((regularEnv p c m).DeclaresBasic (baseType m.returnType))] ++
    (paramChecks (regularEnv p c m) [] m.parameters ++ (stmtChecks (regularEnv p c m) [] 0 (Block.stmt m.block) ++
      [must ((baseType m.returnType = .primitive .void → m.returnType = .basic (.primitive .void)) ∧
        (m.returnType = .basic (.primitive .void) ∨ returns (Block.stmt m.block) = true))]))

def mainChecks (c : Ast.Class) (mm : MainMethod) : List (Rule Breach) :=
  stmtChecks (mainEnv p c mm) [] 0 (Block.stmt mm.block)

/-- What the checks look at in the declarations of a class. -/
def classEnv (c : Ast.Class) : Env := ⟨p.classes, c.name, ⟨c.fields, none, []⟩, .void⟩

def classChecks (c : Ast.Class) : List (Rule Breach) :=
  [must (c.fields.map Ast.Field.name).Nodup] ++
    ((sortByName Ast.Field.name c.fields).flatMap (fieldChecks (classEnv p c)) ++
      ([must (c.methods.map RegularMethod.name).Nodup] ++
        ((sortByName RegularMethod.name c.methods).flatMap (methodChecks p c) ++
          ([must (c.mainMethods.length ≤ 1)] ++ (c.mainMethods.flatMap (mainChecks p c) ++
            [must (∀ mm ∈ c.mainMethods, ∀ m ∈ c.methods, m.name ≠ mm.name)])))))

/-- The checks of a program; `countMains` counts the static methods called `main`. -/
def programChecks : List (Rule Breach) :=
  [must (p.classes.map Ast.Class.name).Nodup] ++
    ((sortByName Ast.Class.name p.classes).flatMap (classChecks p) ++
      [must (countMains (p.classes.flatMap Ast.Class.mainMethods) = 1)])

end Programs

end Mjc.Sema

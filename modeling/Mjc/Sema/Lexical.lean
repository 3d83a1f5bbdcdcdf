import Mjc.Sema.Inversion

/-!
# Lexical scoping

What a name stands for, said without the symbol table: a point of a method body sees the local variables declared before
it in the enclosing blocks, the parameters of the method and the fields of the class.

* `Frame`, `Locals` : what is visible in a whole method, and at a point of its body;
* `occurrences` : the uses and the declarations of a body in textual order, each with the local variables it sees;
* `Resolves` : the binding of a name;
* `Taken` : a name that a local variable may not have;
* `TStmt.bindings` : the uses and the declarations of an annotated body, each with its binding;
* `Occurrence.Ok` : an annotation is the one that lexical scoping asks for.

A local variable is identified by the number of variables declared before it in the method.
-/

namespace Mjc.Sema
open Mjc.Ast

set_option autoImplicit false

/-- What is visible everywhere in a method. -/
structure Frame where
  fields : List Ast.Field
  /-- the parameter of a static method -/
  mainArg : Option String
  params : List Parameter

/-- The local variables that are visible at a point, the last declared one first. -/
abbrev Locals := List (String × Nat × Ty)

/-- A name in a method body. -/
inductive Mention where
  | use (name : String)
  | decl (name : String) (idx : Nat)
  deriving DecidableEq, Repr

/-- A name in a method body, with the local variables that are visible there. -/
structure Occurrence where
  locals : Locals
  mention : Mention

/-! ## The names of a body -/

mutual

/-- The variables that an expression refers to. -/
def exprUses : Expr → List String
  | .intLiteral _ | .boolLiteral _ | .nullLiteral | .thisLiteral | .newObject _ => []
  | .varRef name => [name]
  | .methodInvocation left _ arguments => exprUses left ++ exprsUses arguments
  | .fieldAccess left _ => exprUses left
  | .arrayAccess array index => exprUses array ++ exprUses index
  | .newArray _ _ size => exprUses size
  | .binary _ left right => exprUses left ++ exprUses right
  | .unary _ expression => exprUses expression

def exprsUses : List Expr → List String
  | [] => []
  | e :: l => exprUses e ++ exprsUses l

end

def optUses : Option Expr → List String
  | none => []
  | some e => exprUses e

def usesAt (ls : Locals) (names : List String) : List Occurrence := names.map fun x => ⟨ls, .use x⟩

mutual

/-- The number of variables that a statement declares, nested blocks included. -/
def varCount : Stmt → Nat
  | .block l _ => varsCount l
  | .varDecl _ _ _ => 1
  | .exprStmt _ => 0
  | .ifStmt _ s₁ s₂ => optVarCount s₁ + optVarCount s₂
  | .whileStmt _ s => optVarCount s
  | .returnStmt _ => 0

def varsCount : List Stmt → Nat
  | [] => 0
  | s :: l => varCount s + varsCount l

def optVarCount : Option Stmt → Nat
  | none => 0
  | some s => varCount s

end

mutual

/-- The variables that a statement adds to the block it stands in; `n` variables are declared before it. A declaration
that is itself a branch, which the grammar does not have, belongs to the block around it. -/
def declared (n : Nat) : Stmt → Locals
  | .varDecl type name _ => [(name, n, type)]
  | .ifStmt _ s₁ s₂ => optDeclared (n + optVarCount s₁) s₂ ++ optDeclared n s₁
  | .whileStmt _ s => optDeclared n s
  | .block _ _ | .exprStmt _ | .returnStmt _ => []

def optDeclared (n : Nat) : Option Stmt → Locals
  | none => []
  | some s => declared n s

end

mutual

/-- The names of a statement in textual order; a variable is visible in its own initializer. -/
def occurrences (ls : Locals) (n : Nat) : Stmt → List Occurrence
  | .block l _ => occurrencesAll ls n l
  | .varDecl type name o => ⟨ls, .decl name n⟩ :: usesAt ((name, n, type) :: ls) (optUses o)
  | .exprStmt e => usesAt ls (exprUses e)
  | .ifStmt c s₁ s₂ => usesAt ls (exprUses c) ++ (occurrencesOpt ls n s₁ ++
      occurrencesOpt (optDeclared n s₁ ++ ls) (n + optVarCount s₁) s₂)
  | .whileStmt c s => usesAt ls (exprUses c) ++ occurrencesOpt ls n s
  | .returnStmt o => usesAt ls (optUses o)

def occurrencesAll (ls : Locals) (n : Nat) : List Stmt → List Occurrence
  | [] => []
  | s :: l => occurrences ls n s ++ occurrencesAll (declared n s ++ ls) (n + varCount s) l

def occurrencesOpt (ls : Locals) (n : Nat) : Option Stmt → List Occurrence
  | none => []
  | some s => occurrences ls n s

end

/-! ## Bindings -/

/-- What a name is bound to: the local variable, otherwise the parameter, otherwise in a method that is not static the
field of the class, and otherwise `System` if that is its name. -/
inductive Resolves (fr : Frame) (ls : Locals) (x : String) : RefDef → Prop
  | «local» {idx : Nat} {type : Ty} (h : ls.lookup x = some (idx, type)) :
      Resolves fr ls x (.definition (.variable idx type))
  | param {p : Parameter} (hl : ls.lookup x = none) (hp : p ∈ fr.params) (hx : p.name = x) :
      Resolves fr ls x (.definition (.parameter p.idx p.type))
  | field {f : Ast.Field} (hl : ls.lookup x = none) (hp : ∀ p ∈ fr.params, p.name ≠ x) (hs : fr.mainArg = none)
      (hf : f ∈ fr.fields) (hx : f.name = x) : Resolves fr ls x (.definition (.field f.type))
  | system (hl : ls.lookup x = none) (hp : ∀ p ∈ fr.params, p.name ≠ x) (hs : fr.mainArg ≠ some x)
      (hf : ∀ f ∈ fr.fields, f.name ≠ x) (hx : x = "System") : Resolves fr ls x .system

def Taken (fr : Frame) (ls : Locals) (x : String) : Prop :=
  (ls.lookup x).isSome = true ∨ (∃ p ∈ fr.params, p.name = x) ∨ fr.mainArg = some x

inductive Binding where
  | use (name : String) (definition : RefDef)
  | decl (name : String) (idx : Nat)
  deriving DecidableEq, Repr

mutual

/-- The references of an expression, with what they are bound to. -/
def TExpr.bindings : TExpr → List Binding
  | .intLiteral _ | .boolLiteral _ | .nullLiteral | .thisLiteral _ | .newObject _ _ => []
  | .varRef name definition _ => [.use name definition]
  | .methodInvocation left _ arguments _ _ => left.bindings ++ TExpr.bindingsAll arguments
  | .fieldAccess left _ _ _ => left.bindings
  | .arrayAccess array index _ => array.bindings ++ index.bindings
  | .newArray _ _ size _ => size.bindings
  | .binary _ left right _ => left.bindings ++ right.bindings
  | .unary _ expression _ => expression.bindings

def TExpr.bindingsAll : List TExpr → List Binding
  | [] => []
  | e :: l => e.bindings ++ TExpr.bindingsAll l

end

def TExpr.bindingsOpt : Option TExpr → List Binding
  | none => []
  | some e => e.bindings

mutual

/-- The references and the declarations of a statement, the erased statements included. -/
def TStmt.bindings : TStmt → List Binding
  | .block ss es _ _ => TStmt.bindingsAll ss ++ TStmt.bindingsAll es
  | .varDecl _ name idx o => .decl name idx :: TExpr.bindingsOpt o
  | .exprStmt e => e.bindings
  | .ifStmt c t₁ t₂ _ => c.bindings ++ (TStmt.bindingsOpt t₁ ++ TStmt.bindingsOpt t₂)
  | .whileStmt c t => c.bindings ++ TStmt.bindingsOpt t
  | .returnStmt o => TExpr.bindingsOpt o

def TStmt.bindingsAll : List TStmt → List Binding
  | [] => []
  | s :: l => s.bindings ++ TStmt.bindingsAll l

def TStmt.bindingsOpt : Option TStmt → List Binding
  | none => []
  | some s => s.bindings

end

/-- A use is bound as lexical scoping asks, and a declaration does not clash with a visible variable. -/
def Occurrence.Ok (fr : Frame) (o : Occurrence) (b : Binding) : Prop :=
  match o.mention, b with
  | .use x, .use y d => x = y ∧ Resolves fr o.locals x d
  | .decl x n, .decl y idx => x = y ∧ n = idx ∧ ¬ Taken fr o.locals x
  | _, _ => False

/-- The annotations of a body are those of lexical scoping. -/
def ScopedBody (fr : Frame) (s : Stmt) (t : TStmt) : Prop :=
  List.Forall₂ (Occurrence.Ok fr) (occurrences [] 0 s) t.bindings

end Mjc.Sema

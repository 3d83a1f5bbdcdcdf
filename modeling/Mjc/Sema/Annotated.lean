import Mjc.Ast

/-!
# The tree after semantic analysis

The nodes of `ast.hpp` with what `SemanticVisitor` writes into them: types, definitions, indices of local variables
and control flow.

* `SemType` : `sem::Type`, with its `==` (`same`) and its `>=` (`accepts`);
* `Definition` : what the symbol table binds a name to;
* `TExpr`, `TStmt` : expressions and statements; a block keeps the statements `visitBlock` erases apart;
* `TExpr.source`, `TStmt.source` : the tree before the visit;
* `TStmt.pruned` : the tree without the erased statements, which is what the later passes see;
* `Expr.induct` and its like : induction on trees, with the hypothesis for every member of a list of subtrees.
-/

namespace Mjc.Sema
open Mjc.Ast

set_option autoImplicit false

/-! ## Types -/

inductive TypeKind where
  | array | cls | bool | int | void | null | unresolved
  deriving DecidableEq, Repr

/-- `sem::Type`. -/
structure SemType where
  kind : TypeKind
  innerKind : TypeKind
  name : String
  dimension : Nat
  deriving DecidableEq, Repr

namespace SemType

/-- A type of a kind that needs no further data. -/
def plain (kind : TypeKind) : SemType := ⟨kind, .unresolved, "", 0⟩

def unresolved : SemType := plain .unresolved
def int : SemType := plain .int
def bool : SemType := plain .bool
def null : SemType := plain .null
def void : SemType := plain .void
def cls (name : String) : SemType := ⟨.cls, .unresolved, name, 0⟩

def isInt (t : SemType) : Bool := t.kind = .int
def isBool (t : SemType) : Bool := t.kind = .bool
def isClass (t : SemType) : Bool := t.kind = .cls
def isArray (t : SemType) : Bool := t.kind = .array
def isVoid (t : SemType) : Bool := t.kind = .void
def isVoidArray (t : SemType) : Bool := t.isArray && t.innerKind = .void
def isVoidOrVoidArray (t : SemType) : Bool := t.isVoid || t.isVoidArray

/-- `operator==`. -/
def same (t o : SemType) : Bool :=
  match t.kind with
  | .cls => o.kind = .cls && t.name = o.name
  | .array =>
    if o.kind ≠ .array || t.dimension ≠ o.dimension || t.innerKind ≠ o.innerKind then false
    else if t.innerKind = .cls then t.name = o.name
    else true
  | _ => t.kind = o.kind

/-- `operator>=`: a value of type `o` may be assigned to a variable of type `t`. -/
def accepts (t o : SemType) : Bool :=
  match t.kind with
  | .cls | .array => if o.kind = .null then true else t.same o
  | _ => t.same o

/-- The type of an element, as `visitArrayAccess` computes it. -/
def element (t : SemType) : SemType :=
  if t.dimension - 1 = 0 then { t with dimension := 0, kind := t.innerKind }
  else { t with dimension := t.dimension - 1 }

end SemType

/-- `getSemaType` of a basic type. -/
def basicSemaType : BasicType → SemType
  | .primitive .boolean => .bool
  | .primitive .int => .int
  | .primitive .void => .void
  | .classType name => .cls name

/-- `getSemaType`. -/
def semaType : Ty → SemType
  | .basic type => basicSemaType type
  | .array elementType dimension =>
    ⟨.array, (basicSemaType elementType).kind, (basicSemaType elementType).name, dimension⟩

/-! ## Definitions -/

/-- `SymbolTable::Definition`: what a name is bound to. -/
inductive Definition where
  /-- the dummy of the parameter of a main method -/
  | mainArg
  | field (type : Ty)
  | parameter (idx : Nat) (type : Ty)
  | variable (idx : Nat) (type : Ty)
  deriving DecidableEq, Repr

/-- `getType`; the dummies have none. -/
def Definition.type : Definition → Option Ty
  | .mainArg => none
  | .field type => some type
  | .parameter _ type => some type
  | .variable _ type => some type

/-- The definition of a `VarRef`. -/
inductive RefDef where
  | system
  | definition (d : Definition)
  deriving DecidableEq, Repr

/-- The definition of a `FieldAccess`: a dummy, or the field of that name of a class. -/
inductive AccessDef where
  | systemOut
  | systemIn
  | field (className : String)
  deriving DecidableEq, Repr

/-- The definition of a `MethodInvocation`: marked by `setIsSysoutCall`, or the method of that name of a class. -/
inductive CallDef where
  | sysout
  | method (className : String)
  deriving DecidableEq, Repr

inductive ControlFlowBehavior where
  | mayContinue
  | «return»
  deriving DecidableEq, Repr

def combineCFB (c1 c2 : ControlFlowBehavior) : ControlFlowBehavior := if c1 = c2 then c1 else .mayContinue

/-! ## Trees -/

/-- An expression with its `targetType` and its definitions. -/
inductive TExpr where
  | intLiteral (value : Int)
  | boolLiteral (value : Bool)
  | nullLiteral
  | thisLiteral (type : SemType)
  | varRef (name : String) (definition : RefDef) (type : SemType)
  | methodInvocation (left : TExpr) (name : String) (arguments : List TExpr) (definition : CallDef) (type : SemType)
  | fieldAccess (left : TExpr) (name : String) (definition : AccessDef) (type : SemType)
  | arrayAccess (array index : TExpr) (type : SemType)
  | newObject (name : String) (type : SemType)
  | newArray (elementType : BasicType) (dimension : Nat) (size : TExpr) (type : SemType)
  | binary (op : BinaryOp) (left right : TExpr) (type : SemType)
  | unary (op : UnaryOp) (expression : TExpr) (type : SemType)
  deriving Repr

def TExpr.targetType : TExpr → SemType
  | .intLiteral _ => .int
  | .boolLiteral _ => .bool
  | .nullLiteral => .null
  | .thisLiteral type => type
  | .varRef _ _ type => type
  | .methodInvocation _ _ _ _ type => type
  | .fieldAccess _ _ _ type => type
  | .arrayAccess _ _ type => type
  | .newObject _ type => type
  | .newArray _ _ _ type => type
  | .binary _ _ _ type => type
  | .unary _ _ type => type

/-- A statement with `cfb` and the index of a local variable. -/
inductive TStmt where
  | block (statements erased : List TStmt) (lonely : Bool) (cfb : ControlFlowBehavior)
  | varDecl (type : Ty) (name : String) (idx : Nat) (initializer : Option TExpr)
  | exprStmt (expression : TExpr)
  | ifStmt (condition : TExpr) (thenStmt elseStmt : Option TStmt) (cfb : ControlFlowBehavior)
  | whileStmt (condition : TExpr) (statement : Option TStmt)
  | returnStmt (expression : Option TExpr)
  deriving Repr

def TStmt.cfb : TStmt → ControlFlowBehavior
  | .block _ _ _ cfb => cfb
  | .varDecl _ _ _ _ => .mayContinue
  | .exprStmt _ => .mayContinue
  | .ifStmt _ _ _ cfb => cfb
  | .whileStmt _ _ => .mayContinue
  | .returnStmt _ => .return

mutual

/-- The expression without its annotations. -/
def TExpr.source : TExpr → Expr
  | .intLiteral value => .intLiteral value
  | .boolLiteral value => .boolLiteral value
  | .nullLiteral => .nullLiteral
  | .thisLiteral _ => .thisLiteral
  | .varRef name _ _ => .varRef name
  | .methodInvocation left name arguments _ _ => .methodInvocation left.source name (TExpr.sources arguments)
  | .fieldAccess left name _ _ => .fieldAccess left.source name
  | .arrayAccess array index _ => .arrayAccess array.source index.source
  | .newObject name _ => .newObject name
  | .newArray elementType dimension size _ => .newArray elementType dimension size.source
  | .binary op left right _ => .binary op left.source right.source
  | .unary op expression _ => .unary op expression.source

/-- The arguments of a call without their annotations. -/
def TExpr.sources : List TExpr → List Expr
  | [] => []
  | e :: l => e.source :: TExpr.sources l

end

mutual

/-- The statement that was visited: without annotations, and with the erased statements at their places. -/
def TStmt.source : TStmt → Stmt
  | .block statements erased lonely _ => .block (TStmt.sources statements ++ TStmt.sources erased) lonely
  | .varDecl type name _ initializer => .varDecl type name (initializer.map TExpr.source)
  | .exprStmt expression => .exprStmt expression.source
  | .ifStmt condition thenStmt elseStmt _ =>
    .ifStmt condition.source (TStmt.optSource thenStmt) (TStmt.optSource elseStmt)
  | .whileStmt condition statement => .whileStmt condition.source (TStmt.optSource statement)
  | .returnStmt expression => .returnStmt (expression.map TExpr.source)

/-- A list of statements without annotations. -/
def TStmt.sources : List TStmt → List Stmt
  | [] => []
  | s :: l => s.source :: TStmt.sources l

/-- A statement that may be missing without annotations. -/
def TStmt.optSource : Option TStmt → Option Stmt
  | none => none
  | some s => some s.source

end

mutual

/-- The statement that the visit leaves: the erased statements are gone. -/
def TStmt.pruned : TStmt → TStmt
  | .block statements _ lonely cfb => .block (TStmt.pruneds statements) [] lonely cfb
  | .varDecl type name idx initializer => .varDecl type name idx initializer
  | .exprStmt expression => .exprStmt expression
  | .ifStmt condition thenStmt elseStmt cfb =>
    .ifStmt condition (TStmt.optPruned thenStmt) (TStmt.optPruned elseStmt) cfb
  | .whileStmt condition statement => .whileStmt condition (TStmt.optPruned statement)
  | .returnStmt expression => .returnStmt expression

/-- A list of statements, pruned. -/
def TStmt.pruneds : List TStmt → List TStmt
  | [] => []
  | s :: l => s.pruned :: TStmt.pruneds l

/-- A statement that may be missing, pruned. -/
def TStmt.optPruned : Option TStmt → Option TStmt
  | none => none
  | some s => some s.pruned

end

theorem TExpr.sources_eq (l : List TExpr) : TExpr.sources l = l.map TExpr.source := by
  induction l with
  | nil => rfl
  | cons e l ih => rw [TExpr.sources, ih, List.map_cons]

theorem TStmt.sources_eq (l : List TStmt) : TStmt.sources l = l.map TStmt.source := by
  induction l with
  | nil => rfl
  | cons s l ih => rw [TStmt.sources, ih, List.map_cons]

structure TRegularMethod where
  returnType : Ty
  name : String
  parameters : List Parameter
  body : TStmt
  /-- the size of `varDecls` -/
  varDecls : Nat
  mangledName : String
  deriving Repr

structure TMainMethod where
  name : String
  argName : String
  body : TStmt
  varDecls : Nat
  deriving Repr

structure TClass where
  name : String
  fields : List Ast.Field
  methods : List TRegularMethod
  mainMethods : List TMainMethod
  deriving Repr

structure TProgram where
  classes : List TClass
  deriving Repr

/-! ## Induction -/

/-- Induction on an expression; the arguments of a call are covered one by one. -/
theorem Expr.induct {P : Expr → Prop}
    (intLiteral : ∀ value, P (.intLiteral value)) (boolLiteral : ∀ value, P (.boolLiteral value))
    (nullLiteral : P .nullLiteral) (thisLiteral : P .thisLiteral) (varRef : ∀ name, P (.varRef name))
    (methodInvocation : ∀ left name arguments, P left → (∀ e ∈ arguments, P e) →
      P (.methodInvocation left name arguments))
    (fieldAccess : ∀ left name, P left → P (.fieldAccess left name))
    (arrayAccess : ∀ array index, P array → P index → P (.arrayAccess array index))
    (newObject : ∀ name, P (.newObject name))
    (newArray : ∀ elementType dimension size, P size → P (.newArray elementType dimension size))
    (binary : ∀ op left right, P left → P right → P (.binary op left right))
    (unary : ∀ op expression, P expression → P (.unary op expression)) (e : Expr) : P e :=
  @Expr.rec P (fun l => ∀ e ∈ l, P e) intLiteral boolLiteral nullLiteral thisLiteral varRef methodInvocation
    fieldAccess arrayAccess newObject newArray binary unary (fun _ h => absurd h List.not_mem_nil)
    (fun _ _ he hl _ hm => (List.mem_cons.mp hm).elim (fun h => h ▸ he) (hl _)) e

/-- Induction on a statement; the statements of a block and the branches are covered one by one. -/
theorem Stmt.induct {P : Stmt → Prop}
    (block : ∀ statements lonely, (∀ s ∈ statements, P s) → P (.block statements lonely))
    (varDecl : ∀ type name initializer, P (.varDecl type name initializer))
    (exprStmt : ∀ expression, P (.exprStmt expression))
    (ifStmt : ∀ condition thenStmt elseStmt, (∀ s ∈ thenStmt, P s) → (∀ s ∈ elseStmt, P s) →
      P (.ifStmt condition thenStmt elseStmt))
    (whileStmt : ∀ condition statement, (∀ s ∈ statement, P s) → P (.whileStmt condition statement))
    (returnStmt : ∀ expression, P (.returnStmt expression)) (s : Stmt) : P s :=
  @Stmt.rec P (fun l => ∀ s ∈ l, P s) (fun o => ∀ s ∈ o, P s) block varDecl exprStmt ifStmt whileStmt returnStmt
    (fun _ h => absurd h List.not_mem_nil)
    (fun _ _ hs hl _ hm => (List.mem_cons.mp hm).elim (fun h => h ▸ hs) (hl _))
    (fun _ h => nomatch h) (fun _ hs _ hm => Option.some.inj hm ▸ hs) s

/-- Induction on an annotated expression. -/
theorem TExpr.induct {P : TExpr → Prop}
    (intLiteral : ∀ value, P (.intLiteral value)) (boolLiteral : ∀ value, P (.boolLiteral value))
    (nullLiteral : P .nullLiteral) (thisLiteral : ∀ type, P (.thisLiteral type))
    (varRef : ∀ name definition type, P (.varRef name definition type))
    (methodInvocation : ∀ left name arguments definition type, P left → (∀ e ∈ arguments, P e) →
      P (.methodInvocation left name arguments definition type))
    (fieldAccess : ∀ left name definition type, P left → P (.fieldAccess left name definition type))
    (arrayAccess : ∀ array index type, P array → P index → P (.arrayAccess array index type))
    (newObject : ∀ name type, P (.newObject name type))
    (newArray : ∀ elementType dimension size type, P size → P (.newArray elementType dimension size type))
    (binary : ∀ op left right type, P left → P right → P (.binary op left right type))
    (unary : ∀ op expression type, P expression → P (.unary op expression type)) (e : TExpr) : P e :=
  @TExpr.rec P (fun l => ∀ e ∈ l, P e) intLiteral boolLiteral nullLiteral thisLiteral varRef methodInvocation
    fieldAccess arrayAccess newObject newArray binary unary (fun _ h => absurd h List.not_mem_nil)
    (fun _ _ he hl _ hm => (List.mem_cons.mp hm).elim (fun h => h ▸ he) (hl _)) e

/-- Induction on an annotated statement; the erased statements are covered too. -/
theorem TStmt.induct {P : TStmt → Prop}
    (block : ∀ statements erased lonely cfb, (∀ s ∈ statements, P s) → (∀ s ∈ erased, P s) →
      P (.block statements erased lonely cfb))
    (varDecl : ∀ type name idx initializer, P (.varDecl type name idx initializer))
    (exprStmt : ∀ expression, P (.exprStmt expression))
    (ifStmt : ∀ condition thenStmt elseStmt cfb, (∀ s ∈ thenStmt, P s) → (∀ s ∈ elseStmt, P s) →
      P (.ifStmt condition thenStmt elseStmt cfb))
    (whileStmt : ∀ condition statement, (∀ s ∈ statement, P s) → P (.whileStmt condition statement))
    (returnStmt : ∀ expression, P (.returnStmt expression)) (s : TStmt) : P s :=
  @TStmt.rec P (fun l => ∀ s ∈ l, P s) (fun o => ∀ s ∈ o, P s) block varDecl exprStmt ifStmt whileStmt returnStmt
    (fun _ h => absurd h List.not_mem_nil)
    (fun _ _ hs hl _ hm => (List.mem_cons.mp hm).elim (fun h => h ▸ hs) (hl _))
    (fun _ h => nomatch h) (fun _ hs _ hm => Option.some.inj hm ▸ hs) s

end Mjc.Sema

import Mjc.Sema.Lexical

/-!
# Typing rules

The types of expressions and the conditions on statements, said without the visitor: no annotations, no symbol table and
no order of visits.

* `RuleType` : the types; `Assignable` : what may be assigned to what;
* `Env` : the classes of the program and what is visible in a method;
* `HasType`, `StmtRules` : the rules;
* `IsSystemName`, `StreamCall` : `System`, `System.out` and `System.in`, which are no expressions of the rules, and the
  calls that they are written in;
* `Env.Proper` : the types that expressions can have.
-/

namespace Mjc.Sema
open Mjc.Ast

set_option autoImplicit false

/-! ## Types -/

/-- A type of the rules. -/
inductive RuleType where
  | int | boolean | void | null
  | cls (name : String)
  | array (elementType : BasicType) (dimension : Nat)
  deriving DecidableEq, Repr

/-- The type that a basic type stands for. -/
def ruleBasic : BasicType → RuleType
  | .primitive .int => .int
  | .primitive .boolean => .boolean
  | .primitive .void => .void
  | .classType name => .cls name

/-- The type that is written. -/
def ruleType : Ty → RuleType
  | .basic type => ruleBasic type
  | .array elementType dimension => .array elementType dimension

/-- The elements of an array of dimension `n + 1`. -/
def ruleElement (elementType : BasicType) : Nat → RuleType
  | 0 => ruleBasic elementType
  | n + 1 => .array elementType (n + 1)

/-- A value of the second type may be assigned to a variable of the first one. -/
inductive Assignable : RuleType → RuleType → Prop
  | refl (τ : RuleType) : Assignable τ τ
  | nullClass (name : String) : Assignable (.cls name) .null
  | nullArray (elementType : BasicType) (dimension : Nat) : Assignable (.array elementType dimension) .null

/-- A type without its dimensions. -/
def baseType : Ty → BasicType
  | .basic type => type
  | .array elementType _ => elementType

/-- An array has at least one dimension. -/
def PositiveDimension : Ty → Prop
  | .basic _ => True
  | .array _ dimension => 0 < dimension

/-! ## Declarations -/

/-- `x` is what the list declares under a name, and the only such declaration. -/
structure Declared {α : Type} (name : α → String) (l : List α) (key : String) (x : α) : Prop where
  mem : x ∈ l
  named : name x = key
  only : ∀ y ∈ l, name y = key → y = x

/-- What the rules look at, apart from the local variables. -/
structure Env where
  classes : List Ast.Class
  /-- the class of the method -/
  className : String
  frame : Frame
  /-- the return type of the method -/
  returnType : RuleType

namespace Env

variable (Γ : Env)

/-- Some class has the name. -/
def HasClass (name : String) : Prop := ∃ c ∈ Γ.classes, c.name = name

/-- The class of a basic type is declared. -/
def DeclaresBasic : BasicType → Prop
  | .primitive _ => True
  | .classType name => Γ.HasClass name

/-- A type that a variable may have. -/
structure VariableType (type : Ty) : Prop where
  declared : Γ.DeclaresBasic (baseType type)
  notVoid : baseType type ≠ .primitive .void

/-- A type that expressions can have: a declared class, or an array of a positive dimension. -/
def Proper : RuleType → Prop
  | .int | .boolean | .void | .null => True
  | .cls name => Γ.HasClass name
  | .array elementType dimension =>
    Γ.DeclaresBasic elementType ∧ elementType ≠ .primitive .void ∧ 0 < dimension

end Env

/-! ## Expressions -/

/-- Variables, fields and elements of arrays. -/
def isLValue : Expr → Bool
  | .varRef _ | .fieldAccess _ _ | .arrayAccess _ _ => true
  | _ => false

def isCall : Expr → Bool
  | .methodInvocation _ _ _ => true
  | _ => false

/-- The name `System` means the class of the standard streams. -/
def SystemVisible (fr : Frame) (ls : Locals) : Prop := Resolves fr ls "System" .system

/-- A call that the language knows: `println`, `write` and `flush` of `System.out`, and `read` of `System.in`. -/
def StreamCall (fr : Frame) (ls : Locals) (left : Expr) (name : String) : Prop :=
  SystemVisible fr ls ∧
    (left = .fieldAccess (.varRef "System") "out" ∧ (name = "println" ∨ name = "write" ∨ name = "flush") ∨
      left = .fieldAccess (.varRef "System") "in" ∧ name = "read")

/-- `System`, `System.out` or `System.in`. -/
def IsSystemName (fr : Frame) (ls : Locals) (e : Expr) : Prop :=
  SystemVisible fr ls ∧
    (e = .varRef "System" ∨ e = .fieldAccess (.varRef "System") "out" ∨ e = .fieldAccess (.varRef "System") "in")

/-- The type of an expression at a point where the local variables `ls` are visible. -/
inductive HasType (Γ : Env) (ls : Locals) : Expr → RuleType → Prop
  | intLiteral (value : Int) : HasType Γ ls (.intLiteral value) .int
  | boolLiteral (value : Bool) : HasType Γ ls (.boolLiteral value) .boolean
  | nullLiteral : HasType Γ ls .nullLiteral .null
  | thisLiteral (h : Γ.frame.mainArg = none) : HasType Γ ls .thisLiteral (.cls Γ.className)
  | varRef {x : String} {d : Definition} {type : Ty} (h : Resolves Γ.frame ls x (.definition d))
      (ht : d.type = some type) : HasType Γ ls (.varRef x) (ruleType type)
  | println {name : String} {e : Expr} (hs : SystemVisible Γ.frame ls) (hn : name = "println" ∨ name = "write")
      (he : HasType Γ ls e .int) :
      HasType Γ ls (.methodInvocation (.fieldAccess (.varRef "System") "out") name [e]) .void
  | flush (hs : SystemVisible Γ.frame ls) :
      HasType Γ ls (.methodInvocation (.fieldAccess (.varRef "System") "out") "flush" []) .void
  | read (hs : SystemVisible Γ.frame ls) :
      HasType Γ ls (.methodInvocation (.fieldAccess (.varRef "System") "in") "read" []) .int
  | call {left : Expr} {name className : String} {args : List Expr} {c : Ast.Class} {m : RegularMethod}
      {types : List RuleType} (hl : HasType Γ ls left (.cls className))
      (hc : Declared Ast.Class.name Γ.classes className c) (hm : Declared RegularMethod.name c.methods name m)
      (hlen : args.length = types.length) (ha : ∀ a ∈ args.zip types, HasType Γ ls a.1 a.2)
      (hp : List.Forall₂ (fun p τ => Assignable (ruleType p.type) τ) m.parameters types) :
      HasType Γ ls (.methodInvocation left name args) (ruleType m.returnType)
  | fieldAccess {left : Expr} {name className : String} {c : Ast.Class} {f : Ast.Field}
      (hl : HasType Γ ls left (.cls className)) (hc : Declared Ast.Class.name Γ.classes className c)
      (hf : Declared Ast.Field.name c.fields name f) : HasType Γ ls (.fieldAccess left name) (ruleType f.type)
  | arrayAccess {array index : Expr} {elementType : BasicType} {n : Nat}
      (ha : HasType Γ ls array (.array elementType (n + 1))) (hi : HasType Γ ls index .int) :
      HasType Γ ls (.arrayAccess array index) (ruleElement elementType n)
  | newObject {name : String} (h : Γ.HasClass name) : HasType Γ ls (.newObject name) (.cls name)
  | newArray {elementType : BasicType} {dimension : Nat} {size : Expr} (ht : Γ.DeclaresBasic elementType)
      (hv : elementType ≠ .primitive .void) (hd : 0 < dimension) (hs : HasType Γ ls size .int) :
      HasType Γ ls (.newArray elementType dimension size) (.array elementType dimension)
  | arithmetic {op : BinaryOp} {l r : Expr} (hop : op = .plus ∨ op = .minus ∨ op = .mul ∨ op = .div ∨ op = .mod)
      (hl : HasType Γ ls l .int) (hr : HasType Γ ls r .int) : HasType Γ ls (.binary op l r) .int
  | order {op : BinaryOp} {l r : Expr} (hop : op = .less ∨ op = .lessEquals ∨ op = .greater ∨ op = .greaterEquals)
      (hl : HasType Γ ls l .int) (hr : HasType Γ ls r .int) : HasType Γ ls (.binary op l r) .boolean
  | logical {op : BinaryOp} {l r : Expr} (hop : op = .or ∨ op = .and) (hl : HasType Γ ls l .boolean)
      (hr : HasType Γ ls r .boolean) : HasType Γ ls (.binary op l r) .boolean
  | assign {l r : Expr} {τ σ : RuleType} (hv : isLValue l = true) (hl : HasType Γ ls l τ) (hr : HasType Γ ls r σ)
      (h : Assignable τ σ) : HasType Γ ls (.binary .assign l r) τ
  | equality {op : BinaryOp} {l r : Expr} {τ σ : RuleType} (hop : op = .equals ∨ op = .notEquals)
      (hl : HasType Γ ls l τ) (hr : HasType Γ ls r σ) (hτ : τ ≠ .void) (hσ : σ ≠ .void)
      (h : Assignable τ σ ∨ Assignable σ τ) : HasType Γ ls (.binary op l r) .boolean
  | neg {e : Expr} (he : HasType Γ ls e .int) : HasType Γ ls (.unary .neg e) .int
  | not {e : Expr} (he : HasType Γ ls e .boolean) : HasType Γ ls (.unary .not e) .boolean

/-! ## Statements -/

mutual

/-- The rules for a statement that stands where `ls` is visible and `n` variables are declared before. -/
inductive StmtRules (Γ : Env) : Locals → Nat → Stmt → Prop
  | block {ls : Locals} {n : Nat} {l : List Stmt} {lonely : Bool} (h : StmtsRules Γ ls n l) :
      StmtRules Γ ls n (.block l lonely)
  | varDecl {ls : Locals} {n : Nat} {type : Ty} {name : String} {o : Option Expr} (hx : ¬ Taken Γ.frame ls name)
      (ht : Γ.VariableType type)
      (hi : ∀ e ∈ o, ∃ σ, HasType Γ ((name, n, type) :: ls) e σ ∧ Assignable (ruleType type) σ) :
      StmtRules Γ ls n (.varDecl type name o)
  | exprStmt {ls : Locals} {n : Nat} {e : Expr} {τ : RuleType} (h : HasType Γ ls e τ) :
      StmtRules Γ ls n (.exprStmt e)
  | ifStmt {ls : Locals} {n : Nat} {c : Expr} {s₁ s₂ : Option Stmt} (hc : HasType Γ ls c .boolean)
      (h₁ : OptRules Γ ls n s₁) (h₂ : OptRules Γ (optDeclared n s₁ ++ ls) (n + optVarCount s₁) s₂) :
      StmtRules Γ ls n (.ifStmt c s₁ s₂)
  | whileStmt {ls : Locals} {n : Nat} {c : Expr} {s : Option Stmt} (hc : HasType Γ ls c .boolean)
      (h : OptRules Γ ls n s) : StmtRules Γ ls n (.whileStmt c s)
  | returnVoid {ls : Locals} {n : Nat} (h : Γ.returnType = .void) : StmtRules Γ ls n (.returnStmt none)
  | returnValue {ls : Locals} {n : Nat} {e : Expr} {σ : RuleType} (hv : Γ.returnType ≠ .void) (he : HasType Γ ls e σ)
      (h : Assignable Γ.returnType σ) : StmtRules Γ ls n (.returnStmt (some e))

/-- The rules for the statements of a block. -/
inductive StmtsRules (Γ : Env) : Locals → Nat → List Stmt → Prop
  | nil {ls : Locals} {n : Nat} : StmtsRules Γ ls n []
  | cons {ls : Locals} {n : Nat} {s : Stmt} {l : List Stmt} (hs : StmtRules Γ ls n s)
      (hl : StmtsRules Γ (declared n s ++ ls) (n + varCount s) l) : StmtsRules Γ ls n (s :: l)

/-- The rules for a statement that may be missing. -/
inductive OptRules (Γ : Env) : Locals → Nat → Option Stmt → Prop
  | none {ls : Locals} {n : Nat} : OptRules Γ ls n none
  | some {ls : Locals} {n : Nat} {s : Stmt} (h : StmtRules Γ ls n s) : OptRules Γ ls n (some s)

end

/-! ## Types of expressions -/

/-- The declarations that the rules look at have types of variables; only methods may have no result. -/
structure Env.Sensible (Γ : Env) (ls : Locals) : Prop where
  self : Γ.HasClass Γ.className
  fields : ∀ c ∈ Γ.classes, ∀ f ∈ c.fields, Γ.VariableType f.type ∧ PositiveDimension f.type
  methods : ∀ c ∈ Γ.classes, ∀ m ∈ c.methods,
    m.returnType = .basic (.primitive .void) ∨ Γ.VariableType m.returnType ∧ PositiveDimension m.returnType
  own : ∀ f ∈ Γ.frame.fields, Γ.VariableType f.type ∧ PositiveDimension f.type
  params : ∀ p ∈ Γ.frame.params, Γ.VariableType p.type ∧ PositiveDimension p.type
  locals : ∀ v ∈ ls, Γ.VariableType v.2.2 ∧ PositiveDimension v.2.2

section

variable {Γ : Env} {ls : Locals}

theorem Env.VariableType.proper {type : Ty} (h : Γ.VariableType type) (hd : PositiveDimension type) :
    Γ.Proper (ruleType type) ∧ ruleType type ≠ .void := by
  obtain ⟨hdecl, hvoid⟩ := h
  cases type with
  | array elementType dimension => exact ⟨⟨hdecl, hvoid, hd⟩, RuleType.noConfusion⟩
  | basic type =>
    cases type with
    | classType name => exact ⟨hdecl, RuleType.noConfusion⟩
    | primitive type =>
      cases type with
      | int | boolean => exact ⟨trivial, RuleType.noConfusion⟩
      | void => exact absurd rfl hvoid

theorem lookup_mem {x : String} {v : Nat × Ty} (h : ls.lookup x = some v) : (x, v) ∈ ls := by
  obtain ⟨l₁, l₂, rfl, -⟩ := List.lookup_eq_some_iff.mp h
  exact List.mem_append_right _ List.mem_cons_self

/-- What a variable is bound to has the type of a variable. -/
theorem Env.Sensible.definition (h : Γ.Sensible ls) {x : String} {d : Definition} {type : Ty}
    (hd : Resolves Γ.frame ls x (.definition d)) (ht : d.type = some type) :
    Γ.VariableType type ∧ PositiveDimension type := by
  cases hd with
  | «local» hl => cases ht; exact h.locals _ (lookup_mem hl)
  | param _ hp => cases ht; exact h.params _ hp
  | field _ _ _ hf => cases ht; exact h.own _ hf

/-- The types of the rules are `int`, `boolean`, `null`, declared classes, arrays of them of a positive dimension, and
`void` for calls. -/
theorem HasType.proper (h : Γ.Sensible ls) {e : Expr} {τ : RuleType} (he : HasType Γ ls e τ) :
    Γ.Proper τ ∧ (τ = .void → isCall e = true) := by
  induction he with
  | intLiteral | boolLiteral | nullLiteral => exact ⟨trivial, fun h => nomatch h⟩
  | thisLiteral => exact ⟨h.self, fun h => nomatch h⟩
  | varRef hd ht =>
    obtain ⟨hv, hpos⟩ := h.definition hd ht
    obtain ⟨hproper, hvoid⟩ := hv.proper hpos
    exact ⟨hproper, fun h => absurd h hvoid⟩
  | println | flush => exact ⟨trivial, fun _ => rfl⟩
  | read => exact ⟨trivial, fun _ => rfl⟩
  | call _ hc hm =>
    refine ⟨?_, fun _ => rfl⟩
    rcases h.methods _ hc.mem _ hm.mem with hvoid | ⟨hv, hpos⟩
    · rw [hvoid]; trivial
    · exact (hv.proper hpos).1
  | fieldAccess _ hc hf =>
    obtain ⟨hv, hpos⟩ := h.fields _ hc.mem _ hf.mem
    obtain ⟨hproper, hvoid⟩ := hv.proper hpos
    exact ⟨hproper, fun h => absurd h hvoid⟩
  | @arrayAccess _ _ elementType n _ _ iha =>
    obtain ⟨hdecl, hvoid, -⟩ := iha.1
    have hv : Γ.VariableType (.basic elementType) := ⟨hdecl, hvoid⟩
    cases n with
    | zero =>
      obtain ⟨hproper, hne⟩ := hv.proper trivial
      exact ⟨hproper, fun h => absurd h hne⟩
    | succ n => exact ⟨⟨hdecl, hvoid, Nat.succ_pos n⟩, fun h => nomatch h⟩
  | newObject hc => exact ⟨hc, fun h => nomatch h⟩
  | newArray ht hv hd => exact ⟨⟨ht, hv, hd⟩, fun h => nomatch h⟩
  | arithmetic | order | logical | equality | neg | not => exact ⟨trivial, fun h => nomatch h⟩
  | @assign l r _ _ hv _ _ _ ihl =>
    refine ⟨ihl.1, fun hvoid => ?_⟩
    have hcall := ihl.2 hvoid
    cases l <;> first | exact Bool.noConfusion hv | exact Bool.noConfusion hcall

theorem SystemVisible.not_definition {d : Definition} (h : SystemVisible Γ.frame ls) :
    ¬ Resolves Γ.frame ls "System" (.definition d) := by
  intro hd
  cases h with
  | system hl hp hs hf =>
    cases hd with
    | «local» hl' => rw [hl] at hl'; cases hl'
    | param _ hp' hx => exact hp _ hp' hx
    | field _ _ _ hf' hx => exact hf _ hf' hx

/-- The names of the streams have no type. -/
theorem IsSystemName.not_hasType {e : Expr} (he : IsSystemName Γ.frame ls e) (τ : RuleType) : ¬ HasType Γ ls e τ := by
  obtain ⟨hs, he⟩ := he
  have hvar (σ : RuleType) : ¬ HasType Γ ls (.varRef "System") σ := by
    intro h
    cases h with
    | varRef hd => exact hs.not_definition hd
  rcases he with rfl | rfl | rfl
  · exact hvar τ
  · intro h
    cases h with
    | fieldAccess hl => exact hvar _ hl
  · intro h
    cases h with
    | fieldAccess hl => exact hvar _ hl

end

end Mjc.Sema

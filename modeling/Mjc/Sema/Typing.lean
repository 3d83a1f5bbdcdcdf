import Mjc.Sema.Accepted

/-!
# Types of accepted programs

What the later passes may rely on: every annotated expression of an accepted program is well typed.

* `SemType.Good` : the types that variables can have; `SemType.isValue` : those of values, the null type included;
* `Typed`, `TypedStmt` : well-typed annotated trees;
* `GoodContext`, `GoodTable` : no declaration in sight has a `void` type;
* `ProgramVisited.typed` : the bodies of an accepted program are well typed.
-/

namespace Mjc.Sema
open Mjc.Ast SymbolTable

set_option autoImplicit false

/-! ## Types -/

/-- The kinds of the types of variables, apart from arrays. -/
def TypeKind.isBasic : TypeKind → Bool
  | .cls | .bool | .int => true
  | _ => false

/-- A type that a variable may have. -/
def SemType.Good (t : SemType) : Prop := t.kind.isBasic = true ∨ t.kind = .array ∧ t.innerKind.isBasic = true

/-- A type of values. -/
def SemType.isValue (t : SemType) : Bool :=
  match t.kind with
  | .array | .cls | .bool | .int | .null => true
  | _ => false

theorem basicSemaType_basic {type : BasicType} (h : (basicSemaType type).isVoid = false) :
    (basicSemaType type).kind.isBasic = true := by
  cases type with
  | classType => rfl
  | primitive type => cases type <;> first | rfl | cases h

/-- The types that pass the checks for `void` are those of variables. -/
theorem semaType_good {type : Ty} (h : (semaType type).isVoidOrVoidArray = false) : (semaType type).Good := by
  obtain ⟨hvoid, harray⟩ := Bool.or_eq_false_iff.mp h
  cases type with
  | basic type => exact .inl (basicSemaType_basic hvoid)
  | array elementType dimension =>
    refine .inr ⟨rfl, basicSemaType_basic ?_⟩
    exact (Bool.and_eq_false_imp.mp harray) rfl

theorem SemType.Good.isValue {t : SemType} (h : t.Good) : t.isValue = true := by
  unfold SemType.isValue
  rcases h with h | ⟨h, -⟩
  · revert h
    cases t.kind <;> first | (intro; rfl) | (intro h; cases h)
  · rw [h]

theorem SemType.Good.not_void {t : SemType} (h : t.Good) : t.isVoid = false := by
  unfold SemType.isVoid
  rcases h with h | ⟨h, -⟩
  · revert h
    cases t.kind <;> first | (intro; rfl) | (intro h; cases h)
  · rw [h]; rfl

theorem SemType.Good.element {t : SemType} (h : t.Good) (ha : t.isArray = true) : t.element.Good := by
  have hkind : t.kind = .array := of_decide_eq_true ha
  have hinner : t.innerKind.isBasic = true := by
    rcases h with h | ⟨-, h⟩
    · rw [hkind] at h; cases h
    · exact h
  unfold SemType.element
  by_cases hd : t.dimension - 1 = 0
  · rw [if_pos hd]; exact .inl hinner
  · rw [if_neg hd]; exact .inr ⟨hkind, hinner⟩

theorem SemType.kind_eq_of_same {t o : SemType} (h : t.same o = true) : t.kind = o.kind := by
  unfold SemType.same at h
  split at h
  next hk => rw [hk]; exact (of_decide_eq_true (Bool.and_eq_true_iff.mp h).1).symm
  next hk =>
    rw [hk]
    by_contra hne
    rw [if_pos (by simp [Ne.symm hne])] at h
    cases h
  next => exact of_decide_eq_true h

/-- What `operator>=` looks at. -/
theorem SemType.accepts_kind {t o : SemType} (h : t.accepts o = true) :
    t.kind = o.kind ∨ o.kind = .null ∧ (t.kind = .cls ∨ t.kind = .array) := by
  unfold SemType.accepts at h
  split at h
  next hk =>
    by_cases hn : o.kind = .null
    · exact .inr ⟨hn, .inl hk⟩
    · rw [if_neg hn] at h; exact .inl (SemType.kind_eq_of_same h)
  next hk =>
    by_cases hn : o.kind = .null
    · exact .inr ⟨hn, .inr hk⟩
    · rw [if_neg hn] at h; exact .inl (SemType.kind_eq_of_same h)
  next => exact .inl (SemType.kind_eq_of_same h)

/-- What may be assigned to a variable is a value. -/
theorem SemType.Good.accepts_isValue {t o : SemType} (h : t.Good) (ha : t.accepts o = true) : o.isValue = true := by
  have hvalue := h.isValue
  unfold SemType.isValue at hvalue ⊢
  rcases SemType.accepts_kind ha with hk | ⟨hn, -⟩
  · rwa [hk] at hvalue
  · rw [hn]

/-! ## Typed trees -/

/-- A well-typed expression. The `System` dummies have no type, which does not keep them from being compared, assigned to
each other or evaluated for nothing. -/
inductive Typed : TExpr → Prop
  | intLiteral (value : Int) : Typed (.intLiteral value)
  | boolLiteral (value : Bool) : Typed (.boolLiteral value)
  | nullLiteral : Typed .nullLiteral
  | thisLiteral (name : String) : Typed (.thisLiteral (.cls name))
  | varRef {name : String} {d : Definition} {type : Ty} (hd : d.type = some type) (hg : (semaType type).Good) :
      Typed (.varRef name (.definition d) (semaType type))
  | system (name : String) : Typed (.varRef name .system .unresolved)
  | sysoutCall {x : TExpr} {y name : String} {d : AccessDef} {type₁ type : SemType} {args : List TExpr}
      (h : SysoutCall d name args type) (ha : ∀ a ∈ args, Typed a) :
      Typed (.methodInvocation (.fieldAccess x y d type₁) name args .sysout type)
  | call {left : TExpr} {name className : String} {args : List TExpr} {type : SemType} (hl : Typed left)
      (hc : left.targetType.isClass = true) (ha : ∀ a ∈ args, Typed a) (hv : ∀ a ∈ args, a.targetType.isValue = true)
      (ht : type.Good ∨ type.isVoid = true) : Typed (.methodInvocation left name args (.method className) type)
  | systemStream {x : TExpr} {name : String} {d : AccessDef} (hd : d = .systemOut ∨ d = .systemIn) :
      Typed (.fieldAccess x name d .unresolved)
  | fieldAccess {left : TExpr} {name className : String} {type : SemType} (hl : Typed left)
      (hc : left.targetType.isClass = true) (ht : type.Good) : Typed (.fieldAccess left name (.field className) type)
  | arrayAccess {array index : TExpr} (ha : Typed array) (hi : Typed index) (hint : index.targetType.isInt = true)
      (harray : array.targetType.isArray = true) : Typed (.arrayAccess array index array.targetType.element)
  | newObject (name : String) : Typed (.newObject name (.cls name))
  | newArray {elementType : BasicType} {dimension : Nat} {size : TExpr} (hs : Typed size)
      (hint : size.targetType.isInt = true) (ht : (semaType (.array elementType dimension)).Good) :
      Typed (.newArray elementType dimension size (semaType (.array elementType dimension)))
  | binary {op : BinaryOp} {l r : TExpr} {type : SemType} (hl : Typed l) (hr : Typed r) (h : BinaryTyped op l r type) :
      Typed (.binary op l r type)
  | neg {e : TExpr} (he : Typed e) (h : e.targetType.isInt = true) : Typed (.unary .neg e .int)
  | not {e : TExpr} (he : Typed e) (h : e.targetType.isBool = true) : Typed (.unary .not e .bool)

/-- An array has a type that a variable may have. -/
theorem Typed.good_of_isArray {e : TExpr} (h : Typed e) (ha : e.targetType.isArray = true) : e.targetType.Good := by
  induction h with
  | intLiteral | boolLiteral | nullLiteral | thisLiteral | system | systemStream | newObject | neg | not => cases ha
  | varRef _ hg => exact hg
  | sysoutCall h => cases h <;> cases ha
  | call _ _ _ _ ht =>
    rcases ht with hg | hv
    · exact hg
    · have hk := (of_decide_eq_true hv).symm.trans (of_decide_eq_true ha)
      cases hk
  | fieldAccess _ _ ht => exact ht
  | arrayAccess _ _ _ harray iha => exact (iha harray).element harray
  | newArray _ _ ht => exact ht
  | binary _ _ h ihl => cases h <;> first | exact ihl ha | cases ha

/-- A well-typed statement. -/
inductive TypedStmt : TStmt → Prop
  | block {ss es : List TStmt} {lonely : Bool} {cfb : ControlFlowBehavior} (h : ∀ s ∈ ss, TypedStmt s) :
      TypedStmt (.block ss es lonely cfb)
  | varDecl {type : Ty} {name : String} {idx : Nat} {o : Option TExpr}
      (h : ∀ e ∈ o, Typed e ∧ e.targetType.isValue = true) : TypedStmt (.varDecl type name idx o)
  | exprStmt {e : TExpr} (h : Typed e) : TypedStmt (.exprStmt e)
  | ifStmt {c : TExpr} {t₁ t₂ : Option TStmt} {cfb : ControlFlowBehavior} (hc : Typed c)
      (hb : c.targetType.isBool = true) (h₁ : ∀ s ∈ t₁, TypedStmt s) (h₂ : ∀ s ∈ t₂, TypedStmt s) :
      TypedStmt (.ifStmt c t₁ t₂ cfb)
  | whileStmt {c : TExpr} {t : Option TStmt} (hc : Typed c) (hb : c.targetType.isBool = true)
      (h : ∀ s ∈ t, TypedStmt s) : TypedStmt (.whileStmt c t)
  | returnStmt {o : Option TExpr} (h : ∀ e ∈ o, Typed e ∧ e.targetType.isValue = true) : TypedStmt (.returnStmt o)

/-! ## Declarations in sight -/

/-- No class that can be named declares something of a `void` type, apart from methods without a result. -/
structure GoodContext (cx : Context) : Prop where
  fields : ∀ c ∈ cx.classes, ∀ f ∈ c.fields, (semaType f.type).Good
  methods : ∀ c ∈ cx.classes, ∀ m ∈ c.methods, (semaType m.returnType).Good ∨ (semaType m.returnType).isVoid = true
  params : ∀ c ∈ cx.classes, ∀ m ∈ c.methods, ∀ p ∈ m.parameters, (semaType p.type).Good

/-- No definition of the table has a `void` type. -/
def GoodTable (tbl : Table) : Prop :=
  ∀ x d type, tbl.lookup x = some d → d.type = some type → (semaType type).Good

theorem GoodTable.insert {tbl : Table} (h : GoodTable tbl) {d : Definition}
    (hd : ∀ type, d.type = some type → (semaType type).Good) (x : String) : GoodTable (tbl.insert x d) := by
  intro y d' type hy htype
  unfold SymbolTable.insert SymbolTable.lookup at hy
  by_cases hyx : y = x
  · subst hyx
    simp only [Function.update_self, Option.some.injEq] at hy
    subst hy
    exact hd type htype
  · simp only [Function.update_of_ne hyx] at hy
    exact h y d' type hy htype

theorem GoodTable.enterScope {tbl : Table} (h : GoodTable tbl) : GoodTable tbl.enterScope := h

/-! ## Visits -/

section Visits

variable {cx : Context}

theorem Context.findClassByName_mem {name : String} {c : Ast.Class} (h : cx.findClassByName name = some c) :
    c ∈ cx.classes :=
  (findByName_eq_some h).1

/-- The arguments that pass the check are values. -/
theorem isValue_of_accepts {params : List Parameter} {args : List TExpr}
    (h : List.Forall₂ (fun p a => (semaType p.type).accepts a.targetType = true) params args)
    (hp : ∀ p ∈ params, (semaType p.type).Good) : ∀ a ∈ args, a.targetType.isValue = true := by
  intro a ha
  obtain ⟨p, hpm, hacc⟩ := exists_left_of_mem h ha
  exact (hp p hpm).accepts_isValue hacc

theorem visitExpr_typed {tbl : Table} (hcx : GoodContext cx) (htbl : GoodTable tbl) {e : Expr} {t : TExpr}
    (h : visitExpr cx tbl e = .ok t) : Typed t := by
  induction e using Expr.induct generalizing t with
  | intLiteral => rw [visitExpr] at h; cases h; exact .intLiteral _
  | boolLiteral => rw [visitExpr] at h; cases h; exact .boolLiteral _
  | nullLiteral => rw [visitExpr] at h; cases h; exact .nullLiteral
  | thisLiteral =>
    rw [visitExpr] at h
    obtain ⟨-, rfl⟩ := visitThisLiteral_eq_ok h
    exact .thisLiteral _
  | varRef name =>
    rw [visitExpr] at h
    rcases visitVarRef_eq_ok h with ⟨-, -, rfl⟩ | ⟨d, type, hl, hd, -, rfl⟩
    · exact .system _
    · exact .varRef hd (htbl name d type hl hd)
  | methodInvocation left name args ihl iha =>
    rw [visitExpr] at h
    obtain ⟨left', hl, h⟩ := bind_eq_ok.mp h
    obtain ⟨args', ha, h⟩ := bind_eq_ok.mp h
    have hargs : ∀ a ∈ args', Typed a := by
      intro a' ha'
      obtain ⟨a, hmem, hva⟩ := exists_left_of_mem (visitExprs_eq_ok.mp ha) ha'
      exact iha a hmem hva
    rcases visitMethodInvocation_eq_ok h with ⟨x, y, d, type₁, type, rfl, hcall, rfl⟩ |
      ⟨cls, method, hclass, hcls, hmethod, hacc, rfl⟩
    · exact .sysoutCall hcall hargs
    · have hc := Context.findClassByName_mem hcls
      have hm := (findByName_eq_some hmethod).1
      exact .call (ihl hl) hclass hargs (isValue_of_accepts hacc (hcx.params cls hc method hm))
        (hcx.methods cls hc method hm)
  | fieldAccess left name ih =>
    rw [visitExpr] at h
    obtain ⟨left', hl, h⟩ := bind_eq_ok.mp h
    rcases visitFieldAccess_eq_ok h with ⟨_, _, d, -, hd, rfl⟩ | ⟨cls, field, hclass, hcls, hfield, rfl⟩
    · exact .systemStream hd
    · exact .fieldAccess (ih hl) hclass
        (hcx.fields cls (Context.findClassByName_mem hcls) field (findByName_eq_some hfield).1)
  | arrayAccess array index iha ihi =>
    rw [visitExpr] at h
    obtain ⟨array', ha, h⟩ := bind_eq_ok.mp h
    obtain ⟨index', hi, h⟩ := bind_eq_ok.mp h
    obtain ⟨hint, harray, rfl⟩ := visitArrayAccess_eq_ok h
    exact .arrayAccess (iha ha) (ihi hi) hint harray
  | newObject name =>
    rw [visitExpr] at h
    obtain ⟨-, rfl⟩ := visitNewObject_eq_ok h
    exact .newObject _
  | newArray elementType dimension size ih =>
    rw [visitExpr] at h
    obtain ⟨⟨⟩, -, h⟩ := bind_eq_ok.mp h
    obtain ⟨size', hs, h⟩ := bind_eq_ok.mp h
    obtain ⟨hint, hvoid, rfl⟩ := visitNewArray_eq_ok h
    exact .newArray (ih hs) hint (semaType_good hvoid)
  | binary op left right ihl ihr =>
    rw [visitExpr] at h
    obtain ⟨left', hl, h⟩ := bind_eq_ok.mp h
    obtain ⟨right', hr, h⟩ := bind_eq_ok.mp h
    obtain ⟨type, htyped, rfl⟩ := visitBinary_eq_ok h
    exact .binary (ihl hl) (ihr hr) htyped
  | unary op e ih =>
    rw [visitExpr] at h
    obtain ⟨e', he, h⟩ := bind_eq_ok.mp h
    rcases visitUnary_eq_ok h with ⟨rfl, hint, rfl⟩ | ⟨rfl, hbool, rfl⟩
    · exact .neg (ih he) hint
    · exact .not (ih he) hbool

theorem visitOptExpr_typed {tbl : Table} (hcx : GoodContext cx) (htbl : GoodTable tbl) {o : Option Expr}
    {t : Option TExpr} (h : visitOptExpr cx tbl o = .ok t) : ∀ e ∈ t, Typed e := by
  rcases visitOptExpr_eq_ok.mp h with ⟨rfl, rfl⟩ | ⟨e, e', rfl, rfl, he⟩
  · intro e h; cases h
  · intro e h; cases h; exact visitExpr_typed hcx htbl he

theorem checkDeclaration_eq_ok {type : SemType} {o : Option TExpr} (h : checkDeclaration type o = .ok ()) :
    (∀ e ∈ o, type.accepts e.targetType = true) ∧ type.isVoidOrVoidArray = false := by
  unfold checkDeclaration at h
  cases o with
  | none =>
    have h' : check (!type.isVoidOrVoidArray) (.voidVariable type) = .ok () := h
    exact ⟨fun e he => (nomatch he), Bool.not_eq_true' _ ▸ check_eq_ok.mp h'⟩
  | some e =>
    obtain ⟨⟨⟩, hacc, h⟩ := bind_eq_ok.mp h
    refine ⟨fun e' he => ?_, Bool.not_eq_true' _ ▸ check_eq_ok.mp h⟩
    cases he
    exact check_eq_ok.mp hacc

theorem visitStmts_typed_of {l : List Stmt}
    (ih : ∀ s ∈ l, ∀ st t st', GoodTable st.symTbl → visitStmt cx st s = .ok (t, st') →
      GoodTable st'.symTbl ∧ TypedStmt t) {st st' : St} {ts : List TStmt} (htbl : GoodTable st.symTbl)
    (h : visitStmts cx st l = .ok (ts, st')) : ∀ t ∈ ts, TypedStmt t := by
  induction l generalizing st ts with
  | nil => rw [visitStmts] at h; cases h; intro t ht; cases ht
  | cons s l ihl =>
    obtain ⟨t, st₁, ts', h₁, h₂, rfl⟩ := visitStmts_cons_eq_ok.mp h
    obtain ⟨htbl₁, ht⟩ := ih s List.mem_cons_self _ _ _ htbl h₁
    intro t' ht'
    rcases List.mem_cons.mp ht' with rfl | ht'
    · exact ht
    · exact ihl (fun s hs => ih s (List.mem_cons_of_mem _ hs)) htbl₁ h₂ t' ht'

theorem visitOptStmt_typed_of {o : Option Stmt}
    (ih : ∀ s ∈ o, ∀ st t st', GoodTable st.symTbl → visitStmt cx st s = .ok (t, st') →
      GoodTable st'.symTbl ∧ TypedStmt t) {st st' : St} {o' : Option TStmt} (htbl : GoodTable st.symTbl)
    (h : visitOptStmt cx st o = .ok (o', st')) : GoodTable st'.symTbl ∧ ∀ t ∈ o', TypedStmt t := by
  cases o with
  | none => rw [visitOptStmt] at h; cases h; exact ⟨htbl, fun t ht => absurd ht (Option.not_mem_none t)⟩
  | some s =>
    obtain ⟨t, h', rfl⟩ := visitOptStmt_some_eq_ok.mp h
    obtain ⟨htbl', ht⟩ := ih s rfl _ _ _ htbl h'
    exact ⟨htbl', fun t' ht' => by cases ht'; exact ht⟩

theorem visitStmt_typed (hcx : GoodContext cx)
    (hrt : cx.currentMethod.returnType.isVoid = true ∨ cx.currentMethod.returnType.Good) {st st' : St} {s : Stmt}
    {t : TStmt} (htbl : GoodTable st.symTbl) (h : visitStmt cx st s = .ok (t, st')) :
    GoodTable st'.symTbl ∧ TypedStmt t := by
  induction s using Stmt.induct generalizing st t st' with
  | block l lonely ih =>
    obtain ⟨ts, tbl, n, h₁, rfl, rfl⟩ := visitStmt_block_visits.mp h
    have hin : GoodTable (St.mk st.symTbl.enterScope st.currentLocalVarDeclNr).symTbl := htbl.enterScope
    have hts := visitStmts_typed_of (fun s hs _ _ _ => ih s hs) hin h₁
    refine ⟨htbl, .block fun s hs => hts s ?_⟩
    exact cutDeadCode_append ts ▸ List.mem_append_left _ hs
  | varDecl type name o =>
    obtain ⟨o', h₁, -, h₂, h₃, rfl⟩ := visitStmt_varDecl_eq_ok.mp h
    obtain ⟨-, -, rfl⟩ := declare_eq_ok.mp h₁
    obtain ⟨hacc, hvoid⟩ := checkDeclaration_eq_ok h₃
    have hgood := semaType_good hvoid
    have htbl' : GoodTable (st.symTbl.insert name (.variable st.currentLocalVarDeclNr type)) :=
      htbl.insert (fun type' htype => by cases htype; exact hgood) name
    exact ⟨htbl', .varDecl fun e he => ⟨visitOptExpr_typed hcx htbl' h₂ e he, hgood.accepts_isValue (hacc e he)⟩⟩
  | exprStmt e =>
    obtain ⟨e', he, rfl, rfl⟩ := visitStmt_exprStmt_eq_ok.mp h
    exact ⟨htbl, .exprStmt (visitExpr_typed hcx htbl he)⟩
  | ifStmt c s₁ s₂ ih₁ ih₂ =>
    obtain ⟨c', t₁, st₁, t₂, hc, h₁, h₂, hbool, rfl⟩ := visitStmt_ifStmt_eq_ok.mp h
    obtain ⟨htbl₁, ht₁⟩ := visitOptStmt_typed_of (fun s hs _ _ _ => ih₁ s hs) htbl h₁
    obtain ⟨htbl₂, ht₂⟩ := visitOptStmt_typed_of (fun s hs _ _ _ => ih₂ s hs) htbl₁ h₂
    exact ⟨htbl₂, .ifStmt (visitExpr_typed hcx htbl hc) hbool ht₁ ht₂⟩
  | whileStmt c s ih =>
    obtain ⟨c', t₁, hc, h₁, hbool, rfl⟩ := visitStmt_whileStmt_eq_ok.mp h
    obtain ⟨htbl₁, ht₁⟩ := visitOptStmt_typed_of (fun s hs _ _ _ => ih s hs) htbl h₁
    exact ⟨htbl₁, .whileStmt (visitExpr_typed hcx htbl hc) hbool ht₁⟩
  | returnStmt o =>
    obtain ⟨o', ho, hcheck, rfl, rfl⟩ := visitStmt_returnStmt_eq_ok.mp h
    refine ⟨htbl, .returnStmt fun e he => ⟨visitOptExpr_typed hcx htbl ho e he, ?_⟩⟩
    cases he
    obtain ⟨⟨⟩, hvoid, hacc⟩ := bind_eq_ok.mp hcheck
    rcases hrt with hrt | hrt
    · have hvoid := check_eq_ok.mp hvoid
      rw [hrt] at hvoid
      cases hvoid
    · exact hrt.accepts_isValue (check_eq_ok.mp hacc)

end Visits

/-! ## Programs -/

theorem visitFields_good {cx : Context} {l : List Ast.Field} (h : visitFields cx l = .ok ()) :
    ∀ f ∈ l, (semaType f.type).Good := by
  induction l with
  | nil => intro f hf; cases hf
  | cons g l ih =>
    rw [visitFields] at h
    obtain ⟨⟨⟩, hg, hl⟩ := bind_eq_ok.mp h
    intro f hf
    rcases List.mem_cons.mp hf with rfl | hf
    · unfold visitField at hg
      obtain ⟨⟨⟩, -, hvoid⟩ := bind_eq_ok.mp hg
      exact semaType_good (Bool.not_eq_true' _ ▸ check_eq_ok.mp hvoid)
    · exact ih hl f hf

theorem insertFields_good {tbl : Table} (htbl : GoodTable tbl) {l : List Ast.Field}
    (h : ∀ f ∈ l, (semaType f.type).Good) :
    GoodTable (l.foldl (fun tbl f => tbl.insert f.name (.field f.type)) tbl) := by
  induction l generalizing tbl with
  | nil => exact htbl
  | cons f l ih =>
    refine ih (htbl.insert (fun type htype => ?_) f.name) fun g hg => h g (List.mem_cons_of_mem _ hg)
    cases htype
    exact h f List.mem_cons_self

theorem fieldTable_good {l : List Ast.Field} (h : ∀ f ∈ l, (semaType f.type).Good) :
    GoodTable (fieldTable .empty l) := by
  refine insertFields_good ?_ h
  intro x d type hx
  cases hx

theorem visitParameters_good {cx : Context} {tbl tbl' : Table} {params : List Parameter} (htbl : GoodTable tbl)
    (h : visitParameters cx tbl params = .ok tbl') :
    GoodTable tbl' ∧ ∀ p ∈ params, (semaType p.type).Good := by
  induction params generalizing tbl with
  | nil => rw [visitParameters] at h; cases h; exact ⟨htbl, List.forall_mem_nil _⟩
  | cons q params ih =>
    rw [visitParameters] at h
    obtain ⟨tbl₁, h₁, h₂⟩ := bind_eq_ok.mp h
    unfold visitParameter at h₁
    obtain ⟨⟨⟩, -, h₁⟩ := bind_eq_ok.mp h₁
    obtain ⟨⟨⟩, -, h₁⟩ := bind_eq_ok.mp h₁
    obtain ⟨⟨⟩, hvoid, h₁⟩ := bind_eq_ok.mp h₁
    cases h₁
    have hgood := semaType_good (Bool.not_eq_true' _ ▸ check_eq_ok.mp hvoid)
    obtain ⟨htbl', hps⟩ := ih (htbl.insert (fun type htype => by cases htype; exact hgood) q.name) h₂
    refine ⟨htbl', fun p hp => ?_⟩
    rcases List.mem_cons.mp hp with rfl | hp
    · exact hgood
    · exact hps p hp

theorem RegularVisit.returnType_good {cx : Context} {tbl ptbl : Table} {m : RegularMethod} {t : TRegularMethod} {n : Nat}
    (h : RegularVisit cx tbl m t ptbl n) : (semaType m.returnType).Good ∨ (semaType m.returnType).isVoid = true := by
  by_cases hvoid : (semaType m.returnType).isVoid = true
  · exact .inr hvoid
  · refine .inl (semaType_good ?_)
    unfold SemType.isVoidOrVoidArray
    rw [h.notVoidArray, Bool.or_false]
    exact Bool.not_eq_true _ ▸ hvoid

theorem ProgramVisited.goodContext {p : Program} {t : TProgram} (h : ProgramVisited p t) (c : Ast.Class) (m : Method) :
    GoodContext ⟨sortedClasses p, c, m⟩ := by
  have hfields : ∀ c ∈ sortedClasses p, ∀ f ∈ c.fields, (semaType f.type).Good := by
    intro c hc f hf
    obtain ⟨tc, -, hv⟩ := exists_right_of_mem h.classes hc
    refine visitFields_good hv.fieldTypes f ?_
    rw [hv.fields]
    exact (sortByName_perm _ _).mem_iff.mpr hf
  refine ⟨hfields, fun c hc m hm => ?_, fun c hc m hm => ?_⟩
  · obtain ⟨tc, -, hv⟩ := exists_right_of_mem h.classes hc
    obtain ⟨tm, -, ptbl, n, hmv⟩ := exists_right_of_mem hv.methods ((sortByName_perm _ _).mem_iff.mpr hm)
    exact hmv.returnType_good
  · obtain ⟨tc, -, hv⟩ := exists_right_of_mem h.classes hc
    obtain ⟨tm, -, ptbl, n, hmv⟩ := exists_right_of_mem hv.methods ((sortByName_perm _ _).mem_iff.mpr hm)
    exact (visitParameters_good (fieldTable_good (visitFields_good hv.fieldTypes)).enterScope hmv.parameters).2

/-- The bodies of an accepted program are well typed. -/
theorem ProgramVisited.typed {p : Program} {t : TProgram} (h : ProgramVisited p t) {tc : TClass} (htc : tc ∈ t.classes) :
    (∀ tm ∈ tc.methods, TypedStmt tm.body) ∧ ∀ tm ∈ tc.mainMethods, TypedStmt tm.body := by
  obtain ⟨c, hc, hv⟩ := exists_left_of_mem h.classes htc
  have htbl := fieldTable_good (visitFields_good hv.fieldTypes)
  constructor
  · intro tm htm
    obtain ⟨m, -, ptbl, n, hm⟩ := exists_left_of_mem hv.methods htm
    have hptbl := (visitParameters_good htbl.enterScope hm.parameters).1
    exact (visitStmt_typed (h.goodContext c (.regular m.returnType)) hm.returnType_good.symm hptbl hm.body).2
  · intro tm htm
    obtain ⟨m, -, n, hm, -⟩ := exists_left_of_mem hv.mainMethods htm
    have hmtbl := htbl.insert (fun type (htype : Definition.mainArg.type = some type) => nomatch htype) m.argName
    exact (visitStmt_typed (h.goodContext c .main) (.inl rfl) hmtbl hm).2

end Mjc.Sema

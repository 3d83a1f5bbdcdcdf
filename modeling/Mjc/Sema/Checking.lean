import Mjc.Sema.Rules
import Mjc.Sema.Scoping

/-!
# The visitor follows the typing rules

What the rules derive is visited without an error.

* `SemType.ruleType` : the type of the rules that a `sem::Type` stands for; `same_iff`, `accepts_iff` : its operators;
* `Finds` : the visitor finds the declarations that the rules look at;
* `visitExpr_complete` : an expression that has a type is visited and annotated with it;
* `visitStmt_complete` : a statement that follows the rules is visited.
-/

namespace Mjc.Sema
open Mjc.Ast SymbolTable

set_option autoImplicit false

/-! ## Types -/

namespace SemType

/-- The type of the rules that the visitor means; `Unresolved` means none. -/
def ruleType (t : SemType) : Option RuleType :=
  match t.kind with
  | .int => some .int
  | .bool => some .boolean
  | .void => some .void
  | .null => some .null
  | .cls => some (.cls t.name)
  | .array =>
    match t.innerKind with
    | .int => some (.array (.primitive .int) t.dimension)
    | .bool => some (.array (.primitive .boolean) t.dimension)
    | .void => some (.array (.primitive .void) t.dimension)
    | .cls => some (.array (.classType t.name) t.dimension)
    | _ => none
  | .unresolved => none

variable {t o : SemType} {τ σ : RuleType}

theorem ruleType_isInt : t.isInt = true ↔ t.ruleType = some .int := by
  obtain ⟨kind, innerKind, name, dimension⟩ := t
  cases kind
  case array => cases innerKind <;> simp [isInt, ruleType]
  all_goals simp [isInt, ruleType]

theorem ruleType_isBool : t.isBool = true ↔ t.ruleType = some .boolean := by
  obtain ⟨kind, innerKind, name, dimension⟩ := t
  cases kind
  case array => cases innerKind <;> simp [isBool, ruleType]
  all_goals simp [isBool, ruleType]

theorem ruleType_isVoid : t.isVoid = true ↔ t.ruleType = some .void := by
  obtain ⟨kind, innerKind, name, dimension⟩ := t
  cases kind
  case array => cases innerKind <;> simp [isVoid, ruleType]
  all_goals simp [isVoid, ruleType]

theorem not_isVoid (h : t.ruleType = some τ) (hτ : τ ≠ .void) : t.isVoid = false := by
  rw [Bool.eq_false_iff]
  intro hvoid
  rw [ruleType_isVoid.mp hvoid] at h
  exact hτ (Option.some.inj h).symm

theorem ruleType_isClass : t.isClass = true ↔ t.ruleType = some (.cls t.name) := by
  obtain ⟨kind, innerKind, name, dimension⟩ := t
  cases kind
  case array => cases innerKind <;> simp [isClass, ruleType]
  all_goals simp [isClass, ruleType]

theorem ruleType_isNull : t.kind = .null ↔ t.ruleType = some .null := by
  obtain ⟨kind, innerKind, name, dimension⟩ := t
  cases kind
  case array => cases innerKind <;> simp [ruleType]
  all_goals simp [ruleType]

theorem name_of_ruleType {name : String} (h : t.ruleType = some (.cls name)) : t.isClass = true ∧ t.name = name := by
  obtain ⟨kind, innerKind, name, dimension⟩ := t
  cases kind
  case array => cases innerKind <;> cases h
  case cls => cases h; exact ⟨rfl, rfl⟩
  all_goals cases h

theorem ruleType_isArray (ha : t.isArray = true) (h : t.ruleType = some τ) :
    ∃ elementType, τ = .array elementType t.dimension := by
  obtain ⟨kind, innerKind, name, dimension⟩ := t
  obtain rfl := of_decide_eq_true ha
  cases innerKind <;> first | exact ⟨_, (Option.some.inj h).symm⟩ | cases h

theorem isArray_of_ruleType {elementType : BasicType} {dimension : Nat}
    (h : t.ruleType = some (.array elementType dimension)) : t.isArray = true := by
  obtain ⟨kind, innerKind, name, dimension⟩ := t
  cases kind
  case array => rfl
  all_goals cases h

theorem ruleType_element {elementType : BasicType} {n : Nat} (h : t.ruleType = some (.array elementType (n + 1))) :
    t.element.ruleType = some (ruleElement elementType n) := by
  have harray := isArray_of_ruleType h
  obtain ⟨kind, innerKind, name, dimension⟩ := t
  obtain rfl := of_decide_eq_true harray
  cases innerKind <;> cases h
  all_goals cases n <;> rfl

theorem ruleType_semaType (type : Ty) : (semaType type).ruleType = some (Sema.ruleType type) := by
  cases type with
  | basic type =>
    cases type with
    | primitive type => cases type <;> rfl
    | classType name => rfl
  | array elementType dimension =>
    cases elementType with
    | primitive type => cases type <;> rfl
    | classType name => rfl

/-- `operator==` is equality of the types of the rules. -/
theorem same_iff (ht : t.ruleType = some τ) (ho : o.ruleType = some σ) : t.same o = true ↔ τ = σ := by
  obtain ⟨kind, innerKind, name, dimension⟩ := t
  obtain ⟨kind', innerKind', name', dimension'⟩ := o
  cases kind
  case array =>
    cases kind'
    case array =>
      cases innerKind <;> cases ht <;> cases innerKind' <;> cases ho <;> simp [same]
      all_goals exact and_comm
    all_goals cases ho <;> cases innerKind <;> cases ht <;> simp [same]
  all_goals
    cases ht
    all_goals
      cases kind'
      case array => cases innerKind' <;> cases ho <;> simp [same]
      all_goals cases ho <;> simp [same]

/-- `operator>=` is assignability. -/
theorem accepts_iff (ht : t.ruleType = some τ) (ho : o.ruleType = some σ) : t.accepts o = true ↔ Assignable τ σ := by
  have hother (hn : o.kind ≠ .null) : t.same o = true ↔ Assignable τ σ := by
    rw [same_iff ht ho]
    constructor
    · rintro rfl; exact .refl τ
    · intro h
      cases h with
      | refl => rfl
      | nullClass | nullArray => exact absurd (ruleType_isNull.mpr ho) hn
  have hnull (hn : o.kind = .null) : σ = .null := Option.some.inj (ho.symm.trans (ruleType_isNull.mp hn))
  unfold accepts
  split
  next hk =>
    obtain rfl : τ = .cls t.name := Option.some.inj (ht.symm.trans (ruleType_isClass.mp (decide_eq_true hk)))
    by_cases hn : o.kind = .null
    · rw [if_pos hn, hnull hn]
      exact ⟨fun _ => .nullClass _, fun _ => rfl⟩
    · rw [if_neg hn]
      exact hother hn
  next hk =>
    obtain ⟨elementType, rfl⟩ := ruleType_isArray (decide_eq_true hk) ht
    by_cases hn : o.kind = .null
    · rw [if_pos hn, hnull hn]
      exact ⟨fun _ => .nullArray _ _, fun _ => rfl⟩
    · rw [if_neg hn]
      exact hother hn
  next hcls harray =>
    rw [same_iff ht ho]
    constructor
    · rintro rfl; exact .refl τ
    · intro h
      cases h with
      | refl => rfl
      | nullClass => exact absurd (of_decide_eq_true (name_of_ruleType ht).1) hcls
      | nullArray => exact absurd (of_decide_eq_true (isArray_of_ruleType ht)) harray

end SemType

theorem isVoidOrVoidArray_iff {type : Ty} :
    (semaType type).isVoidOrVoidArray = false ↔ baseType type ≠ .primitive .void := by
  cases type with
  | basic type =>
    cases type with
    | primitive type => cases type <;> simp [baseType] <;> rfl
    | classType name => simp [baseType]; rfl
  | array elementType dimension =>
    cases elementType with
    | primitive type => cases type <;> simp [baseType] <;> rfl
    | classType name => simp [baseType]; rfl

/-! ## What the visitor finds -/

/-- The fields of a class have different names, and so have the parameters of a method. -/
structure Frame.Distinct (fr : Frame) : Prop where
  fields : (fr.fields.map Ast.Field.name).Nodup
  params : (fr.params.map Parameter.name).Nodup

/-- The visitor finds what the rules find. -/
structure Finds (cx : Context) (Γ : Env) : Prop where
  className : cx.currentClass.name = Γ.className
  fits : Γ.frame.Fits cx
  returnType : cx.currentMethod.returnType.ruleType = some Γ.returnType
  distinct : Γ.frame.Distinct
  hasClass : ∀ name, Γ.HasClass name ↔ (cx.findClassByName name).isSome = true
  members : ∀ name c, Declared Ast.Class.name Γ.classes name c → ∃ c', cx.findClassByName name = some c' ∧
    (∀ x f, Declared Ast.Field.name c.fields x f → findFieldInClass c' x = some f) ∧
      ∀ x m, Declared RegularMethod.name c.methods x m → findMethodInClass c' x = some m

section Lookup

variable {cx : Context} {Γ : Env}

theorem visitBasicType_iff (h : ∀ name, Γ.HasClass name ↔ (cx.findClassByName name).isSome = true) (type : BasicType) :
    visitBasicType cx type = .ok () ↔ Γ.DeclaresBasic type := by
  cases type with
  | primitive type => exact ⟨fun _ => trivial, fun _ => rfl⟩
  | classType name => exact check_eq_ok.trans (h name).symm

theorem visitType_iff (h : ∀ name, Γ.HasClass name ↔ (cx.findClassByName name).isSome = true) (type : Ty) :
    visitType cx type = .ok () ↔ Γ.DeclaresBasic (baseType type) := by
  cases type with
  | basic type => exact visitBasicType_iff h type
  | array elementType _ => exact visitBasicType_iff h elementType

variable {p : Program}

/-- The visitor finds a class exactly if the program has it. -/
theorem hasClass_iff (hcx : cx.classes = sortedClasses p) (hΓ : Γ.classes = p.classes) (name : String) :
    Γ.HasClass name ↔ (cx.findClassByName name).isSome = true := by
  unfold Env.HasClass Context.findClassByName
  rw [hcx, hΓ]
  constructor
  · rintro ⟨c, hc, hname⟩
    have hsorted : (sortedClasses p).Pairwise fun a b => a.name ≤ b.name :=
      List.pairwise_map.mpr (pairwise_sortByName Ast.Class.name p.classes)
    exact findByName_isSome hsorted (List.mem_map_of_mem ((sortByName_perm _ _).mem_iff.mpr hc)) hname
  · intro h
    obtain ⟨c', hc'⟩ := Option.isSome_iff_exists.mp h
    obtain ⟨hmem, hname⟩ := findByName_eq_some hc'
    obtain ⟨c, hc, rfl⟩ := List.mem_map.mp hmem
    exact ⟨c, (sortByName_perm _ _).mem_iff.mp hc, hname⟩

/-- The only element of a name is found. -/
theorem findByName_of_declared {α : Type} {name : α → String} {l : List α} {key : String} {x : α}
    (h : Declared name l key x) : findByName name (sortByName name l) key = some x := by
  obtain ⟨y, hy⟩ := Option.isSome_iff_exists.mp
    (findByName_isSome (pairwise_sortByName name l) ((sortByName_perm name l).mem_iff.mpr h.mem) h.named)
  obtain ⟨hmem, hname⟩ := findByName_eq_some hy
  rw [hy, h.only y ((sortByName_perm name l).mem_iff.mp hmem) hname]

/-- When the names are different, what is found is the only element of its name. -/
theorem declared_of_findByName {α : Type} {name : α → String} {l : List α} {key : String} {x : α}
    (hd : (l.map name).Nodup) (h : findByName name (sortByName name l) key = some x) : Declared name l key x := by
  obtain ⟨hmem, hname⟩ := findByName_eq_some h
  have hx := (sortByName_perm name l).mem_iff.mp hmem
  exact ⟨hx, hname, fun y hy hyname => eq_of_name_eq hd hy hx (hyname.trans hname.symm)⟩

theorem findClassByName_of_declared (hcx : cx.classes = sortedClasses p) (hΓ : Γ.classes = p.classes) {name : String}
    {c : Ast.Class} (h : Declared Ast.Class.name p.classes name c) :
    cx.findClassByName name = some (sortMembers c) := by
  obtain ⟨c', hc'⟩ := Option.isSome_iff_exists.mp
    ((hasClass_iff hcx hΓ name).mp ⟨c, hΓ ▸ h.mem, h.named⟩)
  have hfound := hc'
  unfold Context.findClassByName at hfound
  rw [hcx] at hfound
  obtain ⟨hmem, hname⟩ := findByName_eq_some hfound
  obtain ⟨d, hd, rfl⟩ := List.mem_map.mp hmem
  rw [hc', h.only d ((sortByName_perm _ _).mem_iff.mp hd) hname]

/-- In every program the visitor finds what the rules find. -/
theorem finds_of (hcx : cx.classes = sortedClasses p) (hΓ : Γ.classes = p.classes)
    (hname : cx.currentClass.name = Γ.className) (hfits : Γ.frame.Fits cx)
    (hret : cx.currentMethod.returnType.ruleType = some Γ.returnType) (hfr : Γ.frame.Distinct) : Finds cx Γ where
  className := hname
  fits := hfits
  returnType := hret
  distinct := hfr
  hasClass := hasClass_iff hcx hΓ
  members _ c hc :=
    ⟨sortMembers c, findClassByName_of_declared hcx hΓ (hΓ ▸ hc), fun _ _ => findByName_of_declared,
      fun _ _ => findByName_of_declared⟩

end Lookup

theorem Sees.eq_of_resolves {fr : Frame} {ls : Locals} {x : String} {o : Option Definition} {d : Definition}
    (h : Sees fr ls x o) (hfr : fr.Distinct) (hd : Resolves fr ls x (.definition d)) : o = some d := by
  cases hd with
  | «local» hl =>
    cases h with
    | «local» hl' => rw [hl] at hl'; cases hl'; rfl
    | param hl' | mainArg hl' | field hl' | nothing hl' => rw [hl] at hl'; cases hl'
  | param hl hp hx =>
    cases h with
    | «local» hl' => rw [hl] at hl'; cases hl'
    | param _ hp' hx' => rw [eq_of_name_eq hfr.params hp' hp (hx'.trans hx.symm)]
    | mainArg _ hp' | field _ hp' | nothing _ hp' => exact absurd hx (hp' _ hp)
  | field hl hp hs hf hx =>
    cases h with
    | «local» hl' => rw [hl] at hl'; cases hl'
    | param _ hp' hx' => exact absurd hx' (hp _ hp')
    | mainArg _ _ hs' => rw [hs] at hs'; cases hs'
    | field _ _ _ hf' hx' => rw [eq_of_name_eq hfr.fields hf' hf (hx'.trans hx.symm)]
    | nothing _ _ _ hf' => exact absurd hx (hf' _ hf)

theorem Sees.none_of_systemVisible {fr : Frame} {ls : Locals} {o : Option Definition} (h : Sees fr ls "System" o)
    (hs : SystemVisible fr ls) : o = none := by
  cases hs with
  | system hl hp hm hf =>
    cases h with
    | «local» hl' => rw [hl] at hl'; cases hl'
    | param _ hp' hx' => exact absurd hx' (hp _ hp')
    | mainArg _ _ hs' => exact absurd hs' hm
    | field _ _ _ hf' hx' => exact absurd hx' (hf _ hf')
    | nothing => rfl

section Receivers

variable {cx : Context} {tbl : Table} {e : Expr} {left : TExpr} {name : String}

/-- Only a variable is annotated as a variable. -/
theorem visitExpr_varRef {x : String} {d : RefDef} {type : SemType} (h : visitExpr cx tbl e = .ok (.varRef x d type)) :
    e = .varRef x ∧ visitVarRef cx tbl x = .ok (.varRef x d type) := by
  obtain rfl : e = .varRef x := (visitExpr_source h).symm
  rw [visitExpr] at h
  exact ⟨rfl, h⟩

/-- Only a field access is annotated as one. -/
theorem visitExpr_fieldAccess {y : String} {d : AccessDef} {type : SemType}
    (h : visitExpr cx tbl e = .ok (.fieldAccess left y d type)) :
    e = .fieldAccess left.source y ∧ visitExpr cx tbl left.source = .ok left ∧
      visitFieldAccess cx left y = .ok (.fieldAccess left y d type) := by
  obtain rfl : e = .fieldAccess left.source y := (visitExpr_source h).symm
  rw [visitExpr] at h
  obtain ⟨left', hl, h⟩ := bind_eq_ok.mp h
  have heq : left' = left := by
    rcases visitFieldAccess_eq_ok h with ⟨_, _, _, -, -, ht⟩ | ⟨_, _, -, -, -, ht⟩
    · cases ht; rfl
    · cases ht; rfl
  subst heq
  exact ⟨rfl, hl, h⟩

/-- A field access that is marked as a stream has no type. -/
theorem visitFieldAccess_stream {x : TExpr} {y : String} {d : AccessDef} {type : SemType}
    (h : visitFieldAccess cx x y = .ok (.fieldAccess x y d type)) (hd : d = .systemOut ∨ d = .systemIn) :
    type = .unresolved := by
  rcases visitFieldAccess_eq_ok h with ⟨_, _, _, -, -, ht⟩ | ⟨_, _, -, -, -, ht⟩
  · cases ht; rfl
  · cases ht; rcases hd with hd | hd <;> cases hd

/-- On an object the visit looks for the method in its class. -/
theorem visitMethodInvocation_class (h : visitExpr cx tbl e = .ok left) (hc : left.targetType.isClass = true)
    {c : Ast.Class} {m : RegularMethod} (hcls : cx.findClassByName left.targetType.name = some c)
    (hm : findMethodInClass c name = some m) (args : List TExpr) :
    visitMethodInvocation cx left name args = visitCall cx left name args := by
  unfold visitMethodInvocation
  split
  next =>
    obtain ⟨-, h⟩ := visitExpr_varRef h
    rcases visitVarRef_eq_ok h with ⟨-, -, ht⟩ | ⟨_, _, -, -, -, ht⟩
    · cases ht; cases hc
    · cases ht
  next d type =>
    obtain ⟨-, h⟩ := visitExpr_varRef h
    rcases visitVarRef_eq_ok h with ⟨-, -, ht⟩ | ⟨_, type', -, htype, -, ht⟩
    · cases ht
    · cases ht
      have hreceiver : visitReceiver cx d name = .ok () := by
        unfold visitReceiver
        have hclass : (semaType type').isClass = true := hc
        have hfound : cx.findClassByName (semaType type').name = some c := hcls
        simp only [htype]
        rw [if_pos hclass, hfound]
        exact check_eq_ok.mpr (Option.isSome_iff_exists.mpr ⟨m, hm⟩)
      rw [hreceiver]
      rfl
  next =>
    obtain ⟨-, -, h⟩ := visitExpr_fieldAccess h
    obtain rfl := visitFieldAccess_stream h (.inl rfl)
    cases hc
  next =>
    obtain ⟨-, -, h⟩ := visitExpr_fieldAccess h
    obtain rfl := visitFieldAccess_stream h (.inr rfl)
    cases hc
  next => rfl

/-- On an object the visit looks for the field in its class. -/
theorem visitFieldAccess_class (h : visitExpr cx tbl e = .ok left) (hc : left.targetType.isClass = true) :
    visitFieldAccess cx left name = visitMember cx left name := by
  unfold visitFieldAccess
  split
  next =>
    obtain ⟨-, h⟩ := visitExpr_varRef h
    rcases visitVarRef_eq_ok h with ⟨-, -, ht⟩ | ⟨_, _, -, -, -, ht⟩
    · cases ht; cases hc
    · cases ht
  next =>
    obtain ⟨-, -, h⟩ := visitExpr_fieldAccess h
    obtain rfl := visitFieldAccess_stream h (.inl rfl)
    cases hc
  next =>
    obtain ⟨-, -, h⟩ := visitExpr_fieldAccess h
    obtain rfl := visitFieldAccess_stream h (.inr rfl)
    cases hc
  next => rfl

end Receivers

section Complete

variable {cx : Context} {Γ : Env} {ls : Locals} {tbl : Table}

/-- The visit succeeds, with an annotation that stands for the type. -/
def VisitedAs (cx : Context) (tbl : Table) (e : Expr) (τ : RuleType) : Prop :=
  ∃ t, visitExpr cx tbl e = .ok t ∧ t.targetType.ruleType = some τ

theorem visitExprs_complete {args : List Expr} {types : List RuleType} (hlen : args.length = types.length)
    (h : ∀ a ∈ args.zip types, VisitedAs cx tbl a.1 a.2) :
    ∃ ts, visitExprs cx tbl args = .ok ts ∧ List.Forall₂ (fun τ t => t.targetType.ruleType = some τ) types ts := by
  induction args generalizing types with
  | nil =>
    obtain rfl := List.eq_nil_of_length_eq_zero hlen.symm
    exact ⟨[], by rw [visitExprs], .nil⟩
  | cons e args ih =>
    cases types with
    | nil => cases hlen
    | cons τ types =>
      rw [List.zip_cons_cons] at h
      obtain ⟨t, ht, htype⟩ := h _ List.mem_cons_self
      obtain ⟨ts, hts, htypes⟩ := ih (Nat.succ.inj hlen) fun a ha => h a (List.mem_cons_of_mem _ ha)
      refine ⟨t :: ts, ?_, .cons htype htypes⟩
      rw [visitExprs, ht, hts]
      rfl

theorem checkArguments_complete {params : List Parameter} {types : List RuleType} {ts : List TExpr}
    (hp : List.Forall₂ (fun p τ => Assignable (ruleType p.type) τ) params types)
    (ht : List.Forall₂ (fun τ t => t.targetType.ruleType = some τ) types ts) :
    params.length = ts.length ∧ checkArguments params ts = .ok () := by
  induction hp generalizing ts with
  | nil => cases ht; exact ⟨rfl, rfl⟩
  | cons hpτ _ ih =>
    cases ht with
    | cons ht hts =>
      obtain ⟨hlen, hargs⟩ := ih hts
      refine ⟨congrArg (· + 1) hlen, ?_⟩
      rw [checkArguments, (SemType.accepts_iff (SemType.ruleType_semaType _) ht).mpr hpτ, hargs]
      rfl

theorem visitVarRef_complete (hf : Finds cx Γ) (hr : Rel Γ.frame ls tbl) {x : String} {d : Definition} {type : Ty}
    (h : Resolves Γ.frame ls x (.definition d)) (ht : d.type = some type) :
    visitVarRef cx tbl x = .ok (.varRef x (.definition d) (semaType type)) := by
  have hlookup := (hr.sees x).eq_of_resolves hf.distinct h
  unfold visitVarRef
  rw [hlookup]
  cases h with
  | «local» | param => cases ht; rfl
  | field _ _ hs =>
    cases ht
    exact if_neg fun hmain => (hf.fits.mp hmain) hs

theorem visitExpr_system (hr : Rel Γ.frame ls tbl) (hs : SystemVisible Γ.frame ls) :
    visitExpr cx tbl (.varRef "System") = .ok (.varRef "System" .system .unresolved) := by
  rw [visitExpr]
  unfold visitVarRef
  rw [(hr.sees "System").none_of_systemVisible hs]
  rfl

/-- `System.out` or `System.in` with its annotations. -/
def systemStream (name : String) (d : AccessDef) : TExpr :=
  .fieldAccess (.varRef "System" .system .unresolved) name d .unresolved

theorem visitExpr_systemOut (hr : Rel Γ.frame ls tbl) (hs : SystemVisible Γ.frame ls) :
    visitExpr cx tbl (.fieldAccess (.varRef "System") "out") =
      .ok (systemStream "out" .systemOut) := by
  rw [visitExpr, visitExpr_system hr hs]
  rfl

theorem visitExpr_systemIn (hr : Rel Γ.frame ls tbl) (hs : SystemVisible Γ.frame ls) :
    visitExpr cx tbl (.fieldAccess (.varRef "System") "in") =
      .ok (systemStream "in" .systemIn) := by
  rw [visitExpr, visitExpr_system hr hs]
  rfl

/-- An expression that the visitor takes for the left side of an assignment is one of the rules. -/
theorem isRValue_source (t : TExpr) : t.isRValue = !isLValue t.source := by
  cases t <;> rfl

theorem visitBinary_complete {op : BinaryOp} {l r : TExpr} {type : SemType} (h : BinaryTyped op l r type) :
    visitBinary op l r = .ok (.binary op l r type) := by
  unfold visitBinary
  cases h with
  | arithmetic hop hl hr =>
    rcases hop with rfl | rfl | rfl | rfl | rfl <;> (simp only [hl, hr]; rfl)
  | order hop hl hr =>
    rcases hop with rfl | rfl | rfl | rfl <;> (simp only [hl, hr]; rfl)
  | logical hop hl hr =>
    rcases hop with rfl | rfl <;> (simp only [hl, hr]; rfl)
  | assign hl hacc =>
    simp only [hl, hacc]
    rfl
  | equality hop hl hr hacc =>
    have hor := Bool.or_eq_true_iff.mpr hacc
    rcases hop with rfl | rfl <;> (simp only [hl, hr, hor]; rfl)

/-- What the rules give a type is visited without an error, and annotated with that type. -/
theorem visitExpr_complete (hf : Finds cx Γ) (hr : Rel Γ.frame ls tbl) {e : Expr} {τ : RuleType}
    (h : HasType Γ ls e τ) : VisitedAs cx tbl e τ := by
  induction h with
  | intLiteral value => exact ⟨_, by rw [visitExpr], rfl⟩
  | boolLiteral value => exact ⟨_, by rw [visitExpr], rfl⟩
  | nullLiteral => exact ⟨_, by rw [visitExpr], rfl⟩
  | thisLiteral hs =>
    refine ⟨.thisLiteral (.cls cx.currentClass.name), ?_, by rw [hf.className]; rfl⟩
    rw [visitExpr]
    unfold visitThisLiteral
    split
    next => rfl
    next hmain => exact absurd hs (hf.fits.mp hmain)
  | @varRef x d type hd ht =>
    refine ⟨.varRef x (.definition d) (semaType type), ?_, SemType.ruleType_semaType type⟩
    rw [visitExpr, visitVarRef_complete hf hr hd ht]
  | @println name e hs hn _ ih =>
    obtain ⟨t, ht, htype⟩ := ih
    have hint := SemType.ruleType_isInt.mpr htype
    refine ⟨.methodInvocation (systemStream "out" .systemOut) name [t] .sysout .void, ?_, rfl⟩
    rw [visitExpr, visitExpr_systemOut hr hs, visitExprs, visitExprs, ht]
    show visitMethodInvocation cx (systemStream "out" .systemOut) name [t] = _
    unfold visitMethodInvocation systemStream visitSysoutArgument
    rcases hn with rfl | rfl <;> (simp only [hint]; rfl)
  | flush hs =>
    refine ⟨.methodInvocation (systemStream "out" .systemOut) "flush" [] .sysout .void, ?_, rfl⟩
    rw [visitExpr, visitExpr_systemOut hr hs, visitExprs]
    rfl
  | read hs =>
    refine ⟨.methodInvocation (systemStream "in" .systemIn) "read" [] .sysout .int, ?_, rfl⟩
    rw [visitExpr, visitExpr_systemIn hr hs, visitExprs]
    rfl
  | @call left name className args c m types _ hc hm hlen _ hp ihl iha =>
    obtain ⟨left', hleft, htype⟩ := ihl
    obtain ⟨ts, hts, htypes⟩ := visitExprs_complete hlen iha
    obtain ⟨hclass, rfl⟩ := SemType.name_of_ruleType htype
    obtain ⟨c', hc', -, hmethods⟩ := hf.members _ c hc
    have hfound := hmethods name m hm
    obtain ⟨hcount, hargs⟩ := checkArguments_complete hp htypes
    refine ⟨.methodInvocation left' name ts (.method c'.name) (semaType m.returnType), ?_,
      SemType.ruleType_semaType _⟩
    rw [visitExpr, hleft, hts]
    show visitMethodInvocation cx left' name ts = _
    rw [visitMethodInvocation_class hleft hclass hc' hfound]
    unfold visitCall
    simp only [hclass, hc', hfound, hcount, hargs, beq_self_eq_true]
    rfl
  | @fieldAccess left name className c f _ hc hfield ihl =>
    obtain ⟨left', hleft, htype⟩ := ihl
    obtain ⟨hclass, rfl⟩ := SemType.name_of_ruleType htype
    obtain ⟨c', hc', hfields, -⟩ := hf.members _ c hc
    have hfound := hfields name f hfield
    refine ⟨.fieldAccess left' name (.field c'.name) (semaType f.type), ?_, SemType.ruleType_semaType _⟩
    rw [visitExpr, hleft]
    show visitFieldAccess cx left' name = _
    rw [visitFieldAccess_class hleft hclass]
    unfold visitMember
    simp only [hclass, hc', hfound]
    rfl
  | arrayAccess _ _ iha ihi =>
    obtain ⟨array, ha, htype⟩ := iha
    obtain ⟨index, hi, hint⟩ := ihi
    refine ⟨.arrayAccess array index array.targetType.element, ?_, SemType.ruleType_element htype⟩
    rw [visitExpr, ha, hi]
    show visitArrayAccess array index = _
    unfold visitArrayAccess
    rw [SemType.ruleType_isInt.mpr hint, SemType.isArray_of_ruleType htype]
    rfl
  | @newObject name hc =>
    refine ⟨.newObject name (.cls name), ?_, rfl⟩
    rw [visitExpr]
    unfold visitNewObject
    rw [(hf.hasClass name).mp hc]
    rfl
  | @newArray elementType dimension size ht hv hd _ ih =>
    obtain ⟨size', hs, hint⟩ := ih
    have hvoid : (semaType (.array elementType dimension)).isVoidOrVoidArray = false := isVoidOrVoidArray_iff.mpr hv
    refine ⟨.newArray elementType dimension size' (semaType (.array elementType dimension)), ?_,
      SemType.ruleType_semaType (.array elementType dimension)⟩
    rw [visitExpr, (visitBasicType_iff hf.hasClass elementType).mpr ht, hs]
    show visitNewArray elementType dimension size' = _
    unfold visitNewArray
    simp only [SemType.ruleType_isInt.mpr hint, hvoid]
    rfl
  | @arithmetic op _ _ hop _ _ ihl ihr =>
    obtain ⟨l, hl, hlt⟩ := ihl
    obtain ⟨r, hr, hrt⟩ := ihr
    refine ⟨.binary op l r .int, ?_, rfl⟩
    rw [visitExpr, hl, hr]
    exact visitBinary_complete (.arithmetic hop (SemType.ruleType_isInt.mpr hlt) (SemType.ruleType_isInt.mpr hrt))
  | @order op _ _ hop _ _ ihl ihr =>
    obtain ⟨l, hl, hlt⟩ := ihl
    obtain ⟨r, hr, hrt⟩ := ihr
    refine ⟨.binary op l r .bool, ?_, rfl⟩
    rw [visitExpr, hl, hr]
    exact visitBinary_complete (.order hop (SemType.ruleType_isInt.mpr hlt) (SemType.ruleType_isInt.mpr hrt))
  | @logical op _ _ hop _ _ ihl ihr =>
    obtain ⟨l, hl, hlt⟩ := ihl
    obtain ⟨r, hr, hrt⟩ := ihr
    refine ⟨.binary op l r .bool, ?_, rfl⟩
    rw [visitExpr, hl, hr]
    exact visitBinary_complete (.logical hop (SemType.ruleType_isBool.mpr hlt) (SemType.ruleType_isBool.mpr hrt))
  | assign hv _ _ hacc ihl ihr =>
    obtain ⟨l, hl, hlt⟩ := ihl
    obtain ⟨r, hr, hrt⟩ := ihr
    have hlvalue : l.isRValue = false := by rw [isRValue_source, visitExpr_source hl, hv]; rfl
    refine ⟨.binary .assign l r l.targetType, ?_, hlt⟩
    rw [visitExpr, hl, hr]
    exact visitBinary_complete (.assign hlvalue ((SemType.accepts_iff hlt hrt).mpr hacc))
  | @equality op _ _ τ σ hop _ _ hτ hσ hacc ihl ihr =>
    obtain ⟨l, hl, hlt⟩ := ihl
    obtain ⟨r, hr, hrt⟩ := ihr
    refine ⟨.binary op l r .bool, ?_, rfl⟩
    rw [visitExpr, hl, hr]
    refine visitBinary_complete (.equality hop (SemType.not_isVoid hlt hτ) (SemType.not_isVoid hrt hσ) ?_)
    exact hacc.imp (SemType.accepts_iff hlt hrt).mpr (SemType.accepts_iff hrt hlt).mpr
  | neg _ ih =>
    obtain ⟨t, ht, hint⟩ := ih
    refine ⟨.unary .neg t .int, ?_, rfl⟩
    rw [visitExpr, ht]
    show visitUnary .neg t = _
    unfold visitUnary
    rw [SemType.ruleType_isInt.mpr hint]
    rfl
  | not _ ih =>
    obtain ⟨t, ht, hbool⟩ := ih
    refine ⟨.unary .not t .bool, ?_, rfl⟩
    rw [visitExpr, ht]
    show visitUnary .not t = _
    unfold visitUnary
    rw [SemType.ruleType_isBool.mpr hbool]
    rfl

theorem visitOptExpr_complete (hf : Finds cx Γ) (hr : Rel Γ.frame ls tbl) {o : Option Expr} {τ : RuleType}
    (h : ∀ e ∈ o, ∃ σ, HasType Γ ls e σ ∧ Assignable τ σ) :
    ∃ o', visitOptExpr cx tbl o = .ok o' ∧ ∀ t ∈ o', ∃ σ, t.targetType.ruleType = some σ ∧ Assignable τ σ := by
  cases o with
  | none => exact ⟨none, rfl, fun t ht => nomatch ht⟩
  | some e =>
    obtain ⟨σ, he, hσ⟩ := h e rfl
    obtain ⟨t, ht, htype⟩ := visitExpr_complete hf hr he
    refine ⟨some t, by rw [visitOptExpr, ht]; rfl, fun t' ht' => ?_⟩
    obtain rfl := Option.some.inj ht'
    exact ⟨σ, htype, hσ⟩

theorem declare_complete {n : Nat} {type : Ty} {name : String} (hr : Rel Γ.frame ls tbl) (hi : Inner tbl)
    (h : ¬ Taken Γ.frame ls name) :
    declare ⟨tbl, n⟩ type name = .ok ⟨tbl.insert name (.variable n type), n + 1⟩ := by
  have hhide : mayHide (tbl.lookup name) = true := by
    rw [(hr.sees name).taken_iff] at h
    exact Bool.eq_true_of_not_eq_false h
  refine declare_eq_ok.mpr ⟨?_, hhide, rfl⟩
  rw [Bool.eq_false_iff]
  intro hdef
  rw [hi name hdef] at hhide
  cases hhide

theorem checkDeclaration_complete {type : Ty} {o : Option TExpr} (hv : baseType type ≠ .primitive .void)
    (h : ∀ t ∈ o, ∃ σ, t.targetType.ruleType = some σ ∧ Assignable (ruleType type) σ) :
    checkDeclaration (semaType type) o = .ok () := by
  have hvoid := isVoidOrVoidArray_iff.mpr hv
  unfold checkDeclaration
  cases o with
  | none =>
    simp only [hvoid]
    rfl
  | some t =>
    obtain ⟨σ, htype, hσ⟩ := h t rfl
    simp only [(SemType.accepts_iff (SemType.ruleType_semaType type) htype).mpr hσ, hvoid]
    rfl

theorem visitStmts_complete_of (hf : Finds cx Γ) {l : List Stmt}
    (ih : ∀ s ∈ l, ∀ ls n tbl, Rel Γ.frame ls tbl → Inner tbl → StmtRules Γ ls n s →
      ∃ t st', visitStmt cx ⟨tbl, n⟩ s = .ok (t, st')) {n : Nat} (hr : Rel Γ.frame ls tbl) (hi : Inner tbl)
    (h : StmtsRules Γ ls n l) : ∃ ts st', visitStmts cx ⟨tbl, n⟩ l = .ok (ts, st') := by
  induction l generalizing ls n tbl with
  | nil => exact ⟨[], _, by rw [visitStmts]⟩
  | cons s l ihl =>
    cases h with
    | cons hs hl =>
      obtain ⟨t, ⟨tbl₁, n₁⟩, h₁⟩ := ih s List.mem_cons_self _ _ _ hr hi hs
      obtain ⟨hr₁, hi₁, hn₁, -⟩ := visitStmt_ok hf.fits hr h₁
      simp only at hr₁ hi₁ hn₁
      subst hn₁
      obtain ⟨ts, st', h₂⟩ := ihl (fun s hs => ih s (List.mem_cons_of_mem _ hs)) hr₁ (hi₁ hi) hl
      exact ⟨t :: ts, st', visitStmts_cons_eq_ok.mpr ⟨t, _, ts, h₁, h₂, rfl⟩⟩

theorem visitOptStmt_complete_of {o : Option Stmt}
    (ih : ∀ s ∈ o, ∀ ls n tbl, Rel Γ.frame ls tbl → Inner tbl → StmtRules Γ ls n s →
      ∃ t st', visitStmt cx ⟨tbl, n⟩ s = .ok (t, st')) {n : Nat} (hr : Rel Γ.frame ls tbl) (hi : Inner tbl)
    (h : OptRules Γ ls n o) : ∃ t st', visitOptStmt cx ⟨tbl, n⟩ o = .ok (t, st') := by
  cases h with
  | none => exact ⟨none, _, by rw [visitOptStmt]⟩
  | some hs =>
    obtain ⟨t, st', h⟩ := ih _ rfl _ _ _ hr hi hs
    exact ⟨some t, st', visitOptStmt_some_eq_ok.mpr ⟨t, h, rfl⟩⟩

/-- A block has a scope of its own, so that nothing is asked of the scope around it. -/
theorem visitBlock_complete_of (hf : Finds cx Γ) {l : List Stmt} {lonely : Bool}
    (ih : ∀ s ∈ l, ∀ ls n tbl, Rel Γ.frame ls tbl → Inner tbl → StmtRules Γ ls n s →
      ∃ t st', visitStmt cx ⟨tbl, n⟩ s = .ok (t, st')) {n : Nat} (hr : Rel Γ.frame ls tbl)
    (h : StmtRules Γ ls n (.block l lonely)) : ∃ t st', visitStmt cx ⟨tbl, n⟩ (.block l lonely) = .ok (t, st') := by
  cases h with
  | block h =>
    obtain ⟨ts, ⟨tbl', n'⟩, hts⟩ := visitStmts_complete_of hf ih hr.enterScope hr.inner h
    exact ⟨finishBlock ts lonely, ⟨tbl, n'⟩, visitStmt_block_visits.mpr ⟨ts, tbl', n', hts, rfl, rfl⟩⟩

/-- What the rules derive is visited without an error. -/
theorem visitStmt_complete (hf : Finds cx Γ) {s : Stmt} {n : Nat} (hr : Rel Γ.frame ls tbl) (hi : Inner tbl)
    (h : StmtRules Γ ls n s) : ∃ t st', visitStmt cx ⟨tbl, n⟩ s = .ok (t, st') := by
  induction s using Stmt.induct generalizing ls n tbl with
  | block l lonely ih => exact visitBlock_complete_of hf (fun s hs _ _ _ => ih s hs) hr h
  | varDecl type name o =>
    cases h with
    | varDecl hx ht hi' =>
      obtain ⟨o', ho, htypes⟩ := visitOptExpr_complete hf (hr.declare name n type) hi'
      exact ⟨.varDecl type name n o', _, visitStmt_varDecl_eq_ok.mpr ⟨o', declare_complete hr hi hx,
        (visitType_iff hf.hasClass type).mpr ht.declared, ho, checkDeclaration_complete ht.notVoid htypes, rfl⟩⟩
  | exprStmt e =>
    cases h with
    | exprStmt h =>
      obtain ⟨t, ht, -⟩ := visitExpr_complete hf hr h
      exact ⟨.exprStmt t, _, visitStmt_exprStmt_eq_ok.mpr ⟨t, ht, rfl, rfl⟩⟩
  | ifStmt c s₁ s₂ ih₁ ih₂ =>
    cases h with
    | ifStmt hc h₁ h₂ =>
      obtain ⟨c', hc', hbool⟩ := visitExpr_complete hf hr hc
      obtain ⟨t₁, ⟨tbl₁, n₁⟩, hv₁⟩ := visitOptStmt_complete_of (fun s hs _ _ _ => ih₁ s hs) hr hi h₁
      obtain ⟨hr₁, hi₁, hn₁, -⟩ := visitOptStmt_ok_of (fun _ _ _ _ _ _ _ => visitStmt_ok hf.fits) hr hv₁
      simp only at hr₁ hi₁ hn₁
      subst hn₁
      obtain ⟨t₂, st₂, hv₂⟩ := visitOptStmt_complete_of (fun s hs _ _ _ => ih₂ s hs) hr₁ (hi₁ hi) h₂
      exact ⟨_, st₂, visitStmt_ifStmt_eq_ok.mpr
        ⟨c', t₁, _, t₂, hc', hv₁, hv₂, SemType.ruleType_isBool.mpr hbool, rfl⟩⟩
  | whileStmt c s ih =>
    cases h with
    | whileStmt hc h =>
      obtain ⟨c', hc', hbool⟩ := visitExpr_complete hf hr hc
      obtain ⟨t₁, st₁, hv₁⟩ := visitOptStmt_complete_of (fun s hs _ _ _ => ih s hs) hr hi h
      exact ⟨_, st₁, visitStmt_whileStmt_eq_ok.mpr
        ⟨c', t₁, hc', hv₁, SemType.ruleType_isBool.mpr hbool, rfl⟩⟩
  | returnStmt o =>
    cases h with
    | returnVoid hvoid =>
      have hret := SemType.ruleType_isVoid.mpr (hvoid ▸ hf.returnType)
      exact ⟨.returnStmt none, _, visitStmt_returnStmt_eq_ok.mpr ⟨none, rfl, check_eq_ok.mpr hret, rfl, rfl⟩⟩
    | returnValue hvoid he hσ =>
      obtain ⟨t, ht, htype⟩ := visitExpr_complete hf hr he
      have hcheck : checkReturn cx.currentMethod.returnType (some t) = .ok () := by
        unfold checkReturn
        simp only [SemType.not_isVoid hf.returnType hvoid, (SemType.accepts_iff hf.returnType htype).mpr hσ]
        rfl
      exact ⟨.returnStmt (some t), _, visitStmt_returnStmt_eq_ok.mpr
        ⟨some t, visitOptExpr_eq_ok.mpr (.inr ⟨_, t, rfl, rfl, ht⟩), hcheck, rfl, rfl⟩⟩

/-- The body of a method that follows the rules is visited without an error. -/
theorem visitBlock_complete (hf : Finds cx Γ) (hr : Rel Γ.frame [] tbl) {b : Block}
    (h : StmtRules Γ [] 0 (Block.stmt b)) : ∃ t st', visitBlock cx ⟨tbl, 0⟩ b = .ok (t, st') :=
  visitBlock_complete_of hf (fun _ _ _ _ _ => visitStmt_complete hf) hr h

end Complete

end Mjc.Sema

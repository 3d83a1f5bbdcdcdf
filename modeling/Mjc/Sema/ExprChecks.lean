import Mjc.Bisect
import Mjc.Sema.Checks

/-!
# The checks of expressions

The visit of an expression makes its checks one after the other.

* `Reads` : the declarations that the visitor looks up are those of the checks;
* `Stop.breach` : the kind of check that a visit has found failed;
* `Annotates` : an annotated expression has the type and names the stream that the checks read off;
* `visitVarRef_meets` and its like : the visit of each kind of expression;
* `visitExpr_meets` : the visit of an expression.
-/

namespace Mjc.Sema
open Mjc.Ast Mjc.Checklist SymbolTable

set_option autoImplicit false

/-! ## Lookups -/

section Sorted

variable {α : Type} {name : α → String}

/-- The first element of a name is the same after sorting. -/
theorem find?_sortByName (l : List α) (key : String) :
    (sortByName name l).find? (fun x => name x = key) = l.find? fun x => name x = key := by
  rw [← List.head?_filter, ← List.head?_filter]
  exact congrArg List.head? (Bisect.filter_insertionSort name key l)

theorem findByName_sortByName (l : List α) (key : String) :
    findByName name (sortByName name l) key = l.find? fun x => name x = key := by
  rw [findByName_eq_find? (pairwise_sortByName name l), find?_sortByName]

end Sorted

/-- The declarations that the visitor looks up are those of the checks. -/
structure Reads (cx : Context) (Γ : Env) : Prop where
  className : cx.currentClass.name = Γ.className
  fits : Γ.frame.Fits cx
  returnType : cx.currentMethod.returnType.ruleType = some Γ.returnType
  distinct : Γ.frame.Distinct
  classes : ∀ name, cx.findClassByName name = (Γ.class? name).map sortMembers

section Lookups

variable {cx : Context} {Γ : Env}

theorem class?_eq_none {name : String} : Γ.class? name = none ↔ ¬ Γ.HasClass name := by
  unfold Env.class? Env.HasClass
  simp only [List.find?_eq_none, decide_eq_true_eq, not_exists, not_and]

theorem Reads.hasClass (h : Reads cx Γ) (name : String) :
    Γ.HasClass name ↔ (cx.findClassByName name).isSome = true := by
  rw [h.classes, Option.isSome_map, ← not_iff_not, ← class?_eq_none, Bool.not_eq_true, Option.isSome_eq_false_iff,
    Option.isNone_iff_eq_none]

theorem find?_eq_some_of_nodup {α : Type} {name : α → String} {l : List α} (hl : (l.map name).Nodup) {x : α}
    (hx : x ∈ l) {key : String} (hkey : name x = key) : l.find? (fun y => name y = key) = some x := by
  obtain ⟨y, hy⟩ := Option.isSome_iff_exists.mp
    (List.find?_isSome.mpr ⟨x, hx, decide_eq_true hkey⟩ : (l.find? fun y => name y = key).isSome = true)
  have hykey : name y = key := by simpa using List.find?_some hy
  rw [hy, eq_of_name_eq hl (List.mem_of_find?_eq_some hy) hx (hykey.trans hkey.symm)]

theorem find?_eq_none_of_forall {α : Type} {name : α → String} {l : List α} {key : String}
    (h : ∀ y ∈ l, name y ≠ key) : l.find? (fun y => name y = key) = none :=
  List.find?_eq_none.mpr fun y hy hkey => h y hy (of_decide_eq_true hkey)

/-- The table binds a name as the checks say. -/
theorem Sees.eq_sees {fr : Frame} {ls : Locals} {x : String} {o : Option Definition} (h : Sees fr ls x o)
    (hfr : fr.Distinct) : o = fr.sees ls x := by
  unfold Frame.sees
  cases h with
  | «local» hl => rw [hl]
  | param hl hp hx => rw [hl, find?_eq_some_of_nodup hfr.params hp hx]
  | mainArg hl hp hs =>
    rw [hl, find?_eq_none_of_forall hp]
    exact (if_pos hs).symm
  | field hl hp hs hf hx =>
    rw [hl, find?_eq_none_of_forall hp, find?_eq_some_of_nodup hfr.fields hf hx]
    exact (if_neg hs).symm
  | nothing hl hp hs hf =>
    rw [hl, find?_eq_none_of_forall hp, find?_eq_none_of_forall hf]
    exact (if_neg hs).symm

end Lookups

/-! ## Steps -/

/-- What a visit that stops has found. -/
def Stop.breach : Stop → Breach
  | .semanticError _ => .mistake
  | .crash => .unknownReceiver

section Steps

variable {α : Type} {p : Prop} {l : List (Rule Breach)} {Q : α → Prop}

theorem error_meets (h : ¬ p) (m : Message) : Meets Stop.breach (must p :: l) Q (error m) :=
  .error (FirstBroken.here (r := must p) h)

theorem ok_meets {a : α} (h : p) (hq : Q a) : Meets Stop.breach [must p] Q (.ok a) := .ok (allHold_singleton.mpr h) hq

theorem check_meets {b : Bool} (h : b = true ↔ p) (m : Message) :
    Meets Stop.breach [must p] (fun _ => p) (check b m) := by
  unfold check
  by_cases hb : b = true
  · rw [if_pos hb]
    exact ok_meets (h.mp hb) (h.mp hb)
  · rw [if_neg hb]
    exact error_meets (fun hp => hb (h.mpr hp)) m

end Steps

/-! ## Expressions -/

/-- The stream that an annotated expression is marked as. -/
def TExpr.stream : TExpr → Option Stream
  | .varRef _ .system _ => some .system
  | .fieldAccess _ _ .systemOut _ => some .out
  | .fieldAccess _ _ .systemIn _ => some .in
  | _ => none

/-- The annotations of an expression are what the checks read off. -/
structure Annotates (Γ : Env) (ls : Locals) (e : Expr) (t : TExpr) : Prop where
  type : t.targetType.ruleType = typeOf Γ ls e
  unresolved : t.targetType.ruleType = none → t.targetType.kind = .unresolved
  stream : t.stream = streamOf Γ.frame ls e

section Expressions

variable {cx : Context} {Γ : Env} {ls : Locals} {tbl : Table}

theorem isInt_iff {t : TExpr} {e : Expr} (h : Annotates Γ ls e t) :
    t.targetType.isInt = true ↔ typeOf Γ ls e = some .int := by rw [← h.type, SemType.ruleType_isInt]

theorem isBool_iff {t : TExpr} {e : Expr} (h : Annotates Γ ls e t) :
    t.targetType.isBool = true ↔ typeOf Γ ls e = some .boolean := by rw [← h.type, SemType.ruleType_isBool]

theorem isVoid_iff {t : TExpr} {e : Expr} (h : Annotates Γ ls e t) :
    t.targetType.isVoid = true ↔ typeOf Γ ls e = some .void := by rw [← h.type, SemType.ruleType_isVoid]

theorem Annotates.of_type {e : Expr} {t : TExpr} {τ : RuleType} (ht : t.targetType.ruleType = some τ)
    (he : typeOf Γ ls e = some τ) (hs : t.stream = streamOf Γ.frame ls e) : Annotates Γ ls e t :=
  ⟨ht.trans he.symm, fun h => absurd (ht.symm.trans h) (Option.some_ne_none τ), hs⟩

theorem annotates_varRef {x : String} {d : Definition} {type : Ty} (hd : some d = Γ.frame.sees ls x)
    (ht : d.type = some type) : Annotates Γ ls (.varRef x) (.varRef x (.definition d) (semaType type)) := by
  refine .of_type (SemType.ruleType_semaType type) ?_ ?_
  · rw [typeOf, ← hd, Option.bind_some, ht]
    rfl
  · rw [streamOf, ← hd, if_neg fun h => Option.some_ne_none d h.2]
    rfl

theorem visitVarRef_meets (hf : Reads cx Γ) (hr : Rel Γ.frame ls tbl) (x : String) :
    Meets Stop.breach [must (∃ d, Resolves Γ.frame ls x d)] (Annotates Γ ls (.varRef x)) (visitVarRef cx tbl x) := by
  have hsees := hr.sees x
  have heq := hsees.eq_sees hf.distinct
  unfold visitVarRef
  generalize tbl.lookup x = o at hsees heq
  cases hsees with
  | «local» hl => exact ok_meets ⟨_, .local hl⟩ (annotates_varRef heq rfl)
  | param hl hp hx => exact ok_meets ⟨_, .param hl hp hx⟩ (annotates_varRef heq rfl)
  | mainArg hl hp hs =>
    refine error_meets ?_ _
    rintro ⟨d, hd⟩
    cases hd with
    | «local» hl' => rw [hl] at hl'; cases hl'
    | param _ hp' hx => exact hp _ hp' hx
    | field _ _ hs' => rw [hs] at hs'; cases hs'
    | system _ _ hs' => exact hs' hs
  | field hl hp hs hfield hx =>
    by_cases hmain : cx.currentMethod = .main
    · simp only [if_pos hmain]
      refine error_meets ?_ _
      rintro ⟨d, hd⟩
      cases hd with
      | «local» hl' => rw [hl] at hl'; cases hl'
      | param _ hp' hx => exact hp _ hp' hx
      | field _ _ hs' => exact hf.fits.mp hmain hs'
      | system _ _ _ hf' => exact hf' _ hfield hx
    · simp only [if_neg hmain]
      have hnone : Γ.frame.mainArg = none := not_not.mp fun h => hmain (hf.fits.mpr h)
      exact ok_meets ⟨_, .field hl hp hnone hfield hx⟩ (annotates_varRef heq rfl)
  | nothing hl hp hs hfields =>
    by_cases hx : x = "System"
    · simp only [if_pos hx]
      refine ok_meets ⟨_, .system hl hp hs hfields hx⟩ ⟨?_, fun _ => rfl, ?_⟩
      · rw [typeOf, ← heq]; rfl
      · rw [streamOf, if_pos ⟨hx, heq.symm⟩]; rfl
    · simp only [if_neg hx]
      refine error_meets ?_ _
      rintro ⟨d, hd⟩
      cases hd with
      | «local» hl' => rw [hl] at hl'; cases hl'
      | param _ hp' hx => exact hp _ hp' hx
      | field _ _ _ hf' hx => exact hfields _ hf' hx
      | system _ _ _ _ hx' => exact hx hx'

theorem visitThisLiteral_meets (hf : Reads cx Γ) :
    Meets Stop.breach [must (Γ.frame.mainArg = none)] (Annotates Γ ls .thisLiteral) (visitThisLiteral cx) := by
  unfold visitThisLiteral
  cases hm : cx.currentMethod with
  | regular _ =>
    have hnone : Γ.frame.mainArg = none := not_not.mp fun h => nomatch hm ▸ hf.fits.mpr h
    exact ok_meets hnone (.of_type (congrArg (fun name => some (RuleType.cls name)) hf.className) rfl rfl)
  | main => exact error_meets (hf.fits.mp hm) _

/-! ### Operators -/

/-- `operator>=` is assignability, and takes two unresolved types for equal. -/
theorem accepts_iff_mayAssign {t o : SemType} (ht : t.ruleType = none → t.kind = .unresolved)
    (ho : o.ruleType = none → o.kind = .unresolved) : t.accepts o = true ↔ MayAssign t.ruleType o.ruleType := by
  cases htype : t.ruleType with
  | some τ =>
    cases hother : o.ruleType with
    | some σ => exact SemType.accepts_iff htype hother
    | none =>
      refine ⟨fun h => ?_, False.elim⟩
      obtain ⟨σ, hσ⟩ := SemType.ruleType_of_accepts htype h
      rw [hother] at hσ
      cases hσ
  | none =>
    have hkind := ht htype
    have haccepts : t.accepts o = true ↔ o.kind = .unresolved := by
      unfold SemType.accepts SemType.same
      simp only [hkind, decide_eq_true_eq]
      exact eq_comm
    cases hother : o.ruleType with
    | some σ =>
      refine ⟨fun h => ?_, False.elim⟩
      have hnone : o.ruleType = none := by
        unfold SemType.ruleType
        simp only [haccepts.mp h]
      rw [hother] at hnone
      cases hnone
    | none => exact ⟨fun _ => trivial, fun _ => haccepts.mpr (ho hother)⟩

theorem Annotates.accepts {l r : TExpr} {e₁ e₂ : Expr} (hl : Annotates Γ ls e₁ l) (hr : Annotates Γ ls e₂ r) :
    l.targetType.accepts r.targetType = true ↔ MayAssign (typeOf Γ ls e₁) (typeOf Γ ls e₂) := by
  rw [← hl.type, ← hr.type]
  exact accepts_iff_mayAssign hl.unresolved hr.unresolved

theorem visitBinary_meets {op : BinaryOp} {l r : TExpr} {e₁ e₂ : Expr} (hl : Annotates Γ ls e₁ l)
    (hr : Annotates Γ ls e₂ r) (hsource : l.source = e₁) :
    Meets Stop.breach [must (OperandsFit (isLValue e₁) (typeOf Γ ls e₁) (typeOf Γ ls e₂) op)]
      (Annotates Γ ls (.binary op e₁ e₂)) (visitBinary op l r) := by
  unfold visitBinary
  cases op
  case plus | minus | mul | div | mod =>
    refine (check_meets ?_ _).then fun _ _ _ _ => ⟨_, rfl, .of_type rfl rfl rfl⟩
    rw [Bool.and_eq_true, isInt_iff hl, isInt_iff hr, and_comm]
    rfl
  case less | lessEquals | greater | greaterEquals =>
    refine (check_meets ?_ _).then fun _ _ _ _ => ⟨_, rfl, .of_type rfl rfl rfl⟩
    rw [Bool.and_eq_true, isInt_iff hl, isInt_iff hr, and_comm]
    rfl
  case or | and =>
    refine (check_meets ?_ _).then fun _ _ _ _ => ⟨_, rfl, .of_type rfl rfl rfl⟩
    rw [Bool.and_eq_true, isBool_iff hl, isBool_iff hr, and_comm]
    rfl
  case assign =>
    have hvariable : (!l.isRValue) = true ↔ isLValue e₁ = true := by
      rw [isRValue_source, hsource, Bool.not_not]
    exact Meets.and ((check_meets hvariable _).bind fun _ _ _ _ => (check_meets (hl.accepts hr) _).then
      fun _ _ _ _ => ⟨_, rfl, hl.type, hl.unresolved, rfl⟩)
  case equals | notEquals =>
    refine (check_meets ?_ _).then fun _ _ _ _ => ⟨_, rfl, .of_type rfl rfl rfl⟩
    rw [Bool.and_eq_true, Bool.and_eq_true, Bool.or_eq_true, hl.accepts hr, hr.accepts hl, Bool.not_eq_true',
      Bool.not_eq_true', ← Bool.not_eq_true, ← Bool.not_eq_true, isVoid_iff hl, isVoid_iff hr, and_assoc]
    rfl

theorem visitUnary_meets {op : UnaryOp} {t : TExpr} {e : Expr} (h : Annotates Γ ls e t) :
    Meets Stop.breach [must (typeOf Γ ls e = some (unaryType op))] (Annotates Γ ls (.unary op e))
      (visitUnary op t) := by
  unfold visitUnary
  cases op
  case neg => exact (check_meets (isInt_iff h) _).then fun _ _ _ _ => ⟨_, rfl, .of_type rfl rfl rfl⟩
  case not => exact (check_meets (isBool_iff h) _).then fun _ _ _ _ => ⟨_, rfl, .of_type rfl rfl rfl⟩

/-! ### Arrays and objects -/

theorem ruleType_element_eq {t : SemType} {elementType : BasicType} {dimension : Nat}
    (h : t.ruleType = some (.array elementType dimension)) : t.element.ruleType = elementOf t.ruleType := by
  rw [h]
  cases dimension with
  | succ n => exact SemType.ruleType_element h
  | zero =>
    have harray := SemType.isArray_of_ruleType h
    obtain ⟨kind, innerKind, name, dimension⟩ := t
    obtain rfl := of_decide_eq_true harray
    cases innerKind <;> cases h <;> rfl

theorem isArray_iff {t : TExpr} {e : Expr} (h : Annotates Γ ls e t) :
    t.targetType.isArray = true ↔ ∃ elementType dimension, typeOf Γ ls e = some (.array elementType dimension) := by
  constructor
  · intro harray
    cases htype : t.targetType.ruleType with
    | none =>
      have hkind := h.unresolved htype
      rw [of_decide_eq_true harray] at hkind
      cases hkind
    | some τ =>
      obtain ⟨elementType, rfl⟩ := SemType.ruleType_isArray harray htype
      exact ⟨elementType, _, h.type.symm.trans htype⟩
  · rintro ⟨elementType, dimension, htype⟩
    exact SemType.isArray_of_ruleType (h.type.trans htype)

theorem visitArrayAccess_meets {a i : TExpr} {e₁ e₂ : Expr} (ha : Annotates Γ ls e₁ a) (hi : Annotates Γ ls e₂ i) :
    Meets Stop.breach [must (typeOf Γ ls e₂ = some .int ∧
        ∃ elementType dimension, typeOf Γ ls e₁ = some (.array elementType dimension))]
      (Annotates Γ ls (.arrayAccess e₁ e₂)) (visitArrayAccess a i) := by
  refine Meets.and ((check_meets (isInt_iff hi) _).bind fun _ _ _ _ => (check_meets (isArray_iff ha) _).then ?_)
  rintro _ - - ⟨elementType, dimension, htype⟩
  have helement : a.targetType.element.ruleType = some (ruleElement elementType (dimension - 1)) := by
    rw [ruleType_element_eq (ha.type.trans htype), ha.type, htype]
    rfl
  refine ⟨_, rfl, .of_type helement ?_ rfl⟩
  rw [typeOf, htype]
  rfl

theorem visitNewObject_meets (hf : Reads cx Γ) (name : String) :
    Meets Stop.breach [must (Γ.HasClass name)] (Annotates Γ ls (.newObject name)) (visitNewObject cx name) :=
  (check_meets (hf.hasClass name).symm _).then fun _ _ _ _ => ⟨_, rfl, .of_type rfl rfl rfl⟩

theorem visitBasicType_meets (hc : ∀ name, Γ.HasClass name ↔ (cx.findClassByName name).isSome = true)
    (type : BasicType) :
    Meets Stop.breach [must (Γ.DeclaresBasic type)] (fun _ => True) (visitBasicType cx type) := by
  cases type with
  | primitive type => exact ok_meets trivial trivial
  | classType name => exact (check_meets (hc name).symm _).mono fun _ _ _ => trivial

theorem visitNewArray_meets {elementType : BasicType} {dimension : Nat} {s : TExpr} {e : Expr}
    (hs : Annotates Γ ls e s) :
    Meets Stop.breach [must (typeOf Γ ls e = some .int ∧ elementType ≠ .primitive .void)]
      (Annotates Γ ls (.newArray elementType dimension e)) (visitNewArray elementType dimension s) := by
  have hvoid : (!(semaType (.array elementType dimension)).isVoidOrVoidArray) = true ↔
      elementType ≠ .primitive .void := by
    rw [Bool.not_eq_true', isVoidOrVoidArray_iff]
    rfl
  exact Meets.and ((check_meets (isInt_iff hs) _).bind fun _ _ _ _ => (check_meets hvoid _).then fun _ _ _ _ =>
    ⟨_, rfl, .of_type (SemType.ruleType_semaType (.array elementType dimension)) rfl rfl⟩)

/-! ### Members -/

theorem isClass_iff {t : SemType} : t.isClass = true ↔ classOf t.ruleType ≠ none := by
  constructor
  · intro h
    rw [SemType.ruleType_isClass.mp h]
    exact Option.some_ne_none _
  · intro h
    cases htype : t.ruleType with
    | none => rw [htype] at h; exact absurd rfl h
    | some τ =>
      cases τ with
      | cls name => exact (SemType.name_of_ruleType htype).1
      | int | boolean | void | null | array => rw [htype] at h; exact absurd rfl h

theorem classOf_ruleType {t : SemType} (h : t.isClass = true) : classOf t.ruleType = some t.name := by
  rw [SemType.ruleType_isClass.mp h]
  rfl

/-- The lookup of the class of a receiver: the visitor asserts that there is one. -/
theorem object_meets {α : Type} (hf : Reads cx Γ) (t : SemType) (m : Message) {k : Ast.Class → Except Stop α}
    {l : List (Rule Breach)} {Q : α → Prop}
    (hk : ∀ c, classOf t.ruleType = some t.name → Γ.class? t.name = some c →
      Meets Stop.breach l Q (k (sortMembers c))) :
    Meets Stop.breach (objectChecks Γ t.ruleType ++ l) Q (check t.isClass m >>= fun _ =>
      match cx.findClassByName t.name with
      | none => .error .crash
      | some c => k c) := by
  refine (check_meets isClass_iff m).bind
    fun _ _ _ hclass => ?_
  have hname := classOf_ruleType (isClass_iff.mpr hclass)
  rw [hf.classes]
  cases hc : Γ.class? t.name with
  | none =>
    refine .error (FirstBroken.here (r := receiver _) fun h => ?_)
    exact class?_eq_none.mp hc (h _ hname)
  | some c =>
    refine .cons (r := receiver _) (fun C hC => ?_) (hk c hname hc)
    rw [hname] at hC
    cases hC
    by_contra hno
    rw [class?_eq_none.mpr hno] at hc
    cases hc

theorem findFieldInClass_sortMembers (c : Ast.Class) (name : String) :
    findFieldInClass (sortMembers c) name = c.fields.find? fun f => f.name = name := findByName_sortByName _ _

theorem findMethodInClass_sortMembers (c : Ast.Class) (name : String) :
    findMethodInClass (sortMembers c) name = c.methods.find? fun m => m.name = name := findByName_sortByName _ _

theorem field?_eq {C name : String} {c : Ast.Class} (h : Γ.class? C = some c) :
    Γ.field? C name = findFieldInClass (sortMembers c) name := by
  rw [Env.field?, h, findFieldInClass_sortMembers]
  rfl

theorem method?_eq {C name : String} {c : Ast.Class} (h : Γ.class? C = some c) :
    Γ.method? C name = findMethodInClass (sortMembers c) name := by
  rw [Env.method?, h, findMethodInClass_sortMembers]
  rfl

theorem visitMember_meets (hf : Reads cx Γ) {l : TExpr} {e : Expr} (hl : Annotates Γ ls e l) (name : String)
    (hs : streamOf Γ.frame ls (.fieldAccess e name) = none) :
    Meets Stop.breach (memberChecks Γ (typeOf Γ ls e) fun C => ∃ f, Γ.field? C name = some f)
      (Annotates Γ ls (.fieldAccess e name)) (visitMember cx l name) := by
  rw [← hl.type]
  unfold visitMember
  refine object_meets hf l.targetType _ fun c hname hc => ?_
  cases hfield : findFieldInClass (sortMembers c) name with
  | none =>
    refine error_meets (fun h => ?_) _
    obtain ⟨f, hfound⟩ := h _ hname
    rw [field?_eq hc, hfield] at hfound
    cases hfound
  | some f =>
    have hfound : Γ.field? l.targetType.name name = some f := (field?_eq hc).trans hfield
    refine ok_meets (fun C hC => ?_) (.of_type (SemType.ruleType_semaType f.type) ?_ hs.symm)
    · rw [hname] at hC
      cases hC
      exact ⟨f, hfound⟩
    · rw [typeOf, ← hl.type, hname, Option.bind_some, hfound]
      rfl

theorem typeOf_of_streamOf {e : Expr} {s : Stream} (h : streamOf Γ.frame ls e = some s) : typeOf Γ ls e = none := by
  induction e using Expr.induct generalizing s with
  | varRef x =>
    rw [streamOf] at h
    by_cases hx : x = "System" ∧ Γ.frame.sees ls x = none
    · rw [typeOf, hx.2]; rfl
    · rw [if_neg hx] at h; cases h
  | fieldAccess left name ih =>
    rw [streamOf] at h
    by_cases hl : streamOf Γ.frame ls left = some .system
    · rw [typeOf, ih hl]; rfl
    · rw [if_neg hl] at h; cases h
  | _ => cases h

theorem stream_system {l : TExpr} (h : l.stream = some .system) : ∃ x type, l = .varRef x .system type := by
  unfold TExpr.stream at h
  split at h
  next x type => exact ⟨x, type, rfl⟩
  all_goals cases h

theorem stream_out {l : TExpr} (h : l.stream = some .out) : ∃ x y type, l = .fieldAccess x y .systemOut type := by
  unfold TExpr.stream at h
  split at h
  case h_2 x y type => exact ⟨x, y, type, rfl⟩
  all_goals cases h

theorem stream_in {l : TExpr} (h : l.stream = some .in) : ∃ x y type, l = .fieldAccess x y .systemIn type := by
  unfold TExpr.stream at h
  split at h
  case h_3 x y type => exact ⟨x, y, type, rfl⟩
  all_goals cases h

theorem visitFieldAccess_of_stream {l : TExpr} (h : l.stream = none) (name : String) :
    visitFieldAccess cx l name = visitMember cx l name := by
  unfold visitFieldAccess
  split
  case h_4 => rfl
  all_goals cases h

theorem visitFieldAccess_meets (hf : Reads cx Γ) {l : TExpr} {e : Expr} (hl : Annotates Γ ls e l) (name : String) :
    Meets Stop.breach (accessChecks Γ ls e name) (Annotates Γ ls (.fieldAccess e name))
      (visitFieldAccess cx l name) := by
  unfold accessChecks
  have hstream := hl.stream
  cases hs : streamOf Γ.frame ls e with
  | none =>
    rw [hs] at hstream
    rw [visitFieldAccess_of_stream hstream]
    refine visitMember_meets hf hl name ?_
    rw [streamOf, hs]
    rfl
  | some s =>
    rw [hs] at hstream
    have htype : typeOf Γ ls (.fieldAccess e name) = none := by rw [typeOf, typeOf_of_streamOf hs]; rfl
    cases s with
    | system =>
      obtain ⟨x, type, rfl⟩ := stream_system hstream
      unfold visitFieldAccess
      by_cases hout : name = "out"
      · simp only [if_pos hout]
        refine ok_meets (.inl hout) ⟨htype.symm, fun _ => rfl, ?_⟩
        rw [streamOf, if_pos hs, if_pos hout]
        rfl
      · simp only [if_neg hout]
        by_cases hin : name = "in"
        · simp only [if_pos hin]
          refine ok_meets (.inr hin) ⟨htype.symm, fun _ => rfl, ?_⟩
          rw [streamOf, if_pos hs, if_neg hout, if_pos hin]
          rfl
        · simp only [if_neg hin]
          exact error_meets (fun h => h.elim hout hin) _
    | out =>
      obtain ⟨x, y, type, rfl⟩ := stream_out hstream
      exact error_meets id _
    | «in» =>
      obtain ⟨x, y, type, rfl⟩ := stream_in hstream
      exact error_meets id _

/-! ### Calls -/

theorem accepts_semaType {type : Ty} {t : TExpr} {e : Expr} (h : Annotates Γ ls e t) :
    (semaType type).accepts t.targetType = true ↔ MayAssign (some (ruleType type)) (typeOf Γ ls e) := by
  rw [← SemType.ruleType_semaType, ← h.type]
  refine accepts_iff_mayAssign (fun hnone => ?_) h.unresolved
  rw [SemType.ruleType_semaType] at hnone
  cases hnone

theorem checkArguments_meets {params : List Parameter} {args : List Expr} {ts : List TExpr}
    (ha : List.Forall₂ (Annotates Γ ls) args ts) (hlen : params.length = ts.length) :
    Meets Stop.breach [must (ArgumentsFit Γ ls params args)] (fun _ => True) (checkArguments params ts) := by
  induction ha generalizing params with
  | nil =>
    obtain rfl := List.eq_nil_of_length_eq_zero hlen
    exact ok_meets .nil trivial
  | cons ha _ ih =>
    cases params with
    | nil => cases hlen
    | cons p params =>
      rw [checkArguments]
      refine (Meets.and ((check_meets (accepts_semaType ha) _).bind fun _ _ _ _ => ih (Nat.succ.inj hlen))).congr ?_
      exact ⟨fun h => .cons h.1 h.2, List.forall₂_cons.mp⟩

theorem visitCall_meets (hf : Reads cx Γ) {l : TExpr} {e : Expr} (hl : Annotates Γ ls e l)
    (hs : streamOf Γ.frame ls e = none) (name : String) {args : List Expr} {ts : List TExpr}
    (ha : List.Forall₂ (Annotates Γ ls) args ts) :
    Meets Stop.breach (memberChecks Γ (typeOf Γ ls e) (fun C => ∃ m, Γ.method? C name = some m) ++
        [must (∀ C m, classOf (typeOf Γ ls e) = some C → Γ.method? C name = some m →
          ArgumentsFit Γ ls m.parameters args)])
      (Annotates Γ ls (.methodInvocation e name args)) (visitCall cx l name ts) := by
  rw [← hl.type, memberChecks, List.append_assoc]
  unfold visitCall
  refine object_meets hf l.targetType _ fun c hname hc => ?_
  cases hmethod : findMethodInClass (sortMembers c) name with
  | none =>
    refine error_meets (fun h => ?_) _
    obtain ⟨m, hfound⟩ := h _ hname
    rw [method?_eq hc, hmethod] at hfound
    cases hfound
  | some m =>
    have hfound : Γ.method? l.targetType.name name = some m := (method?_eq hc).trans hmethod
    refine .cons (r := must _) (fun C hC => ?_) ?_
    · rw [hname] at hC
      cases hC
      exact ⟨m, hfound⟩
    · have hlen : (m.parameters.length == ts.length) = true ↔ m.parameters.length = ts.length := beq_iff_eq
      have htype : typeOf Γ ls (.methodInvocation e name args) = some (ruleType m.returnType) := by
        rw [typeOf, hs, ← hl.type, hname]
        show (Γ.method? l.targetType.name name).map _ = _
        rw [hfound]
        rfl
      refine (Meets.and ((check_meets hlen _).bind fun _ _ _ hlen => (checkArguments_meets ha hlen).then
        fun _ _ _ _ => ⟨_, rfl, .of_type (SemType.ruleType_semaType m.returnType) htype rfl⟩)).congr ?_
      constructor
      · rintro ⟨-, hargs⟩ C m' hC hm'
        rw [hname] at hC
        cases hC
        rw [hfound] at hm'
        cases hm'
        exact hargs
      · intro h
        have hargs := h _ m hname hfound
        exact ⟨hargs.length_eq.trans ha.length_eq, hargs⟩

/-- On a variable the visitor looks for the method twice. -/
theorem visitReceiver_meets (hf : Reads cx Γ) {d : Definition} {type : Ty} (hd : d.type = some type) (name : String) :
    Meets Stop.breach (memberChecks Γ (semaType type).ruleType fun C => ∃ m, Γ.method? C name = some m)
      (fun _ => True) (visitReceiver cx d name) := by
  have hvisit : visitReceiver cx d name = (check (semaType type).isClass .invokeOnNonClass >>= fun _ =>
      match cx.findClassByName (semaType type).name with
      | none => .error .crash
      | some classDef =>
        check (findMethodInClass classDef name).isSome (.noMethodInClass (semaType type).name name)) := by
    unfold visitReceiver check
    simp only [hd]
    split <;> rfl
  rw [hvisit]
  refine object_meets hf (semaType type) _ fun c hname hc => ?_
  refine (check_meets ?_ _).mono fun _ _ _ => trivial
  rw [← method?_eq hc, Option.isSome_iff_exists]
  constructor
  · intro h C hC
    rw [hname] at hC
    cases hC
    exact h
  · exact fun h => h _ hname

theorem visitMethodInvocation_object (hf : Reads cx Γ) {l : TExpr} {e : Expr} (hv : visitExpr cx tbl e = .ok l)
    (hl : Annotates Γ ls e l) (hs : streamOf Γ.frame ls e = none) (name : String) {args : List Expr} {ts : List TExpr}
    (ha : List.Forall₂ (Annotates Γ ls) args ts) :
    Meets Stop.breach (memberChecks Γ (typeOf Γ ls e) (fun C => ∃ m, Γ.method? C name = some m) ++
        [must (∀ C m, classOf (typeOf Γ ls e) = some C → Γ.method? C name = some m →
          ArgumentsFit Γ ls m.parameters args)])
      (Annotates Γ ls (.methodInvocation e name args)) (visitMethodInvocation cx l name ts) := by
  have hstream := hl.stream
  rw [hs] at hstream
  unfold visitMethodInvocation
  split
  next => cases hstream
  next d type =>
    obtain ⟨-, hx⟩ := visitExpr_varRef hv
    rcases visitVarRef_eq_ok hx with ⟨-, -, ht⟩ | ⟨_, type', -, hd, -, ht⟩
    · cases ht
    · cases ht
      have htype : typeOf Γ ls e = (semaType type').ruleType := hl.type.symm
      have hreceiver := visitReceiver_meets hf hd name
      rw [← htype] at hreceiver
      exact hreceiver.again fun _ _ _ _ => visitCall_meets hf hl hs name ha
  next => cases hstream
  next => cases hstream
  next => exact visitCall_meets hf hl hs name ha

theorem visitSysoutArgument_meets {l : TExpr} {e : Expr} (hs : streamOf Γ.frame ls e = some .out) (name : String)
    {args : List Expr} {ts : List TExpr}
    (ha : List.Forall₂ (Annotates Γ ls) args ts) :
    Meets Stop.breach [must (∃ a, args = [a] ∧ typeOf Γ ls a = some .int)]
      (Annotates Γ ls (.methodInvocation e name args)) (visitSysoutArgument l name ts) := by
  have htype : typeOf Γ ls (.methodInvocation e name args) = some .void := by rw [typeOf, hs]
  unfold visitSysoutArgument
  match ha with
  | .nil => exact error_meets (fun ⟨_, h, _⟩ => nomatch h) _
  | .cons (a := a) (b := t) h .nil =>
    by_cases hint : t.targetType.isInt = true
    · simp only [if_pos hint]
      exact ok_meets ⟨a, rfl, (isInt_iff h).mp hint⟩ (.of_type rfl htype rfl)
    · simp only [if_neg hint]
      refine error_meets ?_ _
      rintro ⟨_, heq, htype⟩
      cases heq
      exact hint ((isInt_iff h).mpr htype)
  | .cons _ (.cons _ _) => exact error_meets (fun ⟨_, h, _⟩ => nomatch h) _

theorem visitMethodInvocation_meets (hf : Reads cx Γ) {l : TExpr} {e : Expr} (hv : visitExpr cx tbl e = .ok l)
    (hl : Annotates Γ ls e l) (name : String) {args : List Expr} {ts : List TExpr}
    (ha : List.Forall₂ (Annotates Γ ls) args ts) :
    Meets Stop.breach (callChecks Γ ls e name args) (Annotates Γ ls (.methodInvocation e name args))
      (visitMethodInvocation cx l name ts) := by
  unfold callChecks
  have hstream := hl.stream
  cases hs : streamOf Γ.frame ls e with
  | none => exact visitMethodInvocation_object hf hv hl hs name ha
  | some s =>
    rw [hs] at hstream
    have hempty : ts.isEmpty = true ↔ args = [] := by
      cases ha with
      | nil => exact ⟨fun _ => rfl, fun _ => rfl⟩
      | cons => exact ⟨Bool.noConfusion, fun h => absurd h (List.cons_ne_nil _ _)⟩
    cases s with
    | system =>
      obtain ⟨x, type, rfl⟩ := stream_system hstream
      exact error_meets id _
    | out =>
      obtain ⟨x, y, type, rfl⟩ := stream_out hstream
      have htype : typeOf Γ ls (.methodInvocation e name args) = some .void := by rw [typeOf, hs]
      unfold visitMethodInvocation
      by_cases hprint : name = "println" ∨ name = "write"
      · have hflush : name ≠ "flush" := by rcases hprint with rfl | rfl <;> decide
        rw [if_pos (by simpa using hprint)]
        refine (visitSysoutArgument_meets hs name ha).congr ⟨fun h => .inl ⟨hprint, h⟩, ?_⟩
        exact fun h => h.elim And.right fun h => absurd h.1 hflush
      · rw [if_neg (by simpa using hprint)]
        by_cases hflush : name = "flush"
        · rw [if_pos hflush]
          refine ((check_meets hempty _).then fun _ _ _ _ => ⟨_, rfl, .of_type rfl htype rfl⟩).congr ?_
          exact ⟨fun h => .inr ⟨hflush, h⟩, fun h => h.elim (fun h => absurd h.1 hprint) And.right⟩
        · rw [if_neg hflush]
          exact error_meets (fun h => h.elim (fun h => hprint h.1) fun h => hflush h.1) _
    | «in» =>
      obtain ⟨x, y, type, rfl⟩ := stream_in hstream
      have htype : typeOf Γ ls (.methodInvocation e name args) = some .int := by rw [typeOf, hs]
      unfold visitMethodInvocation
      by_cases hread : name = "read"
      · rw [if_pos hread]
        refine ((check_meets hempty _).then fun _ _ _ _ => ⟨_, rfl, .of_type rfl htype rfl⟩).congr ?_
        exact ⟨fun h => ⟨hread, h⟩, And.right⟩
      · rw [if_neg hread]
        exact error_meets (fun h => hread h.1) _

/-! ### All expressions -/

theorem visitExprs_meets_of {l : List Expr}
    (ih : ∀ e ∈ l, Meets Stop.breach (exprChecks Γ ls e) (Annotates Γ ls e) (visitExpr cx tbl e)) :
    Meets Stop.breach (exprsChecks Γ ls l) (List.Forall₂ (Annotates Γ ls) l) (visitExprs cx tbl l) := by
  induction l with
  | nil => rw [visitExprs]; exact .pure .nil
  | cons e l ihl =>
    rw [visitExprs, exprsChecks]
    refine (ih e List.mem_cons_self).bind fun t _ _ ht => ?_
    exact (ihl fun e he => ih e (List.mem_cons_of_mem _ he)).then fun ts _ _ hts => ⟨_, rfl, .cons ht hts⟩

theorem visitExpr_meets (hf : Reads cx Γ) (hr : Rel Γ.frame ls tbl) (e : Expr) :
    Meets Stop.breach (exprChecks Γ ls e) (Annotates Γ ls e) (visitExpr cx tbl e) := by
  induction e using Expr.induct with
  | intLiteral | boolLiteral | nullLiteral => rw [visitExpr]; exact .pure (.of_type rfl rfl rfl)
  | thisLiteral => rw [visitExpr]; exact visitThisLiteral_meets hf
  | varRef name => rw [visitExpr]; exact visitVarRef_meets hf hr name
  | methodInvocation left name args ihl iha =>
    rw [visitExpr, exprChecks]
    refine ihl.bind fun l hl _ hleft => (visitExprs_meets_of iha).bind fun ts _ _ hts => ?_
    exact visitMethodInvocation_meets hf hl hleft name hts
  | fieldAccess left name ih =>
    rw [visitExpr, exprChecks]
    exact ih.bind fun l _ _ hl => visitFieldAccess_meets hf hl name
  | arrayAccess array index iha ihi =>
    rw [visitExpr, exprChecks]
    exact iha.bind fun a _ _ ha => ihi.bind fun i _ _ hi => visitArrayAccess_meets ha hi
  | newObject name => rw [visitExpr]; exact visitNewObject_meets hf name
  | newArray elementType dimension size ih =>
    rw [visitExpr, exprChecks]
    refine (visitBasicType_meets hf.hasClass elementType).bind fun _ _ _ _ => ?_
    exact ih.bind fun s _ _ hs => visitNewArray_meets hs
  | binary op left right ihl ihr =>
    rw [visitExpr, exprChecks]
    exact ihl.bind fun l hl _ hleft => ihr.bind fun r _ _ hright => visitBinary_meets hleft hright (visitExpr_source hl)
  | unary op e ih =>
    rw [visitExpr, exprChecks]
    exact ih.bind fun t _ _ ht => visitUnary_meets ht

/-- An expression that may be missing, with its annotations. -/
def OptAnnotates (Γ : Env) (ls : Locals) : Option Expr → Option TExpr → Prop
  | none, none => True
  | some e, some t => Annotates Γ ls e t
  | _, _ => False

theorem visitOptExpr_meets (hf : Reads cx Γ) (hr : Rel Γ.frame ls tbl) (o : Option Expr) :
    Meets Stop.breach (optExprChecks Γ ls o) (OptAnnotates Γ ls o) (visitOptExpr cx tbl o) := by
  cases o with
  | none => exact .pure trivial
  | some e => exact (visitExpr_meets hf hr e).then fun t _ _ ht => ⟨_, rfl, ht⟩

end Expressions

end Mjc.Sema

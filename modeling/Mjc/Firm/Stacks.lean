import Mjc.Firm.Visitor
import Mjc.Sema.Typing

/-!
# The stacks of graph construction

* `exprVisits`, `stmtVisits`, `programVisits` : what is visited, an expression with whether control flow is wanted of it;
  the receivers of the calls on `System.out` and `System.in` are left out;
* `Pushes`, `visits_push` : the visit of a well-typed expression pushes one value, if no `System` dummy is visited on the
  way;
* `Keeps`, `stmtVisits_balanced` : the visit of a statement then leaves the stacks as they are;
* `Balanced`, `balanced_iff` : the stacks are balanced exactly on the programs without such a dummy.
-/

namespace Mjc.FirmVisitor
open Mjc.Ast Mjc.Sema Mjc.Firm

set_option autoImplicit false

-- the equations of the visits, generated once for all the proofs below
attribute [local simp] visitExpr visitStmt

/-! ## What is visited -/

/-- `System`, `System.out` and `System.in`: the expressions whose visit pushes nothing. -/
def isSystem : TExpr → Bool
  | .varRef _ .system _ => true
  | .fieldAccess _ _ .systemOut _ => true
  | .fieldAccess _ _ .systemIn _ => true
  | _ => false

/-- What a binary operator wants of its operands: control flow, or a value. -/
def wantsBool : BinaryOp → Bool
  | .or | .and => true
  | _ => false

mutual

/-- The expressions that are visited for the parts of an expression; `b` says whether control flow is wanted of it. -/
def partVisits (b : Bool) : TExpr → List (TExpr × Bool)
  | .methodInvocation _ _ args .sysout _ => argVisits b args
  | .methodInvocation left _ args (.method _) _ => (left, false) :: partVisits false left ++ argVisits false args
  | .fieldAccess _ _ .systemOut _ | .fieldAccess _ _ .systemIn _ => []
  | .fieldAccess left _ (.field _) _ => (left, false) :: partVisits false left
  | .arrayAccess array index _ =>
    ((array, false) :: partVisits false array) ++ ((index, false) :: partVisits false index)
  | .newArray _ _ size _ => (size, false) :: partVisits false size
  | .binary op l r _ =>
    ((l, wantsBool op) :: partVisits (wantsBool op) l) ++ ((r, wantsBool op) :: partVisits (wantsBool op) r)
  | .unary .not e _ => (e, true) :: partVisits true e
  | .unary .neg e _ => (e, b) :: partVisits b e
  | .intLiteral _ | .boolLiteral _ | .nullLiteral | .thisLiteral _ | .varRef _ _ _ | .newObject _ _ => []

/-- The expressions that are visited for the arguments of a call. -/
def argVisits (b : Bool) : List TExpr → List (TExpr × Bool)
  | [] => []
  | e :: l => ((e, b) :: partVisits b e) ++ argVisits b l

end

attribute [local simp] partVisits

/-- The expressions that are visited for an expression, itself included. -/
def exprVisits (b : Bool) (e : TExpr) : List (TExpr × Bool) := (e, b) :: partVisits b e

/-- No `System` dummy is visited. -/
def Plain (b : Bool) (e : TExpr) : Prop := ∀ v ∈ exprVisits b e, isSystem v.1 = false

/-- Control flow is only wanted of conditions. -/
def Wanted (b : Bool) (e : TExpr) : Prop := b = true → e.targetType.isBool = true

/-- The mode of the values of a type. -/
def valueMode (t : SemType) : Mode :=
  match t.kind with
  | .int => .Is
  | .bool => .Bu
  | _ => .P

/-- What the visit of an expression pushes: nothing but a null pointer, if control flow is wanted or there is no value,
and otherwise a value of its type, which can be stored to if it is the left side of an assignment. -/
structure Pushed (b : Bool) (e : TExpr) (v : Value) : Prop where
  null : b = true ∨ e.targetType.isVoid = true → v = .rvalue none
  load : b = false → e.targetType.isVoid = false → v.load = some (valueMode e.targetType)
  store : b = false → e.isRValue = false → v.store = .ok ()

/-! ## Helpers -/

section Helpers

variable {b : Bool} {ns : List Value} {r : List Bool} {gs : List String}

theorem getIrMode_good {t : SemType} (h : t.Good) : getIrMode t = .ok (valueMode t) := by
  unfold getIrMode valueMode
  rcases h with h | ⟨h, -⟩
  · revert h
    cases t.kind <;> first | (intro; rfl) | (intro h; cases h)
  · rw [h]

theorem valueMode_bool {t : SemType} (h : t.isBool = true) : valueMode t = .Bu := by
  have hk : t.kind = .bool := of_decide_eq_true h
  rw [valueMode, hk]

theorem valueMode_int {t : SemType} (h : t.isInt = true) : valueMode t = .Is := by
  have hk : t.kind = .int := of_decide_eq_true h
  rw [valueMode, hk]

theorem valueMode_array {t : SemType} (h : t.isArray = true) : valueMode t = .P := by
  have hk : t.kind = .array := of_decide_eq_true h
  rw [valueMode, hk]

theorem valueMode_class {t : SemType} (h : t.isClass = true) : valueMode t = .P := by
  have hk : t.kind = .cls := of_decide_eq_true h
  rw [valueMode, hk]

theorem isVoid_of_kind {t : SemType} {k : TypeKind} (h : t.kind = k) (hk : k ≠ .void) : t.isVoid = false := by
  unfold SemType.isVoid
  rw [h]
  exact decide_eq_false hk

theorem isVoid_of_isInt {t : SemType} (h : t.isInt = true) : t.isVoid = false :=
  isVoid_of_kind (of_decide_eq_true h) (by decide)

theorem isVoid_of_isBool {t : SemType} (h : t.isBool = true) : t.isVoid = false :=
  isVoid_of_kind (of_decide_eq_true h) (by decide)

theorem isVoid_of_isArray {t : SemType} (h : t.isArray = true) : t.isVoid = false :=
  isVoid_of_kind (of_decide_eq_true h) (by decide)

theorem isVoid_of_isClass {t : SemType} (h : t.isClass = true) : t.isVoid = false :=
  isVoid_of_kind (of_decide_eq_true h) (by decide)

theorem isBool_of_isVoid {t : SemType} (h : t.isVoid = true) : t.isBool = false := by
  have hk : t.kind = .void := of_decide_eq_true h
  unfold SemType.isBool
  rw [hk]
  rfl

theorem isVoid_of_isValue {t : SemType} (h : t.isValue = true) : t.isVoid = false := by
  refine isVoid_of_kind rfl fun hk => ?_
  unfold SemType.isValue at h
  rw [hk] at h
  cases h

theorem valueMode_of_accepts {t o : SemType} (h : t.accepts o = true) : valueMode o = valueMode t := by
  unfold valueMode
  rcases SemType.accepts_kind h with hk | ⟨hn, hk | hk⟩
  · rw [hk]
  · rw [hn, hk]
  · rw [hn, hk]

/-- Variables, fields and elements have the types of variables. -/
theorem good_of_lvalue {e : TExpr} (h : Typed e) (hs : isSystem e = false) (hr : e.isRValue = false) :
    e.targetType.Good := by
  cases h with
  | varRef _ hg => exact hg
  | fieldAccess _ _ ht => exact ht
  | arrayAccess ha _ _ harray => exact (ha.good_of_isArray harray).element harray
  | system => cases hs
  | systemStream hd => rcases hd with rfl | rfl <;> cases hs
  | _ => cases hr

/-- `pushValue` of a value of the right mode. -/
theorem pushValue_eq {v : Value} {m : Mode} (hv : v.load = some m) (hb : b = true → m = .Bu) :
    pushValue v ⟨ns, b :: r, gs⟩ = .ok ⟨(if b then .rvalue none else v) :: ns, b :: r, gs⟩ := by
  cases b with
  | false => rfl
  | true =>
    rw [hb rfl] at hv
    unfold pushValue booleanToControlFlow
    rw [hv]
    rfl

/-- The value that `pushValue` leaves is the one of an expression of that type. -/
theorem pushed_of_value {e : TExpr} {v : Value} (hv : v.load = some (valueMode e.targetType)) (hw : Wanted b e)
    (hvoid : e.targetType.isVoid = false) (hs : e.isRValue = false → v.store = .ok ()) (ns : List Value)
    (r : List Bool) (gs : List String) :
    pushValue v ⟨ns, b :: r, gs⟩ = .ok ⟨(if b then .rvalue none else v) :: ns, b :: r, gs⟩ ∧
      Pushed b e (if b then .rvalue none else v) := by
  refine ⟨pushValue_eq hv fun hb => valueMode_bool (hw hb), ?_⟩
  cases b with
  | false =>
    refine ⟨?_, fun _ _ => hv, fun _ => hs⟩
    rintro (h | h)
    · cases h
    · rw [hvoid] at h; cases h
  | true => exact ⟨fun _ => rfl, fun h => (nomatch h), fun h => (nomatch h)⟩

/-- The value of an expression of which control flow is never wanted. -/
theorem pushed_rvalue {e : TExpr} {m : Mode} (hm : valueMode e.targetType = m) (hw : Wanted b e)
    (hbool : e.targetType.isBool = false) (hvoid : e.targetType.isVoid = false) (hr : e.isRValue = true) :
    Pushed b e (.rvalue (some m)) := by
  have hb : b = false := by
    cases b with
    | false => rfl
    | true => have := hw rfl; rw [hbool] at this; cases this
  subst hb
  refine ⟨?_, fun _ _ => congrArg some hm.symm, fun _ h => ?_⟩
  · rintro (h | h)
    · cases h
    · rw [hvoid] at h; cases h
  · rw [hr] at h; cases h

/-- `&&`, `||`, `!`, comparisons and boolean literals. -/
theorem pushCondition_eq {e : TExpr} (hbool : e.targetType.isBool = true) (hr : e.isRValue = true) :
    ∃ v, pushCondition ⟨ns, b :: r, gs⟩ = .ok ⟨v :: ns, b :: r, gs⟩ ∧ Pushed b e v := by
  cases b with
  | false =>
    refine ⟨_, rfl, ?_, fun _ _ => ?_, fun _ h => ?_⟩
    · rintro (h | h)
      · cases h
      · rw [isVoid_of_isBool hbool] at h; cases h
    · rw [valueMode_bool hbool]; rfl
    · rw [hr] at h; cases h
  | true => exact ⟨_, rfl, fun _ => rfl, fun h => (nomatch h), fun h => (nomatch h)⟩

end Helpers

/-! ## One value for each expression -/

/-- The visit of `e` pushes one value, whatever the stacks hold. -/
def Pushes (b : Bool) (e : TExpr) : Prop :=
  ∀ ns r gs, ∃ v, visitExpr e ⟨ns, b :: r, gs⟩ = .ok ⟨v :: ns, b :: r, gs⟩ ∧ Pushed b e v

section Pushing

variable {b : Bool}

theorem ok_bind {ε α β : Type} (a : α) (f : α → Except ε β) : (Except.ok a >>= f) = f a := rfl

theorem Plain.of_mem {b b' : Bool} {e e' : TExpr} (h : Plain b e) (hsub : exprVisits b' e' ⊆ partVisits b e) :
    Plain b' e' :=
  fun v hv => h v (List.mem_cons_of_mem _ (hsub hv))

theorem argVisits_subset {b : Bool} {l : List TExpr} {a : TExpr} (ha : a ∈ l) : exprVisits b a ⊆ argVisits b l := by
  induction l with
  | nil => cases ha
  | cons e l ih =>
    rw [argVisits]
    rcases List.mem_cons.mp ha with rfl | ha
    · exact List.subset_append_left _ _
    · exact fun v hv => List.mem_append_right _ (ih ha hv)

theorem forall_mem_argVisits {b : Bool} {l : List TExpr} {P : TExpr × Bool → Prop}
    (h : ∀ a ∈ l, ∀ v ∈ exprVisits b a, P v) : ∀ v ∈ argVisits b l, P v := by
  induction l with
  | nil => rw [argVisits]; exact List.forall_mem_nil _
  | cons e l ih =>
    rw [argVisits]
    exact List.forall_mem_append.mpr ⟨h e List.mem_cons_self, ih fun a ha => h a (List.mem_cons_of_mem _ ha)⟩

theorem wanted_false (e : TExpr) : Wanted false e := fun h => nomatch h

/-- An operand whose value is wanted, and popped at once. -/
theorem Pushes.value {e : TExpr} (h : Pushes false e) (hvoid : e.targetType.isVoid = false) (ns : List Value)
    (r : List Bool) (gs : List String) :
    ∃ v, visitExpr e ⟨ns, false :: r, gs⟩ = .ok ⟨v :: ns, false :: r, gs⟩ ∧
      v.load = some (valueMode e.targetType) := by
  obtain ⟨v, hv, hp⟩ := h ns r gs
  exact ⟨v, hv, hp.load rfl hvoid⟩

/-- An operand that becomes control flow. -/
theorem Pushes.condition {e : TExpr} (h : Pushes true e) (ns : List Value) (r : List Bool) (gs : List String) :
    visitExpr e ⟨ns, true :: r, gs⟩ = .ok ⟨.rvalue none :: ns, true :: r, gs⟩ := by
  obtain ⟨v, hv, hp⟩ := h ns r gs
  rw [hv, hp.null (.inl rfl)]

theorem popArguments_eq {args : List TExpr} (h : ∀ a ∈ args, Pushes false a)
    (hv : ∀ a ∈ args, a.targetType.isValue = true) (ns : List Value) (r : List Bool) (gs : List String) :
    popArguments args ⟨ns, false :: r, gs⟩ = .ok ⟨ns, false :: r, gs⟩ := by
  induction args with
  | nil => rw [popArguments]
  | cons a l ih =>
    obtain ⟨v, hva, hload⟩ := (h a List.mem_cons_self).value (isVoid_of_isValue (hv a List.mem_cons_self)) ns r gs
    rw [popArguments, hva]
    simp only [ok_bind, popNode, hload, nonNull]
    exact ih (fun a ha => h a (List.mem_cons_of_mem _ ha)) fun a ha => hv a (List.mem_cons_of_mem _ ha)

theorem visitExpr_logical {op : BinaryOp} (h : wantsBool op = true) (l r : TExpr) (type : SemType) (st : St) :
    visitExpr (.binary op l r type) st = (do
      let st ← visitExpr l (pushRequires true st)
      let st ← popCondition st
      let st ← visitExpr r (pushRequires true st)
      let st ← popCondition st
      pushCondition st) := by
  cases op with
  | or | and => rw [visitExpr]
  | _ => cases h

theorem visitExpr_operator {op : BinaryOp} (h : wantsBool op = false) (l r : TExpr) (type : SemType) (st : St) :
    visitExpr (.binary op l r type) st = (do
      let st ← visitExpr l (pushRequires false st)
      let (leftNode, st) ← popNode st
      let st ← visitExpr r st
      let (rightNode, st) ← popNode st
      let st ← popRequiresBoolInfo st
      let out ← outNode op leftNode rightNode
      pushOutNode out st) := by
  cases op with
  | or | and => cases h
  | _ => rw [visitExpr] <;> nofun

/-- An operator whose operands are values: what is left is `outNode`. -/
theorem operator_pushes {op : BinaryOp} (hop : wantsBool op = false) {l r : TExpr} {type : SemType}
    (hl : Pushes false l) (hr : Pushes false r)
    (h : ∀ v₁ v₂, Pushed false l v₁ → Pushed false r v₂ → ∀ ns rs gs,
      ∃ v, (outNode op v₁ v₂ >>= fun out => pushOutNode out ⟨ns, b :: rs, gs⟩) = .ok ⟨v :: ns, b :: rs, gs⟩ ∧
        Pushed b (.binary op l r type) v) : Pushes b (.binary op l r type) := by
  intro ns rs gs
  rw [visitExpr_operator hop]
  obtain ⟨v₁, hv₁, hp₁⟩ := hl ns (b :: rs) gs
  obtain ⟨v₂, hv₂, hp₂⟩ := hr ns (b :: rs) gs
  simp only [pushRequires, hv₁, hv₂, ok_bind, popNode, popRequiresBoolInfo]
  exact h v₁ v₂ hp₁ hp₂ ns rs gs

theorem binary_pushes {op : BinaryOp} {l r : TExpr} {type : SemType} (h : BinaryTyped op l r type) (hlt : Typed l)
    (hls : isSystem l = false) (hl : Pushes (wantsBool op) l) (hr : Pushes (wantsBool op) r)
    (hw : Wanted b (.binary op l r type)) : Pushes b (.binary op l r type) := by
  cases h with
  | logical hop hlb hrb =>
    have hb : wantsBool op = true := by rcases hop with rfl | rfl <;> rfl
    rw [hb] at hl hr
    intro ns rs gs
    rw [visitExpr_logical hb]
    simp only [pushRequires, hl.condition, hr.condition, ok_bind, popCondition, popNode, Value.load, Option.isNone_none,
      assert, if_true, popRequiresBoolInfo]
    exact pushCondition_eq (e := .binary op l r .bool) rfl rfl
  | arithmetic hop hli hri =>
    have hb : wantsBool op = false := by rcases hop with rfl | rfl | rfl | rfl | rfl <;> rfl
    rw [hb] at hl hr
    refine operator_pushes hb hl hr fun v₁ v₂ hp₁ hp₂ ns rs gs => ?_
    have hload₁ := hp₁.load rfl (isVoid_of_isInt hli)
    have hload₂ := hp₂.load rfl (isVoid_of_isInt hri)
    rw [valueMode_int hli] at hload₁
    rw [valueMode_int hri] at hload₂
    have hout : outNode op v₁ v₂ = .ok (.value (some .Is)) := by
      rcases hop with rfl | rfl | rfl | rfl | rfl <;> simp only [outNode, hload₁, hload₂, nonNull] <;> rfl
    obtain ⟨hpush, hpushed⟩ := pushed_of_value (e := .binary op l r .int) (v := .rvalue (some .Is)) rfl hw rfl
      (by intro h; cases h) ns rs gs
    exact ⟨_, by rw [hout]; exact hpush, hpushed⟩
  | order hop hli hri =>
    have hb : wantsBool op = false := by rcases hop with rfl | rfl | rfl | rfl <;> rfl
    rw [hb] at hl hr
    refine operator_pushes hb hl hr fun v₁ v₂ hp₁ hp₂ ns rs gs => ?_
    have hload₁ := hp₁.load rfl (isVoid_of_isInt hli)
    have hload₂ := hp₂.load rfl (isVoid_of_isInt hri)
    have hout : outNode op v₁ v₂ = .ok .cond := by
      rcases hop with rfl | rfl | rfl | rfl <;> simp only [outNode, hload₁, hload₂, nonNull] <;> rfl
    rw [hout]
    exact pushCondition_eq (e := .binary op l r .bool) rfl rfl
  | equality hop hlv hrv hacc =>
    have hb : wantsBool op = false := by rcases hop with rfl | rfl <;> rfl
    rw [hb] at hl hr
    refine operator_pushes hb hl hr fun v₁ v₂ hp₁ hp₂ ns rs gs => ?_
    have hload₁ := hp₁.load rfl hlv
    have hload₂ := hp₂.load rfl hrv
    have hout : outNode op v₁ v₂ = .ok .cond := by
      rcases hop with rfl | rfl <;> simp only [outNode, hload₁, hload₂, nonNull] <;> rfl
    rw [hout]
    exact pushCondition_eq (e := .binary op l r .bool) rfl rfl
  | assign hlv hacc =>
    refine operator_pushes rfl hl hr fun v₁ v₂ hp₁ hp₂ ns rs gs => ?_
    have hgood := good_of_lvalue hlt hls hlv
    have hload := hp₂.load rfl (isVoid_of_isValue (hgood.accepts_isValue hacc))
    rw [valueMode_of_accepts hacc] at hload
    have hout : outNode .assign v₁ v₂ = .ok (.value (some (valueMode l.targetType))) := by
      simp only [outNode, hp₁.store rfl hlv, hload]
      rfl
    obtain ⟨hpush, hpushed⟩ := pushed_of_value (e := .binary .assign l r l.targetType)
      (v := .rvalue (some (valueMode l.targetType))) rfl hw hgood.not_void (by intro h; cases h) ns rs gs
    exact ⟨_, by rw [hout]; exact hpush, hpushed⟩

theorem not_wanted {e : TExpr} (hw : Wanted b e) (h : e.targetType.isBool = false) : b = false := by
  cases b with
  | false => rfl
  | true => have hb := hw rfl; rw [h] at hb; cases hb

/-- `visitVarRef` of a definition is `pushValue` of what it denotes. -/
theorem visitVarRef_eq {d : Definition} {type : Ty} (hd : d.type = some type) (hg : (semaType type).Good)
    (hb : b = true → (semaType type).isBool = true) (ns : List Value) (r : List Bool) (gs : List String) :
    ∃ w : Value, w.load = some (valueMode (semaType type)) ∧ w.store = .ok () ∧
      visitVarRef (.definition d) ⟨ns, b :: r, gs⟩ = pushValue w ⟨ns, b :: r, gs⟩ := by
  have hmode : b = true → valueMode (semaType type) = .Bu := fun h => valueMode_bool (hb h)
  have hpush (w : Value) (hw : w.load = some (valueMode (semaType type))) :
      (do
        if b && decide (w.load = some Mode.Bu) then
          booleanToControlFlow w.load
          return pushNode (.rvalue none) (St.mk ns (b :: r) gs)
        else return pushNode w ⟨ns, b :: r, gs⟩) = pushValue w ⟨ns, b :: r, gs⟩ := by
    cases b with
    | false => rfl
    | true =>
      rw [hw, hmode rfl, pushValue, hw, hmode rfl]
      rfl
  cases d with
  | mainArg => cases hd
  | parameter _ _ | «variable» _ _ =>
    cases hd
    refine ⟨.varValue (valueMode (semaType type)), rfl, rfl, ?_⟩
    rw [← hpush _ rfl, visitVarRef]
    simp only [getIrMode_good hg]
    rfl
  | field _ =>
    cases hd
    refine ⟨.fieldValue (valueMode (semaType type)), rfl, rfl, ?_⟩
    rw [← hpush _ rfl, visitVarRef]
    simp only [getIrMode_good hg]
    rfl

theorem varRef_pushes {name : String} {d : Definition} {type : Ty} (hd : d.type = some type)
    (hg : (semaType type).Good) (hw : Wanted b (.varRef name (.definition d) (semaType type))) :
    Pushes b (.varRef name (.definition d) (semaType type)) := by
  intro ns r gs
  obtain ⟨w, hload, hstore, hvisit⟩ := visitVarRef_eq hd hg hw ns r gs
  rw [visitExpr, hvisit]
  exact ⟨_, pushed_of_value hload hw hg.not_void (fun _ => hstore) ns r gs⟩

theorem sysoutCall_pushes {x : TExpr} {y name : String} {d : AccessDef} {type₁ type : SemType} {args : List TExpr}
    (h : SysoutCall d name args type) (ha : ∀ a ∈ args, Pushes false a) :
    Pushes false (.methodInvocation (.fieldAccess x y d type₁) name args .sysout type) := by
  intro ns r gs
  cases h with
  | println hint | write hint =>
    obtain ⟨v, hv, hload⟩ := (ha _ List.mem_cons_self).value (isVoid_of_isInt hint) ns r gs
    simp only [visitExpr, visitArguments, hv, ok_bind, visitSysout, popNode, hload, nonNull]
    exact ⟨_, rfl, fun _ => rfl, fun _ h => (nomatch h), fun _ h => (nomatch h)⟩
  | flush =>
    simp only [visitExpr, visitArguments, ok_bind, visitSysout]
    exact ⟨_, rfl, fun _ => rfl, fun _ h => (nomatch h), fun _ h => (nomatch h)⟩
  | read =>
    simp only [visitExpr, visitArguments, ok_bind, visitSysout]
    exact ⟨_, rfl, pushed_rvalue rfl (wanted_false _) rfl rfl rfl⟩

theorem call_pushes {left : TExpr} {name className : String} {args : List TExpr} {type : SemType}
    (hl : Pushes false left) (hc : left.targetType.isClass = true) (ha : ∀ a ∈ args, Pushes false a)
    (hv : ∀ a ∈ args, a.targetType.isValue = true) (ht : type.Good ∨ type.isVoid = true)
    (hw : Wanted b (.methodInvocation left name args (.method className) type)) :
    Pushes b (.methodInvocation left name args (.method className) type) := by
  intro ns r gs
  obtain ⟨v, hvl, hload⟩ := hl.value (isVoid_of_isClass hc) ns (b :: r) gs
  simp only [visitExpr, hc, assert, if_true, ok_bind, pushRequires, hvl, popNode, hload, nonNull,
    popArguments_eq ha hv, popRequiresBoolInfo]
  unfold visitResult
  by_cases hvoid : type.isVoid = true
  · rw [if_pos hvoid]
    have hb := not_wanted hw (isBool_of_isVoid hvoid)
    subst hb
    exact ⟨_, rfl, fun _ => rfl, fun _ h => absurd hvoid (Bool.eq_false_iff.mp h), fun _ h => (nomatch h)⟩
  · rw [if_neg hvoid]
    have hg : type.Good := ht.resolve_right hvoid
    simp only [getIrMode_good hg, ok_bind]
    exact ⟨_, pushed_of_value rfl hw hg.not_void (fun h => nomatch h) ns r gs⟩

theorem fieldAccess_pushes {left : TExpr} {name className : String} {type : SemType} (hl : Pushes false left)
    (hc : left.targetType.isClass = true) (ht : type.Good) (hw : Wanted b (.fieldAccess left name (.field className) type)) :
    Pushes b (.fieldAccess left name (.field className) type) := by
  intro ns r gs
  obtain ⟨v, hvl, hload⟩ := hl.value (isVoid_of_isClass hc) ns (b :: r) gs
  rw [valueMode_class hc] at hload
  simp only [visitExpr, pushRequires, hvl, ok_bind, popRequiresBoolInfo, popNode, hload, nonNull, assert, decide_true,
    if_true, getIrMode_good ht]
  exact ⟨_, pushed_of_value rfl hw ht.not_void (fun _ => rfl) ns r gs⟩

theorem arrayAccess_pushes {array index : TExpr} (ha : Pushes false array) (hi : Pushes false index)
    (hint : index.targetType.isInt = true) (harray : array.targetType.isArray = true)
    (hg : array.targetType.element.Good) (hw : Wanted b (.arrayAccess array index array.targetType.element)) :
    Pushes b (.arrayAccess array index array.targetType.element) := by
  intro ns r gs
  obtain ⟨v, hva, hload⟩ := ha.value (isVoid_of_isArray harray) ns (b :: r) gs
  obtain ⟨w, hwi, hwload⟩ := hi.value (isVoid_of_isInt hint) ns (b :: r) gs
  rw [valueMode_array harray] at hload
  simp only [visitExpr, pushRequires, hva, hwi, ok_bind, popRequiresBoolInfo, popNode, hload, hwload, nonNull, assert,
    decide_true, if_true, getIrMode_good hg]
  exact ⟨_, pushed_of_value rfl hw hg.not_void (fun _ => rfl) ns r gs⟩

theorem newArray_pushes {elementType : BasicType} {dimension : Nat} {size : TExpr} (hs : Pushes false size)
    (hint : size.targetType.isInt = true) :
    Pushes false (.newArray elementType dimension size (semaType (.array elementType dimension))) := by
  intro ns r gs
  obtain ⟨v, hv, hload⟩ := hs.value (isVoid_of_isInt hint) ns (false :: r) gs
  simp only [visitExpr, pushRequires, hv, ok_bind, popRequiresBoolInfo, popNode, hload, nonNull]
  exact ⟨_, rfl, pushed_rvalue rfl (wanted_false _) rfl rfl rfl⟩

theorem not_pushes {e : TExpr} (he : Pushes true e) : Pushes b (.unary .not e .bool) := by
  intro ns r gs
  simp only [visitExpr, pushRequires, he.condition, ok_bind, popCondition, popNode, Value.load, Option.isNone_none, assert,
    if_true, popRequiresBoolInfo]
  exact pushCondition_eq rfl rfl

theorem neg_pushes {e : TExpr} (he : Pushes false e) (hint : e.targetType.isInt = true) :
    Pushes false (.unary .neg e .int) := by
  intro ns r gs
  obtain ⟨v, hv, hload⟩ := he.value (isVoid_of_isInt hint) ns r gs
  rw [valueMode_int hint] at hload
  simp only [visitExpr, hv, ok_bind, popNode, hload, nonNull]
  exact ⟨_, rfl, pushed_rvalue rfl (wanted_false _) rfl rfl rfl⟩

theorem BinaryTyped.wanted {op : BinaryOp} {l r : TExpr} {type : SemType} (h : BinaryTyped op l r type) :
    Wanted (wantsBool op) l ∧ Wanted (wantsBool op) r := by
  cases h with
  | logical hop hl hr => exact ⟨fun _ => hl, fun _ => hr⟩
  | arithmetic hop => rcases hop with rfl | rfl | rfl | rfl | rfl <;> exact ⟨wanted_false _, wanted_false _⟩
  | order hop => rcases hop with rfl | rfl | rfl | rfl <;> exact ⟨wanted_false _, wanted_false _⟩
  | equality hop => rcases hop with rfl | rfl <;> exact ⟨wanted_false _, wanted_false _⟩
  | assign => exact ⟨wanted_false _, wanted_false _⟩

/-- Every visit of an expression pushes one value, if no `System` dummy is visited on the way. -/
theorem visits_push {e : TExpr} (h : Typed e) (hw : Wanted b e) (hp : Plain b e) :
    ∀ v ∈ exprVisits b e, Pushes v.2 v.1 := by
  -- the operands come first; what the node itself pushes is computed from what they push
  induction h generalizing b with
  | intLiteral value | nullLiteral | thisLiteral name | newObject name =>
    intro v hv
    rw [exprVisits, partVisits, List.mem_singleton] at hv
    subst hv
    intro ns r gs
    rw [visitExpr]
    exact ⟨_, rfl, pushed_rvalue rfl hw rfl rfl rfl⟩
  | boolLiteral value =>
    intro v hv
    rw [exprVisits, partVisits, List.mem_singleton] at hv
    subst hv
    intro ns r gs
    rw [visitExpr]
    exact pushCondition_eq rfl rfl
  | varRef hd hg =>
    intro v hv
    rw [exprVisits, partVisits, List.mem_singleton] at hv
    subst hv
    exact varRef_pushes hd hg hw
  | system name => cases hp _ List.mem_cons_self
  | systemStream hd => rcases hd with rfl | rfl <;> cases hp _ List.mem_cons_self
  | sysoutCall h ha iha =>
    have hb : b = false := not_wanted hw (by cases h <;> rfl)
    subst hb
    have hargs := fun a ham => iha a ham (wanted_false _)
      (hp.of_mem (by rw [partVisits]; exact argVisits_subset ham))
    rw [exprVisits, partVisits]
    refine List.forall_mem_cons.mpr ⟨?_, forall_mem_argVisits hargs⟩
    exact sysoutCall_pushes h fun a ham => hargs a ham _ List.mem_cons_self
  | call hl hc ha hv ht ihl iha =>
    have hleft := ihl (wanted_false _) (hp.of_mem (by rw [partVisits]; exact List.subset_append_left _ _))
    have hargs := fun a ham => iha a ham (wanted_false _) (hp.of_mem (by
      rw [partVisits]
      exact List.Subset.trans (argVisits_subset ham) (List.subset_append_right _ _)))
    rw [exprVisits, partVisits]
    refine List.forall_mem_cons.mpr ⟨?_, List.forall_mem_append.mpr ⟨hleft, forall_mem_argVisits hargs⟩⟩
    exact call_pushes (hleft _ List.mem_cons_self) hc (fun a ham => hargs a ham _ List.mem_cons_self) hv ht hw
  | fieldAccess hl hc ht ihl =>
    have hleft := ihl (wanted_false _) (hp.of_mem (by rw [partVisits]; exact List.Subset.refl _))
    rw [exprVisits, partVisits]
    exact List.forall_mem_cons.mpr ⟨fieldAccess_pushes (hleft _ List.mem_cons_self) hc ht hw, hleft⟩
  | arrayAccess ha hi hint harray iha ihi =>
    have harr := iha (wanted_false _) (hp.of_mem (by rw [partVisits]; exact List.subset_append_left _ _))
    have hidx := ihi (wanted_false _) (hp.of_mem (by rw [partVisits]; exact List.subset_append_right _ _))
    rw [exprVisits, partVisits]
    refine List.forall_mem_cons.mpr ⟨?_, List.forall_mem_append.mpr ⟨harr, hidx⟩⟩
    exact arrayAccess_pushes (harr _ List.mem_cons_self) (hidx _ List.mem_cons_self) hint harray
      ((ha.good_of_isArray harray).element harray) hw
  | newArray hs hint ht ihs =>
    have hb : b = false := not_wanted hw rfl
    subst hb
    have hsize := ihs (wanted_false _) (hp.of_mem (by rw [partVisits]; exact List.Subset.refl _))
    rw [exprVisits, partVisits]
    exact List.forall_mem_cons.mpr ⟨newArray_pushes (hsize _ List.mem_cons_self) hint, hsize⟩
  | @binary op l r type hl hr h ihl ihr =>
    have hleft := ihl (b := wantsBool op) (BinaryTyped.wanted h).1
      (hp.of_mem (by rw [partVisits]; exact List.subset_append_left _ _))
    have hright := ihr (b := wantsBool op) (BinaryTyped.wanted h).2
      (hp.of_mem (by rw [partVisits]; exact List.subset_append_right _ _))
    rw [exprVisits, partVisits]
    refine List.forall_mem_cons.mpr ⟨?_, List.forall_mem_append.mpr ⟨hleft, hright⟩⟩
    have hls : isSystem l = false := hp (l, wantsBool op) (by rw [exprVisits, partVisits]; simp)
    exact binary_pushes h hl hls (hleft _ List.mem_cons_self) (hright _ List.mem_cons_self) hw
  | neg he h ihe =>
    have hb : b = false := not_wanted hw rfl
    subst hb
    have hexpr := ihe (wanted_false _) (hp.of_mem (by rw [partVisits]; exact List.Subset.refl _))
    rw [exprVisits, partVisits]
    exact List.forall_mem_cons.mpr ⟨neg_pushes (hexpr _ List.mem_cons_self) h, hexpr⟩
  | not he h ihe =>
    have hexpr := ihe (b := true) (fun _ => h) (hp.of_mem (by rw [partVisits]; exact List.Subset.refl _))
    rw [exprVisits, partVisits]
    exact List.forall_mem_cons.mpr ⟨not_pushes (hexpr _ List.mem_cons_self), hexpr⟩

end Pushing

/-! ## Statements -/

/-- The expressions of a statement itself. -/
def ownVisits : TStmt → List (TExpr × Bool)
  | .block _ _ _ _ => []
  | .varDecl _ _ _ initializer => initializer.toList.flatMap (exprVisits false)
  | .exprStmt expression => exprVisits false expression
  | .ifStmt condition _ _ _ => exprVisits true condition
  | .whileStmt condition _ => exprVisits true condition
  | .returnStmt expression => expression.toList.flatMap (exprVisits false)

mutual

/-- The statements that are visited for a statement, itself included; the erased ones are not. -/
def stmtVisits : TStmt → List TStmt
  | .block statements erased lonely cfb => .block statements erased lonely cfb :: stmtsVisits statements
  | .varDecl type name idx initializer => [.varDecl type name idx initializer]
  | .exprStmt expression => [.exprStmt expression]
  | .ifStmt condition thenStmt elseStmt cfb =>
    .ifStmt condition thenStmt elseStmt cfb :: (optVisits thenStmt ++ optVisits elseStmt)
  | .whileStmt condition statement => .whileStmt condition statement :: optVisits statement
  | .returnStmt expression => [.returnStmt expression]

/-- The statements that are visited for the statements of a block. -/
def stmtsVisits : List TStmt → List TStmt
  | [] => []
  | s :: l => stmtVisits s ++ stmtsVisits l

/-- The statements that are visited for a branch. -/
def optVisits : Option TStmt → List TStmt
  | none => []
  | some s => stmtVisits s

end

/-- No statement visited for `s` visits a `System` dummy. -/
def PlainStmt (s : TStmt) : Prop := ∀ s' ∈ stmtVisits s, ∀ v ∈ ownVisits s', isSystem v.1 = false

/-- The visit of `s` leaves both stacks as they are. -/
def Keeps (s : TStmt) : Prop :=
  ∀ ns r gs, visitStmt s ⟨ns, false :: r, gs⟩ = .ok ⟨ns, false :: r, gs⟩

/-- What holds of a statement that is visited. -/
def BalancedStmt (s : TStmt) : Prop := Keeps s ∧ ∀ v ∈ ownVisits s, Pushes v.2 v.1

section Statements

theorem mem_stmtVisits_self (s : TStmt) : s ∈ stmtVisits s := by
  cases s <;> simp only [stmtVisits] <;> exact List.mem_cons_self

theorem stmtVisits_subset {l : List TStmt} {s : TStmt} (hs : s ∈ l) : stmtVisits s ⊆ stmtsVisits l := by
  induction l with
  | nil => cases hs
  | cons t l ih =>
    rw [stmtsVisits]
    rcases List.mem_cons.mp hs with rfl | hs
    · exact List.subset_append_left _ _
    · exact fun v hv => List.mem_append_right _ (ih hs hv)

theorem forall_mem_stmtsVisits {l : List TStmt} {P : TStmt → Prop} (h : ∀ s ∈ l, ∀ s' ∈ stmtVisits s, P s') :
    ∀ s' ∈ stmtsVisits l, P s' := by
  induction l with
  | nil => rw [stmtsVisits]; exact List.forall_mem_nil _
  | cons s l ih =>
    rw [stmtsVisits]
    exact List.forall_mem_append.mpr ⟨h s List.mem_cons_self, ih fun s hs => h s (List.mem_cons_of_mem _ hs)⟩

theorem forall_mem_optVisits {o : Option TStmt} {P : TStmt → Prop} (h : ∀ s ∈ o, ∀ s' ∈ stmtVisits s, P s') :
    ∀ s' ∈ optVisits o, P s' := by
  cases o with
  | none => rw [optVisits]; exact List.forall_mem_nil _
  | some s => rw [optVisits]; exact h s rfl

theorem stmtVisits_subset_opt {o : Option TStmt} {s : TStmt} (hs : s ∈ o) : stmtVisits s ⊆ optVisits o := by
  cases hs
  rw [optVisits]
  exact List.Subset.refl _

theorem visitStmts_keeps {l : List TStmt} (h : ∀ s ∈ l, Keeps s) (ns : List Value) (r : List Bool) (gs : List String) :
    visitStmts l ⟨ns, false :: r, gs⟩ = .ok ⟨ns, false :: r, gs⟩ := by
  induction l with
  | nil => rw [visitStmts]
  | cons s l ih =>
    rw [visitStmts, h s List.mem_cons_self, ok_bind]
    exact ih fun s hs => h s (List.mem_cons_of_mem _ hs)

theorem visitOptStmt_keeps {o : Option TStmt} (h : ∀ s ∈ o, Keeps s) (ns : List Value) (r : List Bool)
    (gs : List String) : visitOptStmt o ⟨ns, false :: r, gs⟩ = .ok ⟨ns, false :: r, gs⟩ := by
  cases o with
  | none => rw [visitOptStmt]
  | some s => rw [visitOptStmt]; exact h s rfl ns r gs

theorem visitCondition_keeps {c : TExpr} (h : Pushes true c) (ns : List Value) (r : List Bool) (gs : List String) :
    visitCondition c ⟨ns, false :: r, gs⟩ = .ok ⟨ns, false :: r, gs⟩ := by
  unfold visitCondition
  simp only [pushRequires, h.condition, ok_bind, popCondition, popNode, Value.load, Option.isNone_none, assert, if_true,
    popRequiresBoolInfo]

theorem exprStmt_keeps {e : TExpr} (h : Pushes false e) : Keeps (.exprStmt e) := by
  intro ns r gs
  obtain ⟨v, hv, -⟩ := h ns r gs
  simp only [visitStmt, hv, ok_bind, popNode]
  rfl

theorem varDecl_keeps {type : Ty} {name : String} {idx : Nat} {o : Option TExpr}
    (h : ∀ e ∈ o, Pushes false e ∧ e.targetType.isValue = true) : Keeps (.varDecl type name idx o) := by
  intro ns r gs
  rw [visitStmt]
  cases o with
  | none => rfl
  | some e =>
    obtain ⟨he, hvalue⟩ := h e rfl
    obtain ⟨v, hv, hload⟩ := he.value (isVoid_of_isValue hvalue) ns r gs
    simp only [visitVariableDeclaration, hv, ok_bind, popNode, hload, nonNull]
    rfl

theorem returnStmt_keeps {o : Option TExpr} (h : ∀ e ∈ o, Pushes false e ∧ e.targetType.isValue = true) :
    Keeps (.returnStmt o) := by
  intro ns r gs
  rw [visitStmt]
  cases o with
  | none => rfl
  | some e =>
    obtain ⟨he, hvalue⟩ := h e rfl
    obtain ⟨v, hv, hload⟩ := he.value (isVoid_of_isValue hvalue) ns (false :: r) gs
    simp only [visitReturnStatement, pushRequires, hv, ok_bind, popRequiresBoolInfo, popNode, hload, nonNull]
    rfl

theorem PlainStmt.own {s : TStmt} (h : PlainStmt s) : ∀ v ∈ ownVisits s, isSystem v.1 = false :=
  h s (mem_stmtVisits_self s)

/-- The expression of a declaration or a `return`. -/
theorem optExpr_visits_push {o : Option TExpr} (h : ∀ e ∈ o, Typed e ∧ e.targetType.isValue = true)
    (hp : ∀ v ∈ o.toList.flatMap (exprVisits false), isSystem v.1 = false) :
    (∀ v ∈ o.toList.flatMap (exprVisits false), Pushes v.2 v.1) ∧
      ∀ e ∈ o, Pushes false e ∧ e.targetType.isValue = true := by
  cases o with
  | none => exact ⟨fun v hv => (nomatch hv), fun e he => (nomatch he)⟩
  | some e =>
    simp only [Option.toList_some, List.flatMap_singleton] at hp ⊢
    obtain ⟨he, hvalue⟩ := h e rfl
    have hpush := visits_push he (wanted_false e) hp
    refine ⟨hpush, fun e' he' => ?_⟩
    cases he'
    exact ⟨hpush _ List.mem_cons_self, hvalue⟩

/-- Every visit of a statement leaves the stacks as they are, if no `System` dummy is visited on the way. -/
theorem stmtVisits_balanced {s : TStmt} (h : TypedStmt s) (hp : PlainStmt s) : ∀ s' ∈ stmtVisits s, BalancedStmt s' := by
  induction h with
  | @block ss es lonely cfb _ ih =>
    have hsub : ∀ s ∈ ss, ∀ s' ∈ stmtVisits s, BalancedStmt s' := by
      intro s hs
      refine ih s hs fun s' hs' => hp s' ?_
      rw [stmtVisits]
      exact List.mem_cons_of_mem _ (stmtVisits_subset hs hs')
    have hkeeps : Keeps (.block ss es lonely cfb) := by
      intro ns r gs
      rw [visitStmt]
      exact visitStmts_keeps (fun s hs => (hsub s hs s (mem_stmtVisits_self s)).1) ns r gs
    rw [stmtVisits]
    exact List.forall_mem_cons.mpr ⟨⟨hkeeps, fun v hv => (nomatch hv)⟩, forall_mem_stmtsVisits hsub⟩
  | varDecl h =>
    obtain ⟨hpush, he⟩ := optExpr_visits_push h hp.own
    rw [stmtVisits]
    exact List.forall_mem_singleton.mpr ⟨varDecl_keeps he, hpush⟩
  | exprStmt h =>
    have hpush := visits_push h (wanted_false _) hp.own
    rw [stmtVisits]
    exact List.forall_mem_singleton.mpr ⟨exprStmt_keeps (hpush _ List.mem_cons_self), hpush⟩
  | @ifStmt c t₁ t₂ cfb hc hb _ _ ih₁ ih₂ =>
    have hpush := visits_push hc (fun _ => hb) hp.own
    have hthen : ∀ s ∈ t₁, ∀ s' ∈ stmtVisits s, BalancedStmt s' := by
      intro s hs
      refine ih₁ s hs fun s' hs' => hp s' ?_
      rw [stmtVisits]
      exact List.mem_cons_of_mem _ (List.mem_append_left _ (stmtVisits_subset_opt hs hs'))
    have helse : ∀ s ∈ t₂, ∀ s' ∈ stmtVisits s, BalancedStmt s' := by
      intro s hs
      refine ih₂ s hs fun s' hs' => hp s' ?_
      rw [stmtVisits]
      exact List.mem_cons_of_mem _ (List.mem_append_right _ (stmtVisits_subset_opt hs hs'))
    have hkeeps : Keeps (.ifStmt c t₁ t₂ cfb) := by
      intro ns r gs
      rw [visitStmt, visitCondition_keeps (hpush _ List.mem_cons_self), ok_bind,
        visitOptStmt_keeps fun s hs => (hthen s hs s (mem_stmtVisits_self s)).1, ok_bind]
      exact visitOptStmt_keeps (fun s hs => (helse s hs s (mem_stmtVisits_self s)).1) ns r gs
    rw [stmtVisits]
    exact List.forall_mem_cons.mpr ⟨⟨hkeeps, hpush⟩,
      List.forall_mem_append.mpr ⟨forall_mem_optVisits hthen, forall_mem_optVisits helse⟩⟩
  | @whileStmt c t hc hb _ ih =>
    have hpush := visits_push hc (fun _ => hb) hp.own
    have hbody : ∀ s ∈ t, ∀ s' ∈ stmtVisits s, BalancedStmt s' := by
      intro s hs
      refine ih s hs fun s' hs' => hp s' ?_
      rw [stmtVisits]
      exact List.mem_cons_of_mem _ (stmtVisits_subset_opt hs hs')
    have hkeeps : Keeps (.whileStmt c t) := by
      intro ns r gs
      rw [visitStmt, visitCondition_keeps (hpush _ List.mem_cons_self), ok_bind]
      exact visitOptStmt_keeps (fun s hs => (hbody s hs s (mem_stmtVisits_self s)).1) ns r gs
    rw [stmtVisits]
    exact List.forall_mem_cons.mpr ⟨⟨hkeeps, hpush⟩, forall_mem_optVisits hbody⟩
  | returnStmt h =>
    obtain ⟨hpush, he⟩ := optExpr_visits_push h hp.own
    rw [stmtVisits]
    exact List.forall_mem_singleton.mpr ⟨returnStmt_keeps he, hpush⟩

end Statements

/-! ## Programs -/

/-- The bodies of the methods of a program. -/
def bodies (t : TProgram) : List TStmt :=
  t.classes.flatMap fun c => c.methods.map TRegularMethod.body ++ c.mainMethods.map TMainMethod.body

/-- The statements that are visited for a program. -/
def programStmts (t : TProgram) : List TStmt := (bodies t).flatMap stmtVisits

/-- The expressions that are visited for a program, each with whether control flow is wanted of it. -/
def programVisits (t : TProgram) : List (TExpr × Bool) := (programStmts t).flatMap ownVisits

/-- The stacks are balanced: every visited expression pushes exactly one value, a null pointer where control flow is
wanted or there is no value; every visited statement leaves the stacks as they are; and the construction ends, with an
empty node stack and a graph for each method. -/
structure Balanced (t : TProgram) : Prop where
  exprs : ∀ v ∈ programVisits t, Pushes v.2 v.1
  stmts : ∀ s ∈ programStmts t, Keeps s
  ends : visitProgram t = .ok ⟨[], [false], graphEntities t⟩

theorem visitMethod_keeps {body : TStmt} (h : Keeps body) (entity : String) (ns : List Value) (r : List Bool)
    (gs : List String) :
    visitMethod entity body ⟨ns, false :: r, gs⟩ = .ok ⟨ns, false :: r, gs ++ [entity]⟩ := by
  unfold visitMethod
  rw [h, ok_bind]
  rfl

/-- A loop over methods. -/
theorem foldlM_visitMethod {α : Type} {entity : α → String} {body : α → TStmt} {l : List α} (h : ∀ m ∈ l, Keeps (body m))
    (ns : List Value) (r : List Bool) (gs : List String) :
    l.foldlM (fun st m => visitMethod (entity m) (body m) st) (St.mk ns (false :: r) gs) =
      .ok ⟨ns, false :: r, gs ++ l.map entity⟩ := by
  induction l generalizing gs with
  | nil => rw [List.map_nil, List.append_nil]; rfl
  | cons m l ih =>
    rw [List.foldlM_cons, visitMethod_keeps (h m List.mem_cons_self), ok_bind,
      ih fun m hm => h m (List.mem_cons_of_mem _ hm), List.map_cons, List.append_assoc, List.singleton_append]

theorem visitClassMembers_keeps {c : TClass} (hm : ∀ m ∈ c.methods, Keeps m.body) (hs : ∀ m ∈ c.mainMethods, Keeps m.body)
    (ns : List Value) (r : List Bool) (gs : List String) :
    visitClassMembers c ⟨ns, false :: r, gs⟩ = .ok ⟨ns, false :: r, gs ++ classEntities c⟩ := by
  unfold visitClassMembers visitRegularMethod visitMainMethod classEntities
  rw [foldlM_visitMethod hm, ok_bind, foldlM_visitMethod hs, List.append_assoc]

theorem mem_bodies {t : TProgram} {c : TClass} (hc : c ∈ t.classes) :
    (∀ m ∈ c.methods, m.body ∈ bodies t) ∧ ∀ m ∈ c.mainMethods, m.body ∈ bodies t := by
  constructor
  · intro m hm
    exact List.mem_flatMap.mpr ⟨c, hc, List.mem_append_left _ (List.mem_map_of_mem hm)⟩
  · intro m hm
    exact List.mem_flatMap.mpr ⟨c, hc, List.mem_append_right _ (List.mem_map_of_mem hm)⟩

theorem visitProgram_keeps {t : TProgram} (h : ∀ s ∈ bodies t, Keeps s) :
    visitProgram t = .ok ⟨[], [false], graphEntities t⟩ := by
  have hclasses : ∀ l : List TClass, (∀ c ∈ l, c ∈ t.classes) → ∀ gs,
      l.foldlM (fun st c => visitClassMembers c st) (St.mk [] [false] gs) =
        .ok ⟨[], [false], gs ++ l.flatMap classEntities⟩ := by
    intro l hl
    induction l with
    | nil => intro gs; rw [List.flatMap_nil, List.append_nil]; rfl
    | cons c l ih =>
      intro gs
      obtain ⟨hm, hs⟩ := mem_bodies (hl c List.mem_cons_self)
      rw [List.foldlM_cons, visitClassMembers_keeps (fun m hmem => h _ (hm m hmem)) fun m hmem => h _ (hs m hmem),
        ok_bind, ih fun c hc => hl c (List.mem_cons_of_mem _ hc), List.flatMap_cons, List.append_assoc]
  unfold visitProgram initial
  rw [hclasses t.classes (fun c hc => hc), ok_bind, List.nil_append]
  rfl

theorem bodies_typed {p : Program} {t : TProgram} (h : ProgramVisited p t) : ∀ s ∈ bodies t, TypedStmt s := by
  intro s hs
  obtain ⟨c, hc, hs⟩ := List.mem_flatMap.mp hs
  rcases List.mem_append.mp hs with hs | hs
  · obtain ⟨m, hm, rfl⟩ := List.mem_map.mp hs
    exact (h.typed hc).1 m hm
  · obtain ⟨m, hm, rfl⟩ := List.mem_map.mp hs
    exact (h.typed hc).2 m hm

/-- The visit of a `System` dummy pushes nothing. -/
theorem visitExpr_isSystem {e : TExpr} (h : isSystem e = true) (st : St) : visitExpr e st = .ok st := by
  cases e with
  | varRef name ref type =>
    cases ref with
    | system => rw [visitExpr]; rfl
    | definition d => cases h
  | fieldAccess left name d type =>
    cases d with
    | systemOut | systemIn => rw [visitExpr]
    | field c => cases h
  | _ => cases h

/-- Every statement of an accepted program is balanced, if no `System` dummy is visited. -/
theorem programStmts_balanced {p : Program} {t : TProgram} (h : ProgramVisited p t)
    (hplain : ∀ v ∈ programVisits t, isSystem v.1 = false) : ∀ s ∈ programStmts t, BalancedStmt s := by
  intro s hs
  obtain ⟨s₀, hs₀, hs⟩ := List.mem_flatMap.mp hs
  refine stmtVisits_balanced (bodies_typed h s₀ hs₀) (fun s' hs' v hv => ?_) s hs
  exact hplain v (List.mem_flatMap.mpr ⟨s', List.mem_flatMap.mpr ⟨s₀, hs₀, hs'⟩, hv⟩)

/-- Then a graph is built for each method. -/
theorem visitProgram_of_plain {p : Program} {t : TProgram} (h : ProgramVisited p t)
    (hplain : ∀ v ∈ programVisits t, isSystem v.1 = false) : visitProgram t = .ok ⟨[], [false], graphEntities t⟩ :=
  visitProgram_keeps fun s hs =>
    (programStmts_balanced h hplain s (List.mem_flatMap.mpr ⟨s, hs, mem_stmtVisits_self s⟩)).1

/-- Graph construction of an accepted program keeps its stacks balanced exactly if no `System`, `System.out` or
`System.in` is visited outside of the calls of `println`, `write`, `flush` and `read`. -/
theorem balanced_iff {p : Program} {t : TProgram} (h : Sema.visitProgram p = .ok t) :
    Balanced t ↔ ∀ v ∈ programVisits t, isSystem v.1 = false := by
  constructor
  · intro hbal v hv
    by_contra hsys
    obtain ⟨w, hw, -⟩ := hbal.exprs v hv [] [] []
    rw [visitExpr_isSystem (Bool.eq_true_of_not_eq_false hsys)] at hw
    cases hw
  · intro hplain
    have hbal := programStmts_balanced (visitProgram_visited h) hplain
    refine ⟨fun v hv => ?_, fun s hs => (hbal s hs).1, visitProgram_of_plain (visitProgram_visited h) hplain⟩
    obtain ⟨s, hs, hv⟩ := List.mem_flatMap.mp hv
    exact (hbal s hs).2 v hv

/-- A main method with one statement. -/
def mainWith (s : Stmt) : Program := ⟨[⟨"A", [], [], [⟨"main", "args", ⟨[s], false⟩⟩]⟩]⟩

/-- `System.out.println(1);` -/
def printlnStatement : Program :=
  mainWith (.exprStmt (.methodInvocation (.fieldAccess (.varRef "System") "out") "println" [.intLiteral 1]))

theorem balanced_printlnStatement : ∃ t, Sema.visitProgram printlnStatement = .ok t ∧ Balanced t :=
  ⟨_, rfl, (balanced_iff (p := printlnStatement) rfl).mpr (by decide +kernel)⟩

/-- `System;` -/
def systemStatement : Program := mainWith (.exprStmt (.varRef "System"))

/-- The program is accepted, and `popNode` is called on an empty stack. -/
theorem not_balanced_systemStatement :
    ∃ t, Sema.visitProgram systemStatement = .ok t ∧ visitProgram t = .error .emptyStack ∧ ¬ Balanced t := by
  have hfails : visitProgram ⟨[⟨"A", [], [], [⟨"main", "args",
      .block [.exprStmt (.varRef "System" .system .unresolved)] [] false .mayContinue, 0⟩]⟩]⟩ = .error .emptyStack := by
    decide +kernel
  refine ⟨_, rfl, hfails, fun hbal => ?_⟩
  have hends := hfails.symm.trans hbal.ends
  cases hends

end Mjc.FirmVisitor

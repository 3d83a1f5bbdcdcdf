import Mjc.Asm.Lower

/-!
# The slots of a lowered sequence

* `root x` : the node whose slot a chain of `Conv` nodes shares;
* `SlotInv` : two nodes have the same slot only if they have the same root;
* `placeOf`, `codeOf` : the operand of a node and the code of a node, given all slots. What the generator emits
  is this code at the slots given out at the end (`lower_spec`), since a slot never changes.
-/

namespace Mjc.Asm
open Mjc.Firm StackSlotManager

set_option autoImplicit false

/-- The node whose slot a node shares. -/
def root (nodes : List Node) (x : Nat) : Nat :=
  match nodes[x]? with
  | some (.conv _ c) => if isConst nodes c = false ∧ c < x then root nodes c else x
  | _ => x
termination_by x
decreasing_by omega

/-- Where a node's value is read from. -/
inductive Place where
  | imm (value : Int)
  | slot (offset : Int)

def Place.op : Place → Op
  | .imm value => .imm value
  | .slot offset => .ind .bp .R offset

/-- The place of a node. -/
def placeOf (nodes : List Node) (σ : Nat → Option Int) (x : Nat) : Place :=
  match immOf nodes x with
  | some v => .imm v
  | none => .slot ((σ x).getD 0)

/-- The code of a node at given operands. -/
def codeOf (nodes : List Node) (op : Nat → Op) (i : Nat) : Node → List Instr
  | .const _ _ => []
  | .add _ l r =>
    if isConst nodes r then binaryCode .Add (op l) (op r) (op i) else binaryCode .Add (op r) (op l) (op i)
  | .sub _ l r => binaryCode .Sub (op l) (op r) (op i)
  | .mul _ l r => binaryCode .IMul (op r) (op l) (op i)
  | .minus m x => minusCode (getRegMode m) (op x) (op i)
  | .div l r => divisionCode .ax (op l) (op r) (op i)
  | .mod l r => divisionCode .dx (op l) (op r) (op i)
  | .conv _ _ => []
  | .load m p => loadCode (getRegMode m) (op p) (op i)
  | .store m v p => storeCode (getRegMode m) (op p) (op v)

/-- The slots given out so far, to nodes below `b`. -/
structure SlotInv (nodes : List Node) (b : Nat) (s : StackSlotManager) : Prop where
  current : ∃ c : Nat, s.currentOffset = 8 * c + 8
  range : ∀ x o, s.offsets x = some o → ∃ k : Nat, o = -(8 * k + 8) ∧ 8 * (k : Int) + 8 < s.currentOffset
  fresh : ∀ x, b ≤ x → s.offsets x = none
  root_eq : ∀ x o, s.offsets x = some o → s.offsets (root nodes x) = some o
  inj : ∀ x y o, s.offsets x = some o → s.offsets y = some o → root nodes x = root nodes y

/-- Every node below `i` that has a value and is no immediate has a slot. -/
def HasSlots (nodes : List Node) (i : Nat) (s : StackSlotManager) : Prop :=
  ∀ x n, x < i → nodes[x]? = some n → n.mode ≠ none → immOf nodes x = none → s.offsets x ≠ none

section
variable {nodes : List Node} {b i : Nat} {s s' : StackSlotManager}

theorem SlotInv.init (nodes : List Node) : SlotInv nodes 0 StackSlotManager.init :=
  { current := ⟨0, rfl⟩
    range := fun _ _ h => nomatch h
    fresh := fun _ _ => rfl
    root_eq := fun _ _ h => nomatch h
    inj := fun _ _ _ h => nomatch h }

theorem SlotInv.mono (h : SlotInv nodes b s) {b' : Nat} (hb : b ≤ b') : SlotInv nodes b' s :=
  { h with fresh := fun x hx => h.fresh x (Nat.le_trans hb hx) }

theorem HasSlots.ext (h : HasSlots nodes i s) (he : Ext s s') : HasSlots nodes i s' := by
  intro x n hx hn hm himm hnone
  obtain ⟨o, ho⟩ := Option.ne_none_iff_exists'.1 (h x n hx hn hm himm)
  rw [he x o ho] at hnone
  cases hnone

/-- The next free slot goes to a node that is its own root. -/
theorem SlotInv.alloc (h : SlotInv nodes b s) {x : Nat} (hx : x < b) (hroot : root nodes x = x)
    (hnone : s.offsets x = none) :
    SlotInv nodes b { s with
      offsets := Function.update s.offsets x (some (-s.currentOffset))
      currentOffset := s.currentOffset + 8 } := by
  obtain ⟨c, hc⟩ := h.current
  have hnew : ∀ y o, s.offsets y = some o → o ≠ -s.currentOffset := by
    intro y o hy he
    obtain ⟨k, rfl, hk⟩ := h.range y o hy
    omega
  have hold : ∀ y o, y ≠ x → Function.update s.offsets x (some (-s.currentOffset)) y = some o →
      s.offsets y = some o := by
    intro y o hy ho
    rwa [Function.update_of_ne hy] at ho
  have hself : ∀ o, Function.update s.offsets x (some (-s.currentOffset)) x = some o →
      o = -s.currentOffset := by
    intro o ho
    rw [Function.update_self] at ho
    exact (Option.some.inj ho).symm
  refine ⟨⟨c + 1, by dsimp only; omega⟩, ?_, ?_, ?_, ?_⟩
  · intro y o ho
    by_cases hy : y = x
    · subst hy
      exact ⟨c, by rw [hself o ho, hc], by dsimp only; omega⟩
    · obtain ⟨k, hk, hlt⟩ := h.range y o (hold y o hy ho)
      exact ⟨k, hk, by dsimp only; omega⟩
  · intro y hy
    have hne : y ≠ x := by omega
    show Function.update s.offsets x _ y = none
    rw [Function.update_of_ne hne, h.fresh y hy]
  · intro y o ho
    by_cases hy : y = x
    · subst hy
      rw [hroot]
      exact ho
    · have hr := h.root_eq y o (hold y o hy ho)
      have hne : root nodes y ≠ x := by
        intro he
        rw [he, hnone] at hr
        cases hr
      show Function.update s.offsets x _ (root nodes y) = some o
      rw [Function.update_of_ne hne, hr]
  · intro y z o hy hz
    by_cases hyx : y = x
    · by_cases hzx : z = x
      · rw [hyx, hzx]
      · subst hyx
        exact absurd (hself o hy) (hnew z o (hold z o hzx hz))
    · by_cases hzx : z = x
      · subst hzx
        exact absurd (hself o hz) (hnew y o (hold y o hyx hy))
      · exact h.inj y z o (hold y o hyx hy) (hold z o hzx hz)

/-- A `Conv` gets the slot of its operand. -/
theorem SlotInv.copy (h : SlotInv nodes i s) {x : Nat} {o : Int} (ho : s.offsets x = some o)
    (hroot : root nodes i = root nodes x) (hlt : root nodes i < i) :
    SlotInv nodes (i + 1) { s with offsets := Function.update s.offsets i (some o) } := by
  -- every slot of the new manager is one of the old one, at a node with the same root
  have hold : ∀ y o', Function.update s.offsets i (some o) y = some o' →
      ∃ z, s.offsets z = some o' ∧ root nodes z = root nodes y := by
    intro y o' hy
    by_cases hyi : y = i
    · subst hyi
      rw [Function.update_self] at hy
      cases hy
      exact ⟨x, ho, hroot.symm⟩
    · rw [Function.update_of_ne hyi] at hy
      exact ⟨y, hy, rfl⟩
  refine ⟨h.current, ?_, ?_, ?_, ?_⟩
  · intro y o' hy
    obtain ⟨z, hz, -⟩ := hold y o' hy
    exact h.range z o' hz
  · intro y hy
    show Function.update s.offsets i _ y = none
    rw [Function.update_of_ne (by omega)]
    exact h.fresh y (by omega)
  · intro y o' hy
    obtain ⟨z, hz, hzy⟩ := hold y o' hy
    have hr := h.root_eq z o' hz
    rw [hzy] at hr
    have hne : root nodes y ≠ i := by
      intro he
      rw [he, h.fresh i (Nat.le_refl i)] at hr
      cases hr
    show Function.update s.offsets i _ (root nodes y) = some o'
    rw [Function.update_of_ne hne, hr]
  · intro y z o' hy hz
    obtain ⟨y', hy', hyr⟩ := hold y o' hy
    obtain ⟨z', hz', hzr⟩ := hold z o' hz
    rw [← hyr, ← hzr]
    exact h.inj y' z' o' hy' hz'

theorem getStackSlot_spec (h : SlotInv nodes b s) {x : Nat} (hx : x < b)
    (hroot : s.offsets x ≠ none ∨ root nodes x = x) :
    ∃ o s', getStackSlot x s = some (o, s') ∧ Ext s s' ∧ s'.offsets x = some o ∧ SlotInv nodes b s' := by
  unfold getStackSlot
  cases ho : s.offsets x with
  | some o => exact ⟨o, s, rfl, .refl s, ho, h⟩
  | none =>
    have hroot' : root nodes x = x := hroot.resolve_left (by simp [ho])
    exact ⟨_, _, rfl, ext_update ho _ _, Function.update_self .., h.alloc hx hroot' ho⟩

/-- The operand of a node is its place, now and after any further allocation. -/
theorem getNodeOp_spec (h : SlotInv nodes b s) {x : Nat} (hx : x < b)
    (hroot : s.offsets x ≠ none ∨ root nodes x = x ∨ immOf nodes x ≠ none) :
    ∃ s', getNodeOp nodes x s = some ((placeOf nodes s'.offsets x).op, s') ∧ Ext s s' ∧ SlotInv nodes b s' ∧
      (immOf nodes x = none → s'.offsets x ≠ none) := by
  unfold getNodeOp placeOf
  cases himm : immOf nodes x with
  | some v => exact ⟨s, rfl, .refl s, h, by simp⟩
  | none =>
    have hroot' : s.offsets x ≠ none ∨ root nodes x = x := by
      rcases hroot with h | h | h
      · exact .inl h
      · exact .inr h
      · exact absurd himm h
    obtain ⟨o, s', hget, hext, ho, hinv⟩ := getStackSlot_spec h hx hroot'
    refine ⟨s', ?_, hext, hinv, by simp [ho]⟩
    show (getStackSlot x s).bind (fun p => some (Op.ind .bp .R p.1, p.2)) = _
    rw [hget, ho]
    rfl

/-- A later manager has the same place for a node that has one. -/
theorem placeOf_ext {x : Nat} {σ : Nat → Option Int} (h : immOf nodes x = none → s.offsets x ≠ none)
    (hσ : ∀ y o, s.offsets y = some o → σ y = some o) : placeOf nodes σ x = placeOf nodes s.offsets x := by
  unfold placeOf
  cases himm : immOf nodes x with
  | some v => rfl
  | none =>
    obtain ⟨o, ho⟩ := Option.ne_none_iff_exists'.1 (h himm)
    simp only [hσ x o ho, ho]

/-! ## Roots -/

theorem root_conv {m : Mode} {x c : Nat} (hx : nodes[x]? = some (.conv m c)) (hc : isConst nodes c = false)
    (hlt : c < x) : root nodes x = root nodes c := by
  rw [root, hx]
  exact if_pos ⟨hc, hlt⟩

theorem root_eq_self {x : Nat} (h : ∀ m c, nodes[x]? = some (.conv m c) → isConst nodes c = true) :
    root nodes x = x := by
  rw [root]
  split
  next m c hx =>
    apply if_neg
    rw [h m c hx]
    simp
  next => rfl

theorem root_le (x : Nat) : root nodes x ≤ x := by
  induction x using Nat.strong_induction_on with
  | _ x ih =>
    rw [root]
    split
    next m c hx =>
      split
      next h => exact Nat.le_trans (ih c h.2) (Nat.le_of_lt h.2)
      next => exact Nat.le_refl x
    next => exact Nat.le_refl x

theorem isConst_of_immOf {m : Mode} {x c : Nat} (hx : nodes[x]? = some (.conv m c)) :
    immOf nodes x ≠ none ↔ isConst nodes c = true := by
  unfold immOf isConst
  rw [hx]
  cases hc : nodes[c]? with
  | none => simp [hc]
  | some n => cases n <;> simp [hc]

theorem root_of_immOf {x : Nat} (h : immOf nodes x ≠ none) : root nodes x = x :=
  root_eq_self fun _ _ hx => (isConst_of_immOf hx).1 h

/-- A node without a slot of its own is an immediate, or not a `Conv`. -/
theorem HasSlots.slot (h : HasSlots nodes i s) {x : Nat} (hx : x < i) (hm : modeAt nodes x ≠ none) :
    s.offsets x ≠ none ∨ root nodes x = x := by
  by_cases himm : immOf nodes x = none
  · cases hn : nodes[x]? with
    | none => simp [modeAt, hn] at hm
    | some n => exact .inl (h x n hx hn (by simpa [modeAt, hn] using hm) himm)
  · exact .inr (root_of_immOf himm)

end

/-! ## The visit functions -/

section
variable {nodes : List Node} {i : Nat} {s : StackSlotManager}

/-- What is known after the visit of the node `i`. -/
structure Visited (nodes : List Node) (i : Nat) (s s' : StackSlotManager) : Prop where
  ext : Ext s s'
  inv : SlotInv nodes (i + 1) s'
  slots : HasSlots nodes (i + 1) s'

theorem HasSlots.succ {n : Node} (h : HasSlots nodes i s) (hn : nodes[i]? = some n)
    (hi : n.mode ≠ none → immOf nodes i = none → s.offsets i ≠ none) : HasSlots nodes (i + 1) s := by
  intro x n' hx hn' hm himm
  by_cases hxi : x = i
  · subst hxi
    rw [hn] at hn'
    cases hn'
    exact hi hm himm
  · exact h x n' (by omega) hn' hm himm

/-- A node before `i` that has a value. -/
def Earlier (nodes : List Node) (i x : Nat) : Prop := x < i ∧ modeAt nodes x ≠ none

theorem Earlier.of_operand {m : Mode} {x : Nat} (h : Operand nodes i m x) : Earlier nodes i x := by
  refine ⟨h.1, fun hnone => ?_⟩
  have h2 := h.2
  rw [hnone] at h2
  cases m <;> simp at h2

theorem root_of_not_conv {n : Node} (hn : nodes[i]? = some n) (h : ∀ m c, n ≠ .conv m c) : root nodes i = i := by
  apply root_eq_self
  intro m c hx
  rw [hn] at hx
  exact absurd (Option.some.inj hx) (h m c)

/-- The operand of an earlier node. -/
theorem getNodeOp_earlier (h : SlotInv nodes (i + 1) s) (hs : HasSlots nodes i s) {x : Nat} (hx : Earlier nodes i x) :
    ∃ s', getNodeOp nodes x s = some ((placeOf nodes s'.offsets x).op, s') ∧ Ext s s' ∧
      SlotInv nodes (i + 1) s' ∧ HasSlots nodes i s' ∧ (immOf nodes x = none → s'.offsets x ≠ none) := by
  obtain ⟨s', he, hext, hinv, hp⟩ := getNodeOp_spec h (Nat.lt_succ_of_lt hx.1)
    ((hs.slot hx.1 hx.2).imp_right .inl)
  exact ⟨s', he, hext, hinv, hs.ext hext, hp⟩

/-- One operand and the node's own slot. -/
theorem visit_one (h : SlotInv nodes i s) (hs : HasSlots nodes i s) {x : Nat} (hx : Earlier nodes i x) {n : Node}
    (hn : nodes[i]? = some n) (hroot : root nodes i = i) (code : Op → Op → List Instr) :
    ∃ s', (do
        let op ← getNodeOp nodes x
        let nodeOp ← getNodeOp nodes i
        pure (code op nodeOp) : Gen (List Instr)) s =
      some (code (placeOf nodes s'.offsets x).op (placeOf nodes s'.offsets i).op, s') ∧ Visited nodes i s s' := by
  obtain ⟨s₁, he₁, hx₁, hi₁, hs₁, hp₁⟩ := getNodeOp_earlier (h.mono (Nat.le_succ i)) hs hx
  obtain ⟨s', he', hx', hi', hp'⟩ := getNodeOp_spec hi₁ (Nat.lt_succ_self i) (.inr (.inl hroot))
  refine ⟨s', ?_, hx₁.trans hx', hi', (hs₁.ext hx').succ hn fun _ => hp'⟩
  show (getNodeOp nodes x s).bind (fun p => (getNodeOp nodes i p.2).bind fun q => some (code p.1 q.1, q.2)) = _
  rw [he₁, placeOf_ext hp₁ hx']
  dsimp only [Option.bind]
  rw [he']

/-- Two operands and the node's own slot. -/
theorem visit_two (h : SlotInv nodes i s) (hs : HasSlots nodes i s) {x y : Nat} (hx : Earlier nodes i x)
    (hy : Earlier nodes i y) {n : Node} (hn : nodes[i]? = some n) (hroot : root nodes i = i)
    (code : Op → Op → Op → List Instr) :
    ∃ s', (do
        let op ← getNodeOp nodes x
        let op' ← getNodeOp nodes y
        let nodeOp ← getNodeOp nodes i
        pure (code op op' nodeOp) : Gen (List Instr)) s =
      some (code (placeOf nodes s'.offsets x).op (placeOf nodes s'.offsets y).op
        (placeOf nodes s'.offsets i).op, s') ∧ Visited nodes i s s' := by
  obtain ⟨s₁, he₁, hx₁, hi₁, hs₁, hp₁⟩ := getNodeOp_earlier (h.mono (Nat.le_succ i)) hs hx
  obtain ⟨s₂, he₂, hx₂, hi₂, hs₂, hp₂⟩ := getNodeOp_earlier hi₁ hs₁ hy
  obtain ⟨s', he', hx', hi', hp'⟩ := getNodeOp_spec hi₂ (Nat.lt_succ_self i) (.inr (.inl hroot))
  refine ⟨s', ?_, (hx₁.trans hx₂).trans hx', hi', (hs₂.ext hx').succ hn fun _ => hp'⟩
  show (getNodeOp nodes x s).bind (fun p => (getNodeOp nodes y p.2).bind fun q =>
    (getNodeOp nodes i q.2).bind fun r => some (code p.1 q.1 r.1, r.2)) = _
  rw [he₁, placeOf_ext hp₁ (hx₂.trans hx'), placeOf_ext hp₂ hx']
  dsimp only [Option.bind]
  rw [he₂]
  dsimp only
  rw [he']

theorem visitStore_spec (h : SlotInv nodes i s) (hs : HasSlots nodes i s) {m : Mode} {v p : Nat}
    (hn : nodes[i]? = some (.store m v p)) (hv : Earlier nodes i v) (hp : p < i ∧ modeAt nodes p = some .P) :
    ∃ s', visitStore nodes m v p s = some (storeCode (getRegMode m) (placeOf nodes s'.offsets p).op
      (placeOf nodes s'.offsets v).op, s') ∧ Visited nodes i s s' := by
  obtain ⟨s₁, he₁, hx₁, hi₁, hs₁, hp₁⟩ := getNodeOp_earlier (h.mono (Nat.le_succ i)) hs
    (⟨hp.1, by simp [hp.2]⟩ : Earlier nodes i p)
  obtain ⟨s', he', hx', hi', hs', hp'⟩ := getNodeOp_earlier hi₁ hs₁ hv
  refine ⟨s', ?_, hx₁.trans hx', hi', hs'.succ hn fun hm => absurd rfl hm⟩
  rw [visitStore, if_neg (by simp [hp.2])]
  show (getNodeOp nodes p s).bind (fun q => (getNodeOp nodes v q.2).bind fun r =>
    some (storeCode (getRegMode m) q.1 r.1, r.2)) = _
  rw [he₁, placeOf_ext hp₁ hx']
  dsimp only [Option.bind]
  rw [he']

/-- The slot of a `Conv` is that of its operand. -/
theorem visitConv_spec (h : SlotInv nodes i s) (hs : HasSlots nodes i s) {m : Mode} {x : Nat}
    (hn : nodes[i]? = some (.conv m x)) (hx : Earlier nodes i x) :
    ∃ s', visitConv nodes i x s = some ([], s') ∧ Visited nodes i s s' := by
  unfold visitConv
  by_cases hc : isConst nodes x = true
  · rw [if_pos hc]
    refine ⟨s, rfl, .refl s, h.mono (Nat.le_succ i), hs.succ hn fun _ himm => ?_⟩
    exact absurd himm ((isConst_of_immOf hn).2 hc)
  · rw [if_neg hc]
    have hroot := root_conv hn (by simpa using hc) hx.1
    have hlt : root nodes i < i := by
      rw [hroot]
      exact Nat.lt_of_le_of_lt (root_le x) hx.1
    obtain ⟨o, s₁, he, hext, ho, hinv⟩ := getStackSlot_spec h hx.1 (hs.slot hx.1 hx.2)
    have hnone : s.offsets i = none := h.fresh i (Nat.le_refl i)
    have hnone₁ : s₁.offsets i = none := hinv.fresh i (Nat.le_refl i)
    refine ⟨{ s₁ with offsets := Function.update s₁.offsets i (some o) }, ?_, ?_, ?_, ?_⟩
    · show (copySlot x i s).bind (fun p => some ([], p.2)) = _
      rw [copySlot, if_neg (by simp [hnone]), he]
      rfl
    · exact hext.trans (ext_update hnone₁ o s₁.currentOffset)
    · have hcopy := hinv.copy ho hroot hlt
      exact hcopy
    · refine ((hs.ext hext).ext (ext_update hnone₁ o s₁.currentOffset)).succ hn fun _ _ => ?_
      show Function.update s₁.offsets i (some o) i ≠ none
      rw [Function.update_self]
      simp

/-- A visit emits the node's code at the slots as they are afterwards. -/
theorem visitNode_spec (h : SlotInv nodes i s) (hs : HasSlots nodes i s) {n : Node} (hn : nodes[i]? = some n)
    (ht : NodeTyped nodes i n) :
    ∃ s', visitNode nodes i n s = some (codeOf nodes (fun x => (placeOf nodes s'.offsets x).op) i n, s') ∧
      Visited nodes i s s' := by
  cases n with
  | const m v =>
    refine ⟨s, rfl, .refl s, h.mono (Nat.le_succ i), hs.succ hn fun _ himm => ?_⟩
    simp [immOf, hn] at himm
  | add m l r =>
    have hroot := root_of_not_conv hn (by simp)
    simp only [visitNode, visitAdd, codeOf]
    by_cases hc : isConst nodes r = true
    · simp only [hc, if_true]
      exact visit_two h hs (.of_operand ht.1) (.of_operand ht.2) hn hroot (binaryCode .Add)
    · simp only [hc]
      exact visit_two h hs (.of_operand ht.2) (.of_operand ht.1) hn hroot (binaryCode .Add)
  | sub m l r =>
    exact visit_two h hs (.of_operand ht.1) (.of_operand ht.2) hn (root_of_not_conv hn (by simp)) (binaryCode .Sub)
  | mul m l r =>
    exact visit_two h hs (.of_operand ht.2) (.of_operand ht.1) hn (root_of_not_conv hn (by simp)) (binaryCode .IMul)
  | minus m x =>
    exact visit_one h hs (.of_operand ht) hn (root_of_not_conv hn (by simp)) (minusCode (getRegMode m))
  | div l r =>
    exact visit_two h hs (.of_operand ht.1) (.of_operand ht.2) hn (root_of_not_conv hn (by simp)) (divisionCode .ax)
  | mod l r =>
    exact visit_two h hs (.of_operand ht.1) (.of_operand ht.2) hn (root_of_not_conv hn (by simp)) (divisionCode .dx)
  | conv m x => exact visitConv_spec h hs hn (ht.2.elim .of_operand .of_operand)
  | load m p =>
    have hp : Operand nodes i .P p := ht
    exact visit_one h hs (.of_operand hp) hn (root_of_not_conv hn (by simp)) (loadCode (getRegMode m))
  | store m v p => exact visitStore_spec h hs hn ⟨ht.1.1, by simp [ht.1.2]⟩ ht.2

end

/-! ## The whole sequence -/

/-- The code of the nodes from position `i` on, at given operands. -/
def codeFrom (nodes : List Node) (op : Nat → Op) : Nat → List Node → List Instr
  | _, [] => []
  | i, n :: ns => codeOf nodes op i n ++ codeFrom nodes op (i + 1) ns

section
variable {nodes : List Node} {s : StackSlotManager}

theorem codeOf_congr {i : Nat} {n : Node} {op op' : Nat → Op} (ht : NodeTyped nodes i n) (hn : nodes[i]? = some n)
    (h : ∀ x, Earlier nodes (i + 1) x → op x = op' x) : codeOf nodes op i n = codeOf nodes op' i n := by
  have hi : n.mode ≠ none → op i = op' i := fun hm => h i ⟨Nat.lt_succ_self i, by simpa [modeAt, hn] using hm⟩
  have he : ∀ {x}, Earlier nodes i x → op x = op' x := fun hx => h _ ⟨Nat.lt_succ_of_lt hx.1, hx.2⟩
  cases n with
  | const m v => rfl
  | add m l r | sub m l r | mul m l r | div l r | mod l r =>
    simp only [codeOf, he (.of_operand ht.1), he (.of_operand ht.2), hi (by simp [Node.mode])]
  | minus m x => simp only [codeOf, he (.of_operand ht), hi (by simp [Node.mode])]
  | load m p =>
    have hp : Operand nodes i .P p := ht
    simp only [codeOf, he (.of_operand hp), hi (by simp [Node.mode])]
  | conv m x => rfl
  | store m v p =>
    simp only [codeOf, he (⟨ht.1.1, by simp [ht.1.2]⟩ : Earlier nodes i v),
      he (⟨ht.2.1, by simp [ht.2.2]⟩ : Earlier nodes i p)]

/-- Nodes with a slot have the same operand from then on. -/
theorem HasSlots.place_eq {i x : Nat} (h : HasSlots nodes i s) {σ : Nat → Option Int}
    (hσ : ∀ y o, s.offsets y = some o → σ y = some o) (hx : Earlier nodes i x) :
    placeOf nodes σ x = placeOf nodes s.offsets x := by
  apply placeOf_ext _ hσ
  intro himm
  cases hn : nodes[x]? with
  | none => exact absurd (by simp [modeAt, hn]) hx.2
  | some n => exact h x n hx.1 hn (by simpa [modeAt, hn] using hx.2) himm

theorem lowerFrom_spec (ht : Typed nodes) {done ns : List Node} (hsplit : nodes = done ++ ns)
    (h : SlotInv nodes done.length s) (hs : HasSlots nodes done.length s) :
    ∃ s', lowerFrom nodes done.length ns s =
        some (codeFrom nodes (fun x => (placeOf nodes s'.offsets x).op) done.length ns, s') ∧
      Ext s s' ∧ SlotInv nodes nodes.length s' ∧ HasSlots nodes nodes.length s' := by
  induction ns generalizing done s with
  | nil =>
    rw [List.append_nil] at hsplit
    subst hsplit
    exact ⟨s, rfl, .refl s, h, hs⟩
  | cons n ns ih =>
    have hn : nodes[done.length]? = some n := by simp [hsplit]
    obtain ⟨s₁, he₁, hv⟩ := visitNode_spec h hs hn (ht _ n hn)
    have hlen : (done ++ [n]).length = done.length + 1 := by simp
    obtain ⟨s', he', hx', hi', hs'⟩ := @ih s₁ (done ++ [n]) (by simp [hsplit]) (hlen.symm ▸ hv.inv)
      (hlen.symm ▸ hv.slots)
    refine ⟨s', ?_, hv.ext.trans hx', hi', hs'⟩
    have hcode := codeOf_congr (ht _ n hn) hn fun x hx =>
      congrArg Place.op (hv.slots.place_eq hx' hx)
    show (visitNode nodes done.length n s).bind (fun p => (lowerFrom nodes (done.length + 1) ns p.2).bind fun q =>
      some (p.1 ++ q.1, q.2)) = _
    rw [hlen] at he'
    rw [he₁, codeFrom, hcode]
    dsimp only [Option.bind]
    rw [he']

/-- The generator never fails; its code is the code of the nodes at the slots given out at the end. -/
theorem lower_spec (ht : Typed nodes) :
    ∃ s, lower nodes = some (codeFrom nodes (fun x => (placeOf nodes s.offsets x).op) 0 nodes, s) ∧
      SlotInv nodes nodes.length s ∧ HasSlots nodes nodes.length s := by
  obtain ⟨s, he, -, hi, hs⟩ := @lowerFrom_spec nodes StackSlotManager.init ht [] nodes rfl (.init nodes)
    (fun x n hx => absurd hx (by simp))
  exact ⟨s, he, hi, hs⟩

end

end Mjc.Asm

import Mjc.Firm.Carries

/-!
# When the 64-bit reading is right

`wide` reads a sequence of nodes with 64-bit operations. It agrees with the values of the nodes exactly when
nothing goes wrong at the few nodes where the upper half of a word matters.

* `NodeCond` : what the values have to satisfy at a node: a constant of 64 bits fits 32 bits; the operand of a `Conv`
  from `Is` to 64 bits has no carry modulo 2^32, and is no `Conv` of a constant; a division has the same result on 32
  bits of its operands;
* `Filled` : the carries of the negations are those of the words that are found in their slots;
* `agree_iff_nodeCond` : all nodes agree, and no division traps, if and only if the condition holds everywhere.
-/

namespace Mjc.Firm
open Mjc.Bytes

set_option autoImplicit false

/-! ## Low parts of words -/

theorem setWidth_signExtend_32 (x : BitVec 32) : (x.signExtend 64).setWidth 32 = x := by
  apply BitVec.eq_of_getLsbD_eq
  intro i hi
  simp [BitVec.getLsbD_signExtend, hi]
  omega

theorem setWidth_low (v : Word) : (low v).setWidth 32 = v.setWidth 32 := setWidth_signExtend_32 _

theorem setWidth_8_of_32 {v w : Word} (h : v.setWidth 32 = w.setWidth 32) : v.setWidth 8 = w.setWidth 8 := by
  have hv := congrArg (BitVec.setWidth 8) h
  rwa [BitVec.setWidth_setWidth_of_le _ (by decide), BitVec.setWidth_setWidth_of_le _ (by decide)] at hv

theorem setWidth_sub (x y : Word) {k : Nat} (h : k ≤ 64) :
    (x - y).setWidth k = x.setWidth k - y.setWidth k := by
  rw [BitVec.sub_eq_add_neg, BitVec.sub_eq_add_neg, BitVec.setWidth_add _ _ h, BitVec.setWidth_neg_of_le h]

theorem setWidth_eq_iff {k : Nat} {v w : Word} : v.setWidth k = w.setWidth k ↔ v.toNat % 2 ^ k = w.toNat % 2 ^ k := by
  rw [← BitVec.toNat_inj, BitVec.toNat_setWidth, BitVec.toNat_setWidth]

theorem merge_8 (v old : Word) : merge 8 v old = v := by
  have hv := v.isLt
  have ho := old.isLt
  unfold merge
  rw [Nat.mod_eq_of_lt (by omega), Nat.div_eq_of_lt (by omega)]
  simp

theorem setWidth_merge_4 (v old : Word) : (merge 4 v old).setWidth 32 = v.setWidth 32 := by
  rw [setWidth_eq_iff]
  have ho := old.isLt
  unfold merge
  rw [BitVec.toNat_ofNat]
  omega

/-! ## The condition -/

/-- The division of the node, if it is one, does not trap. -/
def NoTrap (ws : List Word) : Node → Prop
  | .div _ r | .mod _ r => low (at_ ws r) ≠ 0
  | _ => True

/-- The node is no `Conv` of a `Conv` of a constant: nothing is ever written to the slot that such a node shares. -/
def ConvRead (nodes : List Node) : Node → Prop
  | .conv _ x => isImm nodes x = true → isConst nodes x = true
  | _ => True

instance (nodes : List Node) (n : Node) : Decidable (ConvRead nodes n) :=
  match n with
  | .conv _ x => inferInstanceAs (Decidable (isImm nodes x = true → isConst nodes x = true))
  | .const _ _ | .add _ _ _ | .sub _ _ _ | .mul _ _ _ | .minus _ _ | .div _ _ | .mod _ _ | .load _ _
  | .store _ _ _ => isTrue trivial

/-- What the values and the carries have to satisfy at a node. -/
def NodeCond (nodes : List Node) (vals : List Word) (cs : List Int) : Node → Prop
  | .const m v => m.Full → low (BitVec.ofInt 64 v) = BitVec.ofInt 64 v
  | .conv m x => m.Full → modeAt nodes x = some .Is → 2 ^ 32 ∣ carryAt cs x
  | .div l r => low (at_ vals r) ≠ 0 ∧
      quot (low (at_ vals l)) (low (at_ vals r)) = quot (at_ vals l) (at_ vals r)
  | .mod l r => low (at_ vals r) ≠ 0 ∧
      rem (low (at_ vals l)) (low (at_ vals r)) = rem (at_ vals l) (at_ vals r)
  | _ => True

instance (nodes : List Node) (vals : List Word) (cs : List Int) (n : Node) : Decidable (NodeCond nodes vals cs n) :=
  match n with
  | .const m v => inferInstanceAs (Decidable (m.Full → low (BitVec.ofInt 64 v) = BitVec.ofInt 64 v))
  | .conv m x => inferInstanceAs (Decidable (m.Full → modeAt nodes x = some .Is → 2 ^ 32 ∣ carryAt cs x))
  | .div l r => inferInstanceAs (Decidable (low (at_ vals r) ≠ 0 ∧
      quot (low (at_ vals l)) (low (at_ vals r)) = quot (at_ vals l) (at_ vals r)))
  | .mod l r => inferInstanceAs (Decidable (low (at_ vals r) ≠ 0 ∧
      rem (low (at_ vals l)) (low (at_ vals r)) = rem (at_ vals l) (at_ vals r)))
  | .add _ _ _ | .sub _ _ _ | .mul _ _ _ | .minus _ _ | .load _ _ | .store _ _ _ => isTrue trivial

/-- The carries of the negations are those of the words that are found in their slots. -/
def Filled (nodes : List Node) (init : Nat → Word) (vals : List Word) (g : Nat → Int) : Prop :=
  ∀ i x, nodes[i]? = some (.minus .Is x) →
    2 ^ 32 ∣ ((init i).toNat / 2 ^ 32 : Nat) + (if valueAt vals i < 0 then 1 else 0) - g i

theorem Agree.full {m : Mode} {v w : Word} (hm : m.Full) : Agree m w v ↔ w = v := by
  rcases hm with rfl | rfl <;> rfl

theorem Agree.refl (m : Mode) (v : Word) : Agree m v v := by
  cases m <;> rfl

/-- A word that is right in a mode is right for storing in the mode. -/
theorem Agree.mod_eq {m : Mode} {w v : Word} (h : Agree m w v) : w.toNat % 256 ^ m.bytes = v.toNat % 256 ^ m.bytes := by
  cases m with
  | Is => exact setWidth_eq_iff.1 h
  | Ls => exact congrArg (BitVec.toNat · % 256 ^ 8) h
  | P => exact congrArg (BitVec.toNat · % 256 ^ 8) h
  | Bu => exact setWidth_eq_iff.1 h

/-- The mode's own value of a word is right. -/
theorem agree_wrap {m : Mode} {w v : Word} (h : Agree m w v) : Agree m w (wrap m v) := by
  cases m with
  | Is => exact h.trans (setWidth_signExtend_32 _).symm
  | Ls => exact h
  | P => exact h
  | Bu =>
    refine Eq.trans h ?_
    simp [wrap]

/-- What is known when the nodes before `i` are right. -/
structure Pre (nodes : List Node) (i : Nat) (vals ws : List Word) (cs : List Int) (heap heap' : Heap) : Prop where
  length_vals : vals.length = i
  length_ws : ws.length = i
  length_cs : cs.length = i
  agree : ∀ x < i, ∀ m, modeAt nodes x = some m → Agree m (at_ ws x) (at_ vals x)
  carry : ∀ x < i, modeAt nodes x = some .Is → at_ ws x = carried (at_ vals x) (carryAt cs x)
  heap_eq : heap' = heap

section
variable {nodes : List Node} {init : Nat → Word} {i : Nat} {vals ws : List Word} {cs : List Int} {heap heap' : Heap}

/-- An operand of 32 bits. -/
theorem Pre.is (h : Pre nodes i vals ws cs heap heap') {x : Nat} (hx : Operand nodes i .Is x) :
    (at_ ws x).setWidth 32 = (at_ vals x).setWidth 32 := h.agree x hx.1 .Is hx.2

/-- An operand of 64 bits. -/
theorem Pre.full (h : Pre nodes i vals ws cs heap heap') {m : Mode} (hm : m.Full) {x : Nat}
    (hx : Operand nodes i m x) : at_ ws x = at_ vals x := by
  obtain ⟨hlt, hmode⟩ := hx
  have hmode' : modeAt nodes x = some .Ls ∨ modeAt nodes x = some .P := by
    rcases hm with rfl | rfl
    · exact hmode
    · exact hmode
  rcases hmode' with hmode | hmode
  · exact h.agree x hlt .Ls hmode
  · exact h.agree x hlt .P hmode

/-- An operation that commutes with taking the low 32 bits. -/
theorem Pre.agree_binary (h : Pre nodes i vals ws cs heap heap') {m : Mode} {l r : Nat}
    (hl : Operand nodes i m l) (hr : Operand nodes i m r) {f : Word → Word → Word}
    {g : BitVec 32 → BitVec 32 → BitVec 32}
    (hf : ∀ a b : Word, (f a b).setWidth 32 = g (a.setWidth 32) (b.setWidth 32)) :
    Agree m (f (at_ ws l) (at_ ws r)) (wrap m (f (at_ vals l) (at_ vals r))) := by
  apply agree_wrap
  cases m with
  | Is =>
    show (f _ _).setWidth 32 = (f _ _).setWidth 32
    rw [hf, hf, h.is hl, h.is hr]
  | Ls => rw [h.full (.inl rfl) hl, h.full (.inl rfl) hr]; rfl
  | P => rw [h.full (.inr rfl) hl, h.full (.inr rfl) hr]; rfl
  | Bu => exact hl.2.elim

theorem Pre.agree_minus (h : Pre nodes i vals ws cs heap heap') {m : Mode} {x : Nat}
    (hx : Operand nodes i m x) (old : Word) :
    Agree m (merge m.bytes (-at_ ws x) old) (wrap m (-at_ vals x)) := by
  apply agree_wrap
  cases m with
  | Is =>
    show (merge 4 _ _).setWidth 32 = _
    rw [setWidth_merge_4, BitVec.setWidth_neg_of_le (by decide), BitVec.setWidth_neg_of_le (by decide), h.is hx]
  | Ls =>
    show merge 8 _ _ = _
    rw [merge_8, h.full (.inl rfl) hx]
  | P =>
    show merge 8 _ _ = _
    rw [merge_8, h.full (.inr rfl) hx]
  | Bu => exact hx.2.elim

end

/-- The word is right in the mode of the node. -/
def Right (n : Node) (w v : Word) : Prop := ∀ m, n.mode = some m → Agree m w v

/-- The same, with nothing said of booleans. -/
def RightInt (n : Node) (w v : Word) : Prop := ∀ m, n.mode = some m → m ≠ .Bu → Agree m w v

theorem Right.rightInt {n : Node} {w v : Word} (h : Right n w v) : RightInt n w v := fun m hm _ => h m hm

/-- One node: the condition decides whether its word is right, and then the heaps are the same. -/
structure Step (cond noTrap : Prop) (n : Node) (w v : Word) (heap heap' : Heap) : Prop where
  iff : cond ↔ noTrap ∧ RightInt n w v
  next : cond → Right n w v ∧ heap' = heap

theorem Step.of_right {n : Node} {w v : Word} {heap heap' : Heap} (h : Right n w v) (hh : heap' = heap) :
    Step True True n w v heap heap' :=
  ⟨⟨fun _ => ⟨trivial, h.rightInt⟩, fun _ => trivial⟩, fun _ => ⟨h, hh⟩⟩

/-- A node whose condition says that its word is right. -/
theorem Step.of_iff {cond noTrap : Prop} {n : Node} {m : Mode} {w v : Word} {heap heap' : Heap}
    (hm : n.mode = some m) (hbu : m ≠ .Bu) (h : cond ↔ noTrap ∧ Agree m w v) (hh : heap' = heap) :
    Step cond noTrap n w v heap heap' := by
  have hint : RightInt n w v ↔ Agree m w v := by
    constructor
    · intro hr
      exact hr m hm hbu
    · intro ha m' hm' _
      rw [hm] at hm'
      cases hm'
      exact ha
  constructor
  · rw [hint]
    exact h
  · intro hc
    refine ⟨fun m' hm' => ?_, hh⟩
    rw [hm] at hm'
    cases hm'
    exact (h.1 hc).2

section
variable {nodes : List Node} {init : Nat → Word} {i : Nat} {vals ws : List Word} {cs : List Int} {heap heap' : Heap}

theorem step_const (m : Mode) (c : Int) :
    Step (NodeCond nodes vals cs (.const m c)) True (.const m c) (low (BitVec.ofInt 64 c))
      (wrap m (BitVec.ofInt 64 c)) heap heap := by
  by_cases hm : m.Full
  · refine Step.of_iff rfl (by rintro rfl; exact absurd hm (by decide)) ?_ rfl
    have hwrap : wrap m (BitVec.ofInt 64 c) = BitVec.ofInt 64 c := by rcases hm with rfl | rfl <;> rfl
    rw [Agree.full hm, hwrap]
    simp [NodeCond, hm]
  · have hright : Right (.const m c) (low (BitVec.ofInt 64 c)) (wrap m (BitVec.ofInt 64 c)) := by
      intro m' hm'
      cases hm'
      cases m with
      | Is => exact agree_wrap (setWidth_low _)
      | Ls => exact absurd (.inl rfl) hm
      | P => exact absurd (.inr rfl) hm
      | Bu => exact agree_wrap (setWidth_8_of_32 (setWidth_low _))
    have hcond : NodeCond nodes vals cs (.const m c) ↔ True := by simp [NodeCond, hm]
    rw [hcond]
    exact .of_right hright rfl

theorem step_conv (h : Pre nodes i vals ws cs heap heap') {m : Mode} {x : Nat}
    (ht : NodeTyped nodes i (.conv m x)) :
    Step (NodeCond nodes vals cs (.conv m x)) True (.conv m x) (at_ ws x) (wrap m (at_ vals x)) heap heap' := by
  obtain ⟨hbu, hop⟩ := ht
  refine Step.of_iff rfl hbu ?_ h.heap_eq
  rw [true_and]
  unfold NodeCond
  by_cases hm : m.Full
  · have hwrap : wrap m (at_ vals x) = at_ vals x := by rcases hm with rfl | rfl <;> rfl
    rw [Agree.full hm, hwrap]
    rcases hop with his | hls
    · rw [h.carry x his.1 his.2, carried_eq_self_iff]
      exact ⟨fun hc => hc hm his.2, fun hc _ _ => hc⟩
    · refine ⟨fun _ => h.full (.inl rfl) hls, fun _ _ his => ?_⟩
      rcases hls.2 with hmode | hmode
      · cases hmode.symm.trans his
      · cases hmode.symm.trans his
  · obtain rfl : m = .Is := by
      cases m with
      | Is => rfl
      | Ls => exact absurd (.inl rfl) hm
      | P => exact absurd (.inr rfl) hm
      | Bu => exact absurd rfl hbu
    -- only 32 bits of the operand are needed
    refine ⟨fun _ => agree_wrap ?_, fun _ hfull => absurd hfull hm⟩
    rcases hop with his | hls
    · exact h.is his
    · exact congrArg _ (h.full (.inl rfl) hls)

/-- The operand of a `Conv` is read from where its value is. -/
theorem wideNode_conv {m : Mode} {x : Nat} (hread : ConvRead nodes (.conv m x)) :
    wideNode nodes init i ws heap (.conv m x) = (at_ ws x, heap) := by
  have hslot : (!isConst nodes x && isImm nodes x) = false := by
    unfold ConvRead at hread
    cases himm : isImm nodes x with
    | true => rw [hread himm]; rfl
    | false => exact Bool.and_false _
  rw [wideNode, hslot, if_neg Bool.false_ne_true]

theorem step_load (h : Pre nodes i vals ws cs heap heap') {m : Mode} {p : Nat} (hp : Operand nodes i .P p) :
    Right (.load m p) (BitVec.ofNat 64 (read heap' (at_ ws p) m.bytes))
      (wrap m (BitVec.ofNat 64 (read heap (at_ vals p) m.bytes))) := by
  intro m' hm'
  cases hm'
  rw [h.heap_eq, h.full (.inr rfl) hp]
  exact agree_wrap (.refl m _)

theorem step_store (h : Pre nodes i vals ws cs heap heap') {m : Mode} {v p : Nat} (hv : v < i)
    (hm : modeAt nodes v = some m) (hp : Operand nodes i .P p) :
    write heap' (at_ ws p) m.bytes (at_ ws v).toNat = write heap (at_ vals p) m.bytes (at_ vals v).toNat := by
  rw [h.heap_eq, h.full (.inr rfl) hp]
  exact write_congr _ _ (h.agree v hv m hm).mod_eq

variable (init) in
/-- The condition at a node decides whether the node is right. -/
theorem step_node (h : Pre nodes i vals ws cs heap heap') {n : Node} (ht : NodeTyped nodes i n)
    (hread : ConvRead nodes n) {v : Word} {heapv : Heap} (he : evalNode vals heap n = some (v, heapv)) :
    Step (NodeCond nodes vals cs n) (NoTrap ws n) n (wideNode nodes init i ws heap' n).1 v heapv
      (wideNode nodes init i ws heap' n).2 := by
  have division : ∀ {l r : Nat} {f : Word → Word → Word}, Operand nodes i .Ls l → Operand nodes i .Ls r →
      n.mode = some .Ls → Step (low (at_ vals r) ≠ 0 ∧ f (low (at_ vals l)) (low (at_ vals r)) =
        f (at_ vals l) (at_ vals r)) (low (at_ ws r) ≠ 0) n (f (low (at_ ws l)) (low (at_ ws r)))
        (f (at_ vals l) (at_ vals r)) heap heap' := by
    intro l r f hl hr hmode
    refine Step.of_iff hmode (by decide) ?_ h.heap_eq
    rw [h.full (.inl rfl) hl, h.full (.inl rfl) hr]
    rfl
  cases n with
  | const m c =>
    cases he
    rw [wideNode, h.heap_eq]
    exact step_const m c
  | add m l r =>
    cases he
    refine .of_right (fun m' hm' => ?_) h.heap_eq
    cases hm'
    exact h.agree_binary ht.1 ht.2 fun a b => BitVec.setWidth_add a b (by decide)
  | sub m l r =>
    cases he
    refine .of_right (fun m' hm' => ?_) h.heap_eq
    cases hm'
    exact h.agree_binary ht.1 ht.2 fun a b => setWidth_sub a b (by decide)
  | mul m l r =>
    cases he
    refine .of_right (fun m' hm' => ?_) h.heap_eq
    cases hm'
    exact h.agree_binary ht.1 ht.2 fun a b => BitVec.setWidth_mul a b (by decide)
  | minus m x =>
    cases he
    refine .of_right (fun m' hm' => ?_) h.heap_eq
    cases hm'
    exact h.agree_minus ht _
  | div l r =>
    simp only [evalNode] at he
    split at he
    · cases he
    · cases he
      exact division (f := quot) ht.1 ht.2 rfl
  | mod l r =>
    simp only [evalNode] at he
    split at he
    · cases he
    · cases he
      exact division (f := rem) ht.1 ht.2 rfl
  | conv m x =>
    cases he
    rw [wideNode_conv hread]
    exact step_conv h ht
  | load m p =>
    cases he
    exact .of_right (step_load h ht) h.heap_eq
  | store m v p =>
    cases he
    refine .of_right (fun m' hm' => ?_) (step_store h ht.1.1 ht.1.2 ⟨ht.2.1, .inr ht.2.2⟩)
    cases hm'

/-- The word of a node of 32 bits has the carry that follows from the values. -/
theorem step_carry (h : Pre nodes i vals ws cs heap heap') {vals' : List Word} (hvals : ∀ x < i, at_ vals' x = at_ vals x)
    {g : Nat → Int} (hfilled : Filled nodes init vals' g) {n : Node} (hn : nodes[i]? = some n) (ht : NodeTyped nodes i n)
    (hread : ConvRead nodes n) (hm : n.mode = some .Is) {v : Word} {heapv : Heap}
    (he : evalNode vals heap n = some (v, heapv)) (hv : at_ vals' i = v) :
    (wideNode nodes init i ws heap' n).1 = carried v (carryNode nodes vals' g i cs n) := by
  have hvalue : ∀ x < i, valueAt vals' x = (at_ vals x).toInt := fun x hx => congrArg BitVec.toInt (hvals x hx)
  cases n with
  | const m c =>
    cases hm
    cases he
    exact (carried_zero _).symm
  | add m l r =>
    cases hm
    cases he
    obtain ⟨⟨hl, hml⟩, hr, hmr⟩ := ht
    rw [wideNode, carryNode, h.carry l hl hml, h.carry r hr hmr, hvalue l hl, hvalue r hr]
    exact word_add ..
  | sub m l r =>
    cases hm
    cases he
    obtain ⟨⟨hl, hml⟩, hr, hmr⟩ := ht
    rw [wideNode, carryNode, h.carry l hl hml, h.carry r hr hmr, hvalue l hl, hvalue r hr]
    exact word_sub ..
  | mul m l r =>
    cases hm
    cases he
    obtain ⟨⟨hl, hml⟩, hr, hmr⟩ := ht
    rw [wideNode, carryNode, h.carry l hl hml, h.carry r hr hmr, hvalue l hl, hvalue r hr]
    exact word_mul ..
  | minus m x =>
    cases hm
    cases he
    have hlow : (-at_ ws x).setWidth 32 = (-at_ vals x).setWidth 32 := by
      rw [BitVec.setWidth_neg_of_le (by decide), BitVec.setWidth_neg_of_le (by decide), h.is ht]
    rw [wideNode, carryNode]
    refine (word_minus hlow).trans (carried_eq_iff.mpr ?_)
    have hfill := hfilled i x hn
    rw [valueAt, hv] at hfill
    exact hfill
  | div l r => cases hm
  | mod l r => cases hm
  | conv m x =>
    cases hm
    cases he
    rw [wideNode_conv hread, carryNode]
    rcases ht.2 with his | hls
    · rw [if_pos his.2, h.carry x his.1 his.2, hvalue x his.1]
      exact word_conv _ _
    · have hmode : modeAt nodes x ≠ some .Is := by
        intro his
        rcases hls.2 with hmode | hmode
        · cases hmode.symm.trans his
        · cases hmode.symm.trans his
      rw [if_neg hmode, hvalue x hls.1, h.full (.inl rfl) hls]
      exact (carried_zero _).symm.trans (word_conv _ _)
  | load m p =>
    cases hm
    cases he
    rw [wideNode, carryNode, valueAt, hv, h.heap_eq, h.full (.inr rfl) ht]
    exact word_load (read_lt _ _ _)
  | store m v p => cases hm

end

/-! ## Whole sequences -/

theorem at_append_left {us vs : List Word} {x : Nat} (h : x < us.length) : at_ (us ++ vs) x = at_ us x := by
  simp only [at_, List.getD_eq_getElem?_getD, List.getElem?_append_left h]

theorem at_append_self {us : List Word} {v : Word} {i : Nat} (h : us.length = i) : at_ (us ++ [v]) i = v := by
  subst h
  simp [at_]

section
variable {nodes : List Node} (init : Nat → Word)

/-- What a node's condition depends on: the values and carries before it. -/
theorem nodeCond_congr {i : Nat} {vals vals' : List Word} {cs cs' : List Int} {n : Node} (ht : NodeTyped nodes i n)
    (hv : ∀ x < i, at_ vals' x = at_ vals x) (hc : ∀ x < i, carryAt cs' x = carryAt cs x) :
    NodeCond nodes vals' cs' n ↔ NodeCond nodes vals cs n := by
  cases n with
  | conv m x =>
    have hx : x < i := ht.2.elim (·.1) (·.1)
    simp only [NodeCond, hc x hx]
  | div l r => simp only [NodeCond, hv l ht.1.1, hv r ht.2.1]
  | mod l r => simp only [NodeCond, hv l ht.1.1, hv r ht.2.1]
  | _ => simp only [NodeCond]

/-- What its trap depends on: the words before it. -/
theorem noTrap_congr {i : Nat} {ws ws' : List Word} {n : Node} (ht : NodeTyped nodes i n)
    (hw : ∀ x < i, at_ ws' x = at_ ws x) : NoTrap ws' n ↔ NoTrap ws n := by
  cases n with
  | div l r => simp only [NoTrap, hw r ht.2.1]
  | mod l r => simp only [NoTrap, hw r ht.2.1]
  | _ => simp only [NoTrap]

theorem evalFrom_prefix {ns : List Node} {vals vals' : List Word} {heap heap' : Heap}
    (h : evalFrom vals heap ns = some (vals', heap')) : ∃ us, vals' = vals ++ us := by
  induction ns generalizing vals heap with
  | nil =>
    cases h
    exact ⟨[], by simp⟩
  | cons n ns ih =>
    simp only [evalFrom] at h
    split at h
    · obtain ⟨us, rfl⟩ := ih h
      exact ⟨_, List.append_assoc _ _ _⟩
    · cases h

variable (nodes) in
theorem wideFrom_append_left (ns : List Node) (ws : List Word) (heap : Heap) :
    ∃ us, (wideFrom nodes init ws heap ns).1 = ws ++ us := by
  induction ns generalizing ws heap with
  | nil => exact ⟨[], by simp [wideFrom]⟩
  | cons n ns ih =>
    obtain ⟨us, h⟩ := ih (ws ++ [(wideNode nodes init ws.length ws heap n).1])
      (wideNode nodes init ws.length ws heap n).2
    exact ⟨_, h.trans (List.append_assoc _ _ _)⟩

/-- A `Conv` of a `Conv` of a constant is read from a slot that is never written. -/
theorem wideFrom_conv {ns done : List Node} (hsplit : nodes = done ++ ns) {ws : List Word} (hlength : ws.length = done.length)
    (heap : Heap) {i : Nat} {m : Mode} {x : Nat} (hi : done.length ≤ i) (hn : nodes[i]? = some (.conv m x))
    (himm : isImm nodes x = true) (hconst : isConst nodes x = false) :
    at_ (wideFrom nodes init ws heap ns).1 i = init x := by
  induction ns generalizing done ws heap with
  | nil =>
    rw [hsplit, List.append_nil, List.getElem?_eq_none hi] at hn
    cases hn
  | cons n ns ih =>
    rw [wideFrom]
    generalize hw : wideNode nodes init ws.length ws heap n = p
    obtain ⟨w, heap'⟩ := p
    rcases Nat.eq_or_lt_of_le hi with rfl | hlt
    · obtain rfl : n = .conv m x := by
        rw [hsplit] at hn
        simpa using hn
      obtain ⟨us, hus⟩ := wideFrom_append_left nodes init ns (ws ++ [w]) heap'
      rw [wideNode, himm, hconst] at hw
      cases hw
      show at_ (wideFrom nodes init _ heap ns).1 _ = _
      rw [hus, at_append_left (by simp [hlength]), at_append_self hlength]
      rfl
    · exact @ih (done ++ [n]) (by simpa using hsplit) (ws ++ [w]) (by simp [hlength]) heap'
        (by rw [List.length_append]; exact hlt)

theorem Pre.snoc {vals ws : List Word} {cs : List Int} {heap heap' heapv heapw : Heap} {i : Nat} {n : Node} {v w : Word}
    {c : Int} (h : Pre nodes i vals ws cs heap heap') (hn : nodes[i]? = some n) (hr : Right n w v)
    (hc : n.mode = some .Is → w = carried v c) (hh : heapw = heapv) :
    Pre nodes (i + 1) (vals ++ [v]) (ws ++ [w]) (cs ++ [c]) heapv heapw := by
  have hlast : ∀ x, x < i + 1 → x < i ∨ x = i := fun x hx => by omega
  have hmode : ∀ {m}, modeAt nodes i = some m → n.mode = some m := by
    intro m hm
    simpa [modeAt, hn] using hm
  refine ⟨by simp [h.length_vals], by simp [h.length_ws], by simp [h.length_cs], ?_, ?_, hh⟩
  · intro x hx m hm
    rcases hlast x hx with hx | rfl
    · rw [at_append_left (h.length_ws.symm ▸ hx), at_append_left (h.length_vals.symm ▸ hx)]
      exact h.agree x hx m hm
    · rw [at_append_self h.length_ws, at_append_self h.length_vals]
      exact hr m (hmode hm)
  · intro x hx hm
    rcases hlast x hx with hx | rfl
    · rw [at_append_left (h.length_ws.symm ▸ hx), at_append_left (h.length_vals.symm ▸ hx),
        carryAt_append_left (h.length_cs.symm ▸ hx)]
      exact h.carry x hx hm
    · rw [at_append_self h.length_ws, at_append_self h.length_vals, carryAt_append_self h.length_cs]
      exact hc (hmode hm)

theorem forall_from_iff {P : Nat → Node → Prop} {k : Nat} {n : Node} (hn : nodes[k]? = some n) :
    (∀ i m, k ≤ i → nodes[i]? = some m → P i m) ↔ P k n ∧ ∀ i m, k + 1 ≤ i → nodes[i]? = some m → P i m := by
  refine ⟨fun h => ⟨h k n (Nat.le_refl k) hn, fun i m hi => h i m (Nat.le_of_succ_le hi)⟩, fun ⟨hk, h⟩ i m hi hm => ?_⟩
  rcases Nat.eq_or_lt_of_le hi with rfl | hlt
  · obtain rfl := Option.some.inj (hn.symm.trans hm)
    exact hk
  · exact h i m hlt hm

/-- From a point where all is right: the rest is right if and only if the condition holds on the rest. -/
theorem agreeFrom_iff {ns done : List Node} (hsplit : nodes = done ++ ns) (ht : Typed nodes)
    (hread : ∀ (i : Nat) n, nodes[i]? = some n → ConvRead nodes n) {vals vals' ws : List Word} {cs : List Int}
    {g : Nat → Int} (hfilled : Filled nodes init vals' g) {heap heap' heapv : Heap}
    (h : Pre nodes done.length vals ws cs heap heap') (he : evalFrom vals heap ns = some (vals', heapv)) :
    (∀ i n, done.length ≤ i → nodes[i]? = some n →
      NoTrap (wideFrom nodes init ws heap' ns).1 n ∧
        RightInt n (at_ (wideFrom nodes init ws heap' ns).1 i) (at_ vals' i)) ↔
    ∀ i n, done.length ≤ i → nodes[i]? = some n → NodeCond nodes vals' (carriesFrom nodes vals' g cs ns) n := by
  induction ns generalizing done vals ws cs heap heap' with
  | nil =>
    subst hsplit
    have hnone : ∀ i n, done.length ≤ i → (done ++ [])[i]? = some n → False := by
      intro i n hi hn
      rw [List.append_nil, List.getElem?_eq_none hi] at hn
      cases hn
    exact ⟨fun _ i n hi hn => (hnone i n hi hn).elim, fun _ i n hi hn => (hnone i n hi hn).elim⟩
  | cons n ns ih =>
    have hn : nodes[done.length]? = some n := by
      rw [hsplit]
      simp
    simp only [evalFrom] at he
    split at he
    case h_2 => cases he
    next v heap₁ hev =>
      obtain ⟨us, hus⟩ := evalFrom_prefix he
      have hv : ∀ x < done.length, at_ vals' x = at_ vals x := by
        intro x hx
        rw [hus, List.append_assoc, at_append_left (h.length_vals.symm ▸ hx)]
      have hv' : at_ vals' done.length = v := by
        rw [hus, at_append_left (by simp [h.length_vals]), at_append_self h.length_vals]
      have hstep := step_node init h (ht _ _ hn) (hread _ _ hn) hev
      have hcarry := fun hm => step_carry h hv hfilled hn (ht _ _ hn) (hread _ _ hn) hm hev hv'
      have hwide : wideFrom nodes init ws heap' (n :: ns) = wideFrom nodes init
          (ws ++ [(wideNode nodes init done.length ws heap' n).1])
          (wideNode nodes init done.length ws heap' n).2 ns := by
        simp only [wideFrom, h.length_ws]
      have hcarries : carriesFrom nodes vals' g cs (n :: ns) =
          carriesFrom nodes vals' g (cs ++ [carryNode nodes vals' g done.length cs n]) ns := by
        simp only [carriesFrom, h.length_cs]
      rw [hwide, hcarries]
      generalize hw : wideNode nodes init done.length ws heap' n = p at hstep hcarry ⊢
      generalize carryNode nodes vals' g done.length cs n = c at hcarry ⊢
      obtain ⟨w, heap₂⟩ := p
      dsimp only at hstep hcarry ⊢
      obtain ⟨us', hus'⟩ := wideFrom_append_left nodes init ns (ws ++ [w]) heap₂
      obtain ⟨ds, hds⟩ := carriesFrom_append_left nodes vals' g ns (cs ++ [c])
      have hws : ∀ x < done.length, at_ (wideFrom nodes init (ws ++ [w]) heap₂ ns).1 x = at_ ws x := by
        intro x hx
        rw [hus', List.append_assoc, at_append_left (h.length_ws.symm ▸ hx)]
      have hcs : ∀ x < done.length, carryAt (carriesFrom nodes vals' g (cs ++ [c]) ns) x = carryAt cs x := by
        intro x hx
        rw [hds, List.append_assoc, carryAt_append_left (h.length_cs.symm ▸ hx)]
      have hw' : at_ (wideFrom nodes init (ws ++ [w]) heap₂ ns).1 done.length = w := by
        rw [hus', at_append_left (by simp [h.length_ws]), at_append_self h.length_ws]
      have hcond := nodeCond_congr (ht _ _ hn) hv hcs
      have hhead : (NoTrap (wideFrom nodes init (ws ++ [w]) heap₂ ns).1 n ∧
          RightInt n (at_ (wideFrom nodes init (ws ++ [w]) heap₂ ns).1 done.length) (at_ vals' done.length)) ↔
          NodeCond nodes vals' (carriesFrom nodes vals' g (cs ++ [c]) ns) n := by
        rw [hcond, noTrap_congr (ht _ _ hn) hws, hv', hw']
        exact hstep.iff.symm
      have htail : NodeCond nodes vals' (carriesFrom nodes vals' g (cs ++ [c]) ns) n → _ := fun hc =>
        @ih (done ++ [n]) (by simpa using hsplit) _ _ _ _ _
          (by simpa using h.snoc hn (hstep.next (hcond.1 hc)).1 hcarry (hstep.next (hcond.1 hc)).2) he
      simp only [List.length_append, List.length_singleton] at htail
      rw [forall_from_iff hn, forall_from_iff hn, hhead]
      exact and_congr_right htail

/-- Every word is right and no division traps if and only if the condition holds at every node. -/
theorem agree_iff_nodeCond (ht : Typed nodes) (hread : ∀ (i : Nat) n, nodes[i]? = some n → ConvRead nodes n)
    {vals : List Word} {g : Nat → Int} (hfilled : Filled nodes init vals g) {heap heapv : Heap}
    (he : eval nodes heap = some (vals, heapv)) :
    (∀ (i : Nat) n, nodes[i]? = some n → NoTrap (wide nodes init heap).1 n ∧
      RightInt n (at_ (wide nodes init heap).1 i) (at_ vals i)) ↔
    ∀ (i : Nat) n, nodes[i]? = some n → NodeCond nodes vals (carries nodes vals g) n := by
  have h : Pre nodes ([] : List Node).length [] [] [] heap heap :=
    ⟨rfl, rfl, rfl, fun x hx => absurd hx (by simp), fun x hx => absurd hx (by simp), rfl⟩
  have hiff := agreeFrom_iff init (List.nil_append nodes).symm ht hread hfilled h he
  simpa [wide, carries] using hiff

end

end Mjc.Firm

import Mjc.Asm.LowerCode

/-!
# The code of a sequence computes its 64-bit reading

* `Rel` : the machine after the first `i` nodes: the slots hold the words of `wide`, slots not yet used are as
  they were at the start;
* `sim_codeOf`, `sim_codeFrom` : the code of one node, and of the nodes from one on;
* `WidthsSurviveFrom` : the code ends, and every operand holds the value of its node;
* `widthsSurviveFrom_iff` : that is so if and only if the 64-bit reading is right.
-/

namespace Mjc.Asm
open Mjc.Firm Mjc.Bytes StackSlotManager

set_option autoImplicit false

/-! ## The relation -/

/-- The words are the same; only their low byte counts for a boolean. -/
def SameIn (m : Mode) (w v : Word) : Prop := (m ≠ .Bu → w = v) ∧ w.toNat % 256 = v.toNat % 256

theorem SameIn.of_eq {m : Mode} {w v : Word} (h : w = v) : SameIn m w v := ⟨fun _ => h, congrArg (·.toNat % 256) h⟩

/-- The machine after the first `i` nodes. -/
structure Rel (nodes : List Node) (σ : Nat → Option Int) (init : Nat → Word) (i : Nat) (ws : List Word) (heap : Heap)
    (mem : Mem) : Prop where
  length : ws.length = i
  heap_eq : (fun a => mem (.addr a)) = heap
  words : ∀ x < i, ∀ m, modeAt nodes x = some m → SameIn m ((placeOf nodes σ x).word mem) (at_ ws x)
  fresh : ∀ x o, σ x = some o → root nodes x = x → i ≤ x ∨ immOf nodes x ≠ none → slotWord mem o = init x

theorem slotWord_write (mem : Mem) (o : Int) {n : Nat} (hn : n ≤ 8) (v : Word) :
    slotWord (write mem (.frame o) n v.toNat) o = merge n v (slotWord mem o) := by
  rw [merge, slotWord_toNat, slotWord, read_write_high mem _ _ (Nat.le_refl 8) hn]

theorem slotWord_write_addr (mem : Mem) (a : Word) (o : Int) (n v : Nat) :
    slotWord (write mem (.addr a) n v) o = slotWord mem o := by
  unfold slotWord
  rw [read_write_apart]
  intro i _ j _ h
  cases h

theorem slotWord_write_apart (mem : Mem) {o o' : Int} {n : Nat} (v : Nat) (h : Apart (Loc.frame o) n (.frame o') 8) :
    slotWord (write mem (.frame o) n v) o' = slotWord mem o' := by
  unfold slotWord
  rw [read_write_apart mem v h]

section
variable {nodes : List Node} {s : StackSlotManager} {N : Nat}

/-- Slots of different roots share no byte. -/
theorem SlotInv.apart (h : SlotInv nodes N s) {x y : Nat} {o o' : Int} (hx : s.offsets x = some o)
    (hy : s.offsets y = some o') (hne : root nodes x ≠ root nodes y) {n : Nat} (hn : n ≤ 8) :
    Apart (Loc.frame o) n (.frame o') 8 := by
  obtain ⟨k, rfl, -⟩ := h.range x o hx
  obtain ⟨k', rfl, -⟩ := h.range y o' hy
  have hk : k ≠ k' := by
    rintro rfl
    exact hne (h.inj x y _ hx hy)
  intro i hi j hj he
  have he' : -(8 * (k : Int) + 8) + i = -(8 * (k' : Int) + 8) + j := Loc.frame.inj he
  omega

variable {init : Nat → Word} {i : Nat} {ws : List Word} {heap : Heap} {mem : Mem}

theorem placeOf_slot {x : Nat} {o : Int} (himm : immOf nodes x = none) (ho : s.offsets x = some o) :
    placeOf nodes s.offsets x = .slot o := by
  rw [placeOf, himm, ho]
  rfl

theorem placeOf_imm {x : Nat} {v : Int} (himm : immOf nodes x = some v) :
    placeOf nodes s.offsets x = .imm v := by
  rw [placeOf, himm]

/-- The words after a step: those of earlier nodes, and the new one. -/
theorem words_snoc {i : Nat} {w : Word} (hlen : ws.length = i)
    (hold : ∀ x < i, ∀ m, modeAt nodes x = some m → SameIn m ((placeOf nodes s.offsets x).word mem) (at_ ws x))
    (hnew : ∀ m, modeAt nodes i = some m → SameIn m ((placeOf nodes s.offsets i).word mem) w) :
    ∀ x < i + 1, ∀ m, modeAt nodes x = some m →
      SameIn m ((placeOf nodes s.offsets x).word mem) (at_ (ws ++ [w]) x) := by
  intro x hx m hm
  rcases Nat.lt_succ_iff_lt_or_eq.1 hx with hlt | rfl
  · rw [at_append_left (hlen.symm ▸ hlt)]
    exact hold x hlt m hm
  · rw [at_append_self hlen]
    exact hnew m hm

/-- A node that writes its own slot. -/
theorem Rel.write_slot (h : Rel nodes s.offsets init i ws heap mem) (hinv : SlotInv nodes N s)
    (hs : HasSlots nodes N s) (hiN : i < N) (hroot : root nodes i = i) (himm : immOf nodes i = none) {o : Int}
    (ho : s.offsets i = some o) {n : Nat} (hn : n ≤ 8) (v w : Word)
    (hw : ∀ m, modeAt nodes i = some m → SameIn m (merge n v (slotWord mem o)) w) :
    Rel nodes s.offsets init (i + 1) (ws ++ [w]) heap (write mem (.frame o) n v.toNat) := by
  have hkeep : ∀ x o', s.offsets x = some o' → root nodes x ≠ i →
      slotWord (write mem (.frame o) n v.toNat) o' = slotWord mem o' := by
    intro x o' hx hne
    apply slotWord_write_apart
    exact hinv.apart ho hx (by rw [hroot]; exact hne.symm) hn
  refine ⟨by simp [h.length], ?_, words_snoc h.length ?_ ?_, ?_⟩
  · rw [← h.heap_eq]
    funext a
    apply write_of_ne
    intro j _ he
    cases he
  · intro x hx m hm
    have hold := h.words x hx m hm
    cases hx' : immOf nodes x with
    | some c =>
      rw [placeOf_imm hx'] at hold ⊢
      exact hold
    | none =>
      have hne : s.offsets x ≠ none := by
        obtain ⟨n', hn', hm'⟩ := Option.bind_eq_some_iff.1 hm
        exact hs x n' (by omega) hn' (by simp [hm']) hx'
      obtain ⟨o', ho'⟩ := Option.ne_none_iff_exists'.1 hne
      have hlt : root nodes x ≠ i := by
        have := @root_le nodes x
        omega
      rw [placeOf_slot hx' ho'] at hold ⊢
      rw [Place.word, hkeep x o' ho' hlt]
      exact hold
  · intro m hm
    rw [placeOf_slot himm ho, Place.word, slotWord_write mem o hn]
    exact hw m hm
  · intro x o' ho' hr hx
    have hne : x ≠ i := by
      rintro rfl
      rcases hx with hx | hx
      · omega
      · exact hx himm
    rw [hkeep x o' ho' (by rw [hr]; exact hne)]
    exact h.fresh x o' ho' hr (hx.imp_left fun hle => by omega)

/-- A node that leaves the memory as it is. -/
theorem Rel.skip (h : Rel nodes s.offsets init i ws heap mem) {w : Word}
    (hw : ∀ m, modeAt nodes i = some m → SameIn m ((placeOf nodes s.offsets i).word mem) w) :
    Rel nodes s.offsets init (i + 1) (ws ++ [w]) heap mem :=
  ⟨by simp [h.length], h.heap_eq, words_snoc h.length h.words hw,
    fun x o ho hr hx => h.fresh x o ho hr (hx.imp_left fun hle => by omega)⟩

/-- A node that writes the heap. -/
theorem Rel.write_heap (h : Rel nodes s.offsets init i ws heap mem) (hmode : modeAt nodes i = none) (a : Word)
    (n v : Nat) (w : Word) :
    Rel nodes s.offsets init (i + 1) (ws ++ [w]) (write heap a n v) (write mem (.addr a) n v) := by
  have hword : ∀ p : Place, p.word (write mem (.addr a) n v) = p.word mem := by
    intro p
    cases p with
    | imm c => rfl
    | slot o => exact slotWord_write_addr mem a o n v
  refine ⟨by simp [h.length], ?_, words_snoc h.length ?_ ?_, ?_⟩
  · rw [← h.heap_eq]
    exact write_comp (fun _ _ => rfl) (fun _ _ => Loc.addr.inj) mem a n v
  · intro x hx m hm
    rw [hword]
    exact h.words x hx m hm
  · intro m hm
    rw [hmode] at hm
    cases hm
  · intro x o ho hr hx
    rw [slotWord_write_addr]
    exact h.fresh x o ho hr (hx.imp_left fun hle => by omega)

/-! ## One node -/

theorem getRegMode_bytes (m : Mode) : (getRegMode m).bytes = m.bytes := by
  cases m <;> rfl

/-- An operand of an integer or pointer node. -/
theorem Rel.operand (h : Rel nodes s.offsets init i ws heap mem) {m : Mode} {x : Nat} (hx : Operand nodes i m x) :
    (placeOf nodes s.offsets x).word mem = at_ ws x := by
  obtain ⟨hlt, hm⟩ := hx
  have hfull : ∀ m', modeAt nodes x = some m' → m' ≠ .Bu → (placeOf nodes s.offsets x).word mem = at_ ws x :=
    fun m' hm' hne => (h.words x hlt m' hm').1 hne
  cases m with
  | Is => exact hfull .Is hm (by decide)
  | Ls => exact hm.elim (fun hm => hfull .Ls hm (by decide)) (fun hm => hfull .P hm (by decide))
  | P => exact hm.elim (fun hm => hfull .Ls hm (by decide)) (fun hm => hfull .P hm (by decide))
  | Bu => exact hm.elim

theorem ofInt_toImm (v : Int) : (BitVec.ofInt 64 (toImm v) : Word) = low (BitVec.ofInt 64 v) := by
  apply BitVec.eq_of_toInt_eq
  have hlow : (BitVec.ofInt 64 v).setWidth 32 = BitVec.ofInt 32 v := by
    rw [← BitVec.signExtend_eq_setWidth_of_le _ (by decide)]
    apply BitVec.eq_of_toInt_eq
    rw [BitVec.toInt_signExtend, BitVec.toInt_ofInt, BitVec.toInt_ofInt]
    exact Int.bmod_bmod_of_dvd (by decide)
  have h := BitVec.le_toInt (BitVec.ofInt 32 v)
  have h' := @BitVec.toInt_lt 32 (BitVec.ofInt 32 v)
  rw [toImm, low, BitVec.toInt_signExtend_of_le (by decide), BitVec.toInt_ofInt, hlow]
  exact Int.bmod_eq_of_le (by omega) (by omega)

theorem loaded_same {m : Mode} (old : Word) {a : Word} (hheap : (fun a => mem (.addr a)) = heap) :
    SameIn m (loaded (getRegMode m) old mem a) (BitVec.ofNat 64 (read heap a m.bytes)) := by
  have hread : read mem (.addr a) m.bytes = read heap a m.bytes := by
    rw [← hheap]
    exact (read_comp (f := Loc.addr) (fun _ _ => rfl) mem a m.bytes).symm
  have hlt := read_lt heap a m.bytes
  unfold loaded
  rw [getRegMode_bytes, hread]
  constructor
  · intro hm
    cases m with
    | Is =>
      apply BitVec.eq_of_toNat_eq
      simp only [getRegMode, mergeReg, Mode.bytes, BitVec.toNat_setWidth, BitVec.toNat_ofNat] at hlt ⊢
      omega
    | Ls => rfl
    | P => rfl
    | Bu => exact absurd rfl hm
  · cases m with
    | Bu => exact mergeReg_mod .L _ _
    | Is =>
      simp only [getRegMode, mergeReg, Mode.bytes, BitVec.toNat_setWidth, BitVec.toNat_ofNat] at hlt ⊢
      omega
    | Ls => rfl
    | P => rfl

/-- The slot of a node that is no `Conv`. -/
theorem HasSlots.own (hs : HasSlots nodes N s) (hiN : i < N) {n : Node} (hn : nodes[i]? = some n)
    (hm : n.mode ≠ none) (himm : immOf nodes i = none) : ∃ o, s.offsets i = some o :=
  Option.ne_none_iff_exists'.1 (hs i n hiN hn hm himm)

/-- The code of a node, from a machine that holds the words before it. -/
structure Sim (env : Env) (code : List Instr) (st : State) (noTrap : Prop) (good : Mem → Prop) : Prop where
  ends : noTrap → ∃ st', runBlock env code (st, none) = some (st', none) ∧ good st'.mem
  traps : ¬noTrap → runBlock env code (st, none) = none

theorem Sim.of_leaves {env : Env} {code : List Instr} {st : State} {good : Mem → Prop} {mem : Mem}
    (h : Leaves env code st mem) (hg : good mem) : Sim env code st True good := by
  obtain ⟨st', hrun, rfl⟩ := h
  exact ⟨fun _ => ⟨st', hrun, hg⟩, fun h => absurd trivial h⟩

theorem isImm_eq_true {x : Nat} : isImm nodes x = true ↔ immOf nodes x ≠ none := by
  unfold isImm
  split
  next h => simp [immOf, h]
  next h => exact (isConst_of_immOf h).symm
  next h h' =>
    have : immOf nodes x = none := by
      unfold immOf
      split
      next he => exact absurd he (h _ _)
      next he => exact absurd he (h' _ _)
      next => rfl
    simp [this]

theorem isImm_eq_false {x : Nat} : isImm nodes x = false ↔ immOf nodes x = none := by
  rw [← not_iff_not, ← ne_eq (immOf nodes x), ← isImm_eq_true]
  simp

theorem conv_word (hinv : SlotInv nodes N s) (hs : HasSlots nodes N s) (hiN : i < N)
    (h : Rel nodes s.offsets init i ws heap mem) {m : Mode} {x : Nat} (hn : nodes[i]? = some (.conv m x))
    (hx : Operand nodes i .Is x ∨ Operand nodes i .Ls x) :
    (placeOf nodes s.offsets i).word mem = (wideNode nodes init i ws heap (.conv m x)).1 := by
  have hlt : x < i := hx.elim (·.1) (·.1)
  have hword : (placeOf nodes s.offsets x).word mem = at_ ws x := hx.elim h.operand h.operand
  show _ = if !isConst nodes x && isImm nodes x then init x else at_ ws x
  by_cases hc : isConst nodes x = true
  · obtain ⟨m', v, hv⟩ : ∃ m' v, nodes[x]? = some (.const m' v) := by
      unfold isConst at hc
      split at hc
      next m' v hv => exact ⟨m', v, hv⟩
      next => cases hc
    have hi : immOf nodes i = some (toImm v) := by simp [immOf, hn, hv]
    have hx' : immOf nodes x = some (toImm v) := by simp [immOf, hv]
    rw [placeOf_imm hx'] at hword
    rw [placeOf_imm hi, hc]
    exact hword
  · have hcf : isConst nodes x = false := by simpa using hc
    have hroot := root_conv hn hcf hlt
    have himm : immOf nodes i = none := by
      by_contra hne
      exact hc ((isConst_of_immOf hn).1 hne)
    obtain ⟨o, ho⟩ := hs.own hiN hn (by simp [Node.mode]) himm
    have hro : s.offsets (root nodes x) = some o := by
      rw [← hroot]
      exact hinv.root_eq i o ho
    rw [placeOf_slot himm ho, hcf]
    by_cases hxi : immOf nodes x = none
    · -- the operand has a slot, the same one
      have hxs : s.offsets x ≠ none := by
        cases hnx : nodes[x]? with
        | none => rcases hx with ⟨-, hm⟩ | ⟨-, hm | hm⟩ <;> simp [modeAt, hnx] at hm
        | some n' =>
          refine hs x n' (by omega) hnx ?_ hxi
          rcases hx with ⟨-, hm⟩ | ⟨-, hm | hm⟩ <;> simp_all [modeAt]
      obtain ⟨o', ho'⟩ := Option.ne_none_iff_exists'.1 hxs
      have hoo : o = o' := by
        have := hinv.root_eq x o' ho'
        rw [hro] at this
        exact Option.some.inj this
      rw [placeOf_slot hxi ho', ← hoo] at hword
      rw [isImm_eq_false.2 hxi]
      exact hword
    · have hrx := root_of_immOf hxi
      rw [hrx] at hro
      rw [isImm_eq_true.2 hxi]
      exact h.fresh x o hro hrx (.inr hxi)

theorem immOf_none_of {n : Node} (hn : nodes[i]? = some n) (hc : ∀ m v, n ≠ .const m v) (hv : ∀ m c, n ≠ .conv m c) :
    immOf nodes i = none := by
  unfold immOf
  rw [hn]
  cases n with
  | const m v => exact absurd rfl (hc m v)
  | conv m c => exact absurd rfl (hv m c)
  | _ => rfl

/-- The slot of a node that computes something: still as at the start, and then written. -/
theorem Rel.own_slot (h : Rel nodes s.offsets init i ws heap mem) (hinv : SlotInv nodes N s)
    (hs : HasSlots nodes N s) (hiN : i < N) {n : Node} (hn : nodes[i]? = some n) (hc : ∀ m v, n ≠ .const m v)
    (hv : ∀ m c, n ≠ .conv m c) (hm : n.mode ≠ none) :
    ∃ o, placeOf nodes s.offsets i = .slot o ∧ slotWord mem o = init i ∧ ∀ k ≤ 8, ∀ v w : Word,
      (∀ m, n.mode = some m → SameIn m (merge k v (init i)) w) →
      Rel nodes s.offsets init (i + 1) (ws ++ [w]) heap (write mem (.frame o) k v.toNat) := by
  have himm := immOf_none_of hn hc hv
  have hroot := root_of_not_conv hn hv
  obtain ⟨o, ho⟩ := hs.own hiN hn hm himm
  have hinit := h.fresh i o ho hroot (.inl (Nat.le_refl i))
  refine ⟨o, placeOf_slot himm ho, hinit, fun k hk v w hw => h.write_slot hinv hs hiN hroot himm ho hk v w ?_⟩
  intro m hm'
  rw [hinit]
  exact hw m (by simpa [modeAt, hn] using hm')

section
variable (env : Env) (hinv : SlotInv nodes N s) (hs : HasSlots nodes N s) (hiN : i < N) {st : State}
  (h : Rel nodes s.offsets init i ws heap st.mem)
include hinv hs hiN h

theorem sim_binary {n : Node} (hn : nodes[i]? = some n) (hc : ∀ m v, n ≠ .const m v) (hv : ∀ m c, n ≠ .conv m c)
    {m : Mode} (hm : n.mode = some m) {mnemonic : Mnemonic} {f : Word → Word → Word}
    (hf : binaryOf mnemonic = some f) {x y : Nat} (hx : Operand nodes i m x) (hy : Operand nodes i m y) :
    Sim env (binaryCode mnemonic (placeOf nodes s.offsets x).op (placeOf nodes s.offsets y).op
      (placeOf nodes s.offsets i).op) st True fun mem' =>
        Rel nodes s.offsets init (i + 1) (ws ++ [f (at_ ws x) (at_ ws y)]) heap mem' := by
  obtain ⟨o, ho, -, hw⟩ := h.own_slot hinv hs hiN hn hc hv (by simp [hm])
  have hleaves := leaves_binaryCode env st (placeOf nodes s.offsets x) o hf (placeOf nodes s.offsets y)
  rw [h.operand hx, h.operand hy] at hleaves
  rw [ho]
  exact .of_leaves hleaves (hw 8 (Nat.le_refl 8) _ _ fun m' _ => .of_eq (merge_8 _ _))

theorem sim_minus {m : Mode} {x : Nat} (hn : nodes[i]? = some (.minus m x)) (hx : Operand nodes i m x) :
    Sim env (minusCode (getRegMode m) (placeOf nodes s.offsets x).op (placeOf nodes s.offsets i).op) st True
      fun mem' => Rel nodes s.offsets init (i + 1) (ws ++ [merge m.bytes (-at_ ws x) (init i)]) heap mem' := by
  obtain ⟨o, ho, -, hw⟩ := h.own_slot hinv hs hiN hn (by simp) (by simp) (by simp [Node.mode])
  have hleaves := leaves_minusCode env st (placeOf nodes s.offsets x) o (getRegMode m)
  rw [h.operand hx, getRegMode_bytes] at hleaves
  rw [ho]
  exact .of_leaves hleaves (hw m.bytes (by cases m <;> decide) _ _ fun _ _ => .of_eq rfl)

theorem sim_division {n : Node} (hn : nodes[i]? = some n) (hc : ∀ m v, n ≠ .const m v) (hv : ∀ m c, n ≠ .conv m c)
    (hm : n.mode = some .Ls) {result : RegName} {f : Word → Word → Word}
    (hf : result = .ax ∧ f = quot ∨ result = .dx ∧ f = rem) {x y : Nat} (hx : Operand nodes i .Ls x)
    (hy : Operand nodes i .Ls y) :
    Sim env (divisionCode result (placeOf nodes s.offsets x).op (placeOf nodes s.offsets y).op
      (placeOf nodes s.offsets i).op) st (low (at_ ws y) ≠ 0) fun mem' =>
        Rel nodes s.offsets init (i + 1) (ws ++ [f (low (at_ ws x)) (low (at_ ws y))]) heap mem' := by
  obtain ⟨o, ho, -, hw⟩ := h.own_slot hinv hs hiN hn hc hv (by simp [hm])
  obtain ⟨hzero, hne⟩ := run_divisionCode env st (placeOf nodes s.offsets x) o hf (placeOf nodes s.offsets y)
  rw [h.operand hx, h.operand hy] at hne
  rw [h.operand hy] at hzero
  rw [ho]
  refine ⟨fun hy0 => ?_, fun hy0 => hzero (not_not.1 hy0)⟩
  obtain ⟨st', hrun, hmem⟩ := hne hy0
  refine ⟨st', hrun, ?_⟩
  rw [hmem]
  exact hw 8 (Nat.le_refl 8) _ _ fun _ _ => .of_eq (merge_8 _ _)

theorem sim_load {m : Mode} {p : Nat} (hn : nodes[i]? = some (.load m p)) (hp : Operand nodes i .P p) :
    Sim env (loadCode (getRegMode m) (placeOf nodes s.offsets p).op (placeOf nodes s.offsets i).op) st True
      fun mem' => Rel nodes s.offsets init (i + 1) (ws ++ [BitVec.ofNat 64 (read heap (at_ ws p) m.bytes)]) heap
        mem' := by
  obtain ⟨o, ho, -, hw⟩ := h.own_slot hinv hs hiN hn (by simp) (by simp) (by simp [Node.mode])
  have hleaves := leaves_loadCode env st (placeOf nodes s.offsets p) o (getRegMode m)
  rw [h.operand hp] at hleaves
  rw [ho]
  refine .of_leaves hleaves (hw 8 (Nat.le_refl 8) _ _ fun m' hm' => ?_)
  cases hm'
  rw [merge_8]
  exact loaded_same _ h.heap_eq

end

theorem sim_store (env : Env) {st : State} (h : Rel nodes s.offsets init i ws heap st.mem) {m : Mode} {v p : Nat}
    (hn : nodes[i]? = some (.store m v p)) (hv : v < i ∧ modeAt nodes v = some m) (hp : Operand nodes i .P p) :
    Sim env (storeCode (getRegMode m) (placeOf nodes s.offsets p).op (placeOf nodes s.offsets v).op) st True
      fun mem' => Rel nodes s.offsets init (i + 1) (ws ++ [0])
        (write heap (at_ ws p) m.bytes (at_ ws v).toNat) mem' := by
  have hleaves := leaves_storeCode env st (placeOf nodes s.offsets p) (getRegMode m) (placeOf nodes s.offsets v)
  have hval := h.words v hv.1 m hv.2
  have hwrite : write st.mem (.addr (at_ ws p)) m.bytes ((placeOf nodes s.offsets v).word st.mem).toNat =
      write st.mem (.addr (at_ ws p)) m.bytes (at_ ws v).toNat := by
    apply write_congr
    by_cases hm : m = .Bu
    · subst hm
      exact hval.2
    · rw [hval.1 hm]
  rw [h.operand hp, getRegMode_bytes, hwrite] at hleaves
  exact .of_leaves hleaves (h.write_heap (by simp [modeAt, hn, Node.mode]) _ _ _ _)

/-- The code of a node takes the machine from the words before it to the words with it, or traps. -/
theorem sim_codeOf (env : Env) (hinv : SlotInv nodes N s) (hs : HasSlots nodes N s) (hiN : i < N) {n : Node}
    (hn : nodes[i]? = some n) (ht : NodeTyped nodes i n) {st : State}
    (h : Rel nodes s.offsets init i ws heap st.mem) :
    Sim env (codeOf nodes (fun x => (placeOf nodes s.offsets x).op) i n) st (NoTrap ws n) fun mem' =>
      Rel nodes s.offsets init (i + 1) (ws ++ [(wideNode nodes init i ws heap n).1])
        (wideNode nodes init i ws heap n).2 mem' := by
  cases n with
  | const m v =>
    refine .of_leaves (.nil rfl) (h.skip fun m' hm' => .of_eq ?_)
    have himm : immOf nodes i = some (toImm v) := by simp [immOf, hn]
    rw [placeOf_imm himm]
    exact ofInt_toImm v
  | add m l r =>
    simp only [codeOf]
    split
    · exact sim_binary env hinv hs hiN h hn (by simp) (by simp) rfl binaryOf_add ht.1 ht.2
    · have hcomm := sim_binary env hinv hs hiN h hn (by simp) (by simp) rfl binaryOf_add ht.2 ht.1
      rw [BitVec.add_comm] at hcomm
      exact hcomm
  | sub m l r => exact sim_binary env hinv hs hiN h hn (by simp) (by simp) rfl binaryOf_sub ht.1 ht.2
  | mul m l r =>
    have hcomm := sim_binary env hinv hs hiN h hn (by simp) (by simp) rfl binaryOf_imul ht.2 ht.1
    rw [BitVec.mul_comm] at hcomm
    exact hcomm
  | minus m x => exact sim_minus env hinv hs hiN h hn ht
  | div l r => exact sim_division env hinv hs hiN h hn (by simp) (by simp) rfl (.inl ⟨rfl, rfl⟩) ht.1 ht.2
  | mod l r => exact sim_division env hinv hs hiN h hn (by simp) (by simp) rfl (.inr ⟨rfl, rfl⟩) ht.1 ht.2
  | conv m x => exact .of_leaves (.nil rfl) (h.skip fun _ _ => .of_eq (conv_word hinv hs hiN h hn ht.2))
  | load m p => exact sim_load env hinv hs hiN h hn ht
  | store m v p => exact sim_store env h hn ht.1 ⟨ht.2.1, .inr ht.2.2⟩

/-! ## The whole code -/

theorem sim_codeFrom (env : Env) (ht : Typed nodes) (hinv : SlotInv nodes nodes.length s)
    (hs : HasSlots nodes nodes.length s) {done ns : List Node} (hsplit : nodes = done ++ ns) {st : State}
    (h : Rel nodes s.offsets init done.length ws heap st.mem) :
    Sim env (codeFrom nodes (fun x => (placeOf nodes s.offsets x).op) done.length ns) st
      (∀ i n, done.length ≤ i → nodes[i]? = some n → NoTrap (wideFrom nodes init ws heap ns).1 n) fun mem' =>
        Rel nodes s.offsets init nodes.length (wideFrom nodes init ws heap ns).1 (wideFrom nodes init ws heap ns).2
          mem' := by
  induction ns generalizing done ws heap st with
  | nil =>
    rw [List.append_nil] at hsplit
    subst hsplit
    refine ⟨fun _ => ⟨st, rfl, h⟩, fun hno => absurd (fun i n hi hn => ?_) hno⟩
    rw [List.getElem?_eq_none hi] at hn
    cases hn
  | cons n ns ih =>
    have hn : nodes[done.length]? = some n := by simp [hsplit]
    have hlt : done.length < nodes.length := by simp [hsplit]
    have hone := sim_codeOf env hinv hs hlt hn (ht _ n hn) h
    have hwide : wideFrom nodes init ws heap (n :: ns) = wideFrom nodes init
        (ws ++ [(wideNode nodes init done.length ws heap n).1]) (wideNode nodes init done.length ws heap n).2 ns := by
      simp only [wideFrom, h.length]
    rw [hwide, codeFrom]
    generalize hw : wideNode nodes init done.length ws heap n = p at hone ⊢
    obtain ⟨w, heap'⟩ := p
    dsimp only at hone ⊢
    have hlen : (done ++ [n]).length = done.length + 1 := by simp
    obtain ⟨us, hus⟩ := wideFrom_append_left nodes init ns (ws ++ [w]) heap'
    have hprefix : ∀ x < done.length, at_ (wideFrom nodes init (ws ++ [w]) heap' ns).1 x = at_ ws x := by
      intro x hx
      rw [hus, List.append_assoc, at_append_left (h.length.symm ▸ hx)]
    have htrap := noTrap_congr (ht _ n hn) hprefix
    -- the rest runs from a machine that holds the words so far
    have hrest : ∀ st' : State, Rel nodes s.offsets init (done.length + 1) (ws ++ [w]) heap' st'.mem → _ := fun st' h' =>
      @ih (ws ++ [w]) heap' (done ++ [n]) (by simp [hsplit]) st' (by rw [hlen]; exact h')
    constructor
    · intro hall
      obtain ⟨st₁, hrun₁, h₁⟩ := hone.ends (htrap.1 (hall _ n (Nat.le_refl _) hn))
      obtain ⟨st', hrun', h'⟩ := (hrest st₁ h₁).ends fun i n' hi => hall i n' (by rw [hlen] at hi; omega)
      rw [hlen] at hrun'
      exact ⟨st', by rw [runBlock_append, hrun₁]; exact hrun', h'⟩
    · intro hnot
      by_cases hnow : NoTrap ws n
      · obtain ⟨st₁, hrun₁, h₁⟩ := hone.ends hnow
        have htraps := (hrest st₁ h₁).traps fun hall => hnot fun i n' hi hn' => by
          rcases Nat.eq_or_lt_of_le hi with rfl | hi
          · rw [hn] at hn'
            cases hn'
            exact htrap.2 hnow
          · exact hall i n' (by rw [hlen]; omega) hn'
        rw [hlen] at htraps
        rw [runBlock_append, hrun₁]
        exact htraps
      · rw [runBlock_append, hone.traps hnow]
        rfl

end

/-! ## Integer widths -/

/-- The heap of a machine: its memory outside of the frame. -/
def heapOf (st : State) : Heap := fun a => st.mem (.addr a)

/-- The words in the slots of the nodes, before the code runs. -/
def frameWords (nodes : List Node) (st : State) (x : Nat) : Word :=
  match lower nodes with
  | some (_, s) => slotWord st.mem ((s.offsets x).getD 0)
  | none => 0

/-- The emitted code ends, and the operand of every integer and pointer node then holds the node's value. -/
def WidthsSurviveFrom (env : Env) (nodes : List Node) (st : State) (vals : List Word) : Prop :=
  ∃ code s st', lower nodes = some (code, s) ∧ runBlock env code (st, none) = some (st', none) ∧
    ∀ i m, modeAt nodes i = some m → m ≠ .Bu → ∃ op w, getNodeOp nodes i s = some (op, s) ∧
      readOp st' .R op = some w ∧ Agree m w (at_ vals i)

section
variable {nodes : List Node} (env : Env) (st : State)

/-- The emitted code ends if no division traps, and then holds the 64-bit reading of the sequence. -/
theorem lower_sim (ht : Typed nodes) : ∃ code s, lower nodes = some (code, s) ∧
    HasSlots nodes nodes.length s ∧
    Sim env code st (∀ (i : Nat) n, nodes[i]? = some n → NoTrap (wide nodes (frameWords nodes st) (heapOf st)).1 n) fun mem' =>
      Rel nodes s.offsets (frameWords nodes st) nodes.length (wide nodes (frameWords nodes st) (heapOf st)).1
        (wide nodes (frameWords nodes st) (heapOf st)).2 mem' := by
  obtain ⟨s, hlower, hinv, hs⟩ := lower_spec ht
  have hinit : ∀ x o, s.offsets x = some o → slotWord st.mem o = frameWords nodes st x := by
    intro x o ho
    simp only [frameWords, hlower, ho, Option.getD_some]
  have h : Rel nodes s.offsets (frameWords nodes st) ([] : List Node).length [] (heapOf st) st.mem :=
    ⟨rfl, rfl, fun x hx => absurd hx (by simp), fun x o ho _ _ => hinit x o ho⟩
  have hsim := sim_codeFrom env ht hinv hs (List.nil_append nodes).symm h
  refine ⟨_, s, hlower, hs, ?_⟩
  simpa [wide] using hsim

theorem getNodeOp_eq {s : StackSlotManager} (hs : HasSlots nodes nodes.length s) {i : Nat} {m : Mode}
    (hm : modeAt nodes i = some m) : getNodeOp nodes i s = some ((placeOf nodes s.offsets i).op, s) := by
  obtain ⟨n, hn, hm'⟩ := Option.bind_eq_some_iff.1 hm
  have hlt : i < nodes.length := (List.getElem?_eq_some_iff.1 hn).1
  unfold getNodeOp placeOf
  cases himm : immOf nodes i with
  | some v => rfl
  | none =>
    obtain ⟨o, ho⟩ := hs.own hlt hn (by simp [hm']) himm
    show (getStackSlot i s).bind (fun p => some (Op.ind .bp .R p.1, p.2)) = _
    rw [getStackSlot, ho]
    rfl

/-- Widths survive if and only if no division traps and every word of the 64-bit reading is right. -/
theorem widthsSurviveFrom_iff (ht : Typed nodes) (vals : List Word) : WidthsSurviveFrom env nodes st vals ↔
    ∀ (i : Nat) n, nodes[i]? = some n → NoTrap (wide nodes (frameWords nodes st) (heapOf st)).1 n ∧
      RightInt n (at_ (wide nodes (frameWords nodes st) (heapOf st)).1 i) (at_ vals i) := by
  obtain ⟨code, s, hlower, hs, hsim⟩ := lower_sim env st ht
  -- the word read from a node's operand is the word of the 64-bit reading
  have hread : ∀ st' : State, Rel nodes s.offsets (frameWords nodes st) nodes.length
      (wide nodes (frameWords nodes st) (heapOf st)).1 (wide nodes (frameWords nodes st) (heapOf st)).2 st'.mem →
      ∀ (i : Nat) m, modeAt nodes i = some m → m ≠ .Bu → readOp st' .R (placeOf nodes s.offsets i).op =
        some (at_ (wide nodes (frameWords nodes st) (heapOf st)).1 i) := by
    intro st' h' i m hm hne
    obtain ⟨n, hn, -⟩ := Option.bind_eq_some_iff.1 hm
    have hlt : i < nodes.length := (List.getElem?_eq_some_iff.1 hn).1
    rw [readOp_place, low_R, (h'.words i hlt m hm).1 hne]
  constructor
  · rintro ⟨code', s', st', hlower', hrun, hall⟩ i n hn
    rw [hlower] at hlower'
    cases hlower'
    have hno : ∀ (i : Nat) n, nodes[i]? = some n → NoTrap (wide nodes (frameWords nodes st) (heapOf st)).1 n := by
      by_contra hnot
      rw [hsim.traps hnot] at hrun
      cases hrun
    obtain ⟨st₁, hrun₁, h₁⟩ := hsim.ends hno
    rw [hrun] at hrun₁
    cases hrun₁
    refine ⟨hno i n hn, fun m hm hne => ?_⟩
    have hmode : modeAt nodes i = some m := by simp [modeAt, hn, hm]
    obtain ⟨op, w, hop, hw, hagree⟩ := hall i m hmode hne
    rw [getNodeOp_eq hs hmode] at hop
    cases hop
    rw [hread st' h₁ i m hmode hne] at hw
    cases hw
    exact hagree
  · intro hall
    obtain ⟨st', hrun, h'⟩ := hsim.ends fun i n hn => (hall i n hn).1
    refine ⟨code, s, st', hlower, hrun, fun i m hm hne => ?_⟩
    obtain ⟨n, hn, hm'⟩ := Option.bind_eq_some_iff.1 hm
    exact ⟨_, _, getNodeOp_eq hs hm, hread st' h' i m hm hne, (hall i n hn).2 m hm' hne⟩

end

end Mjc.Asm

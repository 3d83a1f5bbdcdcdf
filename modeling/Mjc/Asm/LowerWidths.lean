import Mjc.Asm.LowerCorrect

/-!
# Integer widths

* `fill`, `exists_frame` : an initial memory with given words in the slots of the nodes;
* `WidthsSurvive` : from every initial frame the code ends, and every operand holds the value of its node;
* `widthsSurvive_iff` : that is so if and only if `NodeCond` holds of the values at every node, whatever the carries of
  the negations are.
-/

namespace Mjc.Asm
open Mjc.Firm Mjc.Bytes StackSlotManager

set_option autoImplicit false

/-! ## Initial frames -/

/-- A memory with given words in the slots of the nodes before `n`. -/
def fill (nodes : List Node) (s : StackSlotManager) (u : Nat → Word) (mem : Mem) : Nat → Mem
  | 0 => mem
  | x + 1 =>
    match s.offsets x with
    | some o => if root nodes x = x then write (fill nodes s u mem x) (.frame o) 8 (u x).toNat else fill nodes s u mem x
    | none => fill nodes s u mem x

section
variable {nodes : List Node} {s : StackSlotManager} {N : Nat} (u : Nat → Word) (mem : Mem)

theorem fill_addr (n : Nat) (a : Word) : fill nodes s u mem n (.addr a) = mem (.addr a) := by
  induction n with
  | zero => rfl
  | succ x ih =>
    rw [fill]
    cases s.offsets x with
    | none => exact ih
    | some o =>
      dsimp only
      split
      · rw [write_of_ne, ih]
        intro j _ he
        cases he
      · exact ih

theorem slotWord_fill (hinv : SlotInv nodes N s) {x : Nat} {o : Int} (ho : s.offsets x = some o)
    (hroot : root nodes x = x) {n : Nat} (hx : x < n) : slotWord (fill nodes s u mem n) o = u x := by
  induction n with
  | zero => cases hx
  | succ y ih =>
    rw [fill]
    by_cases hxy : x = y
    · subst hxy
      rw [ho]
      dsimp only
      rw [if_pos hroot, slotWord_write _ _ (Nat.le_refl 8), merge_8]
    · have hlt := ih (by omega)
      split
      next o' ho' =>
        split
        next hrooty =>
          rw [slotWord_write_apart, hlt]
          exact hinv.apart ho' ho (by rw [hroot, hrooty]; exact Ne.symm hxy) (Nat.le_refl 8)
        next => exact hlt
      next => exact hlt

end

section
variable {nodes : List Node}

/-- Some initial memory has given words in the slots of all nodes that own one. -/
theorem exists_frame (ht : Typed nodes) (heap : Heap) (u : Nat → Word) : ∃ st, heapOf st = heap ∧
    ∀ code s, lower nodes = some (code, s) → ∀ x o, s.offsets x = some o → root nodes x = x →
      frameWords nodes st x = u x := by
  obtain ⟨s, hlower, hinv, -⟩ := lower_spec ht
  let mem : Mem := fun l => match l with
    | .addr a => heap a
    | .frame _ => 0
  refine ⟨⟨fun _ => 0, fill nodes s u mem nodes.length, ⟨false, false, false⟩, []⟩, ?_, ?_⟩
  · funext a
    exact fill_addr u mem nodes.length a
  · intro code s' hlower' x o ho hroot
    cases hlower.symm.trans hlower'
    have hx : x < nodes.length := by
      by_contra hge
      rw [hinv.fresh x (by omega)] at ho
      cases ho
    simp only [frameWords, hlower, ho, Option.getD_some]
    exact slotWord_fill u mem hinv ho hroot hx

/-- A negation owns the slot that it is written to. -/
theorem minus_slot (ht : Typed nodes) {code : List Instr} {s : StackSlotManager} (hlower : lower nodes = some (code, s))
    {i x : Nat} {m : Mode} (hn : nodes[i]? = some (.minus m x)) : ∃ o, s.offsets i = some o ∧ root nodes i = i := by
  obtain ⟨s', hlower', -, hs⟩ := lower_spec ht
  cases hlower.symm.trans hlower'
  have himm : immOf nodes i = none := by simp [immOf, hn]
  obtain ⟨o, ho⟩ := hs.own (List.getElem?_eq_some_iff.1 hn).1 hn (by simp [Node.mode]) himm
  exact ⟨o, ho, root_of_not_conv hn (by simp)⟩

/-- A `Conv` of a constant owns the slot that a `Conv` of it shares. -/
theorem conv_slot (ht : Typed nodes) {code : List Instr} {s : StackSlotManager} (hlower : lower nodes = some (code, s))
    {i x : Nat} {m : Mode} (hn : nodes[i]? = some (.conv m x)) (himm : isImm nodes x = true)
    (hconst : isConst nodes x = false) : ∃ o, s.offsets x = some o ∧ root nodes x = x := by
  obtain ⟨s', hlower', hinv, hs⟩ := lower_spec ht
  cases hlower.symm.trans hlower'
  have hlt : x < i := (ht i _ hn).2.elim (·.1) (·.1)
  have hroot : root nodes x = x := root_of_immOf (isImm_eq_true.mp himm)
  have hown : immOf nodes i = none := by
    by_contra hne
    exact Bool.false_ne_true (hconst.symm.trans ((isConst_of_immOf hn).1 hne))
  obtain ⟨o, ho⟩ := hs.own (List.getElem?_eq_some_iff.1 hn).1 hn (by simp [Node.mode]) hown
  have hshared := hinv.root_eq i o ho
  rw [root_conv hn hconst hlt, hroot] at hshared
  exact ⟨o, hshared, hroot⟩

/-! ## All frames -/

/-- From every initial content of the frame, the emitted code ends with the values in the operands of the nodes. -/
def WidthsSurvive (env : Env) (nodes : List Node) (heap : Heap) (vals : List Word) : Prop :=
  ∀ st, heapOf st = heap → WidthsSurviveFrom env nodes st vals

theorem not_agree_succ {m : Mode} (hm : m ≠ .Bu) (v : Word) : ¬Agree m (v + 1) v := by
  have hv := v.isLt
  have hnat : (v + 1).toNat = (v.toNat + 1) % 2 ^ 64 := BitVec.toNat_add v 1
  have hne : v + 1 ≠ v := by
    intro h
    rw [h] at hnat
    omega
  cases m with
  | Is =>
    intro h
    have hlow := setWidth_eq_iff.mp h
    omega
  | Ls => exact hne
  | P => exact hne
  | Bu => exact absurd rfl hm

/-- Integer widths survive code generation if and only if no `Conv` of a `Conv` of a constant is read, and at every node
where the upper half of a word matters, the values and their carries are what it needs. -/
theorem widthsSurvive_iff (env : Env) (ht : Typed nodes) {heap heap' : Heap} {vals : List Word}
    (he : eval nodes heap = some (vals, heap')) : WidthsSurvive env nodes heap vals ↔
    (∀ (i : Nat) n, nodes[i]? = some n → ConvRead nodes n) ∧
      ∀ g (i : Nat) n, nodes[i]? = some n → NodeCond nodes vals (carries nodes vals g) n := by
  obtain ⟨code, s, hlower, -, -⟩ := lower_sim env (⟨fun _ => 0, fun _ => 0, ⟨false, false, false⟩, []⟩) ht
  constructor
  · intro hall
    have hread : ∀ (i : Nat) n, nodes[i]? = some n → ConvRead nodes n := by
      intro i n hn
      cases n with
      | conv m x =>
        intro himm
        by_contra hconst
        have hconst : isConst nodes x = false := by simpa using hconst
        obtain ⟨st, hheap, hframe⟩ := exists_frame ht heap fun _ => at_ vals i + 1
        obtain ⟨o, ho, hroot⟩ := conv_slot ht hlower hn himm hconst
        have hright := ((widthsSurviveFrom_iff env st ht vals).mp (hall st hheap) i _ hn).2 m rfl (ht i _ hn).1
        rw [wide, wideFrom_conv _ (List.nil_append nodes).symm rfl _ (Nat.zero_le i) hn himm hconst,
          hframe code s hlower x o ho hroot] at hright
        exact not_agree_succ (ht i _ hn).1 _ hright
      | _ => exact trivial
    refine ⟨hread, fun g => ?_⟩
    -- a frame with these carries above the negations
    obtain ⟨st, hheap, hframe⟩ := exists_frame ht heap fun i =>
      BitVec.ofInt 64 (2 ^ 32 * (g i - if valueAt vals i < 0 then 1 else 0))
    have hfilled : Filled nodes (frameWords nodes st) vals g := by
      intro i x hn
      obtain ⟨o, ho, hroot⟩ := minus_slot ht hlower hn
      rw [hframe code s hlower i o ho hroot, BitVec.toNat_ofInt]
      omega
    have hwide := (widthsSurviveFrom_iff env st ht vals).mp (hall st hheap)
    rw [hheap] at hwide
    exact (agree_iff_nodeCond (frameWords nodes st) ht hread hfilled he).mp hwide
  · rintro ⟨hread, hcond⟩ st rfl
    refine (widthsSurviveFrom_iff env st ht vals).mpr ?_
    have hfilled : Filled nodes (frameWords nodes st) vals fun i =>
        ((frameWords nodes st i).toNat / 2 ^ 32 : Nat) + if valueAt vals i < 0 then 1 else 0 := by
      intro i x _
      rw [Int.sub_self]
      exact dvd_zero _
    exact (agree_iff_nodeCond (frameWords nodes st) ht hread hfilled he).mpr (hcond _)

/-- A memory that is all ones, or all zeros. -/
def uniform (byte : BitVec 8) : Heap := fun _ => byte

/-- The index of `a[i + 2]`, with `i` loaded from a field. -/
def indexNodes : List Node := [.const .P 4096, .load .Is 0, .const .Is 2, .add .Is 1 2, .conv .Ls 3]

/-- A field that holds `-1` gives the index `4294967297` in place of `1`. -/
theorem not_widthsSurvive_indexNodes : ∃ vals heap', Typed indexNodes ∧
    eval indexNodes (uniform 255) = some (vals, heap') ∧ at_ vals 4 = 1 ∧
    ¬WidthsSurvive (fun _ => (fun _ => 0, fun _ => 0)) indexNodes (uniform 255) vals := by
  refine ⟨[4096, -1, 2, 1, 1], uniform 255, by decide, rfl, rfl, fun hall => ?_⟩
  let st : State := ⟨fun _ => 0, fun _ => 255, ⟨false, false, false⟩, []⟩
  have hword := ((widthsSurviveFrom_iff _ st (by decide) _).mp (hall st rfl) 4 (.conv .Ls 3) rfl).2 .Ls rfl (by decide)
  have hne : ¬at_ (wide indexNodes (frameWords indexNodes st) (heapOf st)).1 4 = 1 := by
    decide
  exact hne hword

/-- A field that holds `0` gives the index `2`. -/
theorem widthsSurvive_indexNodes : ∃ vals heap', Typed indexNodes ∧
    eval indexNodes (uniform 0) = some (vals, heap') ∧ at_ vals 4 = 2 ∧
    WidthsSurvive (fun _ => (fun _ => 0, fun _ => 0)) indexNodes (uniform 0) vals := by
  refine ⟨[4096, 0, 2, 2, 2], uniform 0, by decide, rfl, rfl, ?_⟩
  refine (widthsSurvive_iff _ (by decide) rfl).2 ⟨forall_nodes.1 (by decide), fun g => forall_nodes.1 ?_⟩
  have hcarries : carries indexNodes [4096, 0, 2, 2, 2] g = [0, 0, 0, 0, 0] := by rfl
  rw [hcarries]
  decide

end

end Mjc.Asm

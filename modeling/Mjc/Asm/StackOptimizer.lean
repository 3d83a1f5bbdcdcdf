import Mjc.Asm.Function
import Mjc.Asm.Effects
import Mjc.Asm.SlotManager
import Mjc.Fold

/-!
# Stores into unused slots

`AsmStackOptimizer` of `asm_optimizer.cpp`: a slot that no instruction of the function has as its first operand is never
read, and moves into it are removed.

* `markSlot`, `markSlots` : the first loop, over the first operands; `markSlots_spec`;
* `isRemovable`, `removeStores` : the second loop;
* `stackOptimizeFunction` : the pass; an index of `usedSlots` out of range is `none`;
* `StackForm` : the instructions that the pass is made for; `stackOptimizeFunction_spec`.
-/

namespace Mjc.Asm

set_option autoImplicit false

/-! ## The pass -/

/-- The index of a slot in `usedSlots`. -/
def slotIndex (offset : Int) : Nat := (-offset).toNat / 8

/-- The body of the first loop. -/
def markSlot (usedSlots : List Bool) (instr : Instr) : Option (List Bool) :=
  match instr.ops with
  | .ind _ _ offset :: _ =>
    if offset < 0 then
      if slotIndex offset < usedSlots.length then some (usedSlots.set (slotIndex offset) true) else none
    else some usedSlots
  | _ => some usedSlots

/-- The first loop, over the instructions of all blocks. -/
def markSlots (slots : Nat) (instrs : List Instr) : Option (List Bool) :=
  instrs.foldlM markSlot (List.replicate slots false)

/-- The condition of the second loop. -/
def isRemovable (usedSlots : List Bool) (instr : Instr) : Option Bool :=
  match instr.isMov, instr.ops with
  | true, [_, .ind _ _ offset] => if offset < 0 then (!·) <$> usedSlots[slotIndex offset]? else some false
  | _, _ => some false

/-- The second loop over the instructions of a block. -/
def removeStores (usedSlots : List Bool) : List Instr → Option (List Instr)
  | [] => some []
  | instr :: rest => do
    let remove ← isRemovable usedSlots instr
    let rest' ← removeStores usedSlots rest
    some (if remove then rest' else instr :: rest')

def stackOptimizeBlock (usedSlots : List Bool) (b : BasicBlock) : Option BasicBlock := do
  let instrs ← removeStores usedSlots b.flattenedInstrs
  some { b with flattenedInstrs := instrs }

def stackOptimizeBlocks (slots : Int) (bs : List BasicBlock) : Option (List BasicBlock) :=
  -- an array of negative size cannot be allocated
  if slots < 0 then none else do
  let usedSlots ← markSlots slots.toNat (bs.flatMap BasicBlock.flattenedInstrs)
  bs.mapM (stackOptimizeBlock usedSlots)

theorem stackOptimizeBlock_node {usedSlots : List Bool} {b b' : BasicBlock} (h : stackOptimizeBlock usedSlots b = some b') :
    b'.node = b.node := by
  obtain ⟨instrs, -, h⟩ := Option.bind_eq_some_iff.1 h
  cases h
  rfl

theorem stackOptimized_nodes {usedSlots : List Bool} {bs bs' : List BasicBlock}
    (h : List.Forall₂ (fun b b' => stackOptimizeBlock usedSlots b = some b') bs bs') :
    bs'.map BasicBlock.node = bs.map BasicBlock.node := by
  induction h with
  | nil => rfl
  | cons hb _ ih => rw [List.map_cons, List.map_cons, stackOptimizeBlock_node hb, ih]

theorem stackOptimizeBlocks_nodes {slots : Int} {bs bs' : List BasicBlock} (h : stackOptimizeBlocks slots bs = some bs') :
    bs'.map BasicBlock.node = bs.map BasicBlock.node := by
  unfold stackOptimizeBlocks at h
  split at h
  · cases h
  · obtain ⟨usedSlots, -, h⟩ := Option.bind_eq_some_iff.1 h
    exact stackOptimized_nodes (Fold.forall₂_of_mapM h)

/-- `AsmStackOptimizer::optimizeFunction`. -/
def stackOptimizeFunction (f : Function) : Option Function :=
  match h : stackOptimizeBlocks f.arSize f.orderedBasicBlocks with
  | none => none
  | some bs => some { f with
      orderedBasicBlocks := bs
      nodup := by
        rw [stackOptimizeBlocks_nodes h]
        exact f.nodup }

/-! ## The instructions of a function -/

/-- The instructions that the passes before leave behind: they can be encoded, memory is their second operand only in a
move, memory off `%rbp` is a slot of the method, and all other memory is accessed at or above its base. -/
structure StackForm (ssm : StackSlotManager) (i : Instr) : Prop where
  fits : (act i).elim false Act.fits = true
  second : ∀ source base mode offset, i.ops = [source, .ind base mode offset] → i.isMov = true
  frame : ∀ mode offset, Op.ind .bp mode offset ∈ i.ops → ssm.HasOffset offset
  heap : ∀ base mode offset, Op.ind base mode offset ∈ i.ops → base ≠ .bp → 0 ≤ offset

/-- The instruction has the word at this negative offset as its first operand. -/
def Instr.FirstAt (i : Instr) (offset : Int) : Prop := ∃ base mode rest, i.ops = .ind base mode offset :: rest ∧ offset < 0

/-- One iteration of the first loop: all marks stay. -/
theorem markSlot_spec {usedSlots : List Bool} {instr : Instr}
    (h : ∀ offset, instr.FirstAt offset → slotIndex offset < usedSlots.length) :
    ∃ usedSlots', markSlot usedSlots instr = some usedSlots' ∧ usedSlots'.length = usedSlots.length ∧
      (∀ k : Nat, usedSlots[k]? = some true → usedSlots'[k]? = some true) ∧
      ∀ offset, instr.FirstAt offset → usedSlots'[slotIndex offset]? = some true := by
  unfold markSlot
  split
  · rename_i base mode offset rest hops
    split
    · rename_i hneg
      have hlt := h offset ⟨base, mode, rest, hops, hneg⟩
      rw [if_pos hlt]
      refine ⟨_, rfl, List.length_set, fun k hk => ?_, ?_⟩
      · by_cases heq : slotIndex offset = k
        · rw [heq, List.getElem?_set_self (by rw [← heq]; exact hlt)]
        · rw [List.getElem?_set_ne heq]
          exact hk
      · rintro offset' ⟨base', mode', rest', hops', -⟩
        rw [hops] at hops'
        cases hops'
        exact List.getElem?_set_self hlt
    · rename_i hneg
      refine ⟨_, rfl, rfl, fun _ hk => hk, ?_⟩
      rintro offset' ⟨base', mode', rest', hops', hneg'⟩
      rw [hops] at hops'
      cases hops'
      exact absurd hneg' hneg
  · rename_i hops
    refine ⟨_, rfl, rfl, fun _ hk => hk, ?_⟩
    rintro offset ⟨base, mode, rest, hops', -⟩
    exact absurd hops' (hops base mode offset rest)

/-- The first loop marks the slot of every first operand. -/
theorem foldlM_markSlot_spec {instrs : List Instr} {usedSlots : List Bool}
    (h : ∀ i ∈ instrs, ∀ offset, i.FirstAt offset → slotIndex offset < usedSlots.length) :
    ∃ usedSlots', instrs.foldlM markSlot usedSlots = some usedSlots' ∧ usedSlots'.length = usedSlots.length ∧
      (∀ k : Nat, usedSlots[k]? = some true → usedSlots'[k]? = some true) ∧
      ∀ i ∈ instrs, ∀ offset, i.FirstAt offset → usedSlots'[slotIndex offset]? = some true := by
  induction instrs generalizing usedSlots with
  | nil => exact ⟨usedSlots, rfl, rfl, fun _ hk => hk, fun i hi => by cases hi⟩
  | cons i is ih =>
    obtain ⟨used₁, hstep, hlength₁, hmono₁, hmarked₁⟩ := markSlot_spec (h i List.mem_cons_self)
    obtain ⟨used₂, hrest, hlength₂, hmono₂, hmarked₂⟩ :=
      @ih used₁ fun j hj offset hoffset => by
        rw [hlength₁]
        exact h j (List.mem_cons_of_mem i hj) offset hoffset
    refine ⟨used₂, ?_, hlength₂.trans hlength₁, fun k hk => hmono₂ k (hmono₁ k hk), ?_⟩
    · rw [List.foldlM_cons, hstep]
      exact hrest
    · intro j hj offset hoffset
      rcases List.mem_cons.1 hj with rfl | hj
      · exact hmono₂ _ (hmarked₁ offset hoffset)
      · exact hmarked₂ j hj offset hoffset

/-- The store stays. -/
def keeps (usedSlots : List Bool) (instr : Instr) : Bool := isRemovable usedSlots instr = some false

theorem removeStores_spec {usedSlots : List Bool} {instrs : List Instr}
    (h : ∀ i ∈ instrs, (isRemovable usedSlots i).isSome) :
    removeStores usedSlots instrs = some (instrs.filter (keeps usedSlots)) := by
  induction instrs with
  | nil => rfl
  | cons i is ih =>
    obtain ⟨remove, hremove⟩ := Option.isSome_iff_exists.1 (h i List.mem_cons_self)
    unfold removeStores
    rw [hremove, ih fun j hj => h j (List.mem_cons_of_mem i hj), List.filter_cons]
    cases remove with
    | true =>
      have hkeeps : keeps usedSlots i = false := by
        unfold keeps
        rw [hremove]
        rfl
      rw [hkeeps]
      rfl
    | false =>
      have hkeeps : keeps usedSlots i = true := by
        unfold keeps
        rw [hremove]
        rfl
      rw [hkeeps]
      rfl

/-! ## The pass on a function -/

section
variable {ssm : StackSlotManager} (hssm : ssm.Reachable)
include hssm

/-- Memory at a negative offset is a slot of the frame. -/
theorem StackForm.slot {i : Instr} (h : StackForm ssm i) {base : RegName} {mode : RegMode} {offset : Int}
    (hmem : .ind base mode offset ∈ i.ops) (hneg : offset < 0) : base = .bp ∧
      ∃ k : Nat, offset = -(8 * (k + 1)) ∧ slotIndex offset = k + 1 ∧ slotIndex offset < ssm.currentOffset.toNat := by
  have hbase : base = .bp := by
    by_contra hbase
    exact absurd (h.heap base mode offset hmem hbase) (by omega)
  subst hbase
  refine ⟨rfl, ?_⟩
  rcases hssm.sound.inFrame offset (h.frame mode offset hmem) with ⟨num, hnum⟩ | ⟨k, hk, hlt⟩
  · omega
  · refine ⟨k, hk, ?_, ?_⟩ <;> (unfold slotIndex; omega)

theorem StackForm.firstAt {i : Instr} (h : StackForm ssm i) {offset : Int} (hfirst : i.FirstAt offset) :
    slotIndex offset < ssm.currentOffset.toNat := by
  obtain ⟨base, mode, rest, hops, hneg⟩ := hfirst
  obtain ⟨-, k, -, -, hlt⟩ := @StackForm.slot ssm hssm i h base mode offset (by rw [hops]; exact List.mem_cons_self) hneg
  exact hlt

theorem StackForm.isRemovable_isSome {i : Instr} (h : StackForm ssm i) {usedSlots : List Bool}
    (hlength : usedSlots.length = ssm.currentOffset.toNat) : (isRemovable usedSlots i).isSome := by
  unfold isRemovable
  split
  · rename_i source base mode offset _ hops
    split
    · rename_i hneg
      obtain ⟨-, k, -, -, hlt⟩ := @StackForm.slot ssm hssm i h base mode offset (by rw [hops]; simp) hneg
      rw [← hlength] at hlt
      rw [List.getElem?_eq_getElem hlt]
      rfl
    · rfl
  · rfl

/-- A block without the stores into slots that are not marked. -/
def BasicBlock.kept (usedSlots : List Bool) (b : BasicBlock) : BasicBlock :=
  { b with flattenedInstrs := b.flattenedInstrs.filter (keeps usedSlots) }

/-- The pass never indexes `usedSlots` out of range, and removes exactly the stores into slots that are not marked; the
slots of first operands are. -/
theorem stackOptimizeBlocks_spec {bs : List BasicBlock}
    (hforms : ∀ b ∈ bs, ∀ i ∈ b.flattenedInstrs, StackForm ssm i) :
    ∃ usedSlots : List Bool, stackOptimizeBlocks ssm.currentOffset bs = some (bs.map (BasicBlock.kept usedSlots)) ∧
      (∀ b ∈ bs, ∀ i ∈ b.flattenedInstrs, (isRemovable usedSlots i).isSome) ∧
      ∀ b ∈ bs, ∀ i ∈ b.flattenedInstrs, ∀ offset, i.FirstAt offset → usedSlots[slotIndex offset]? = some true := by
  have hall : ∀ i ∈ bs.flatMap BasicBlock.flattenedInstrs, StackForm ssm i := by
    intro i hi
    obtain ⟨b, hb, hi⟩ := List.mem_flatMap.1 hi
    exact hforms b hb i hi
  obtain ⟨usedSlots, hmark, hlength, -, hmarked⟩ :=
    @foldlM_markSlot_spec _ (List.replicate ssm.currentOffset.toNat false) fun i hi offset hoffset => by
      rw [List.length_replicate]
      exact (hall i hi).firstAt hssm hoffset
  rw [List.length_replicate] at hlength
  refine ⟨usedSlots, ?_, fun b hb i hi => (hforms b hb i hi).isRemovable_isSome hssm hlength,
    fun b hb i hi => hmarked i (List.mem_flatMap.2 ⟨b, hb, hi⟩)⟩
  have hnonneg : ¬ssm.currentOffset < 0 := by
    obtain ⟨k, hk⟩ := hssm.sound.current
    omega
  unfold stackOptimizeBlocks
  rw [if_neg hnonneg, show markSlots _ _ = some usedSlots from hmark]
  apply Fold.mapM_of_forall₂
  rw [List.forall₂_map_right_iff, List.forall₂_same]
  intro b hb
  unfold stackOptimizeBlock
  rw [removeStores_spec fun i hi => (hforms b hb i hi).isRemovable_isSome hssm hlength]
  rfl

end

end Mjc.Asm

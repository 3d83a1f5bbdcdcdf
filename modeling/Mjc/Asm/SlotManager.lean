import Mathlib.Data.List.Basic
import Mathlib.Logic.Function.Basic

/-!
# Stack slots

`StackSlotManager` of `asm_pass.hpp`. Nodes are numbers; a failed assertion is `none`.

* `Ext s s'` : the manager `s'` still has every slot that `s` had given out;
* `Reachable`, `HasOffset` : the managers of a method, and the slots they gave out; `Reachable.sound` : parameters are
  above the saved `%rbp` and the return address, all other slots are words below `%rbp`, above the end of the frame.
-/

namespace Mjc.Asm

set_option autoImplicit false

/-- `StackSlotManager`. Its numbers are `int32_t`, here integers without a bound: `SlotRuns` says up to where these are the
same. -/
structure StackSlotManager where
  currentOffset : Int
  offsets : Nat → Option Int
  tmpSlots : Nat → Option Int

namespace StackSlotManager

/-- The manager at the start. -/
def init : StackSlotManager := ⟨8, fun _ => none, fun _ => none⟩

/-- A function of the code generator: it may ask for slots, and an assertion may fail. -/
abbrev Gen := StateT StackSlotManager Option

def getStackSlot (node : Nat) : Gen Int := fun s =>
  match s.offsets node with
  | some offset => some (offset, s)
  | none => some (-s.currentOffset,
      { s with
        offsets := Function.update s.offsets node (some (-s.currentOffset))
        currentOffset := s.currentOffset + 8 })

def copySlot (source dest : Nat) : Gen Unit := fun s =>
  if s.offsets dest ≠ none then none else do
  let (offset, s') ← getStackSlot source s
  some ((), { s' with offsets := Function.update s'.offsets dest (some offset) })

def setSlot (node : Nat) (offset : Int) : Gen Unit := fun s =>
  if s.offsets node ≠ none then none
  else some ((), { s with offsets := Function.update s.offsets node (some offset) })

def getTmpSlot (node : Nat) : Gen Int := fun s =>
  match s.tmpSlots node with
  | some offset => some (offset, s)
  | none => some (-s.currentOffset,
      { s with
        tmpSlots := Function.update s.tmpSlots node (some (-s.currentOffset))
        currentOffset := s.currentOffset + 8 })

/-- Every slot that was given out is still there. -/
def Ext (s s' : StackSlotManager) : Prop :=
  ∀ node offset, s.offsets node = some offset → s'.offsets node = some offset

theorem Ext.refl (s : StackSlotManager) : Ext s s := fun _ _ h => h

theorem Ext.trans {s s' s'' : StackSlotManager} (h : Ext s s') (h' : Ext s' s'') : Ext s s'' :=
  fun node offset hs => h' node offset (h node offset hs)

theorem ext_update {s : StackSlotManager} {node : Nat} (h : s.offsets node = none) (offset current : Int) :
    Ext s { s with offsets := Function.update s.offsets node (some offset), currentOffset := current } := by
  intro x o hx
  have hne : x ≠ node := by
    rintro rfl
    rw [h] at hx
    cases hx
  show Function.update s.offsets node (some offset) x = some o
  rw [Function.update_of_ne hne, hx]

/-! ## The slots of a method -/

/-- The managers that a method can have: `before` sets the slots of the parameters by their numbers. -/
inductive Reachable : StackSlotManager → Prop where
  | init : Reachable init
  | getStackSlot {s s' : StackSlotManager} {node : Nat} {offset : Int} (h : Reachable s)
      (hs : StackSlotManager.getStackSlot node s = some (offset, s')) : Reachable s'
  | copySlot {s s' : StackSlotManager} {source dest : Nat} (h : Reachable s)
      (hs : StackSlotManager.copySlot source dest s = some ((), s')) : Reachable s'
  | setSlot {s s' : StackSlotManager} {node num : Nat} (h : Reachable s)
      (hs : StackSlotManager.setSlot node (16 + num * 8) s = some ((), s')) : Reachable s'
  | getTmpSlot {s s' : StackSlotManager} {node : Nat} {offset : Int} (h : Reachable s)
      (hs : StackSlotManager.getTmpSlot node s = some (offset, s')) : Reachable s'

/-- The slot belongs to a node. -/
def HasOffset (s : StackSlotManager) (offset : Int) : Prop :=
  ∃ node, s.offsets node = some offset ∨ s.tmpSlots node = some offset

/-- A parameter, or a word of the frame that ends at `current`. -/
def InFrame (current offset : Int) : Prop :=
  (∃ num : Nat, offset = 16 + num * 8) ∨ ∃ k : Nat, offset = -(8 * (k + 1)) ∧ 8 * (k + 1) < current

theorem InFrame.mono {current current' offset : Int} (h : InFrame current offset) (hle : current ≤ current') :
    InFrame current' offset := by
  rcases h with h | ⟨k, hk, hlt⟩
  · exact .inl h
  · exact .inr ⟨k, hk, by omega⟩

/-- What holds of every manager of a method. -/
structure Sound (s : StackSlotManager) : Prop where
  current : ∃ k : Nat, s.currentOffset = 8 * (k + 1)
  inFrame : ∀ offset, s.HasOffset offset → InFrame s.currentOffset offset

theorem hasOffset_update {s : StackSlotManager} {node : Nat} {offset o current : Int}
    (h : HasOffset { s with offsets := Function.update s.offsets node (some offset), currentOffset := current } o) :
    o = offset ∨ s.HasOffset o := by
  obtain ⟨x, hx | hx⟩ := h
  · by_cases hne : x = node
    · subst hne
      have hx : Function.update s.offsets x (some offset) x = some o := hx
      rw [Function.update_self] at hx
      exact .inl (Option.some.inj hx).symm
    · have hx : Function.update s.offsets node (some offset) x = some o := hx
      rw [Function.update_of_ne hne] at hx
      exact .inr ⟨x, .inl hx⟩
  · exact .inr ⟨x, .inr hx⟩

/-- A new slot at the end of the frame. -/
theorem inFrame_new {current : Int} (h : ∃ k : Nat, current = 8 * (k + 1)) : InFrame (current + 8) (-current) := by
  obtain ⟨k, rfl⟩ := h
  exact .inr ⟨k, rfl, by omega⟩

theorem current_add {current : Int} (h : ∃ k : Nat, current = 8 * (k + 1)) : ∃ k : Nat, current + 8 = 8 * (k + 1) := by
  obtain ⟨k, rfl⟩ := h
  exact ⟨k + 1, by push_cast; omega⟩

theorem Sound.getStackSlot {s s' : StackSlotManager} {node : Nat} {offset : Int} (h : s.Sound)
    (hs : StackSlotManager.getStackSlot node s = some (offset, s')) : s'.Sound ∧ s'.HasOffset offset := by
  unfold StackSlotManager.getStackSlot at hs
  split at hs
  · rename_i o ho
    cases hs
    exact ⟨h, node, .inl ho⟩
  · cases hs
    refine ⟨⟨current_add h.current, fun o ho => ?_⟩, node, .inl (Function.update_self ..)⟩
    rcases hasOffset_update ho with rfl | ho
    · exact inFrame_new h.current
    · exact (h.inFrame o ho).mono (Int.le_add_of_nonneg_right (by decide))

theorem Reachable.sound {s : StackSlotManager} (h : Reachable s) : s.Sound := by
  induction h with
  | init =>
    refine ⟨⟨0, rfl⟩, ?_⟩
    rintro o ⟨x, hx | hx⟩
    · cases hx
    · cases hx
  | getStackSlot _ hs ih => exact (ih.getStackSlot hs).1
  | @copySlot s s' source dest _ hs ih =>
    unfold StackSlotManager.copySlot at hs
    split at hs
    · cases hs
    · obtain ⟨⟨offset, t⟩, ht, hs⟩ := Option.bind_eq_some_iff.1 hs
      cases hs
      obtain ⟨hsound, hoffset⟩ := ih.getStackSlot ht
      refine ⟨hsound.current, fun o ho => ?_⟩
      rcases hasOffset_update ho with rfl | ho
      · exact hsound.inFrame _ hoffset
      · exact hsound.inFrame o ho
  | @setSlot s s' node num _ hs ih =>
    unfold StackSlotManager.setSlot at hs
    split at hs
    · cases hs
    · cases hs
      refine ⟨ih.current, fun o ho => ?_⟩
      rcases hasOffset_update ho with rfl | ho
      · exact .inl ⟨num, rfl⟩
      · exact ih.inFrame o ho
  | @getTmpSlot s s' node offset _ hs ih =>
    unfold StackSlotManager.getTmpSlot at hs
    split at hs
    · cases hs
      exact ih
    · cases hs
      refine ⟨current_add ih.current, ?_⟩
      rintro o ⟨x, hx | hx⟩
      · exact (ih.inFrame o ⟨x, .inl hx⟩).mono (Int.le_add_of_nonneg_right (by decide))
      · by_cases hne : x = node
        · subst hne
          have hx : Function.update s.tmpSlots x (some (-s.currentOffset)) x = some o := hx
          rw [Function.update_self] at hx
          cases hx
          exact inFrame_new ih.current
        · have hx : Function.update s.tmpSlots node (some (-s.currentOffset)) x = some o := hx
          rw [Function.update_of_ne hne] at hx
          exact (ih.inFrame o ⟨x, .inr hx⟩).mono (Int.le_add_of_nonneg_right (by decide))

end StackSlotManager

end Mjc.Asm

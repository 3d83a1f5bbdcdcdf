import Mathlib.Data.List.Nodup
import Mathlib.Logic.Relation
import Mjc.Asm.Frames

/-!
# Runs of the slot manager

Any sequence of calls of `StackSlotManager`, in any order.

* `Call`, `runCalls` : a call with its arguments; the manager after a sequence of them, if no assertion fails;
* `Copied`, `params` : the `copySlot` and the `setSlot` calls of a sequence;
* `Separate` : slots are shared along `copySlot` only, and no slot of a phi is shared; `Separate.call`, `Separate.calls`;
* `Kept` : every slot that was given out is still there; `kept_calls`;
* `generated_calls`, `generated_separate` : the managers of a method are runs that set the slots of the arguments first;
* `execCalls` : the calls with numbers of type `int32_t`; `execCalls_of_runCalls`, `execCalls_overflow` : when these overflow.
-/

namespace Mjc.Asm
namespace StackSlotManager

set_option autoImplicit false

/-- A call of one of the functions. The slot of a parameter is given by its number. -/
inductive Call where
  | getStackSlot (node : Nat)
  | copySlot (source dest : Nat)
  | setSlot (node num : Nat)
  | getTmpSlot (node : Nat)

def getLocVarUsedSize (s : StackSlotManager) : Int := s.currentOffset

/-- The manager after the call. -/
def Call.run : Call → StackSlotManager → Option StackSlotManager
  | .getStackSlot node, s => (StackSlotManager.getStackSlot node s).map Prod.snd
  | .copySlot source dest, s => (StackSlotManager.copySlot source dest s).map Prod.snd
  | .setSlot node num, s => (StackSlotManager.setSlot node (16 + num * 8) s).map Prod.snd
  | .getTmpSlot node, s => (StackSlotManager.getTmpSlot node s).map Prod.snd

/-- The manager after the calls. -/
def runCalls : List Call → StackSlotManager → Option StackSlotManager
  | [], s => some s
  | c :: calls, s => (c.run s).bind (runCalls calls)

/-- One node got its slot from the other. -/
def Copied (calls : List Call) (source dest : Nat) : Prop := .copySlot source dest ∈ calls

/-- The parameters that got their slots. -/
def params : List Call → List Nat
  | [] => []
  | .setSlot _ num :: calls => num :: params calls
  | _ :: calls => params calls

theorem params_append (calls later : List Call) : params (calls ++ later) = params calls ++ params later := by
  induction calls with
  | nil => rfl
  | cons c calls ih =>
    cases c with
    | setSlot node num => exact congrArg (num :: ·) ih
    | getStackSlot node => exact ih
    | copySlot source dest => exact ih
    | getTmpSlot node => exact ih

theorem runCalls_append (calls later : List Call) (s : StackSlotManager) :
    runCalls (calls ++ later) s = (runCalls calls s).bind (runCalls later) := by
  induction calls generalizing s with
  | nil => rfl
  | cons c calls ih =>
    show (c.run s).bind (runCalls (calls ++ later)) = ((c.run s).bind (runCalls calls)).bind (runCalls later)
    rw [Option.bind_assoc]
    exact congrArg _ (funext ih)

section
variable {s s' : StackSlotManager}

/-! ## What a call does -/

/-- The next free word. -/
def free (s : StackSlotManager) : Int := -s.currentOffset

/-- The manager with a new slot. -/
def alloc (s : StackSlotManager) (node : Nat) : StackSlotManager :=
  { s with offsets := Function.update s.offsets node (some s.free), currentOffset := s.currentOffset + 8 }

/-- The manager with a new slot for the swaps of a phi. -/
def allocTmp (s : StackSlotManager) (node : Nat) : StackSlotManager :=
  { s with tmpSlots := Function.update s.tmpSlots node (some s.free), currentOffset := s.currentOffset + 8 }

/-- The manager where the node has this slot. -/
def assign (s : StackSlotManager) (node : Nat) (offset : Int) : StackSlotManager :=
  { s with offsets := Function.update s.offsets node (some offset) }

theorem getStackSlot_cases {node : Nat} {offset : Int} (h : getStackSlot node s = some (offset, s')) :
    (s.offsets node = some offset ∧ s' = s) ∨ (s.offsets node = none ∧ offset = s.free ∧ s' = s.alloc node) := by
  unfold getStackSlot at h
  split at h
  · rename_i o ho
    cases h
    exact .inl ⟨ho, rfl⟩
  · rename_i hnone
    cases h
    exact .inr ⟨hnone, rfl, rfl⟩

theorem getTmpSlot_cases {node : Nat} {offset : Int} (h : getTmpSlot node s = some (offset, s')) :
    (s.tmpSlots node = some offset ∧ s' = s) ∨
      (s.tmpSlots node = none ∧ offset = s.free ∧ s' = s.allocTmp node) := by
  unfold getTmpSlot at h
  split at h
  · rename_i o ho
    cases h
    exact .inl ⟨ho, rfl⟩
  · rename_i hnone
    cases h
    exact .inr ⟨hnone, rfl, rfl⟩

theorem setSlot_cases {node : Nat} {offset : Int} (h : setSlot node offset s = some ((), s')) :
    s.offsets node = none ∧ s' = s.assign node offset := by
  unfold setSlot at h
  split at h
  · cases h
  · rename_i hnone
    cases h
    exact ⟨not_not.mp hnone, rfl⟩

theorem copySlot_cases {source dest : Nat} (h : copySlot source dest s = some ((), s')) :
    s.offsets dest = none ∧ ∃ offset t, getStackSlot source s = some (offset, t) ∧ s' = t.assign dest offset := by
  unfold copySlot at h
  split at h
  · cases h
  · rename_i hnone
    obtain ⟨⟨offset, t⟩, ht, h⟩ := Option.bind_eq_some_iff.1 h
    cases h
    exact ⟨not_not.mp hnone, offset, t, ht, rfl⟩

theorem getStackSlot_offsets {node : Nat} {offset : Int} (h : getStackSlot node s = some (offset, s')) :
    s'.offsets node = some offset := by
  rcases getStackSlot_cases h with ⟨ho, rfl⟩ | ⟨-, rfl, rfl⟩
  · exact ho
  · exact Function.update_self ..

theorem getTmpSlot_tmpSlots {node : Nat} {offset : Int} (h : getTmpSlot node s = some (offset, s')) :
    s'.tmpSlots node = some offset := by
  rcases getTmpSlot_cases h with ⟨ho, rfl⟩ | ⟨-, rfl, rfl⟩
  · exact ho
  · exact Function.update_self ..

/-- A slot of the manager where the node has this slot. -/
theorem assign_offsets {node x : Nat} {offset o : Int} (h : (s.assign node offset).offsets x = some o) :
    (x = node ∧ o = offset) ∨ s.offsets x = some o := by
  by_cases hne : x = node
  · subst hne
    have h : Function.update s.offsets x (some offset) x = some o := h
    rw [Function.update_self] at h
    exact .inl ⟨rfl, (Option.some.inj h).symm⟩
  · have h : Function.update s.offsets node (some offset) x = some o := h
    rw [Function.update_of_ne hne] at h
    exact .inr h

theorem allocTmp_tmpSlots {node x : Nat} {o : Int} (h : (s.allocTmp node).tmpSlots x = some o) :
    (x = node ∧ o = s.free) ∨ s.tmpSlots x = some o := by
  by_cases hne : x = node
  · subst hne
    have h : Function.update s.tmpSlots x (some s.free) x = some o := h
    rw [Function.update_self] at h
    exact .inl ⟨rfl, (Option.some.inj h).symm⟩
  · have h : Function.update s.tmpSlots node (some s.free) x = some o := h
    rw [Function.update_of_ne hne] at h
    exact .inr h

/-! ## Slots stay -/

/-- Every slot that was given out is still there. -/
structure Kept (s s' : StackSlotManager) : Prop where
  offsets : Ext s s'
  tmpSlots : ∀ node o, s.tmpSlots node = some o → s'.tmpSlots node = some o

theorem Kept.refl (s : StackSlotManager) : Kept s s := ⟨Ext.refl s, fun _ _ h => h⟩

theorem Kept.trans {s'' : StackSlotManager} (h : Kept s s') (h' : Kept s' s'') : Kept s s'' :=
  ⟨h.offsets.trans h'.offsets, fun node o ho => h'.tmpSlots node o (h.tmpSlots node o ho)⟩

theorem kept_assign {node : Nat} (h : s.offsets node = none) (offset current : Int) :
    Kept s { s.assign node offset with currentOffset := current } :=
  ⟨ext_update h offset current, fun _ _ ho => ho⟩

theorem kept_getStackSlot {node : Nat} {offset : Int} (h : getStackSlot node s = some (offset, s')) : Kept s s' := by
  rcases getStackSlot_cases h with ⟨-, rfl⟩ | ⟨hnone, -, rfl⟩
  · exact Kept.refl _
  · exact kept_assign hnone s.free (s.currentOffset + 8)

theorem kept_call {c : Call} (h : c.run s = some s') : Kept s s' := by
  cases c with
  | getStackSlot node =>
    obtain ⟨⟨offset, t⟩, ht, rfl⟩ := Option.map_eq_some_iff.1 h
    exact kept_getStackSlot ht
  | copySlot source dest =>
    obtain ⟨⟨⟨⟩, t⟩, ht, rfl⟩ := Option.map_eq_some_iff.1 h
    obtain ⟨hnone, offset, u, hu, rfl⟩ := copySlot_cases ht
    have hkept := kept_getStackSlot hu
    refine ⟨fun x o hx => ?_, hkept.tmpSlots⟩
    have hne : x ≠ dest := by
      rintro rfl
      rw [hnone] at hx
      cases hx
    show Function.update u.offsets dest (some offset) x = some o
    rw [Function.update_of_ne hne]
    exact hkept.offsets x o hx
  | setSlot node num =>
    obtain ⟨⟨⟨⟩, t⟩, ht, rfl⟩ := Option.map_eq_some_iff.1 h
    obtain ⟨hnone, rfl⟩ := setSlot_cases ht
    exact kept_assign hnone _ s.currentOffset
  | getTmpSlot node =>
    obtain ⟨⟨offset, t⟩, ht, rfl⟩ := Option.map_eq_some_iff.1 h
    rcases getTmpSlot_cases ht with ⟨-, rfl⟩ | ⟨hnone, -, rfl⟩
    · exact Kept.refl _
    · refine ⟨fun _ _ ho => ho, fun x o hx => ?_⟩
      have hne : x ≠ node := by
        rintro rfl
        rw [hnone] at hx
        cases hx
      show Function.update s.tmpSlots node (some s.free) x = some o
      rw [Function.update_of_ne hne, hx]

theorem kept_calls {calls : List Call} (h : runCalls calls s = some s') : Kept s s' := by
  induction calls generalizing s with
  | nil =>
    cases h
    exact Kept.refl _
  | cons c calls ih =>
    obtain ⟨t, ht, h⟩ := Option.bind_eq_some_iff.1 h
    exact (kept_call ht).trans (ih h)

theorem reachable_call {c : Call} (hs : Reachable s) (h : c.run s = some s') : Reachable s' := by
  cases c with
  | getStackSlot node =>
    obtain ⟨⟨offset, t⟩, ht, rfl⟩ := Option.map_eq_some_iff.1 h
    exact .getStackSlot hs ht
  | copySlot source dest =>
    obtain ⟨⟨⟨⟩, t⟩, ht, rfl⟩ := Option.map_eq_some_iff.1 h
    exact .copySlot hs ht
  | setSlot node num =>
    obtain ⟨⟨⟨⟩, t⟩, ht, rfl⟩ := Option.map_eq_some_iff.1 h
    exact .setSlot hs ht
  | getTmpSlot node =>
    obtain ⟨⟨offset, t⟩, ht, rfl⟩ := Option.map_eq_some_iff.1 h
    exact .getTmpSlot hs ht

/-! ## Slots are separate -/

/-- What holds after these calls. -/
structure Separate (calls : List Call) (s : StackSlotManager) : Prop where
  reachable : Reachable s
  linked : ∀ a b o, s.offsets a = some o → s.offsets b = some o → Relation.EqvGen (Copied calls) a b
  params : ∀ a (num : Nat), s.offsets a = some (16 + (num : Int) * 8) → num ∈ params calls
  tmp_neg : ∀ x o, s.tmpSlots x = some o → o < 0
  tmp_offsets : ∀ x a o, s.tmpSlots x = some o → s.offsets a ≠ some o
  tmp_inj : ∀ x y o, s.tmpSlots x = some o → s.tmpSlots y = some o → x = y

theorem Separate.init : Separate [] init where
  reachable := .init
  linked _ _ _ h := by cases h
  params _ _ h := by cases h
  tmp_neg _ _ h := by cases h
  tmp_offsets _ _ _ h := by cases h
  tmp_inj _ _ _ h := by cases h

/-- The sequence gets longer. -/
theorem Separate.mono {calls later : List Call} (h : Separate calls s) : Separate (calls ++ later) s where
  reachable := h.reachable
  linked a b o ha hb := (h.linked a b o ha hb).mono fun _ _ hc => List.mem_append_left later hc
  params a num ha := by
    rw [params_append]
    exact List.mem_append_left _ (h.params a num ha)
  tmp_neg := h.tmp_neg
  tmp_offsets := h.tmp_offsets
  tmp_inj := h.tmp_inj

/-- No slot is the next free word. -/
theorem Separate.free_ne {calls : List Call} (h : Separate calls s) {o : Int} (ho : s.HasOffset o) : o ≠ s.free := by
  obtain ⟨k, hk⟩ := h.reachable.sound.current
  unfold free
  rcases h.reachable.sound.inFrame o ho with ⟨num, rfl⟩ | ⟨j, rfl, hj⟩ <;> omega

theorem Separate.free_neg {calls : List Call} (h : Separate calls s) : s.free < 0 := by
  obtain ⟨k, hk⟩ := h.reachable.sound.current
  unfold free
  omega

/-- A node gets a slot that only nodes linked with it have. -/
theorem Separate.assign {calls : List Call} (h : Separate calls s) {node : Nat} {offset current : Int}
    (hreachable : Reachable { s.assign node offset with currentOffset := current })
    (hlinked : ∀ x, s.offsets x = some offset → Relation.EqvGen (Copied calls) node x)
    (hparams : ∀ num : Nat, offset = 16 + num * 8 → num ∈ StackSlotManager.params calls)
    (htmp : ∀ x, s.tmpSlots x ≠ some offset) :
    Separate calls { s.assign node offset with currentOffset := current } where
  reachable := hreachable
  linked a b o ha hb := by
    rcases assign_offsets ha with ⟨rfl, rfl⟩ | hsa
    · rcases assign_offsets hb with ⟨rfl, -⟩ | hsb
      · exact .refl _
      · exact hlinked b hsb
    · rcases assign_offsets hb with ⟨rfl, rfl⟩ | hsb
      · exact (hlinked a hsa).symm _ _
      · exact h.linked a b o hsa hsb
  params a num ha := by
    rcases assign_offsets ha with ⟨-, ho⟩ | ha
    · exact hparams num ho.symm
    · exact h.params a num ha
  tmp_neg := h.tmp_neg
  tmp_offsets x a o hx ha := by
    rcases assign_offsets ha with ⟨-, rfl⟩ | ha
    · exact htmp x hx
    · exact h.tmp_offsets x a o hx ha
  tmp_inj := h.tmp_inj

theorem Separate.getStackSlot {calls : List Call} (h : Separate calls s) {node : Nat} {offset : Int}
    (hs : StackSlotManager.getStackSlot node s = some (offset, s')) : Separate calls s' := by
  have hreachable : Reachable s' := .getStackSlot h.reachable hs
  rcases getStackSlot_cases hs with ⟨-, rfl⟩ | ⟨-, -, rfl⟩
  · exact h
  · have hneg := h.free_neg
    refine h.assign hreachable (fun x hx => ?_) (fun num hnum => by omega) fun x hx => ?_
    · exact absurd rfl (h.free_ne ⟨x, .inl hx⟩)
    · exact h.free_ne ⟨x, .inr hx⟩ rfl

/-- What one call preserves. -/
theorem Separate.call {calls : List Call} (h : Separate calls s) {c : Call}
    (hparams : (StackSlotManager.params (calls ++ [c])).Nodup) (hs : c.run s = some s') :
    Separate (calls ++ [c]) s' := by
  have hreachable := reachable_call h.reachable hs
  have hmono : Separate (calls ++ [c]) s := h.mono
  cases c with
  | getStackSlot node =>
    obtain ⟨⟨offset, t⟩, ht, rfl⟩ := Option.map_eq_some_iff.1 hs
    exact hmono.getStackSlot ht
  | copySlot source dest =>
    obtain ⟨⟨⟨⟩, t⟩, ht, rfl⟩ := Option.map_eq_some_iff.1 hs
    obtain ⟨-, offset, u, hu, rfl⟩ := copySlot_cases ht
    have hsource := getStackSlot_offsets hu
    have hsep := hmono.getStackSlot hu
    have hcopied : Copied (calls ++ [.copySlot source dest]) source dest :=
      List.mem_append_right _ (List.mem_singleton.mpr rfl)
    refine hsep.assign hreachable (fun x hx => ?_) (fun num hnum => ?_) fun x hx => ?_
    · exact ((Relation.EqvGen.rel _ _ hcopied).symm _ _).trans _ _ _ (hsep.linked source x offset hsource hx)
    · subst hnum
      exact hsep.params source num hsource
    · exact hsep.tmp_offsets x source offset hx hsource
  | setSlot node num =>
    obtain ⟨⟨⟨⟩, t⟩, ht, rfl⟩ := Option.map_eq_some_iff.1 hs
    obtain ⟨-, rfl⟩ := setSlot_cases ht
    rw [params_append] at hparams
    have hnew : num ∉ StackSlotManager.params calls := fun hmem =>
      List.disjoint_of_nodup_append hparams hmem (List.mem_singleton.mpr rfl)
    refine hmono.assign hreachable (fun x hx => ?_) (fun m hm => ?_) fun x hx => ?_
    · exact absurd (h.params x num hx) hnew
    · obtain rfl : num = m := by omega
      rw [params_append]
      exact List.mem_append_right _ (List.mem_singleton.mpr rfl)
    · have hneg := h.tmp_neg x _ hx
      omega
  | getTmpSlot node =>
    obtain ⟨⟨offset, t⟩, ht, rfl⟩ := Option.map_eq_some_iff.1 hs
    rcases getTmpSlot_cases ht with ⟨-, rfl⟩ | ⟨-, -, rfl⟩
    · exact hmono
    · refine ⟨hreachable, hmono.linked, hmono.params, fun x o hx => ?_, fun x a o hx ha => ?_, fun x y o hx hy => ?_⟩
      · rcases allocTmp_tmpSlots hx with ⟨-, rfl⟩ | hx
        · exact h.free_neg
        · exact h.tmp_neg x o hx
      · rcases allocTmp_tmpSlots hx with ⟨-, rfl⟩ | hx
        · exact h.free_ne ⟨a, .inl ha⟩ rfl
        · exact h.tmp_offsets x a o hx ha
      · rcases allocTmp_tmpSlots hx with ⟨rfl, rfl⟩ | hsx
        · rcases allocTmp_tmpSlots hy with ⟨rfl, -⟩ | hsy
          · rfl
          · exact absurd rfl (h.free_ne ⟨y, .inr hsy⟩)
        · rcases allocTmp_tmpSlots hy with ⟨rfl, rfl⟩ | hsy
          · exact absurd rfl (h.free_ne ⟨x, .inr hsx⟩)
          · exact h.tmp_inj x y o hsx hsy

theorem Separate.calls {calls later : List Call} (h : Separate calls s)
    (hparams : (StackSlotManager.params (calls ++ later)).Nodup) (hs : runCalls later s = some s') :
    Separate (calls ++ later) s' := by
  induction later generalizing calls s with
  | nil =>
    cases hs
    rwa [List.append_nil]
  | cons c later ih =>
    obtain ⟨t, ht, hs⟩ := Option.bind_eq_some_iff.1 hs
    rw [List.append_cons] at hparams ⊢
    have hc : (StackSlotManager.params (calls ++ [c])).Nodup := by
      rw [params_append] at hparams
      exact hparams.of_append_left
    exact ih (h.call hc ht) hparams hs

/-! ## The managers of a method -/

/-- The calls of `AsmMethodPass::before`. -/
def setSlots (args : List (Nat × Nat)) : List Call := args.map fun arg => .setSlot arg.1 arg.2

theorem params_setSlots (args : List (Nat × Nat)) : params (setSlots args) = args.map Prod.snd := by
  induction args with
  | nil => rfl
  | cons arg args ih => exact congrArg (arg.2 :: ·) ih

theorem runCalls_setSlots {args : List (Nat × Nat)} (h : before args s = some ((), s')) :
    runCalls (setSlots args) s = some s' := by
  induction args generalizing s with
  | nil =>
    cases h
    rfl
  | cons arg args ih =>
    rw [before_cons] at h
    obtain ⟨⟨⟨⟩, t⟩, ht, h⟩ := Option.bind_eq_some_iff.1 h
    have hrun : Call.run (.setSlot arg.1 arg.2) s = some t := Option.map_eq_some_iff.2 ⟨_, ht, rfl⟩
    show (Call.run (.setSlot arg.1 arg.2) s).bind (runCalls (setSlots args)) = some s'
    rw [hrun]
    exact ih h

/-- The slots of the arguments are set first, and no other slot is set. -/
theorem generated_calls {args : List (Nat × Nat)} (h : Generated args s) :
    ∃ calls, params calls = [] ∧ runCalls (setSlots args ++ calls) init = some s := by
  have hstep : ∀ {s s' : StackSlotManager} {c : Call}, params [c] = [] → c.run s = some s' →
      (∃ calls, params calls = [] ∧ runCalls (setSlots args ++ calls) init = some s) →
      ∃ calls, params calls = [] ∧ runCalls (setSlots args ++ calls) init = some s' := by
    rintro s s' c hc hrun ⟨calls, hnone, hcalls⟩
    refine ⟨calls ++ [c], ?_, ?_⟩
    · rw [params_append, hnone, hc, List.append_nil]
    · rw [← List.append_assoc, runCalls_append, hcalls]
      show (c.run s).bind some = some s'
      rw [hrun]
      rfl
  induction h with
  | before hs => exact ⟨[], rfl, by rw [List.append_nil]; exact runCalls_setSlots hs⟩
  | @getStackSlot _ _ node _ _ hs ih =>
    exact @hstep _ _ (.getStackSlot node) rfl (Option.map_eq_some_iff.2 ⟨_, hs, rfl⟩) ih
  | @copySlot _ _ source dest _ hs ih =>
    exact @hstep _ _ (.copySlot source dest) rfl (Option.map_eq_some_iff.2 ⟨_, hs, rfl⟩) ih
  | @getTmpSlot _ _ node _ _ hs ih =>
    exact @hstep _ _ (.getTmpSlot node) rfl (Option.map_eq_some_iff.2 ⟨_, hs, rfl⟩) ih

/-- The slots of a method are separate when its arguments have different numbers. -/
theorem generated_separate {args : List (Nat × Nat)} (h : Generated args s) (hargs : (args.map Prod.snd).Nodup) :
    ∃ calls, Separate (setSlots args ++ calls) s := by
  obtain ⟨calls, hnone, hcalls⟩ := generated_calls h
  have hparams : (params (setSlots args ++ calls)).Nodup := by
    rw [params_append, hnone, List.append_nil, params_setSlots]
    exact hargs
  exact ⟨calls, Separate.init.calls hparams hcalls⟩

end

/-! ## The range of `int32_t` -/

/-- Why a sequence of calls has no result: an assertion fails, or a number leaves the range of `int32_t`. -/
inductive Fault where
  | assertion
  | overflow
  deriving DecidableEq, Repr

/-- The offset that is an argument of the call. -/
def Call.offset : Call → Int
  | .setSlot _ num => 16 + num * 8
  | .getStackSlot _ | .copySlot _ _ | .getTmpSlot _ => 0

/-- The call where offsets and the counter are of type `int32_t`. -/
def Call.exec (c : Call) (s : StackSlotManager) : Except Fault StackSlotManager :=
  match c.run s with
  | none => .error .assertion
  | some s' => if c.offset < 2 ^ 31 ∧ s'.currentOffset < 2 ^ 31 then .ok s' else .error .overflow

/-- The calls where offsets and the counter are of type `int32_t`. -/
def execCalls : List Call → StackSlotManager → Except Fault StackSlotManager
  | [], s => .ok s
  | c :: calls, s => (c.exec s).bind (execCalls calls)

/-- The number of slots that the call creates. -/
def Call.creates (s : StackSlotManager) : Call → Nat
  | .getStackSlot node | .copySlot node _ => if s.offsets node = none then 1 else 0
  | .setSlot _ _ => 0
  | .getTmpSlot node => if s.tmpSlots node = none then 1 else 0

/-- The number of slots that the calls create. -/
def created : List Call → StackSlotManager → Nat
  | [], _ => 0
  | c :: calls, s => c.creates s + (c.run s).elim 0 (created calls)

section
variable {s s' : StackSlotManager}

theorem getStackSlot_current {node : Nat} {offset : Int} (h : getStackSlot node s = some (offset, s')) :
    s'.currentOffset = s.currentOffset + 8 * (if s.offsets node = none then 1 else 0 : Nat) := by
  rcases getStackSlot_cases h with ⟨ho, rfl⟩ | ⟨hnone, -, rfl⟩
  · rw [ho, if_neg (by simp)]
    simp
  · rw [if_pos hnone]
    rfl

/-- Every slot that is created moves the end of the frame. -/
theorem run_current {c : Call} (h : c.run s = some s') : s'.currentOffset = s.currentOffset + 8 * c.creates s := by
  cases c with
  | getStackSlot node =>
    obtain ⟨⟨offset, t⟩, ht, rfl⟩ := Option.map_eq_some_iff.1 h
    exact getStackSlot_current ht
  | copySlot source dest =>
    obtain ⟨⟨⟨⟩, t⟩, ht, rfl⟩ := Option.map_eq_some_iff.1 h
    obtain ⟨-, offset, u, hu, rfl⟩ := copySlot_cases ht
    have hcurrent := getStackSlot_current hu
    exact hcurrent
  | setSlot node num =>
    obtain ⟨⟨⟨⟩, t⟩, ht, rfl⟩ := Option.map_eq_some_iff.1 h
    obtain ⟨-, rfl⟩ := setSlot_cases ht
    exact (Int.add_zero _).symm
  | getTmpSlot node =>
    obtain ⟨⟨offset, t⟩, ht, rfl⟩ := Option.map_eq_some_iff.1 h
    show t.currentOffset = s.currentOffset + 8 * (if s.tmpSlots node = none then 1 else 0 : Nat)
    rcases getTmpSlot_cases ht with ⟨ho, rfl⟩ | ⟨hnone, -, rfl⟩
    · rw [ho, if_neg (by simp)]
      simp
    · rw [if_pos hnone]
      rfl

theorem runCalls_current {calls : List Call} (h : runCalls calls s = some s') :
    s'.currentOffset = s.currentOffset + 8 * created calls s := by
  induction calls generalizing s with
  | nil =>
    cases h
    exact (Int.add_zero _).symm
  | cons c calls ih =>
    obtain ⟨t, ht, h⟩ := Option.bind_eq_some_iff.1 h
    have hfirst := run_current ht
    have hrest := ih h
    unfold created
    rw [ht, Option.elim_some]
    push_cast
    omega

/-- As long as the end of the frame is in range, nothing overflows. -/
theorem execCalls_of_runCalls {calls : List Call} (h : runCalls calls s = some s')
    (hnums : ∀ num ∈ params calls, num < 2 ^ 28 - 2) (hcurrent : s'.currentOffset < 2 ^ 31) :
    execCalls calls s = .ok s' := by
  induction calls generalizing s with
  | nil =>
    cases h
    rfl
  | cons c calls ih =>
    obtain ⟨t, ht, h⟩ := Option.bind_eq_some_iff.1 h
    have hrest := runCalls_current h
    have hoffset : c.offset < 2 ^ 31 := by
      cases c with
      | setSlot node num =>
        have hnum := hnums num List.mem_cons_self
        show (16 + num * 8 : Int) < 2 ^ 31
        omega
      | getStackSlot | copySlot | getTmpSlot =>
        show (0 : Int) < 2 ^ 31
        decide
    have hexec : c.exec s = .ok t := by
      unfold Call.exec
      rw [ht]
      exact if_pos ⟨hoffset, by omega⟩
    have hparams : ∀ num ∈ params calls, num < 2 ^ 28 - 2 := by
      intro num hnum
      refine hnums num ?_
      cases c with
      | setSlot node m => exact List.mem_cons_of_mem m hnum
      | getStackSlot | copySlot | getTmpSlot => exact hnum
    unfold execCalls
    rw [hexec]
    exact ih h hparams

/-- The first number that leaves the range stops the calls. -/
theorem execCalls_overflow {calls : List Call} (h : runCalls calls s = some s') (hs : s.currentOffset < 2 ^ 31)
    (hcurrent : 2 ^ 31 ≤ s'.currentOffset) : execCalls calls s = .error .overflow := by
  induction calls generalizing s with
  | nil =>
    cases h
    omega
  | cons c calls ih =>
    obtain ⟨t, ht, h⟩ := Option.bind_eq_some_iff.1 h
    have hexec : c.exec s = if c.offset < 2 ^ 31 ∧ t.currentOffset < 2 ^ 31 then .ok t else .error .overflow := by
      unfold Call.exec
      rw [ht]
    unfold execCalls
    by_cases hrange : c.offset < 2 ^ 31 ∧ t.currentOffset < 2 ^ 31
    · rw [hexec, if_pos hrange]
      exact ih h hrange.2
    · rw [hexec, if_neg hrange]
      rfl

theorem execCalls_runCalls {calls : List Call} (h : execCalls calls s = .ok s') : runCalls calls s = some s' := by
  induction calls generalizing s with
  | nil =>
    cases h
    rfl
  | cons c calls ih =>
    unfold execCalls Call.exec at h
    unfold runCalls
    cases hrun : c.run s with
    | none =>
      rw [hrun] at h
      cases h
    | some t =>
      rw [hrun] at h
      dsimp only at h
      split at h
      · exact ih h
      · cases h

end

/-! ## Slots never overlap -/

/-- Slots never overlap, never change, and lie in the frame; no number overflows while less than 2^28 - 1 slots are
created. -/
theorem slots_separate {calls : List Call} {s : StackSlotManager} (h : runCalls calls init = some s)
    (hparams : (params calls).Nodup) (hnums : ∀ num ∈ params calls, num < 2 ^ 28 - 2)
    (hcreated : created calls init < 2 ^ 28 - 1) :
    execCalls calls init = .ok s ∧
      (∀ a b o, s.offsets a = some o → s.offsets b = some o → Relation.EqvGen (Copied calls) a b) ∧
      (∀ x o, s.tmpSlots x = some o → (∀ a, s.offsets a ≠ some o) ∧ ∀ y, s.tmpSlots y = some o → x = y) ∧
      (∀ later s', execCalls later s = .ok s' → Kept s s') ∧
      (∀ o, s.HasOffset o → o < 0 → ∃ k : Nat, o = -(8 * (k + 1)) ∧ 8 * (k + 1) ≤ s.getLocVarUsedSize) ∧
      (∀ node o s', getStackSlot node s = some (o, s') → s'.offsets node = some o) ∧
      ∀ node o s', getTmpSlot node s = some (o, s') → s'.tmpSlots node = some o := by
  have hsep : Separate calls s := Separate.init.calls hparams h
  refine ⟨?_, hsep.linked, fun x o hx => ⟨fun a => hsep.tmp_offsets x a o hx, fun y => hsep.tmp_inj x y o hx⟩,
    fun later s' hs => kept_calls (execCalls_runCalls hs), fun o ho hneg => ?_,
    fun node o s' hs => getStackSlot_offsets hs, fun node o s' hs => getTmpSlot_tmpSlots hs⟩
  · have hcurrent : s.currentOffset = 8 + 8 * created calls init := runCalls_current h
    exact execCalls_of_runCalls h hnums (by omega)
  · rcases hsep.reachable.sound.inFrame o ho with ⟨num, rfl⟩ | ⟨k, hk, hlt⟩
    · omega
    · exact ⟨k, hk, Int.le_of_lt hlt⟩

/-- Two parameters, a `Conv` that is visited before its operand, and a phi. -/
def sampleCalls : List Call :=
  [.setSlot 1 0, .setSlot 2 1, .copySlot 4 3, .getStackSlot 4, .getTmpSlot 5, .getStackSlot 5]

theorem slots_separate_sampleCalls :
    ∃ s, runCalls sampleCalls init = some s ∧ execCalls sampleCalls init = .ok s ∧ s.offsets 3 = some (-8) ∧
      s.tmpSlots 5 = some (-16) ∧ s.offsets 5 = some (-24) ∧
      ∀ a b o, s.offsets a = some o → s.offsets b = some o → Relation.EqvGen (Copied sampleCalls) a b := by
  have h := @slots_separate sampleCalls _ rfl (by decide) (by decide) (by decide)
  exact ⟨_, rfl, h.1, rfl, rfl, rfl, h.2.1⟩

/-- A slot for each of the first `n` nodes. -/
def slotCalls (n : Nat) : List Call := (List.range n).map .getStackSlot

theorem runCalls_slotCalls (n : Nat) : ∃ s, runCalls (slotCalls n) init = some s ∧ s.currentOffset = 8 * (n + 1) ∧
    ∀ node, n ≤ node → s.offsets node = none := by
  induction n with
  | zero => exact ⟨init, rfl, rfl, fun _ _ => rfl⟩
  | succ n ih =>
    obtain ⟨s, hs, hcurrent, hfree⟩ := ih
    have hslot : getStackSlot n s = some (s.free, s.alloc n) := by
      unfold getStackSlot
      rw [hfree n (Nat.le_refl n)]
      rfl
    have hrun : Call.run (.getStackSlot n) s = some (s.alloc n) := Option.map_eq_some_iff.2 ⟨_, hslot, rfl⟩
    refine ⟨s.alloc n, ?_, ?_, fun node hnode => ?_⟩
    · unfold slotCalls
      rw [List.range_succ, List.map_append, runCalls_append]
      show (runCalls (slotCalls n) init).bind _ = _
      rw [hs]
      show (Call.run (.getStackSlot n) s).bind some = _
      rw [hrun]
      rfl
    · show s.currentOffset + 8 = _
      rw [hcurrent]
      push_cast
      omega
    · show Function.update s.offsets n (some s.free) node = none
      rw [Function.update_of_ne (by omega)]
      exact hfree node (by omega)

theorem params_slotCalls (n : Nat) : params (slotCalls n) = [] := by
  unfold slotCalls
  induction List.range n with
  | nil => rfl
  | cons node nodes ih => exact ih

/-- With 2^28 - 1 slots the counter leaves the range, although no assertion fails. -/
theorem not_slots_separate_manySlots :
    (∃ s, runCalls (slotCalls 268435455) init = some s) ∧ (params (slotCalls 268435455)).Nodup ∧
      execCalls (slotCalls 268435455) init = .error .overflow := by
  obtain ⟨s, hs, hcurrent, -⟩ := runCalls_slotCalls 268435455
  refine ⟨⟨s, hs⟩, ?_, execCalls_overflow hs (by decide) ?_⟩
  · rw [params_slotCalls]
    exact List.nodup_nil
  · rw [hcurrent]
    decide

end StackSlotManager
end Mjc.Asm

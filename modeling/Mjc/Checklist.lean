import Mathlib.Data.List.Basic

/-!
# Checkers as lists of rules

A checker that raises an error at the first rule that its input breaks, and that tells from the rule what kind of error
it is.

* `Rule κ` : a condition, with the kind of error that breaking it is;
* `FirstBroken l k` : some rule of the list is broken, and the first such rule is of kind `k`;
* `Spares k l` : there is no such rule of kind `k`;
* `Meets kind l Q x` : the checker `x` does what the rules ask, and its results satisfy `Q`;
* `Meets.bind`, `Meets.then`, `Meets.again` : checkers one after the other;
* `Meets.and` : two rules made one;
* `Meets.ok_iff`, `Meets.error_iff` : when a checker returns, and when it raises an error of a kind.
-/

namespace Mjc.Checklist

set_option autoImplicit false

/-- A condition that is checked. -/
structure Rule (κ : Type) where
  kind : κ
  holds : Prop

variable {κ ε α β : Type}

/-- All the rules hold. -/
def AllHold (l : List (Rule κ)) : Prop := ∀ r ∈ l, r.holds

/-- The first rule that is broken is of that kind. -/
inductive FirstBroken : List (Rule κ) → κ → Prop
  | here {r : Rule κ} {l : List (Rule κ)} (h : ¬ r.holds) : FirstBroken (r :: l) r.kind
  | later {r : Rule κ} {l : List (Rule κ)} {k : κ} (h : r.holds) (hl : FirstBroken l k) : FirstBroken (r :: l) k

section Lists

variable {l l' : List (Rule κ)} {k k' : κ}

theorem allHold_nil : AllHold ([] : List (Rule κ)) := List.forall_mem_nil _

theorem allHold_append : AllHold (l ++ l') ↔ AllHold l ∧ AllHold l' := List.forall_mem_append

theorem allHold_singleton {r : Rule κ} : AllHold [r] ↔ r.holds := List.forall_mem_singleton

theorem FirstBroken.not_allHold (h : FirstBroken l k) : ¬ AllHold l := by
  induction h with
  | here h => exact fun hall => h (hall _ List.mem_cons_self)
  | later _ _ ih => exact fun hall => ih fun r hr => hall r (List.mem_cons_of_mem _ hr)

theorem FirstBroken.unique (h : FirstBroken l k) (h' : FirstBroken l k') : k = k' := by
  induction h with
  | here h =>
    cases h' with
    | here => rfl
    | later hr => exact absurd hr h
  | later hr _ ih =>
    cases h' with
    | here h => exact absurd hr h
    | later _ hl => exact ih hl

theorem FirstBroken.append_left (h : FirstBroken l k) (l' : List (Rule κ)) : FirstBroken (l ++ l') k := by
  induction h with
  | here h => exact .here h
  | later hr _ ih => exact .later hr ih

theorem FirstBroken.append_right (hl : AllHold l) (h : FirstBroken l' k) : FirstBroken (l ++ l') k := by
  induction l with
  | nil => exact h
  | cons r l ih =>
    obtain ⟨hr, hl⟩ := List.forall_mem_cons.mp hl
    exact .later hr (ih hl)

theorem FirstBroken.of_append (h : FirstBroken (l ++ l') k) : FirstBroken l k ∨ AllHold l ∧ FirstBroken l' k := by
  induction l with
  | nil => exact .inr ⟨allHold_nil, h⟩
  | cons r l ih =>
    cases h with
    | here h => exact .inl (.here h)
    | later hr h =>
      rcases ih h with h | ⟨hl, h⟩
      · exact .inl (.later hr h)
      · exact .inr ⟨List.forall_mem_cons.mpr ⟨hr, hl⟩, h⟩

/-- The first rule that is broken is not of that kind. -/
def Spares (k : κ) (l : List (Rule κ)) : Prop := ¬ FirstBroken l k

theorem spares_nil : Spares k ([] : List (Rule κ)) := fun h => nomatch h

theorem Spares.append (h : Spares k l) (h' : AllHold l → Spares k l') : Spares k (l ++ l') :=
  fun hb => hb.of_append.elim h fun hb => h' hb.1 hb.2

theorem Spares.cons {r : Rule κ} (hr : r.kind = k → r.holds) (h : r.holds → Spares k l) : Spares k (r :: l) := by
  intro hb
  cases hb with
  | here hnot => exact hnot (hr rfl)
  | later hr' hl => exact h hr' hl

theorem spares_flatMap {ι : Type} {f : ι → List (Rule κ)} {xs : List ι} (h : ∀ x ∈ xs, Spares k (f x)) :
    Spares k (xs.flatMap f) := by
  induction xs with
  | nil => exact spares_nil
  | cons x xs ih =>
    obtain ⟨hx, hxs⟩ := List.forall_mem_cons.mp h
    exact hx.append fun _ => ih hxs

end Lists

/-- The checker returns if all the rules hold, with a result that satisfies `Q`, and otherwise raises an error of the
kind of the first rule that is broken. -/
inductive Meets (kind : ε → κ) (l : List (Rule κ)) (Q : α → Prop) : Except ε α → Prop
  | ok {a : α} (h : AllHold l) (hq : Q a) : Meets kind l Q (.ok a)
  | error {e : ε} (h : FirstBroken l (kind e)) : Meets kind l Q (.error e)

section Checkers

variable {kind : ε → κ} {x : Except ε α} {l l' : List (Rule κ)} {Q Q' : α → Prop} {P : β → Prop}

theorem Meets.pure {a : α} (hq : Q a) : Meets kind [] Q (.ok a) := .ok allHold_nil hq

/-- What comes later is only checked when the earlier rules hold. -/
theorem Meets.bind {f : α → Except ε β} (hx : Meets kind l Q x)
    (hf : ∀ a, x = .ok a → AllHold l → Q a → Meets kind l' P (f a)) : Meets kind (l ++ l') P (x >>= f) := by
  cases hx with
  | @ok a h hq =>
    have hfa := hf a rfl h hq
    show Meets kind (l ++ l') P (f a)
    generalize f a = y at hfa
    cases hfa with
    | ok h' hp => exact .ok (allHold_append.mpr ⟨h, h'⟩) hp
    | error h' => exact .error (.append_right h h')
  | error h => exact .error (h.append_left l')

/-- A last step without a check. -/
theorem Meets.then {f : α → Except ε β} (hx : Meets kind l Q x)
    (hf : ∀ a, x = .ok a → AllHold l → Q a → ∃ b, f a = .ok b ∧ P b) : Meets kind l P (x >>= f) := by
  rw [← List.append_nil l]
  refine hx.bind fun a ha hl hq => ?_
  obtain ⟨b, hb, hp⟩ := hf a ha hl hq
  rw [hb]
  exact .pure hp

/-- Rules that are checked twice. -/
theorem Meets.again {f : α → Except ε β} (hx : Meets kind l Q x)
    (hf : ∀ a, x = .ok a → AllHold l → Q a → Meets kind (l ++ l') P (f a)) : Meets kind (l ++ l') P (x >>= f) := by
  cases hx with
  | @ok a h hq => exact hf a rfl h hq
  | error h => exact .error (h.append_left l')

/-- A rule that holds is not noticed. -/
theorem Meets.cons {r : Rule κ} (hr : r.holds) (h : Meets kind l Q x) : Meets kind (r :: l) Q x := by
  cases h with
  | ok h hq => exact .ok (List.forall_mem_cons.mpr ⟨hr, h⟩) hq
  | error h => exact .error (.later hr h)

theorem Meets.congr {k : κ} {p q : Prop} (h : Meets kind [⟨k, p⟩] Q x) (hpq : p ↔ q) : Meets kind [⟨k, q⟩] Q x :=
  propext hpq ▸ h

/-- Two rules of one kind are one rule. -/
theorem Meets.and {k : κ} {p q : Prop} (h : Meets kind [⟨k, p⟩, ⟨k, q⟩] Q x) : Meets kind [⟨k, p ∧ q⟩] Q x := by
  cases h with
  | ok h hq =>
    obtain ⟨hp, h⟩ := List.forall_mem_cons.mp h
    exact .ok (allHold_singleton.mpr ⟨hp, allHold_singleton.mp h⟩) hq
  | error h =>
    refine .error ?_
    generalize kind _ = k' at h
    cases h with
    | here hp => exact .here (r := ⟨k, p ∧ q⟩) fun hpq => hp hpq.1
    | later _ h =>
      cases h with
      | here hq => exact .here (r := ⟨k, p ∧ q⟩) fun hpq => hq hpq.2
      | later _ h => cases h

theorem Meets.mono (h : Meets kind l Q x) (hQ : ∀ a, x = .ok a → Q a → Q' a) : Meets kind l Q' x := by
  cases h with
  | ok h hq => exact .ok h (hQ _ rfl hq)
  | error h => exact .error h

theorem Meets.ok_iff (h : Meets kind l Q x) : (∃ a, x = .ok a) ↔ AllHold l := by
  cases h with
  | @ok a h => exact ⟨fun _ => h, fun _ => ⟨a, rfl⟩⟩
  | error h =>
    constructor
    · rintro ⟨_, hok⟩; cases hok
    · exact fun hall => absurd hall h.not_allHold

theorem Meets.error_iff {k : κ} (h : Meets kind l Q x) : (∃ e, x = .error e ∧ kind e = k) ↔ FirstBroken l k := by
  cases h with
  | ok h =>
    constructor
    · rintro ⟨_, herr, -⟩; cases herr
    · exact fun hb => absurd h hb.not_allHold
  | @error e h =>
    constructor
    · rintro ⟨_, herr, rfl⟩; cases herr; exact h
    · exact fun hb => ⟨e, rfl, h.unique hb⟩

end Checkers

end Mjc.Checklist

import Mathlib.Data.List.Infix

/-!
# Longest match

A tokeniser takes the longest prefix of its input that is a word. For a language in which every nonempty part of
a word that starts it is a word again, reading on while this gives a word finds that prefix.

* `PartsAreWords` : the languages for which this works;
* `Longest` : the longest word at the start of an input;
* `longest_of_stuck` : a word that the next character does not continue is the longest one.
-/

namespace Mjc.Munch

variable {α : Type*}

/-- Every nonempty list that a word starts with is a word. -/
def PartsAreWords (W : List α → Prop) : Prop := ∀ u v : List α, u ≠ [] → W (u ++ v) → W u

/-- `w` is the longest word that `bs` starts with. -/
structure Longest (W : List α → Prop) (bs w : List α) : Prop where
  word : W w
  starts : w <+: bs
  longest : ∀ v, W v → v <+: bs → v.length ≤ w.length

theorem Longest.unique {W : List α → Prop} {bs u v : List α} (hu : Longest W bs u) (hv : Longest W bs v) :
    u = v := by
  have hle : u.length ≤ v.length := hv.longest u hu.word hu.starts
  have hge : v.length ≤ u.length := hu.longest v hv.word hv.starts
  have hpre : u <+: v := List.prefix_of_prefix_length_le hu.starts hv.starts hle
  exact hpre.eq_of_length (le_antisymm hle hge)

theorem longest_of_stuck {W : List α → Prop} {w rest : List α} (hW : PartsAreWords W) (hw : W w)
    (hstuck : ∀ b r, rest = b :: r → ¬ W (w ++ [b])) : Longest W (w ++ rest) w := by
  refine ⟨hw, List.prefix_append w rest, ?_⟩
  intro v hv hvpre
  by_contra hlt
  rw [not_le] at hlt
  -- a longer word starts with `w` and the next character
  obtain ⟨u, rfl⟩ : w <+: v := List.prefix_of_prefix_length_le (List.prefix_append w rest) hvpre hlt.le
  rw [List.prefix_append_right_inj] at hvpre
  cases u with
  | nil => simp at hlt
  | cons b u =>
    obtain ⟨r, hr⟩ := hvpre
    apply hstuck b (u ++ r) (by rw [← hr, List.cons_append])
    apply hW (w ++ [b]) u (by simp)
    rwa [List.append_assoc, List.singleton_append]

end Mjc.Munch

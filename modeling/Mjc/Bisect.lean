import Mathlib.Data.List.Sort
import Mathlib.Data.List.TakeWhile

/-!
# Sorting and searching by a key

* `lowerBound` : the binary search for the first element that is not below something; `getElem?_lowerBound` : what it
  ends at in a list that is partitioned; `not_below_lowerBound` : in every list;
* `filter_insertionSort` : elements of one key keep their order when a list is sorted by the key;
* `secondOfPair` : the second one of the first two neighbours with one key; `secondOfPair_sorted` : in a list that was
  sorted by the key, it is not the first of its key before.
-/

namespace Mjc.Bisect

set_option autoImplicit false

section Search

variable {α : Type} (below : α → Bool) (l : List α)

/-- Halve the `length` elements from `first` on, until none is left; at most `steps` times. -/
def lowerBoundIn : Nat → Nat → Nat → Nat
  | 0, first, _ => first
  | steps + 1, first, length =>
    if length = 0 then first
    else
      match l[first + length / 2]? with
      | some x =>
        if below x then lowerBoundIn steps (first + length / 2 + 1) (length - length / 2 - 1)
        else lowerBoundIn steps first (length / 2)
      | none => first

/-- The search in the whole list; every step takes away an element at least. -/
def lowerBound : Nat := lowerBoundIn below l l.length 0 l.length

variable {below l}

/-- What is below comes first. -/
def Partitioned (below : α → Bool) (l : List α) : Prop := l.Pairwise fun a b => below b = true → below a = true

theorem Partitioned.below_iff (h : Partitioned below l) {i : Nat} {x : α} (hx : l[i]? = some x) :
    below x = true ↔ i < (l.takeWhile below).length := by
  induction l generalizing i with
  | nil => cases hx
  | cons a l ih =>
    obtain ⟨ha, hl⟩ := List.pairwise_cons.mp h
    cases i with
    | zero =>
      obtain rfl := Option.some.inj hx
      by_cases hbelow : below a
      · rw [List.takeWhile_cons_of_pos hbelow]
        exact iff_of_true hbelow (Nat.succ_pos _)
      · rw [List.takeWhile_cons_of_neg hbelow]
        exact iff_of_false hbelow (Nat.lt_irrefl 0)
    | succ i =>
      rw [List.getElem?_cons_succ] at hx
      by_cases hbelow : below a
      · rw [List.takeWhile_cons_of_pos hbelow, List.length_cons, ih hl hx]
        omega
      · rw [List.takeWhile_cons_of_neg hbelow]
        exact iff_of_false (fun h => hbelow (ha x (List.mem_of_getElem? hx) h)) (Nat.not_lt_zero _)

/-- The boundary stays between `first` and `first + length`. -/
theorem Partitioned.lowerBoundIn_eq (h : Partitioned below l) {steps first length : Nat} (hsteps : length ≤ steps)
    (hfirst : first ≤ (l.takeWhile below).length) (hlast : (l.takeWhile below).length ≤ first + length)
    (hlength : first + length ≤ l.length) : lowerBoundIn below l steps first length = (l.takeWhile below).length := by
  induction steps generalizing first length with
  | zero =>
    unfold lowerBoundIn
    omega
  | succ steps ih =>
    unfold lowerBoundIn
    by_cases hzero : length = 0
    · rw [if_pos hzero]
      omega
    · obtain ⟨x, hx⟩ : ∃ x, l[first + length / 2]? = some x :=
        ⟨_, List.getElem?_eq_getElem (show first + length / 2 < l.length by omega)⟩
      have hbelow := h.below_iff hx
      rw [if_neg hzero, hx]
      dsimp only
      by_cases hcase : below x
      · have := hbelow.mp hcase
        rw [if_pos hcase]
        exact ih (by omega) (by omega) (by omega) (by omega)
      · have := mt hbelow.mpr hcase
        rw [if_neg hcase]
        exact ih (by omega) hfirst (by omega) (by omega)

/-- Also in a list that is not partitioned, what the search ends at is not below. -/
theorem not_below_lowerBoundIn {steps first length : Nat} (hsteps : length ≤ steps) (hlength : first + length ≤ l.length)
    (hlast : ∀ x, l[first + length]? = some x → below x = false) {x : α}
    (hx : l[lowerBoundIn below l steps first length]? = some x) : below x = false := by
  induction steps generalizing first length with
  | zero =>
    obtain rfl : length = 0 := by omega
    exact hlast x hx
  | succ steps ih =>
    unfold lowerBoundIn at hx
    by_cases hzero : length = 0
    · rw [if_pos hzero] at hx
      subst hzero
      exact hlast x hx
    · obtain ⟨y, hy⟩ : ∃ y, l[first + length / 2]? = some y :=
        ⟨_, List.getElem?_eq_getElem (show first + length / 2 < l.length by omega)⟩
      rw [if_neg hzero, hy] at hx
      dsimp only at hx
      by_cases hcase : below y
      · rw [if_pos hcase] at hx
        refine ih (by omega) (by omega) ?_ hx
        rwa [show first + length / 2 + 1 + (length - length / 2 - 1) = first + length by omega]
      · rw [if_neg hcase] at hx
        refine ih (by omega) (by omega) (fun z hz => ?_) hx
        obtain rfl := Option.some.inj (hy.symm.trans hz)
        exact Bool.eq_false_iff.mpr hcase

theorem not_below_lowerBound {x : α} (hx : l[lowerBound below l]? = some x) : below x = false := by
  refine not_below_lowerBoundIn (Nat.le_refl _) (Nat.le_of_eq (Nat.zero_add _)) (fun y hy => ?_) hx
  rw [Nat.zero_add, List.getElem?_eq_none (Nat.le_refl _)] at hy
  cases hy

/-- The element at the lower bound of the whole list. -/
theorem Partitioned.getElem?_lowerBound (h : Partitioned below l) :
    l[lowerBound below l]? = (l.dropWhile below).head? := by
  have hle : (l.takeWhile below).length ≤ l.length := (List.takeWhile_prefix below).length_le
  have hdrop : l.drop (l.takeWhile below).length = l.dropWhile below := by
    have := @List.drop_left _ (l.takeWhile below) (l.dropWhile below)
    rwa [List.takeWhile_append_dropWhile] at this
  rw [lowerBound, h.lowerBoundIn_eq (Nat.le_refl _) (Nat.zero_le _) (by omega) (by omega), ← List.head?_drop, hdrop]

end Search

section Sorting

variable {α κ : Type} [LinearOrder κ] (key : α → κ)

theorem filter_orderedInsert (k : κ) (a : α) (l : List α) :
    (l.orderedInsert (fun a b => key a ≤ key b) a).filter (key · = k) = (a :: l).filter (key · = k) := by
  induction l with
  | nil => rfl
  | cons b l ih =>
    rw [List.orderedInsert_cons]
    by_cases hle : key a ≤ key b
    · rw [if_pos hle]
    · rw [if_neg hle, List.filter_cons, ih]
      by_cases hb : key b = k
      · have ha : ¬ key a = k := fun ha => hle (ha.trans hb.symm).le
        simp [ha, hb]
      · simp [List.filter_cons, hb]

/-- Elements of one key keep their order. -/
theorem filter_insertionSort (k : κ) (l : List α) :
    (l.insertionSort fun a b => key a ≤ key b).filter (key · = k) = l.filter (key · = k) := by
  induction l with
  | nil => rfl
  | cons a l ih =>
    rw [List.insertionSort_cons, filter_orderedInsert, ← List.singleton_append, List.filter_append, ih,
      ← List.filter_append]
    rfl

/-- The second one of the first two neighbours that have one key. -/
def secondOfPair : List α → Option α
  | a :: b :: l => if key a = key b then some b else secondOfPair (b :: l)
  | _ => none

variable {key}

theorem secondOfPair_eq_some {l : List α} {b : α} (h : secondOfPair key l = some b) :
    ∃ before a after, l = before ++ a :: b :: after ∧ key a = key b := by
  induction l with
  | nil => cases h
  | cons a l ih =>
    cases l with
    | nil => cases h
    | cons c l =>
      unfold secondOfPair at h
      split at h
      · rename_i hkey
        obtain rfl := Option.some.inj h
        exact ⟨[], a, l, rfl, hkey⟩
      · obtain ⟨before, d, after, heq, hkey⟩ := ih h
        exact ⟨a :: before, d, after, by rw [heq]; rfl, hkey⟩

/-- What stands next to each other in the sorted list with one key stands in this order in the list. -/
theorem secondOfPair_sorted {l : List α} {b : α}
    (h : secondOfPair key (l.insertionSort fun a b => key a ≤ key b) = some b) :
    ∃ a, List.Sublist [a, b] l ∧ key a = key b := by
  obtain ⟨before, a, after, heq, hkey⟩ := secondOfPair_eq_some h
  refine ⟨a, ?_, hkey⟩
  have hpair : List.Sublist [a, b] ((l.insertionSort fun a b => key a ≤ key b).filter (key · = key b)) := by
    rw [heq, List.filter_append, List.filter_cons_of_pos (by simpa using hkey), List.filter_cons_of_pos (by simp)]
    exact List.sublist_append_of_sublist_right (((List.nil_sublist _).cons_cons b).cons_cons a)
  rw [filter_insertionSort] at hpair
  exact hpair.trans List.filter_sublist

end Sorting

end Mjc.Bisect

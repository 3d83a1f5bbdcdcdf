import Mjc.Sema.Inversion

/-!
# Lists sorted by name

* `checkForDuplicates_eq_ok` : the check passes exactly when the names are pairwise different;
* `sortByName_eq_of_perm` : then the sorted list does not depend on the order of the list;
* `UnstableSort` : `std::sort`; `UnstableSort.sort_eq` : it sorts different names in the same way;
* `findByName_eq_some`, `findByName_eq_find?` : what the binary search finds.
-/

namespace Mjc.Sema
open Mjc.Ast Mjc.Bisect

set_option autoImplicit false

section Pointwise

variable {α β : Type} {R : α → β → Prop} {l : List α} {l' : List β}

theorem exists_right_of_mem (h : List.Forall₂ R l l') {a : α} (ha : a ∈ l) : ∃ b ∈ l', R a b := by
  induction h with
  | nil => cases ha
  | @cons c d l l' hcd _ ih =>
    rcases List.mem_cons.mp ha with rfl | ha
    · exact ⟨d, List.mem_cons_self, hcd⟩
    · obtain ⟨b, hb, hab⟩ := ih ha
      exact ⟨b, List.mem_cons_of_mem _ hb, hab⟩

theorem exists_left_of_mem (h : List.Forall₂ R l l') {b : β} (hb : b ∈ l') : ∃ a ∈ l, R a b :=
  exists_right_of_mem (List.Forall₂.flip h) hb

end Pointwise

section Sorting

variable {α : Type} {name : α → String}

theorem sortByName_perm (name : α → String) (l : List α) : (sortByName name l).Perm l :=
  List.perm_insertionSort _ l

theorem pairwise_sortByName (name : α → String) (l : List α) :
    (sortByName name l).Pairwise fun a b => name a ≤ name b := by
  have : Std.Total fun a b => name a ≤ name b := ⟨fun a b => le_total (name a) (name b)⟩
  have : IsTrans α fun a b => name a ≤ name b := ⟨fun _ _ _ => le_trans⟩
  exact List.pairwise_insertionSort _ l

theorem nodup_sortByName {l : List α} : ((sortByName name l).map name).Nodup ↔ (l.map name).Nodup :=
  ((sortByName_perm name l).map name).nodup_iff

/-- In a sorted list it is enough to look at neighbours. -/
theorem hasAdjacent_eq_false {l : List α} (h : l.Pairwise fun a b => name a ≤ name b) :
    hasAdjacent name l = false ↔ (l.map name).Nodup := by
  induction l with
  | nil => simp [hasAdjacent]
  | cons a l ih =>
    cases l with
    | nil => simp [hasAdjacent]
    | cons b l =>
      obtain ⟨ha, hl⟩ := List.pairwise_cons.mp h
      obtain ⟨hb, -⟩ := List.pairwise_cons.mp hl
      rw [hasAdjacent, Bool.or_eq_false_iff, ih hl, List.map_cons (l := b :: l), List.nodup_cons (a := name a)]
      refine and_congr_left fun _ => ?_
      rw [decide_eq_false_iff_not]
      constructor
      · intro hab hmem
        obtain ⟨c, hc, hca⟩ := List.mem_map.mp hmem
        rcases List.mem_cons.mp hc with rfl | hc
        · exact hab hca.symm
        · exact hab (le_antisymm (ha b List.mem_cons_self) (hca ▸ hb c hc))
      · intro hmem hab
        exact hmem (hab ▸ List.mem_map_of_mem List.mem_cons_self)

theorem checkForDuplicates_eq_ok {what : String} {l l' : List α} :
    checkForDuplicates name what l = .ok l' ↔ (l.map name).Nodup ∧ l' = sortByName name l := by
  rw [← nodup_sortByName, ← hasAdjacent_eq_false (pairwise_sortByName name l)]
  unfold checkForDuplicates
  cases hasAdjacent name (sortByName name l)
  · constructor
    · intro h; cases h; exact ⟨rfl, rfl⟩
    · rintro ⟨-, rfl⟩; rfl
  · constructor
    · intro h; cases h
    · rintro ⟨h, -⟩; cases h

theorem eq_of_name_eq {l : List α} (h : (l.map name).Nodup) {a b : α} (ha : a ∈ l) (hb : b ∈ l)
    (hab : name a = name b) : a = b :=
  List.inj_on_of_nodup_map h ha hb hab

theorem sortByName_eq_of_perm {l l' : List α} (h : l.Perm l') (hl : (l.map name).Nodup) :
    sortByName name l = sortByName name l' := by
  have hp := ((sortByName_perm name l).trans h).trans (sortByName_perm name l').symm
  refine hp.eq_of_pairwise ?_ (pairwise_sortByName name l) (pairwise_sortByName name l')
  intro a b ha hb hab hba
  have ha' : a ∈ l := (sortByName_perm name l).mem_iff.mp ha
  have hb' : b ∈ l := h.mem_iff.mpr ((sortByName_perm name l').mem_iff.mp hb)
  exact eq_of_name_eq hl ha' hb' (le_antisymm hab hba)

/-- Sorting commutes with a change of the elements that keeps the names. -/
theorem forall₂_sortByName {R : α → α → Prop} (hR : ∀ a b, R a b → name a = name b) {l l' : List α}
    (h : List.Forall₂ R l l') : List.Forall₂ R (sortByName name l) (sortByName name l') := by
  have insert {a b : α} (hab : R a b) {m m' : List α} (hm : List.Forall₂ R m m') :
      List.Forall₂ R (m.orderedInsert (fun a b => name a ≤ name b) a)
        (m'.orderedInsert (fun a b => name a ≤ name b) b) := by
    induction hm with
    | nil => exact .cons hab .nil
    | @cons c d m m' hcd hm ih =>
      rw [List.orderedInsert_cons, List.orderedInsert_cons, hR _ _ hab, hR _ _ hcd]
      by_cases hle : name b ≤ name d
      · rw [if_pos hle, if_pos hle]; exact .cons hab (.cons hcd hm)
      · rw [if_neg hle, if_neg hle]; exact .cons hcd ih
  induction h with
  | nil => exact .nil
  | cons hab _ ih => exact insert hab ih

theorem sortByName_eq_self {l : List α} (h : l.Pairwise fun a b => name a ≤ name b) : sortByName name l = l :=
  List.Pairwise.insertionSort_eq h

@[simp] theorem sortByName_sortByName (name : α → String) (l : List α) :
    sortByName name (sortByName name l) = sortByName name l :=
  sortByName_eq_self (pairwise_sortByName name l)

/-! ## Sorts that are not stable -/

/-- `std::sort` by name: a sorted order, in which elements of one name may stand in any order. -/
structure UnstableSort where
  sort : {α : Type} → (α → String) → List α → List α
  perm : ∀ {α : Type} (name : α → String) (l : List α), (sort name l).Perm l
  sorted : ∀ {α : Type} (name : α → String) (l : List α), (sort name l).Pairwise fun a b => name a ≤ name b

instance : Inhabited UnstableSort := ⟨⟨sortByName, sortByName_perm, pairwise_sortByName⟩⟩

/-- Different names have only one sorted order. -/
theorem UnstableSort.sort_eq (std : UnstableSort) {l : List α} (h : (l.map name).Nodup) :
    std.sort name l = sortByName name l := by
  rw [← sortByName_eq_self (std.sorted name l)]
  exact sortByName_eq_of_perm (std.perm name l) (((std.perm name l).map name).nodup_iff.mpr h)

/-! ## Binary search -/

theorem findByName_eq_some {l : List α} {key : String} {x : α} (h : findByName name l key = some x) :
    x ∈ l ∧ name x = key := by
  unfold findByName at h
  cases hx : l[lowerBound (fun x => name x < key) l]? with
  | none =>
    rw [hx] at h
    cases h
  | some y =>
    rw [hx] at h
    have hbelow := not_below_lowerBound hx
    have hy : ¬ name y < key := of_decide_eq_false hbelow
    by_cases hlt : key < name y
    · simp only [if_pos hlt] at h; cases h
    · simp only [if_neg hlt] at h
      cases h
      exact ⟨List.mem_of_getElem? hx, le_antisymm (not_lt.mp hlt) (not_lt.mp hy)⟩

/-- In a sorted list the search finds the first element of a name. -/
theorem findByName_eq_find? {l : List α} (hl : l.Pairwise fun a b => name a ≤ name b) (key : String) :
    findByName name l key = l.find? fun x => name x = key := by
  have hpart : Partitioned (fun x => decide (name x < key)) l := by
    refine hl.imp fun hab hb => ?_
    rw [decide_eq_true_eq] at hb ⊢
    exact lt_of_le_of_lt hab hb
  unfold findByName
  rw [hpart.getElem?_lowerBound]
  clear hpart
  induction l with
  | nil => rfl
  | cons a l ih =>
    obtain ⟨ha, hl'⟩ := List.pairwise_cons.mp hl
    by_cases hlt : name a < key
    · have hne : ¬ name a = key := hlt.ne
      rw [List.dropWhile_cons_of_pos (by simpa using hlt), List.find?_cons_of_neg (by simpa using hne)]
      exact ih hl'
    · rw [List.dropWhile_cons_of_neg (by simpa using hlt)]
      by_cases hgt : key < name a
      · have hnone : (a :: l).find? (fun x => decide (name x = key)) = none := by
          refine List.find?_eq_none.mpr fun x hx hkey => ?_
          have hxkey : name x = key := of_decide_eq_true hkey
          rcases List.mem_cons.mp hx with rfl | hx
          · exact absurd hxkey hgt.ne'
          · exact absurd hxkey (lt_of_lt_of_le hgt (ha x hx)).ne'
        rw [hnone, List.head?_cons]
        simp only [if_pos hgt]
      · have heq : name a = key := le_antisymm (not_lt.mp hgt) (not_lt.mp hlt)
        rw [List.find?_cons_of_pos (by simpa using heq), List.head?_cons]
        simp only [if_neg hgt]

theorem findByName_isSome {l : List α} (hl : l.Pairwise fun a b => name a ≤ name b) {key : String} {x : α}
    (hx : x ∈ l) (hkey : name x = key) : (findByName name l key).isSome = true := by
  rw [findByName_eq_find? hl, List.find?_isSome]
  exact ⟨x, hx, decide_eq_true hkey⟩

end Sorting

end Mjc.Sema

import Mathlib.Data.List.Basic

/-!
# Dominance

The paths of a graph from a root, and the vertices that every path to a vertex passes.

* `Path` : the vertices of a path, the last one first; `Path.splice` : another way to a vertex of it;
* `Dominates` : a preorder with the root at its bottom; `Dominates.mono` : fewer edges, more dominance;
* `Dominates.not_after` : between a dominator of the end and the end, nothing that dominates the dominator comes back.
-/

namespace Mjc.Dominance

set_option autoImplicit false

variable {α : Type} (edge : α → α → Prop) (root : α)

/-- The vertices of a path from the root, the last one first. -/
inductive Path : List α → Prop where
  | root : Path [root]
  | step {a b : α} {l : List α} : Path (a :: l) → edge a b → Path (b :: a :: l)

/-- Every path to `b` passes `a`. -/
def Dominates (a b : α) : Prop := ∀ l, Path edge root (b :: l) → a ∈ b :: l

variable {edge root}

namespace Path

theorem root_mem {l : List α} (h : Path edge root l) : root ∈ l := by
  induction h with
  | root => exact List.mem_cons_self
  | step _ _ ih => exact List.mem_cons_of_mem _ ih

theorem of_cons {b : α} {l : List α} (h : Path edge root (b :: l)) {a : α} {l' : List α} (hl : l = a :: l') :
    Path edge root l ∧ edge a b := by
  subst hl
  cases h with
  | step h hedge => exact ⟨h, hedge⟩

theorem of_append {l₁ l₂ : List α} {b a : α} (h : Path edge root (b :: (l₁ ++ a :: l₂))) :
    Path edge root (l₁ ++ a :: l₂) := by
  cases l₁ with
  | nil => exact (h.of_cons rfl).1
  | cons c l₁ => exact (h.of_cons rfl).1

/-- The way to a vertex of a path. -/
theorem suffix {l₁ l₂ : List α} {a : α} (h : Path edge root (l₁ ++ a :: l₂)) : Path edge root (a :: l₂) := by
  induction l₁ with
  | nil => exact h
  | cons b l₁ ih => exact ih h.of_append

/-- A path may come to one of its vertices another way. -/
theorem splice {l₁ l₂ l₃ : List α} {a : α} (h : Path edge root (l₁ ++ a :: l₂)) (h' : Path edge root (a :: l₃)) :
    Path edge root (l₁ ++ a :: l₃) := by
  induction l₁ with
  | nil => exact h'
  | cons b l₁ ih =>
    have hpath := ih h.of_append
    cases l₁ with
    | nil => exact hpath.step (h.of_cons rfl).2
    | cons c l₁ => exact hpath.step (h.of_cons rfl).2

theorem mono {edge' : α → α → Prop} (hedge : ∀ a b, edge a b → edge' a b) {l : List α} (h : Path edge root l) :
    Path edge' root l := by
  induction h with
  | root => exact .root
  | step _ hab ih => exact ih.step (hedge _ _ hab)

end Path

namespace Dominates

theorem refl (a : α) : Dominates edge root a a := fun _ _ => List.mem_cons_self

theorem of_root (a : α) : Dominates edge root root a := fun _ h => h.root_mem

theorem trans {a b c : α} (hab : Dominates edge root a b) (hbc : Dominates edge root b c) :
    Dominates edge root a c := by
  intro l h
  obtain ⟨l₁, l₂, hsplit⟩ := List.append_of_mem (hbc l h)
  rw [hsplit] at h ⊢
  exact List.mem_append_right _ (hab l₂ h.suffix)

theorem mono {edge' : α → α → Prop} (hedge : ∀ a b, edge' a b → edge a b) {a b : α} (h : Dominates edge root a b) :
    Dominates edge' root a b := fun l hl => h l (hl.mono hedge)

/-- Only the root is on the path that has not left it. -/
theorem root_eq {a : α} (h : Dominates edge root a root) : a = root := List.mem_singleton.mp (h [] .root)

/-- After the last visit of `b`, which dominates the end, `a`, which dominates `b`, is not visited again. -/
theorem not_after {a b c : α} {recent older l : List α} (hab : Dominates edge root a b)
    (hbc : Dominates edge root b c) (hne : a ≠ b) (hpath : Path edge root (c :: l))
    (hsplit : c :: l = recent ++ b :: older) (hlast : b ∉ recent) : a ∉ recent := by
  intro ha
  -- the way to the first visit of `a` passes no `b`
  have hmem : a ∈ (c :: l).reverse := List.mem_reverse.mpr (hsplit ▸ List.mem_append_left _ ha)
  obtain ⟨first, l₁, heq, hfirst⟩ := List.eq_append_cons_of_mem hmem
  replace heq : c :: l = l₁.reverse ++ a :: first.reverse := by
    rw [← List.reverse_reverse (c :: l), heq, List.reverse_append, List.reverse_cons, List.append_assoc,
      List.singleton_append]
  replace hfirst : a ∉ first.reverse := fun h => hfirst (List.mem_reverse.mp h)
  generalize l₁.reverse = l₁, first.reverse = first at heq hfirst
  have hwithout : b ∉ a :: first := by
    intro hb
    obtain ⟨l₂, l₃, hl₃⟩ := List.append_of_mem ((List.mem_cons.mp hb).resolve_left (Ne.symm hne))
    have hshort : Path edge root (b :: l₃) := by
      rw [heq, hl₃] at hpath
      have hrest : Path edge root ((a :: l₂) ++ b :: l₃) := hpath.suffix
      exact hrest.suffix
    have hmem := (List.mem_cons.mp (hab l₃ hshort)).resolve_left hne
    exact hfirst (hl₃ ▸ List.mem_append_right _ (List.mem_cons_of_mem _ hmem))
  obtain ⟨recent₁, recent₂, rfl⟩ := List.append_of_mem ha
  have hshort : Path edge root (recent₁ ++ a :: first) := by
    have hlong : Path edge root (recent₁ ++ a :: (recent₂ ++ b :: older)) := by
      rwa [hsplit, List.append_assoc] at hpath
    exact hlong.splice (heq ▸ hpath).suffix
  have hlast₁ : b ∉ recent₁ := fun hb => hlast (List.mem_append_left _ hb)
  have hmem : b ∈ recent₁ ++ a :: first := by
    cases recent₁ with
    | nil =>
      obtain ⟨rfl, -⟩ := List.cons.inj hsplit
      exact hbc first hshort
    | cons x recent₁ =>
      obtain ⟨rfl, -⟩ := List.cons.inj hsplit
      exact hbc _ hshort
  exact (List.mem_append.mp hmem).elim hlast₁ hwithout

end Dominates

end Mjc.Dominance

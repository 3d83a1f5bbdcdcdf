import Mathlib.Data.List.Basic
import Mathlib.Logic.Function.Basic

/-!
# Stacks of maps

Nested scopes as partial maps, the innermost first.

* `lookup` : the value in the innermost map that has one;
* `insert`, `enter`, `leave` : the operations;
* `inside d ops` : the operations `ops` close the `d` maps on top and nothing below them (`applyAll_inside`).
-/

namespace Mjc

set_option autoImplicit false

abbrev MapStack (K V : Type) := List (K → Option V)

namespace MapStack

variable {K V : Type}

def lookup (s : MapStack K V) (k : K) : Option V := s.findSome? fun m => m k

theorem lookup_cons (m : K → Option V) (s : MapStack K V) (k : K) :
    lookup (m :: s) k = match m k with
      | some v => some v
      | none => lookup s k := by
  unfold lookup
  rw [List.findSome?_cons]
  cases m k <;> rfl

variable [DecidableEq K]

def enter (s : MapStack K V) : MapStack K V := (fun _ => none) :: s

/-- Insert into the innermost map. -/
def insert : MapStack K V → K → V → MapStack K V
  | [], _, _ => []
  | m :: s, k, v => Function.update m k (some v) :: s

def leave (s : MapStack K V) : MapStack K V := s.tail

inductive Op (K V : Type) where
  | enter
  | insert (k : K) (v : V)
  | leave

def apply (s : MapStack K V) : Op K V → MapStack K V
  | .enter => s.enter
  | .insert k v => s.insert k v
  | .leave => s.leave

def applyAll (s : MapStack K V) (ops : List (Op K V)) : MapStack K V := ops.foldl apply s

/-- The operations leave as many maps as they enter and `d` more, and never more than that before. -/
def inside : Nat → List (Op K V) → Bool
  | d, [] => d = 0
  | d, .enter :: ops => inside (d + 1) ops
  | d, .insert _ _ :: ops => inside d ops
  | 0, .leave :: _ => false
  | d + 1, .leave :: ops => inside d ops

/-- Operations inside a map change nothing below it. -/
theorem applyAll_inside (upper : MapStack K V) (m : K → Option V) (s : MapStack K V) (ops : List (Op K V))
    (h : inside upper.length ops = true) : ∃ m', applyAll (upper ++ m :: s) ops = m' :: s := by
  induction ops generalizing upper m with
  | nil =>
    have hupper : upper = [] := List.length_eq_zero_iff.mp (of_decide_eq_true h)
    exact ⟨m, by rw [hupper]; rfl⟩
  | cons op ops ih =>
    cases op with
    | enter => exact ih ((fun _ => none) :: upper) m h
    | insert k v =>
      cases upper with
      | nil => exact ih [] (Function.update m k (some v)) h
      | cons m₀ upper => exact ih (Function.update m₀ k (some v) :: upper) m h
    | leave =>
      cases upper with
      | nil => exact absurd h Bool.false_ne_true
      | cons m₀ upper => exact ih upper m h

/-- A map that is entered and left again. -/
theorem applyAll_bracket (s : MapStack K V) (ops : List (Op K V)) (h : inside 0 ops = true) :
    applyAll s (.enter :: ops ++ [.leave]) = s := by
  obtain ⟨m, hm⟩ := applyAll_inside [] (fun _ => none) s ops h
  unfold applyAll at hm ⊢
  rw [List.foldl_append, List.foldl_cons]
  show leave (List.foldl apply ((fun _ => none) :: s) ops) = s
  rw [show List.foldl apply ((fun _ => none) :: s) ops = m :: s from hm]
  rfl

end MapStack

end Mjc

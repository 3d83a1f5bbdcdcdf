import Mathlib.Logic.Relation

/-!
# Nested calls

A machine whose steps are plain ones, calls with a label, and returns.

* `Balanced` : a run inside one activation; all calls on the way have returned;
* `Pending` : a run with the labels of the calls that have not returned, last first; `pending_of_steps` : every run is one,
  as long as the first activation has not returned;
* `Rule` : activations that plain steps keep, that calls begin, and that returns lead back to; `Balanced.keeps`,
  `Pending.activation`.
-/

namespace Mjc.Nesting

set_option autoImplicit false

structure Machine (σ ℓ : Type) where
  plain : σ → σ → Prop
  call : ℓ → σ → σ → Prop
  ret : σ → σ → Prop

variable {σ ℓ : Type} (M : Machine σ ℓ)

inductive Step : σ → σ → Prop where
  | plain {c c' : σ} (h : M.plain c c') : Step c c'
  | call {l : ℓ} {c c' : σ} (h : M.call l c c') : Step c c'
  | ret {c c' : σ} (h : M.ret c c') : Step c c'

/-- All steps of a run. -/
abbrev Steps : σ → σ → Prop := Relation.ReflTransGen (Step M)

inductive Balanced : σ → σ → Prop where
  | refl (c : σ) : Balanced c c
  | plain {c c' d : σ} (h : Balanced c c') (hstep : M.plain c' d) : Balanced c d
  | call {l : ℓ} {c c' e e' d : σ} (h : Balanced c c') (hcall : M.call l c' e) (hinner : Balanced e e')
      (hret : M.ret e' d) : Balanced c d

/-- The calls in the list have not returned. -/
inductive Pending (c₀ : σ) : List ℓ → σ → Prop where
  | first {c : σ} (h : Balanced M c₀ c) : Pending c₀ [] c
  | call {l : ℓ} {ls : List ℓ} {c e e' : σ} (h : Pending c₀ ls c) (hcall : M.call l c e) (hinner : Balanced M e e') :
      Pending c₀ (l :: ls) e'

variable {M}

theorem Pending.plain {c₀ c d : σ} {ls : List ℓ} (h : Pending M c₀ ls c) (hstep : M.plain c d) : Pending M c₀ ls d := by
  cases h with
  | first h => exact .first (h.plain hstep)
  | call h hcall hinner => exact .call h hcall (hinner.plain hstep)

theorem Pending.nested {c₀ c e e' d : σ} {l : ℓ} {ls : List ℓ} (h : Pending M c₀ ls c) (hcall : M.call l c e)
    (hinner : Balanced M e e') (hret : M.ret e' d) : Pending M c₀ ls d := by
  cases h with
  | first h => exact .first (h.call hcall hinner hret)
  | call h hcall' hinner' => exact .call h hcall' (hinner'.call hcall hinner hret)

/-- As long as the first activation cannot return, a run has its pending calls. -/
theorem pending_of_steps {c₀ c : σ} (hfirst : ∀ d d', Balanced M c₀ d → ¬ M.ret d d') (h : Steps M c₀ c) :
    ∃ ls, Pending M c₀ ls c := by
  induction h with
  | refl => exact ⟨[], .first (.refl c₀)⟩
  | tail _ hstep ih =>
    obtain ⟨ls, hls⟩ := ih
    cases hstep with
    | plain hstep => exact ⟨ls, hls.plain hstep⟩
    | @call l _ _ hcall => exact ⟨l :: ls, .call hls hcall (.refl _)⟩
    | ret hret =>
      cases hls with
      | first h => exact absurd hret (hfirst _ _ h)
      | call h hcall hinner => exact ⟨_, h.nested hcall hinner hret⟩

/-! ## Activations -/

variable {A : Type}

/-- What holds in an activation: plain steps keep it; a call begins one, from which a return leads back. -/
structure Rule (M : Machine σ ℓ) (At : A → σ → Prop) (chain : A → List ℓ) : Prop where
  plain : ∀ a c c', At a c → M.plain c c' → At a c'
  call : ∀ a l c c', At a c → M.call l c c' →
    ∃ a', chain a' = l :: chain a ∧ At a' c' ∧ ∀ d d', At a' d → M.ret d d' → At a d'

variable {At : A → σ → Prop} {chain : A → List ℓ}

theorem Balanced.keeps (hrule : Rule M At chain) {c c' : σ} (h : Balanced M c c') {a : A} (ha : At a c) : At a c' := by
  induction h generalizing a with
  | refl => exact ha
  | plain _ hstep ih => exact hrule.plain a _ _ (ih ha) hstep
  | call _ hcall _ hret ih ihInner =>
    obtain ⟨a', -, ha', hback⟩ := hrule.call a _ _ _ (ih ha) hcall
    exact hback _ _ (ihInner ha') hret

theorem Pending.activation (hrule : Rule M At chain) {c₀ c : σ} {ls : List ℓ} (h : Pending M c₀ ls c) {a₀ : A}
    (ha₀ : At a₀ c₀) : ∃ a, chain a = ls ++ chain a₀ ∧ At a c := by
  induction h with
  | first h => exact ⟨a₀, rfl, h.keeps hrule ha₀⟩
  | call _ hcall hinner ih =>
    obtain ⟨a, hchain, ha⟩ := ih
    obtain ⟨a', hchain', ha', -⟩ := hrule.call a _ _ _ ha hcall
    exact ⟨a', by rw [hchain', hchain, List.cons_append], hinner.keeps hrule ha'⟩

end Mjc.Nesting

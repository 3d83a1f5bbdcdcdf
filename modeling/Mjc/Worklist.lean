import Mathlib.Algebra.Order.BigOperators.Group.List
import Mathlib.Algebra.Order.Ring.Nat
import Mathlib.Data.List.Induction
import Mathlib.Data.List.Nodup
import Mathlib.Logic.Relation

/-!
# Worklists

A queue whose elements are visited in order; a visit may put further elements at its end.

* `run` : visit until the queue is empty, within some number of visits;
* `run_map`, `run_invariant`, `run_terminates` : a part of the state that decides the visits, the invariant rule, and a
  variant that every visit decreases;
* `closeOver` : the visit that marks an element after its successors went into the queue; `closeOver_reachable` : a
  run of it ends, with exactly the elements marked that can be reached;
* `BreadthFirst` : the order in which elements are met from some roots; `closeOver_breadthFirst`, `BreadthFirst.unique`.
-/

namespace Mjc.Worklist

set_option autoImplicit false

section Run

variable {α σ : Type} (visit : α → σ → σ × List α)

/-- `none`: the queue is not empty after this many visits. -/
def run : Nat → List α → σ → Option σ
  | _, [], s => some s
  | 0, _ :: _, _ => none
  | fuel + 1, x :: queue, s => run fuel (queue ++ (visit x s).2) (visit x s).1

variable {visit}

/-- A part of the state that decides what is enqueued has a run of its own. -/
theorem run_map {τ : Type} {part : σ → τ} {visit' : α → τ → τ × List α}
    (hpart : ∀ x s, visit' x (part s) = (part (visit x s).1, (visit x s).2)) (fuel : Nat) (queue : List α) (s : σ) :
    run visit' fuel queue (part s) = (run visit fuel queue s).map part := by
  induction fuel generalizing queue s with
  | zero => cases queue <;> rfl
  | succ fuel ih =>
    cases queue with
    | nil => rfl
    | cons x queue =>
      show run visit' fuel (queue ++ (visit' x (part s)).2) (visit' x (part s)).1 = _
      rw [hpart]
      exact ih _ _

/-- What every visit keeps holds when the queue is empty. -/
theorem run_invariant {Inv : List α → σ → Prop}
    (hstep : ∀ x queue s, Inv (x :: queue) s → Inv (queue ++ (visit x s).2) (visit x s).1) {fuel : Nat}
    {queue : List α} {s s' : σ} (h : Inv queue s) (hrun : run visit fuel queue s = some s') : Inv [] s' := by
  induction fuel generalizing queue s with
  | zero =>
    cases queue with
    | nil =>
      obtain rfl := Option.some.inj hrun
      exact h
    | cons x queue => cases hrun
  | succ fuel ih =>
    cases queue with
    | nil =>
      obtain rfl := Option.some.inj hrun
      exact h
    | cons x queue => exact ih (hstep x queue s h) hrun

/-- A run ends within as many visits as its variant says, if every visit decreases it. -/
theorem run_terminates {Inv : List α → σ → Prop} {variant : List α → σ → Nat}
    (hstep : ∀ x queue s, Inv (x :: queue) s → Inv (queue ++ (visit x s).2) (visit x s).1)
    (hless : ∀ x queue s, Inv (x :: queue) s → variant (queue ++ (visit x s).2) (visit x s).1 < variant (x :: queue) s)
    {fuel : Nat} {queue : List α} {s : σ} (h : Inv queue s) (hfuel : variant queue s ≤ fuel) :
    ∃ s', run visit fuel queue s = some s' := by
  induction fuel generalizing queue s with
  | zero =>
    cases queue with
    | nil => exact ⟨s, rfl⟩
    | cons x queue => exact absurd (hless x queue s h) (by omega)
  | succ fuel ih =>
    cases queue with
    | nil => exact ⟨s, rfl⟩
    | cons x queue => exact ih (hstep x queue s h) (by have := hless x queue s h; omega)

end Run

/-! ## Closures -/

section Closure

variable {α : Type} [DecidableEq α] (succs : α → List α)

/-- Mark an element, after its successors were put into the queue; nothing if it is marked. -/
def closeOver (x : α) (marked : List α) : List α × List α :=
  if x ∈ marked then (marked, []) else (x :: marked, succs x)

def Reaches (roots : List α) (x : α) : Prop := ∃ r ∈ roots, Relation.ReflTransGen (fun a b => b ∈ succs a) r x

/-- Roots are marked or wait; so do the successors of what is marked; and all of it can be reached. -/
structure Closing (roots queue marked : List α) : Prop where
  rooted : ∀ r ∈ roots, r ∈ marked ∨ r ∈ queue
  closed : ∀ x ∈ marked, ∀ y ∈ succs x, y ∈ marked ∨ y ∈ queue
  reaches : ∀ x, x ∈ marked ∨ x ∈ queue → Reaches succs roots x

variable {succs}

omit [DecidableEq α] in
theorem Reaches.closed {P : α → Prop} {roots : List α} {x : α} (h : Reaches succs roots x)
    (hroots : ∀ r ∈ roots, P r) (hsuccs : ∀ x, P x → ∀ y ∈ succs x, P y) : P x := by
  obtain ⟨r, hr, hpath⟩ := h
  induction hpath with
  | refl => exact hroots r hr
  | tail _ hedge ih => exact hsuccs _ ih _ hedge

omit [DecidableEq α] in
theorem Closing.start (roots : List α) : Closing succs roots roots [] :=
  ⟨fun _ hr => Or.inr hr, List.forall_mem_nil _, fun x hx => ⟨x, hx.resolve_left List.not_mem_nil, .refl⟩⟩

theorem Closing.step {roots queue marked : List α} {x : α} (h : Closing succs roots (x :: queue) marked) :
    Closing succs roots (queue ++ (closeOver succs x marked).2) (closeOver succs x marked).1 := by
  unfold closeOver
  by_cases hx : x ∈ marked
  · rw [if_pos hx]
    have hwaits : ∀ y, y ∈ marked ∨ y ∈ x :: queue → y ∈ marked ∨ y ∈ queue ++ [] := by
      intro y hy
      rw [List.append_nil]
      rcases hy with hy | hy
      · exact Or.inl hy
      · rcases List.mem_cons.mp hy with rfl | hy
        · exact Or.inl hx
        · exact Or.inr hy
    refine ⟨fun r hr => hwaits r (h.rooted r hr), fun y hy z hz => hwaits z (h.closed y hy z hz), fun y hy => ?_⟩
    rw [List.append_nil] at hy
    exact h.reaches y (hy.imp_right (List.mem_cons_of_mem x))
  · rw [if_neg hx]
    have hwaits : ∀ y, y ∈ marked ∨ y ∈ x :: queue → y ∈ x :: marked ∨ y ∈ queue ++ succs x := by
      intro y hy
      rcases hy with hy | hy
      · exact Or.inl (List.mem_cons_of_mem x hy)
      · rcases List.mem_cons.mp hy with rfl | hy
        · exact Or.inl List.mem_cons_self
        · exact Or.inr (List.mem_append_left _ hy)
    refine ⟨fun r hr => hwaits r (h.rooted r hr), ?_, ?_⟩
    · intro y hy z hz
      rcases List.mem_cons.mp hy with rfl | hy
      · exact Or.inr (List.mem_append_right _ hz)
      · exact hwaits z (h.closed y hy z hz)
    · have hreaches : Reaches succs roots x := h.reaches x (Or.inr List.mem_cons_self)
      rintro y (hy | hy)
      · rcases List.mem_cons.mp hy with rfl | hy
        · exact hreaches
        · exact h.reaches y (Or.inl hy)
      · rcases List.mem_append.mp hy with hy | hy
        · exact h.reaches y (Or.inr (List.mem_cons_of_mem x hy))
        · obtain ⟨r, hr, hpath⟩ := hreaches
          exact ⟨r, hr, hpath.tail hy⟩

theorem sum_filter_cons_le (f : α → Nat) {elements marked : List α} {x : α} (hx : x ∈ elements) (hnew : x ∉ marked) :
    ((elements.filter (· ∉ x :: marked)).map f).sum + f x ≤ ((elements.filter (· ∉ marked)).map f).sum := by
  have hle : ∀ l : List α, ((l.filter (· ∉ x :: marked)).map f).sum ≤ ((l.filter (· ∉ marked)).map f).sum := by
    intro l
    have hsub : (l.filter (· ∉ x :: marked)).Sublist (l.filter (· ∉ marked)) := by
      refine List.monotone_filter_right l fun y hy => ?_
      rw [decide_eq_true_eq] at hy ⊢
      exact fun h => hy (List.mem_cons_of_mem x h)
    exact (hsub.map f).sum_le_sum fun _ _ => Nat.zero_le _
  induction elements with
  | nil => cases hx
  | cons y ys ih =>
    by_cases hyx : y = x
    · subst hyx
      rw [List.filter_cons_of_neg (by simp), List.filter_cons_of_pos (by simpa using hnew), List.map_cons, List.sum_cons]
      have := hle ys
      omega
    · have hx := (List.mem_cons.mp hx).resolve_left (Ne.symm hyx)
      by_cases hy : y ∈ marked
      · rw [List.filter_cons_of_neg (by simp [hy]), List.filter_cons_of_neg (by simp [hy])]
        exact ih hx
      · rw [List.filter_cons_of_pos (by simp [hy, hyx]), List.filter_cons_of_pos (by simp [hy]), List.map_cons,
          List.map_cons, List.sum_cons, List.sum_cons]
        have := ih hx
        omega

/-- The visits that are left: one for each element of the queue, and one for each successor of an element that is not
marked. -/
def visitsLeft (succs : α → List α) (elements queue marked : List α) : Nat :=
  queue.length + ((elements.filter (· ∉ marked)).map fun x => (succs x).length + 1).sum

theorem visitsLeft_step {elements queue marked : List α} {x : α} (hx : x ∈ elements) :
    visitsLeft succs elements (queue ++ (closeOver succs x marked).2) (closeOver succs x marked).1 <
      visitsLeft succs elements (x :: queue) marked := by
  unfold visitsLeft closeOver
  by_cases hmarked : x ∈ marked
  · rw [if_pos hmarked, List.append_nil, List.length_cons]
    dsimp only
    omega
  · rw [if_neg hmarked, List.length_append, List.length_cons]
    dsimp only
    have := sum_filter_cons_le (fun x => (succs x).length + 1) hx hmarked
    omega

/-- A closure inside a finite set of elements ends, with what the roots reach. -/
theorem closeOver_reachable {elements roots : List α} (hroots : ∀ r ∈ roots, r ∈ elements)
    (hsuccs : ∀ x ∈ elements, ∀ y ∈ succs x, y ∈ elements) {fuel : Nat}
    (hfuel : visitsLeft succs elements roots [] ≤ fuel) :
    ∃ marked, run (closeOver succs) fuel roots [] = some marked ∧ ∀ x, x ∈ marked ↔ Reaches succs roots x := by
  have hinside : ∀ {x}, Reaches succs roots x → x ∈ elements := fun h => h.closed hroots hsuccs
  have hstart : Closing succs roots roots [] := Closing.start roots
  obtain ⟨marked, hrun⟩ := run_terminates (fun _ _ _ h => Closing.step h)
    (fun x _ _ h => visitsLeft_step (hinside (h.reaches x (Or.inr List.mem_cons_self)))) hstart hfuel
  have hend : Closing succs roots [] marked := run_invariant (fun _ _ _ h => Closing.step h) hstart hrun
  refine ⟨marked, hrun, fun x => ⟨fun hx => hend.reaches x (Or.inl hx), fun h => h.closed ?_ ?_⟩⟩
  · exact fun r hr => (hend.rooted r hr).resolve_right List.not_mem_nil
  · exact fun y hy z hz => (hend.closed y hy z hz).resolve_right List.not_mem_nil

/-! ## The order of a closure -/

theorem eraseDups_concat (l : List α) (x : α) :
    (l ++ [x]).eraseDups = if x ∈ l then l.eraseDups else l.eraseDups ++ [x] := by
  rw [List.eraseDups_append]
  by_cases hx : x ∈ l
  · rw [if_pos hx, show [x].removeAll l = [] by simp [List.removeAll, hx], List.eraseDups_nil, List.append_nil]
  · rw [if_neg hx, show [x].removeAll l = [x] by simp [List.removeAll, hx]]
    rfl

theorem nodup_eraseDups (l : List α) : l.eraseDups.Nodup := by
  induction l using List.reverseRecOn with
  | nil => exact List.nodup_nil
  | append_singleton l x ih =>
    rw [eraseDups_concat]
    split
    · exact ih
    · rename_i hx
      rw [← List.concat_eq_append]
      exact ih.concat fun h => hx (List.mem_eraseDups.mp h)

variable (succs) in
/-- Everything that is reached, in the order in which it is met: the roots first, then the successors of each element in
turn. -/
structure BreadthFirst (roots order : List α) : Prop where
  firsts : order = (roots ++ order.flatMap succs).eraseDups
  reaches : ∀ x ∈ order, Reaches succs roots x

variable (succs) in
/-- What was put into the queue has been taken from it or is still there; what was taken first is marked in this
order. -/
def TakenFirst (roots queue marked : List α) : Prop :=
  ∃ taken, roots ++ marked.reverse.flatMap succs = taken ++ queue ∧ taken.eraseDups = marked.reverse

theorem TakenFirst.step {roots queue marked : List α} {x : α} (h : TakenFirst succs roots (x :: queue) marked) :
    TakenFirst succs roots (queue ++ (closeOver succs x marked).2) (closeOver succs x marked).1 := by
  obtain ⟨taken, hall, htaken⟩ := h
  have hmem : x ∈ taken ↔ x ∈ marked := by rw [← List.mem_eraseDups, htaken, List.mem_reverse]
  unfold closeOver
  by_cases hx : x ∈ marked
  · rw [if_pos hx]
    refine ⟨taken ++ [x], ?_, ?_⟩
    · rw [List.append_nil, hall, List.append_assoc, List.singleton_append]
    · rw [eraseDups_concat, if_pos (hmem.mpr hx), htaken]
  · rw [if_neg hx]
    refine ⟨taken ++ [x], ?_, ?_⟩
    · rw [List.reverse_cons, List.flatMap_append, List.flatMap_singleton, ← List.append_assoc, hall]
      simp only [List.append_assoc, List.nil_append, List.cons_append]
    · rw [eraseDups_concat, if_neg (mt hmem.mp hx), htaken, List.reverse_cons]

theorem closeOver_breadthFirst {roots marked : List α} {fuel : Nat}
    (hrun : run (closeOver succs) fuel roots [] = some marked) : BreadthFirst succs roots marked.reverse := by
  have hend : Closing succs roots [] marked := run_invariant (fun _ _ _ h => h.step) (Closing.start roots) hrun
  have hstart : TakenFirst succs roots roots [] := ⟨[], List.append_nil roots, rfl⟩
  obtain ⟨taken, hall, htaken⟩ := run_invariant (fun _ _ _ h => TakenFirst.step h) hstart hrun
  refine ⟨?_, fun x hx => hend.reaches x (Or.inl (List.mem_reverse.mp hx))⟩
  rw [hall, List.append_nil, htaken]

namespace BreadthFirst

variable {roots order order' : List α}

theorem nodup (h : BreadthFirst succs roots order) : order.Nodup := h.firsts ▸ nodup_eraseDups _

theorem mem_iff (h : BreadthFirst succs roots order) (x : α) : x ∈ order ↔ Reaches succs roots x := by
  have hmem : ∀ y, y ∈ roots ++ order.flatMap succs → y ∈ order := by
    intro y hy
    rw [h.firsts]
    exact List.mem_eraseDups.mpr hy
  refine ⟨h.reaches x, fun hx => hx.closed ?_ ?_⟩
  · exact fun r hr => hmem r (List.mem_append_left _ hr)
  · exact fun y hy z hz => hmem z (List.mem_append_right _ (List.mem_flatMap.mpr ⟨y, hy, hz⟩))

theorem head_eq {root : α} (h : BreadthFirst succs [root] order) : order.head? = some root := by
  rw [h.firsts, List.singleton_append, List.eraseDups_cons]
  rfl

/-- An element is met as a root or as a successor of an element before it. -/
theorem take_succ (h : BreadthFirst succs roots order) {n : Nat} (hn : n < order.length) :
    order.take (n + 1) = ((roots ++ (order.take n).flatMap succs).eraseDups).take (n + 1) := by
  have hsplit : roots ++ order.flatMap succs =
      (roots ++ (order.take n).flatMap succs) ++ (order.drop n).flatMap succs := by
    rw [List.append_assoc, ← List.flatMap_append, List.take_append_drop]
  have horder := h.firsts
  rw [hsplit, List.eraseDups_append] at horder
  generalize hmet : (roots ++ (order.take n).flatMap succs).eraseDups = met at horder ⊢
  have hlong : n + 1 ≤ met.length := by
    by_contra hshort
    -- else the first `n` elements are closed, and nothing else is reached
    have hmem : ∀ x ∈ roots ++ (order.take n).flatMap succs, x ∈ order.take n := by
      intro x hx
      have htake : met = (order.take n).take met.length := by
        rw [List.take_take, Nat.min_eq_left (by omega), horder, List.take_left]
      rw [← List.mem_eraseDups, hmet, htake] at hx
      exact List.mem_of_mem_take hx
    have hreach : order.get ⟨n, hn⟩ ∈ order.take n := by
      refine (h.reaches _ (List.get_mem order ⟨n, hn⟩)).closed ?_ ?_
      · exact fun r hr => hmem r (List.mem_append_left _ hr)
      · exact fun y hy z hz => hmem z (List.mem_append_right _ (List.mem_flatMap.mpr ⟨y, hy, hz⟩))
    obtain ⟨i, hi, heq⟩ := List.mem_take_iff_getElem.mp hreach
    have := (List.Nodup.getElem_inj_iff h.nodup).mp heq
    omega
  rw [horder, List.take_append_of_le_length hlong]

/-- There is no other such order. -/
theorem unique (h : BreadthFirst succs roots order) (h' : BreadthFirst succs roots order') : order = order' := by
  have hlength : order.length = order'.length :=
    ((List.perm_ext_iff_of_nodup h.nodup h'.nodup).mpr fun x => (h.mem_iff x).trans (h'.mem_iff x).symm).length_eq
  have htake : ∀ n ≤ order.length, order.take n = order'.take n := by
    intro n hn
    induction n with
    | zero => rfl
    | succ n ih => rw [h.take_succ (by omega), h'.take_succ (by omega), ih (by omega)]
  rw [← List.take_length (l := order), htake _ (Nat.le_refl _), hlength, List.take_length]

end BreadthFirst

end Closure

end Mjc.Worklist

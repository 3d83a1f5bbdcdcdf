import Mathlib.Algebra.Order.Ring.Int
import Mathlib.Data.List.Basic

/-!
# Precedence climbing

Operands joined by binary operators, and the trees of a grammar with one layer for each precedence.

* `Table` : precedences, and which operators group to the right; all operators of one precedence group to one side;
* `OpTree`, `first`, `items` : trees over operands and operators, and their in-order traversal;
* `Layered k t` : `t` is a tree of layer `k`;
* `Climb p t xs t' ys` : precedence climbing, with `t` as the operand read so far and `xs` as what is still to be read;
* `Climb.layered`, `Layered.climb` : climbing builds the layered trees, and each of them; `layered_unique`.
-/

namespace Mjc.Climbing

set_option autoImplicit false

/-- The precedences of operators, and the operators that group to the right. -/
structure Table (O : Type) where
  prec : O → Int
  right : O → Bool
  uniform : ∀ a b, prec a = prec b → right a = right b

/-- A tree over operands and binary operators. -/
inductive OpTree (O U : Type) where
  | leaf (u : U)
  | node (op : O) (l r : OpTree O U)

variable {O U : Type}

namespace OpTree

/-- The leftmost operand. -/
def first : OpTree O U → U
  | leaf u => u
  | node _ l _ => l.first

/-- The operators from left to right, each with the operand behind it. -/
def items : OpTree O U → List (O × U)
  | leaf _ => []
  | node op l r => l.items ++ (op, r.first) :: r.items

@[simp] theorem first_leaf (u : U) : (leaf u : OpTree O U).first = u := rfl

@[simp] theorem first_node (op : O) (l r : OpTree O U) : (node op l r).first = l.first := rfl

@[simp] theorem items_leaf (u : U) : (leaf u : OpTree O U).items = [] := rfl

@[simp] theorem items_node (op : O) (l r : OpTree O U) : (node op l r).items = l.items ++ (op, r.first) :: r.items := rfl

end OpTree

open OpTree

namespace Table
variable (T : Table O)

/-- The loosest layer of a left operand. -/
def leftLayer (op : O) : Int := if T.right op then T.prec op + 1 else T.prec op

/-- The loosest layer of a right operand. -/
def rightLayer (op : O) : Int := if T.right op then T.prec op else T.prec op + 1

theorem prec_le_leftLayer (op : O) : T.prec op ≤ T.leftLayer op := by
  unfold leftLayer
  split <;> omega

theorem prec_le_rightLayer (op : O) : T.prec op ≤ T.rightLayer op := by
  unfold rightLayer
  split <;> omega

/-- An operator goes to the right operand of another one, or takes it as its left operand. -/
theorem lt_rightLayer_iff (op op' : O) : T.prec op < T.rightLayer op' ↔ T.leftLayer op ≤ T.prec op' := by
  unfold leftLayer rightLayer
  by_cases heq : T.prec op = T.prec op'
  · rw [T.uniform op op' heq]
    split <;> omega
  · split <;> split <;> omega

end Table

variable (T : Table O)

/-! ## Layers -/

/-- The trees of a layer: the operators have at least its precedence. -/
inductive Layered : Int → OpTree O U → Prop where
  | leaf (k : Int) (u : U) : Layered k (leaf u)
  | node {k : Int} {op : O} {l r : OpTree O U} (prec : k ≤ T.prec op) (left : Layered (T.leftLayer op) l)
      (right : Layered (T.rightLayer op) r) : Layered k (node op l r)

variable {T}

theorem Layered.mono {j k : Int} {t : OpTree O U} (h : Layered T k t) (hjk : j ≤ k) : Layered T j t := by
  cases h with
  | leaf => exact .leaf j _
  | node prec left right => exact .node (hjk.trans prec) left right

theorem Layered.prec_le {k : Int} {t : OpTree O U} (h : Layered T k t) : ∀ x ∈ t.items, k ≤ T.prec x.1 := by
  induction h with
  | leaf => exact List.forall_mem_nil _
  | @node k op l r prec _ _ ihl ihr =>
    intro x hx
    rcases List.mem_append.mp hx with hx | hx
    · exact (prec.trans (T.prec_le_leftLayer op)).trans (ihl x hx)
    · rcases List.mem_cons.mp hx with rfl | hx
      · exact prec
      · exact (prec.trans (T.prec_le_rightLayer op)).trans (ihr x hx)

/-! ## Climbing -/

/-- The next operator, if there is one, is looser than `p`. -/
def Below (T : Table O) (p : Int) (xs : List (O × U)) : Prop := ∀ x ∈ xs.head?, T.prec x.1 < p

theorem below_nil (p : Int) : Below T p ([] : List (O × U)) := fun _ h => by cases h

theorem below_cons {p : Int} {x : O × U} {xs : List (O × U)} : Below T p (x :: xs) ↔ T.prec x.1 < p := by
  constructor
  · intro h
    exact h x rfl
  · intro h y hy
    obtain rfl : x = y := Option.some.inj hy
    exact h

theorem Below.mono {p q : Int} {xs : List (O × U)} (h : Below T p xs) (hpq : p ≤ q) : Below T q xs :=
  fun x hx => (h x hx).trans_le hpq

variable (T)

/-- Read operators of precedence `p` at least, with their operands. -/
inductive Climb : Int → OpTree O U → List (O × U) → OpTree O U → List (O × U) → Prop where
  | stop {p : Int} {t : OpTree O U} {xs : List (O × U)} (below : Below T p xs) : Climb p t xs t xs
  | step {p : Int} {op : O} {u : U} {t t' r : OpTree O U} {xs ys zs : List (O × U)} (prec : p ≤ T.prec op)
      (operand : Climb (T.rightLayer op) (leaf u) xs r ys) (loop : Climb p (node op t r) ys t' zs) :
      Climb p t ((op, u) :: xs) t' zs

variable {T}
variable {p : Int} {t t' t'' : OpTree O U} {xs ys zs : List (O × U)}

/-- What is read is what the tree gets. -/
theorem Climb.inorder (h : Climb T p t xs t' ys) : t'.first = t.first ∧ t.items ++ xs = t'.items ++ ys := by
  induction h with
  | stop => exact ⟨rfl, rfl⟩
  | @step p op u t t' r xs ys zs _ _ _ ihr ih =>
    obtain ⟨hrf, hri⟩ := ihr
    obtain ⟨hf, hi⟩ := ih
    refine ⟨hf, ?_⟩
    rw [← hi, items_node, hrf, first_leaf, List.append_assoc, List.cons_append, ← hri]
    rfl

theorem Climb.stops (h : Climb T p t xs t' ys) : Below T p ys := by
  induction h with
  | stop below => exact below
  | step _ _ _ _ ih => exact ih

theorem Climb.length_le (h : Climb T p t xs t' ys) : ys.length ≤ xs.length := by
  induction h with
  | stop => exact le_rfl
  | step _ _ _ ihr ih => exact (ih.trans ihr).trans (Nat.le_succ _)

theorem climb_total (p : Int) (t : OpTree O U) (xs : List (O × U)) : ∃ t' ys, Climb T p t xs t' ys := by
  induction hn : xs.length using Nat.strongRecOn generalizing p t xs with
  | ind n ih =>
    cases xs with
    | nil => exact ⟨t, [], .stop (below_nil p)⟩
    | cons x xs =>
      obtain ⟨op, u⟩ := x
      by_cases hp : p ≤ T.prec op
      · rw [List.length_cons] at hn
        obtain ⟨r, ys, hr⟩ := ih xs.length (by omega) (T.rightLayer op) (leaf u) xs rfl
        have hle := hr.length_le
        obtain ⟨t', zs, ht⟩ := ih ys.length (by omega) p (node op t r) ys rfl
        exact ⟨t', zs, .step hp hr ht⟩
      · exact ⟨t, _, .stop (below_cons.mpr (lt_of_not_ge hp))⟩

theorem Climb.unique (h : Climb T p t xs t' ys) (h' : Climb T p t xs t'' zs) : t' = t'' ∧ ys = zs := by
  induction h generalizing t'' zs with
  | stop below =>
    cases h' with
    | stop => exact ⟨rfl, rfl⟩
    | step prec _ _ => exact absurd prec (not_le_of_gt (below_cons.mp below))
  | step prec _ _ ihr ih =>
    cases h' with
    | stop below => exact absurd prec (not_le_of_gt (below_cons.mp below))
    | step _ hr ht =>
      obtain ⟨rfl, rfl⟩ := ihr hr
      exact ih ht

/-- The next operator does not belong to the right operand of the tree. -/
def Fits (T : Table O) : OpTree O U → List (O × U) → Prop
  | leaf _, _ => True
  | node op _ _, xs => Below T (T.rightLayer op) xs

theorem Fits.layered {op : O} {u : U} (h : Fits T t ((op, u) :: xs)) (ht : Layered T p t) : Layered T (T.leftLayer op) t := by
  cases ht with
  | leaf => exact .leaf _ _
  | @node _ op' l r _ left right => exact .node ((T.lt_rightLayer_iff op op').mp (below_cons.mp h)) left right

theorem Layered.fits {op : O} {u : U} (h : Layered T (T.leftLayer op) t) : Fits T t ((op, u) :: xs) := by
  cases h with
  | leaf => exact trivial
  | @node _ op' l r prec _ _ => exact below_cons.mpr ((T.lt_rightLayer_iff op op').mpr prec)

theorem Layered.fits_below (h : Layered T p t) (hxs : Below T p xs) : Fits T t xs := by
  cases h with
  | leaf => exact trivial
  | @node _ op l r prec _ _ => exact hxs.mono (prec.trans (T.prec_le_rightLayer op))

/-- Climbing builds trees of its layer. -/
theorem Climb.layered (h : Climb T p t xs t' ys) (ht : Layered T p t) (hfits : Fits T t xs) : Layered T p t' := by
  induction h with
  | stop => exact ht
  | step prec operand _ ihr ih =>
    have hright := ihr (.leaf _ _) trivial
    exact ih (.node prec (hfits.layered ht) hright) operand.stops

/-- Climbing builds every tree of its layer. -/
theorem Layered.climb {k : Int} (h : Layered T k t) (hk : p ≤ k) (hfits : Fits T t xs) (hrest : Climb T p t xs t' ys) :
    Climb T p (.leaf t.first) (t.items ++ xs) t' ys := by
  induction h generalizing p xs t' ys with
  | leaf => exact hrest
  | @node k op l r prec left right ihl ihr =>
    have hoperand : Climb T (T.rightLayer op) (.leaf r.first) (r.items ++ xs) r xs :=
      ihr le_rfl (right.fits_below hfits) (.stop hfits)
    have hp : p ≤ T.prec op := hk.trans prec
    rw [items_node, List.append_assoc, List.cons_append]
    exact ihl (hp.trans (T.prec_le_leftLayer op)) left.fits (.step hp hoperand hrest)

/-- A tree of a layer is determined by its in-order traversal. -/
theorem layered_unique (h : Layered T p t) (h' : Layered T p t') (hfirst : t.first = t'.first) (hitems : t.items = t'.items) :
    t = t' := by
  have hclimb : ∀ {t : OpTree O U}, Layered T p t → Climb T p (leaf t.first) t.items t [] := by
    intro t h
    have hc := h.climb le_rfl (h.fits_below (below_nil p)) (.stop (below_nil p))
    rwa [List.append_nil] at hc
  have hc := hclimb h
  rw [hfirst, hitems] at hc
  exact (hc.unique (hclimb h')).1

end Mjc.Climbing

import Mathlib.Tactic.Ring
import Mjc.Firm.Sequence

/-!
# Carries out of 32 bits

A node of 32 bits that is computed with operations of 64 bits may be a multiple of 2^32 away from its value. The
multiple follows from the values alone: a sum that does not fit 32 bits carries once more than its operands do, a
negative `int` that is loaded without its sign carries once.

* `carryNode`, `carries` : the carry of every node. That of a negation is a parameter: it comes from the memory that the
  negation does not write;
* `word_add`, `word_sub`, `word_mul`, `word_load`, `word_minus` : the words of 64 bits with these carries.
-/

namespace Mjc.Firm

set_option autoImplicit false

/-- The signed value at a position. -/
def valueAt (vals : List Word) (x : Nat) : Int := (at_ vals x).toInt

/-- The carry at a position. -/
def carryAt (cs : List Int) (x : Nat) : Int := cs.getD x 0

/-- The carry of node `i`, from those before it; `g i` is the carry of a negation. -/
def carryNode (nodes : List Node) (vals : List Word) (g : Nat → Int) (i : Nat) (cs : List Int) : Node → Int
  | .add _ l r => carryAt cs l + carryAt cs r + (valueAt vals l + valueAt vals r).bdiv (2 ^ 32)
  | .sub _ l r => carryAt cs l - carryAt cs r + (valueAt vals l - valueAt vals r).bdiv (2 ^ 32)
  | .mul _ l r =>
    carryAt cs l * valueAt vals r + carryAt cs r * valueAt vals l + (valueAt vals l * valueAt vals r).bdiv (2 ^ 32)
  | .minus _ _ => g i
  | .conv _ x => (if modeAt nodes x = some .Is then carryAt cs x else 0) + (valueAt vals x).bdiv (2 ^ 32)
  | .load _ _ => if valueAt vals i < 0 then 1 else 0
  | .const _ _ | .div _ _ | .mod _ _ | .store _ _ _ => 0

def carriesFrom (nodes : List Node) (vals : List Word) (g : Nat → Int) (cs : List Int) : List Node → List Int
  | [] => cs
  | n :: ns => carriesFrom nodes vals g (cs ++ [carryNode nodes vals g cs.length cs n]) ns

/-- The carries of a sequence with these values. -/
def carries (nodes : List Node) (vals : List Word) (g : Nat → Int) : List Int := carriesFrom nodes vals g [] nodes

theorem carryAt_append_left {cs ds : List Int} {x : Nat} (h : x < cs.length) : carryAt (cs ++ ds) x = carryAt cs x := by
  simp only [carryAt, List.getD_eq_getElem?_getD, List.getElem?_append_left h]

theorem carryAt_append_self {cs : List Int} {c : Int} {i : Nat} (h : cs.length = i) : carryAt (cs ++ [c]) i = c := by
  subst h
  simp [carryAt]

theorem carriesFrom_append_left (nodes : List Node) (vals : List Word) (g : Nat → Int) (ns : List Node) (cs : List Int) :
    ∃ ds, carriesFrom nodes vals g cs ns = cs ++ ds := by
  induction ns generalizing cs with
  | nil => exact ⟨[], by simp [carriesFrom]⟩
  | cons n ns ih =>
    obtain ⟨ds, h⟩ := ih (cs ++ [carryNode nodes vals g cs.length cs n])
    exact ⟨_, h.trans (List.append_assoc _ _ _)⟩

/-! ## Words with a carry -/

/-- The word of a value with a carry. -/
def carried (v : Word) (c : Int) : Word := BitVec.ofInt 64 (v.toInt + 2 ^ 32 * c)

section
variable {v w : Word} {c d : Int}

theorem carried_zero (v : Word) : carried v 0 = v := by
  rw [carried, Int.mul_zero, Int.add_zero, BitVec.ofInt_toInt]

theorem ofInt_eq_iff {a b : Int} : (BitVec.ofInt 64 a : Word) = BitVec.ofInt 64 b ↔ 2 ^ 64 ∣ a - b := by
  rw [← BitVec.toInt_inj, BitVec.toInt_ofInt, BitVec.toInt_ofInt, Int.bmod_eq_bmod_iff_bmod_sub_eq_zero]
  exact Int.dvd_iff_bmod_eq_zero.symm

theorem carried_eq_iff : carried v c = carried v d ↔ 2 ^ 32 ∣ c - d := by
  unfold carried
  rw [ofInt_eq_iff]
  omega

theorem carried_eq_self_iff : carried v c = v ↔ 2 ^ 32 ∣ c := by
  nth_rewrite 2 [← carried_zero v]
  rw [carried_eq_iff, Int.sub_zero]

/-- The signed low half of a word. -/
theorem toInt_low (a : Int) : (wrap .Is (BitVec.ofInt 64 a)).toInt = a.bmod (2 ^ 32) := by
  have hlow : (BitVec.ofInt 64 a).setWidth 32 = BitVec.ofInt 32 a := by
    rw [← BitVec.signExtend_eq_setWidth_of_le _ (by decide)]
    apply BitVec.eq_of_toInt_eq
    rw [BitVec.toInt_signExtend, BitVec.toInt_ofInt, BitVec.toInt_ofInt]
    exact Int.bmod_bmod_of_dvd (by decide)
  show (((BitVec.ofInt 64 a).setWidth 32).signExtend 64).toInt = _
  rw [hlow, BitVec.toInt_signExtend_of_le (by decide), BitVec.toInt_ofInt]

/-- A result that is computed exactly, from operands with carries. -/
theorem word_of_exact {x a : Int} (hx : x = a + 2 ^ 32 * c) :
    (BitVec.ofInt 64 x : Word) = carried (wrap .Is (BitVec.ofInt 64 a)) (c + a.bdiv (2 ^ 32)) := by
  have hdiv := Int.bmod_add_bdiv a (2 ^ 32)
  unfold carried
  rw [toInt_low, ofInt_eq_iff, hx]
  omega

theorem word_add (v w : Word) (c d : Int) :
    carried v c + carried w d = carried (wrap .Is (v + w)) (c + d + (v.toInt + w.toInt).bdiv (2 ^ 32)) := by
  have hsum : v + w = BitVec.ofInt 64 (v.toInt + w.toInt) := by
    rw [BitVec.ofInt_add, BitVec.ofInt_toInt, BitVec.ofInt_toInt]
  rw [carried, carried, ← BitVec.ofInt_add, hsum]
  exact word_of_exact (by omega)

theorem word_sub (v w : Word) (c d : Int) :
    carried v c - carried w d = carried (wrap .Is (v - w)) (c - d + (v.toInt - w.toInt).bdiv (2 ^ 32)) := by
  have hsub : ∀ a b : Int, (BitVec.ofInt 64 a - BitVec.ofInt 64 b : Word) = BitVec.ofInt 64 (a - b) := by
    intro a b
    rw [Int.sub_eq_add_neg, BitVec.ofInt_add, BitVec.ofInt_neg, BitVec.sub_eq_add_neg]
  have hdiff : v - w = BitVec.ofInt 64 (v.toInt - w.toInt) := by
    rw [← hsub, BitVec.ofInt_toInt, BitVec.ofInt_toInt]
  rw [carried, carried, hsub, hdiff]
  exact word_of_exact (by omega)

theorem word_mul (v w : Word) (c d : Int) : carried v c * carried w d =
    carried (wrap .Is (v * w)) (c * w.toInt + d * v.toInt + (v.toInt * w.toInt).bdiv (2 ^ 32)) := by
  have hprod : v * w = BitVec.ofInt 64 (v.toInt * w.toInt) := by
    rw [BitVec.ofInt_mul, BitVec.ofInt_toInt, BitVec.ofInt_toInt]
  have hexpand : (v.toInt + 2 ^ 32 * c) * (w.toInt + 2 ^ 32 * d) =
      v.toInt * w.toInt + 2 ^ 32 * (c * w.toInt + d * v.toInt) + 2 ^ 64 * (c * d) := by ring
  have hdrop : (BitVec.ofInt 64 ((v.toInt + 2 ^ 32 * c) * (w.toInt + 2 ^ 32 * d)) : Word) =
      BitVec.ofInt 64 (v.toInt * w.toInt + 2 ^ 32 * (c * w.toInt + d * v.toInt)) := by
    rw [ofInt_eq_iff, hexpand]
    omega
  rw [carried, carried, ← BitVec.ofInt_mul, hdrop, hprod]
  exact word_of_exact rfl

/-- The low half of a value. -/
theorem word_conv (v : Word) (c : Int) : carried v c = carried (wrap .Is v) (c + v.toInt.bdiv (2 ^ 32)) := by
  have h := word_of_exact (x := v.toInt + 2 ^ 32 * c) (a := v.toInt) rfl
  rwa [BitVec.ofInt_toInt] at h

/-- An `int` that is loaded without its sign. -/
theorem word_load {k : Nat} (hk : k < 2 ^ 32) : (BitVec.ofNat 64 k : Word) = carried (wrap .Is (BitVec.ofNat 64 k))
    (if (wrap .Is (BitVec.ofNat 64 k)).toInt < 0 then 1 else 0) := by
  have hnat : (BitVec.ofNat 64 k : Word) = BitVec.ofInt 64 (k : Int) := (BitVec.ofInt_natCast 64 k).symm
  have hval : (wrap .Is (BitVec.ofNat 64 k)).toInt = if k < 2 ^ 31 then (k : Int) else k - 2 ^ 32 := by
    rw [hnat, toInt_low, Int.bmod]
    split <;> split <;> omega
  rw [carried, hval, hnat, ofInt_eq_iff]
  split <;> split <;> omega

/-- A negation of 32 bits below the upper half of another word. -/
theorem word_minus {u v old : Word} (h : u.setWidth 32 = v.setWidth 32) : merge 4 u old =
    carried (wrap .Is v) ((old.toNat / 2 ^ 32 : Nat) + if (wrap .Is v).toInt < 0 then 1 else 0) := by
  have hlow : wrap .Is v = wrap .Is (BitVec.ofNat 64 (u.toNat % 2 ^ 32)) := by
    have hcut : (BitVec.ofNat 64 (u.toNat % 2 ^ 32) : Word).setWidth 32 = u.setWidth 32 := by
      apply BitVec.eq_of_toNat_eq
      simp
    rw [wrap, wrap, hcut, h]
  have hload := @word_load (u.toNat % 2 ^ 32) (Nat.mod_lt _ (by decide))
  have hmerge : merge 4 u old = BitVec.ofInt 64 ((u.toNat % 2 ^ 32 : Nat) + 2 ^ 32 * (old.toNat / 2 ^ 32 : Nat)) := by
    rw [merge, ← BitVec.ofInt_natCast]
    congr 1
  rw [← hlow, carried, ← BitVec.ofInt_natCast, ofInt_eq_iff] at hload
  rw [hmerge, carried, ofInt_eq_iff]
  omega

end

end Mjc.Firm

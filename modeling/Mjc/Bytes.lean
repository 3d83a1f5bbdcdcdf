import Mathlib.Data.Nat.ModEq
import Mathlib.Logic.Function.Basic

/-!
# Byte memories

A memory is a function from addresses to bytes; a word of `n` bytes at `a` is little-endian, its byte `i`
is at `shift a i`.

* `Addr A` : addresses that can be shifted, up to eight bytes without meeting;
* `read m a n`, `write m a n v` : a word of `n` bytes;
* `read_write_self`, `read_write_low`, `read_write_high` : reading back what was written, less of it, or more;
* `Apart a n b k` : the two words share no byte; `read_write_apart`;
* `write_outside`, `read_eq_of_range` : words at 64-bit addresses that do not wrap around;
* `read_comp`, `write_comp` : a memory that is a part of another one.
-/

namespace Mjc.Bytes

set_option autoImplicit false

/-- Addresses whose first eight shifts are pairwise distinct. -/
class Addr (A : Type) where
  shift : A → Nat → A
  shift_inj : ∀ (a : A) {i j : Nat}, i < 8 → j < 8 → shift a i = shift a j → i = j

open Addr (shift shift_inj)

theorem add_ofNat_inj (a : BitVec 64) {i j : Nat} (hi : i < 8) (hj : j < 8)
    (h : a + BitVec.ofNat 64 i = a + BitVec.ofNat 64 j) : i = j := by
  have : BitVec.ofNat 64 i = BitVec.ofNat 64 j := by simpa using h
  have h' := congrArg BitVec.toNat this
  simp only [BitVec.toNat_ofNat] at h'
  omega

instance : Addr (BitVec 64) where
  shift a i := a + BitVec.ofNat 64 i
  shift_inj := add_ofNat_inj

variable {A : Type} [Addr A]

/-- The word of `n` bytes at `a`. -/
def read (m : A → BitVec 8) (a : A) : Nat → Nat
  | 0 => 0
  | n + 1 => read m a n + 256 ^ n * (m (shift a n)).toNat

theorem read_succ (m : A → BitVec 8) (a : A) (n : Nat) :
    read m a (n + 1) = read m a n + 256 ^ n * (m (shift a n)).toNat := rfl

/-- The two words share no byte. -/
def Apart (a : A) (n : Nat) (b : A) (k : Nat) : Prop := ∀ i < n, ∀ j < k, shift a i ≠ shift b j

theorem Apart.symm {a b : A} {n k : Nat} (h : Apart a n b k) : Apart b k a n :=
  fun i hi j hj he => h j hj i hi he.symm

theorem Apart.mono {a b : A} {n n' k k' : Nat} (h : Apart a n b k) (hn : n' ≤ n) (hk : k' ≤ k) :
    Apart a n' b k' :=
  fun i hi j hj => h i (Nat.lt_of_lt_of_le hi hn) j (Nat.lt_of_lt_of_le hj hk)

theorem read_lt (m : A → BitVec 8) (a : A) (n : Nat) : read m a n < 256 ^ n := by
  induction n with
  | zero => simp [read]
  | succ n ih =>
    have hbyte : (m (shift a n)).toNat ≤ 255 := by
      have := (m (shift a n)).isLt
      omega
    calc read m a (n + 1) = read m a n + 256 ^ n * (m (shift a n)).toNat := rfl
      _ ≤ read m a n + 256 ^ n * 255 := Nat.add_le_add_left (Nat.mul_le_mul_left _ hbyte) _
      _ < 256 ^ (n + 1) := by rw [pow_succ]; omega

/-- The low bytes of a word. -/
theorem read_mod (m : A → BitVec 8) (a : A) {k n : Nat} (h : k ≤ n) : read m a n % 256 ^ k = read m a k := by
  induction n with
  | zero =>
    obtain rfl : k = 0 := by omega
    simp [read]
  | succ n ih =>
    by_cases hk : k = n + 1
    · subst hk
      exact Nat.mod_eq_of_lt (read_lt m a _)
    · have hkn : k ≤ n := by omega
      obtain ⟨d, rfl⟩ := Nat.exists_eq_add_of_le hkn
      rw [read_succ, pow_add, Nat.mul_assoc, Nat.add_mul_mod_self_left]
      exact ih hkn

/-- Reading depends on the bytes of the word only. -/
theorem read_congr {m m' : A → BitVec 8} {a : A} {n : Nat} (h : ∀ i < n, m (shift a i) = m' (shift a i)) :
    read m a n = read m' a n := by
  induction n with
  | zero => rfl
  | succ n ih =>
    rw [read_succ, read_succ, ih fun i hi => h i (by omega), h n (by omega)]

/-! ## Reading after writing -/

variable [DecidableEq A]

/-- Write the low `n` bytes of `v` at `a`. -/
def write (m : A → BitVec 8) (a : A) : Nat → Nat → A → BitVec 8
  | 0, _ => m
  | n + 1, v => Function.update (write m a n v) (shift a n) (BitVec.ofNat 8 (v / 256 ^ n))

theorem write_shift {m : A → BitVec 8} {a : A} {n i : Nat} (v : Nat) (hn : n ≤ 8) (hi : i < n) :
    write m a n v (shift a i) = BitVec.ofNat 8 (v / 256 ^ i) := by
  induction n with
  | zero => omega
  | succ n ih =>
    unfold write
    by_cases h : i = n
    · subst h
      rw [Function.update_self]
    · have hne : shift a i ≠ shift a n := fun he => h (shift_inj a (by omega) (by omega) he)
      rw [Function.update_of_ne hne]
      exact ih (by omega) (by omega)

theorem write_of_ne {m : A → BitVec 8} {a b : A} {n : Nat} (v : Nat) (h : ∀ i < n, b ≠ shift a i) :
    write m a n v b = m b := by
  induction n with
  | zero => rfl
  | succ n ih =>
    unfold write
    rw [Function.update_of_ne (h n (by omega))]
    exact ih fun i hi => h i (by omega)

/-- The same write keeps the agreement of two memories at an address. -/
theorem write_agree {m m' : A → BitVec 8} {b : A} (h : m' b = m b) (a : A) (n v : Nat) :
    write m' a n v b = write m a n v b := by
  induction n with
  | zero => exact h
  | succ n ih =>
    unfold write
    by_cases hb : b = shift a n
    · rw [hb, Function.update_self, Function.update_self]
    · rw [Function.update_of_ne hb, Function.update_of_ne hb, ih]

/-- The low bytes of a word that was written. -/
theorem read_write_low (m : A → BitVec 8) (a : A) {k n : Nat} (v : Nat) (hn : n ≤ 8) (hk : k ≤ n) :
    read (write m a n v) a k = v % 256 ^ k := by
  induction k with
  | zero => simp [read, Nat.mod_one]
  | succ k ih =>
    rw [read_succ, ih (by omega), write_shift v hn (by omega), BitVec.toNat_ofNat, pow_succ 256 k, Nat.mod_mul]

theorem read_write_self (m : A → BitVec 8) (a : A) {n : Nat} (v : Nat) (hn : n ≤ 8) :
    read (write m a n v) a n = v % 256 ^ n := read_write_low m a v hn (Nat.le_refl n)

/-- A write below the top of a word keeps the bytes above it. -/
theorem read_write_high (m : A → BitVec 8) (a : A) {k n : Nat} (v : Nat) (hk : k ≤ 8) (hn : n ≤ k) :
    read (write m a n v) a k = v % 256 ^ n + 256 ^ n * (read m a k / 256 ^ n) := by
  induction k with
  | zero =>
    obtain rfl : n = 0 := by omega
    simp [read, Nat.mod_one]
  | succ k ih =>
    by_cases h : n = k + 1
    · subst h
      rw [read_write_self m a v hk, Nat.div_eq_of_lt (read_lt m a _)]
      simp
    · have hnk : n ≤ k := by omega
      obtain ⟨d, rfl⟩ := Nat.exists_eq_add_of_le hnk
      have hkeep : write m a n v (shift a (n + d)) = m (shift a (n + d)) := by
        apply write_of_ne
        intro i hi he
        have := shift_inj a (by omega) (by omega) he
        omega
      rw [read_succ, read_succ, ih (by omega) hnk, hkeep, pow_add, Nat.mul_assoc,
        Nat.add_mul_div_left _ _ (Nat.pow_pos (by decide)), Nat.mul_add, Nat.add_assoc]

theorem read_write_apart (m : A → BitVec 8) {a b : A} {n k : Nat} (v : Nat) (h : Apart a n b k) :
    read (write m a n v) b k = read m b k := by
  induction k with
  | zero => rfl
  | succ k ih =>
    have hne : ∀ i < n, shift b k ≠ shift a i := fun i hi he => h i hi k (by omega) he.symm
    rw [read_succ, read_succ, ih (h.mono (Nat.le_refl n) (by omega)), write_of_ne v hne]

/-- Only the low bytes of the value are written. -/
theorem write_congr (m : A → BitVec 8) (a : A) {n v w : Nat} (h : v % 256 ^ n = w % 256 ^ n) :
    write m a n v = write m a n w := by
  induction n with
  | zero => rfl
  | succ n ih =>
    have hlow : v % 256 ^ n = w % 256 ^ n := by
      have := congrArg (· % 256 ^ n) h
      simpa [pow_succ] using this
    have hbyte : v / 256 ^ n % 256 = w / 256 ^ n % 256 := by
      rw [pow_succ] at h
      rw [← Nat.mod_mul_right_div_self, ← Nat.mod_mul_right_div_self, h]
    unfold write
    rw [ih hlow]
    congr 1
    apply BitVec.eq_of_toNat_eq
    simpa using hbyte

/-! ## 64-bit addresses -/

theorem toNat_shift {a : BitVec 64} {i : Nat} (h : a.toNat + i < 2 ^ 64) : (shift a i).toNat = a.toNat + i := by
  show (a + BitVec.ofNat 64 i).toNat = _
  rw [BitVec.toNat_add, BitVec.toNat_ofNat]
  omega

/-- A word that does not wrap around keeps the bytes below and above it. -/
theorem write_outside (m : BitVec 64 → BitVec 8) {a x : BitVec 64} {n : Nat} (v : Nat) (ha : a.toNat + n ≤ 2 ^ 64)
    (hx : x.toNat < a.toNat ∨ a.toNat + n ≤ x.toNat) : write m a n v x = m x := by
  apply write_of_ne
  rintro i hi rfl
  rw [toNat_shift (by omega)] at hx
  omega

/-- Reading depends on the addresses of the word only. -/
theorem read_eq_of_range {m m' : BitVec 64 → BitVec 8} {a : BitVec 64} {n : Nat} (ha : a.toNat + n ≤ 2 ^ 64)
    (h : ∀ x : BitVec 64, a.toNat ≤ x.toNat → x.toNat < a.toNat + n → m x = m' x) : read m a n = read m' a n := by
  apply read_congr
  intro i hi
  have hshift := toNat_shift (a := a) (i := i) (by omega)
  exact h _ (by omega) (by omega)

/-! ## A memory inside another one -/

section
variable {B : Type} [Addr B] [DecidableEq B] {f : A → B} (hshift : ∀ a i, f (shift a i) = shift (f a) i)
include hshift

omit [DecidableEq A] [DecidableEq B] in
theorem read_comp (m : B → BitVec 8) (a : A) (n : Nat) : read (fun x => m (f x)) a n = read m (f a) n := by
  induction n with
  | zero => rfl
  | succ n ih => rw [read_succ, read_succ, ih, hshift]

theorem write_comp (hf : Function.Injective f) (m : B → BitVec 8) (a : A) (n v : Nat) :
    (fun x => write m (f a) n v (f x)) = write (fun x => m (f x)) a n v := by
  induction n with
  | zero => rfl
  | succ n ih =>
    funext x
    unfold write
    rw [← ih, ← hshift]
    by_cases hx : x = shift a n
    · subst hx
      rw [Function.update_self, Function.update_self]
    · rw [Function.update_of_ne hx, Function.update_of_ne fun h => hx (hf h)]

end

end Mjc.Bytes

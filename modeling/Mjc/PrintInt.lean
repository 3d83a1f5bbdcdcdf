import Mathlib.Data.Nat.Digits.Lemmas
import Mathlib.Data.Nat.Factorization.Basic
import Mathlib.Tactic.Ring

/-!
# The integer printers of the runtime

`print_int` and `print_int_fast` of `runtime.c`.

* `int`, `shl` : arithmetic of C on `int`, undefined where the result is not an `int`;
* `countZeros`, `reverse`, `writeDigits`, `writeZeros` : the loops of `print_int_fast`, to a number of tests;
* `reverse_nat` : what the shift-add loop computes, or that it overflows;
* `printIntFast_agrees` : for which arguments the bytes are those of `print_int`.
-/

namespace Mjc.PrintInt

set_option autoImplicit false

/-! ## The source -/

/-- Why a run ends without a result. -/
inductive Stop where
  | undefined
  | outOfSteps
  deriving DecidableEq

/-- The result of an operation on `int`. -/
def int (v : Int) : Except Stop Int := if -2 ^ 31 ≤ v ∧ v < 2 ^ 31 then .ok v else .error .undefined

/-- `v << k`: a negative value is not shifted. -/
def shl (v : Int) (k : Nat) : Except Stop Int := if 0 ≤ v then int (v * 2 ^ k) else .error .undefined

/-- `putchar_unlocked`: the byte that is written. -/
def putchar (c : Int) : UInt8 := UInt8.ofInt c

/-- `print_int`: `printf("%d\n", val)`. -/
def printInt (val : Int32) : List UInt8 := (toString val.toInt ++ "\n").toList.map fun c => UInt8.ofNat c.toNat

/-- `while ((rev % 10) == 0) { count++; rev /= 10; }`, with the last count. -/
def countZeros : Nat → Int → Int → Except Stop Int
  | 0, _, _ => .error .outOfSteps
  | n + 1, rev, count =>
    if rev.tmod 10 = 0 then do
      countZeros n (← int (rev.tdiv 10)) (← int (count + 1))
    else .ok count

/-- `(rev<<3) + (rev<<1) + N % 10`. -/
def pushDigit (rev N : Int) : Except Stop Int := do
  int ((← int ((← shl rev 3) + (← shl rev 1))) + N.tmod 10)

/-- `while (N != 0) { rev = (rev<<3) + (rev<<1) + N % 10; N /= 10; }`, with the last `rev`. -/
def reverse : Nat → Int → Int → Except Stop Int
  | 0, _, _ => .error .outOfSteps
  | n + 1, N, rev =>
    if N ≠ 0 then do
      let rev ← pushDigit rev N
      reverse n (← int (N.tdiv 10)) rev
    else .ok rev

/-- `while (rev != 0) { pc(rev % 10 + '0'); rev /= 10; }` -/
def writeDigits : Nat → Int → Except Stop (List UInt8)
  | 0, _ => .error .outOfSteps
  | n + 1, rev =>
    if rev ≠ 0 then do
      let c ← int (rev.tmod 10 + 48)
      return putchar c :: (← writeDigits n (← int (rev.tdiv 10)))
    else .ok []

/-- `while (count--) pc('0');` -/
def writeZeros : Nat → Int → Except Stop (List UInt8)
  | 0, _ => .error .outOfSteps
  | n + 1, count => do
    let next ← int (count - 1)
    if count ≠ 0 then return putchar 48 :: (← writeZeros n next) else return []

/-- `print_int_fast`, if no loop tests its condition more than `n` times. -/
def printIntFast (n : Nat) (val : Int32) : Except Stop (List UInt8) :=
  if val.toInt = 0 then .ok [putchar 48, putchar 10]
  else do
    let count ← countZeros n val.toInt 0
    let rev ← reverse n val.toInt 0
    return (← writeDigits n rev) ++ (← writeZeros n count) ++ [putchar 10]

/-- The call ends, without undefined behaviour, and writes what `print_int` writes. -/
def Agrees (val : Int32) : Prop := ∃ n, printIntFast n val = .ok (printInt val)

/-- The number whose decimal digits are those of `N` backwards. -/
def reversal (N : Nat) : Nat := Nat.ofDigits 10 (Nat.digits 10 N).reverse

/-! ## Arithmetic -/

theorem ok_bind {α β : Type} (a : α) (f : α → Except Stop β) : (Except.ok a >>= f) = f a := rfl

theorem error_bind {α β : Type} (stop : Stop) (f : α → Except Stop β) :
    (Except.error stop >>= f) = .error stop := rfl

theorem int_ok {v : Int} (hlo : -2 ^ 31 ≤ v) (hhi : v < 2 ^ 31) : int v = .ok v := if_pos ⟨hlo, hhi⟩

theorem int_nat {v : Nat} (h : v < 2 ^ 31) : int v = .ok v := int_ok (by omega) (by omega)

theorem int_overflow {v : Nat} (h : 2 ^ 31 ≤ v) : int v = .error .undefined := if_neg (by omega)

theorem int_eq_ok {v w : Int} (h : int v = .ok w) : w = v := by
  unfold int at h
  split at h
  · exact (Except.ok.inj h).symm
  · cases h

theorem bind_eq_ok {α β : Type} {x : Except Stop α} {f : α → Except Stop β} {b : β} (h : x >>= f = .ok b) :
    ∃ a, x = .ok a ∧ f a = .ok b := by
  cases x with
  | error stop => cases h
  | ok a => exact ⟨a, rfl, h⟩

theorem shl_nat {v k : Nat} (h : v * 2 ^ k < 2 ^ 31) : shl v k = .ok (v * 2 ^ k : Nat) := by
  unfold shl
  rw [if_pos (by omega)]
  exact int_nat h

/-! ## Arguments that are not negative -/

/-- The digits of `N`, the last one first, put behind those of `rev`. -/
def pushDigits (rev N : Nat) : Nat := (Nat.digits 10 N).foldl (fun rev d => 10 * rev + d) rev

theorem digits_pos {N : Nat} (h : 0 < N) : Nat.digits 10 N = N % 10 :: Nat.digits 10 (N / 10) :=
  Nat.digits_def' (by omega) h

theorem pushDigits_pos (rev : Nat) {N : Nat} (h : 0 < N) :
    pushDigits rev N = pushDigits (10 * rev + N % 10) (N / 10) := by
  unfold pushDigits
  rw [digits_pos h, List.foldl_cons]

theorem pushDigits_zero_left (N : Nat) : pushDigits 0 N = reversal N := by
  unfold pushDigits reversal
  rw [Nat.ofDigits_eq_foldr, List.foldr_reverse]
  congr 1
  funext rev d
  simp only [Nat.cast_id]
  omega

theorem le_pushDigits (rev N : Nat) : rev ≤ pushDigits rev N := by
  unfold pushDigits
  induction Nat.digits 10 N generalizing rev with
  | nil => exact Nat.le_refl rev
  | cons d ds ih => exact Nat.le_trans (by omega) (ih (10 * rev + d))

theorem tmod_nat (N : Nat) : (N : Int).tmod 10 = (N % 10 : Nat) := rfl

theorem tdiv_nat (N : Nat) : (N : Int).tdiv 10 = (N / 10 : Nat) := rfl

/-- No partial result of the step is greater than its result. -/
theorem pushDigit_nat (rev N : Nat) : pushDigit rev N = int (10 * rev + N % 10 : Nat) := by
  unfold pushDigit
  rw [tmod_nat]
  by_cases h3 : rev * 2 ^ 3 < 2 ^ 31
  · rw [shl_nat h3, shl_nat (k := 1) (by omega), ok_bind, ok_bind, ← Nat.cast_add]
    by_cases hsum : rev * 2 ^ 3 + rev * 2 ^ 1 < 2 ^ 31
    · rw [int_nat hsum, ok_bind]
      congr 1
      omega
    · rw [int_overflow (by omega), int_overflow (by omega), error_bind]
  · have hshl : shl rev 3 = .error .undefined := by
      unfold shl
      rw [if_pos (by omega)]
      exact int_overflow (v := rev * 2 ^ 3) (by omega)
    rw [hshl, int_overflow (by omega), error_bind]

/-- The shift-add loop: the digits are reversed, unless the result is too great. -/
theorem reverse_nat {n N rev : Nat} (hsteps : (Nat.digits 10 N).length < n) (hN : N < 2 ^ 31) (hrev : rev < 2 ^ 31) :
    reverse n N rev = int (pushDigits rev N) := by
  induction n generalizing N rev with
  | zero => omega
  | succ n ih =>
    unfold reverse
    by_cases hzero : N = 0
    · subst hzero
      rw [if_neg (by omega)]
      exact (int_nat hrev).symm
    · have hpos : 0 < N := by omega
      rw [digits_pos hpos, List.length_cons] at hsteps
      rw [if_pos (by omega), pushDigit_nat, pushDigits_pos rev hpos]
      by_cases hnext : 10 * rev + N % 10 < 2 ^ 31
      · rw [int_nat hnext, ok_bind, tdiv_nat, int_nat (by omega), ok_bind]
        exact ih (by omega) (by omega) hnext
      · have := le_pushDigits (10 * rev + N % 10) (N / 10)
        rw [int_overflow (by omega), int_overflow (by omega), error_bind]

/-- The byte of a decimal digit. -/
def digitByte (d : Nat) : UInt8 := UInt8.ofNat (Nat.digitChar d).toNat

theorem putchar_digit {d : Nat} (h : d < 10) : putchar (d + 48 : Nat) = digitByte d := by
  interval_cases d <;> rfl

theorem writeDigits_nat {n rev : Nat} (hsteps : (Nat.digits 10 rev).length < n) (hrev : rev < 2 ^ 31) :
    writeDigits n rev = .ok ((Nat.digits 10 rev).map digitByte) := by
  induction n generalizing rev with
  | zero => omega
  | succ n ih =>
    unfold writeDigits
    by_cases hzero : rev = 0
    · subst hzero
      rw [if_neg (by omega)]
      rfl
    · have hpos : 0 < rev := by omega
      rw [digits_pos hpos, List.length_cons] at hsteps
      rw [if_pos (by omega), digits_pos hpos, List.map_cons]
      rw [tmod_nat, tdiv_nat, show ((rev % 10 : Nat) : Int) + 48 = (rev % 10 + 48 : Nat) from rfl,
        int_nat (by omega), int_nat (by omega), ok_bind, ok_bind, ih (by omega) (by omega), ok_bind,
        putchar_digit (Nat.mod_lt _ (by omega))]
      rfl

theorem writeZeros_nat {n count : Nat} (hsteps : count < n) (hcount : count < 2 ^ 31) :
    writeZeros n count = .ok (List.replicate count (digitByte 0)) := by
  induction n generalizing count with
  | zero => omega
  | succ n ih =>
    unfold writeZeros
    rw [int_ok (by omega) (by omega), ok_bind]
    cases count with
    | zero => rfl
    | succ count =>
      have hnext : ((count + 1 : Nat) : Int) - 1 = count := by omega
      rw [hnext, if_pos (by omega), ih (by omega) (by omega), ok_bind]
      rfl

/-- The zeros at the end. -/
theorem countZeros_nat {n m k count : Nat} (hsteps : k < n) (hm : m % 10 ≠ 0) (hv : 10 ^ k * m < 2 ^ 31)
    (hcount : count + k < 2 ^ 31) : countZeros n (10 ^ k * m : Nat) count = .ok (count + k : Nat) := by
  induction n generalizing k count with
  | zero => omega
  | succ n ih =>
    unfold countZeros
    rw [tmod_nat, tdiv_nat, show ((count : Nat) : Int) + 1 = (count + 1 : Nat) from rfl]
    cases k with
    | zero =>
      rw [pow_zero, one_mul, if_neg (by omega)]
      rfl
    | succ k =>
      have hpow : 10 ^ (k + 1) * m = 10 * (10 ^ k * m) := by ring
      rw [hpow] at hv ⊢
      rw [if_pos (by omega), Nat.mul_div_cancel_left _ (by omega), int_nat (by omega), ok_bind, int_nat (by omega),
        ok_bind, ih (by omega) (by omega) (by omega)]
      congr 2
      omega

theorem reverse_start {n N : Nat} (hsteps : (Nat.digits 10 N).length < n) (hN : N < 2 ^ 31) :
    reverse n N 0 = int (reversal N) := by
  rw [← pushDigits_zero_left]
  have hzero : 0 < 2 ^ 31 := by omega
  exact reverse_nat hsteps hN hzero

/-- Every digit takes a test of the loop, and the end another one. -/
theorem reverse_steps {n N rev : Nat} {r : Int} (h : reverse n N rev = .ok r) (hN : N < 2 ^ 31) :
    (Nat.digits 10 N).length < n := by
  induction n generalizing N rev with
  | zero => cases h
  | succ n ih =>
    by_cases hzero : N = 0
    · subst hzero
      exact Nat.succ_pos n
    · unfold reverse at h
      rw [if_pos (by omega), pushDigit_nat] at h
      obtain ⟨next, hnext, h⟩ := bind_eq_ok h
      rw [int_eq_ok hnext, tdiv_nat, int_nat (by omega), ok_bind] at h
      rw [digits_pos (by omega), List.length_cons]
      have := ih h (by omega)
      omega

/-! ## The decimal text -/

theorem toDigits_eq {N : Nat} (h : 0 < N) : Nat.toDigits 10 N = (Nat.digits 10 N).reverse.map Nat.digitChar := by
  induction N using Nat.strong_induction_on with
  | h N ih =>
    rw [digits_pos h, List.reverse_cons, List.map_append]
    by_cases hsmall : N < 10
    · rw [Nat.toDigits_of_lt_base hsmall, Nat.div_eq_of_lt hsmall, Nat.mod_eq_of_lt hsmall]
      rfl
    · rw [Nat.toDigits_of_base_le (by omega) (by omega), ih (N / 10) (by omega) (by omega)]
      rfl

theorem printInt_pos {val : Int32} {N : Nat} (hval : val.toInt = N) (h : 0 < N) :
    printInt val = (Nat.digits 10 N).reverse.map digitByte ++ [putchar 10] := by
  unfold printInt
  have htext : (toString (N : Int)).toList = Nat.toDigits 10 N := Nat.toList_repr
  rw [hval, String.toList_append, List.map_append, htext, toDigits_eq h, List.map_map]
  rfl

/-- Some digit is not zero. -/
theorem printInt_neg {val : Int32} (h : val.toInt < 0) : ∃ b ∈ printInt val, 48 < b := by
  obtain ⟨N, hN⟩ := Int.eq_negSucc_of_lt_zero h
  have htext : (toString (Int.negSucc N)).toList = '-' :: Nat.toDigits 10 (N + 1) := by
    show ("-" ++ Nat.repr (N + 1)).toList = _
    rw [String.toList_append, Nat.toList_repr]
    rfl
  have hne : Nat.digits 10 (N + 1) ≠ [] := Nat.digits_ne_nil_iff_ne_zero.mpr (Nat.succ_ne_zero N)
  have hlast := Nat.getLast_digit_ne_zero 10 (Nat.succ_ne_zero N)
  have hlt : (Nat.digits 10 (N + 1)).getLast hne < 10 := Nat.digits_lt_base (by omega) (List.getLast_mem hne)
  refine ⟨digitByte ((Nat.digits 10 (N + 1)).getLast hne), ?_, ?_⟩
  · unfold printInt
    rw [hN, String.toList_append, List.map_append, htext, toDigits_eq (Nat.succ_pos N)]
    refine List.mem_append_left _ (List.mem_cons_of_mem _ ?_)
    rw [List.map_map]
    exact List.mem_map_of_mem (List.mem_reverse.mpr (List.getLast_mem hne))
  · generalize (Nat.digits 10 (N + 1)).getLast hne = d at hlast hlt
    interval_cases d
    · exact absurd rfl hlast
    all_goals decide

/-! ## Agreement -/

/-- The zeros at the end of `N` are missing from its reversal; all other digits are there. -/
theorem digits_reversal {m : Nat} (hm : m % 10 ≠ 0) (k : Nat) :
    Nat.digits 10 (reversal (10 ^ k * m)) ++ List.replicate k 0 = (Nat.digits 10 (10 ^ k * m)).reverse := by
  have hpos : 0 < m := by omega
  unfold reversal
  rw [Nat.digits_base_pow_mul (by omega) hpos, List.reverse_append, List.reverse_replicate,
    Nat.ofDigits_append_replicate_zero, Nat.digits_ofDigits 10 (by omega)]
  · intro d hd
    exact Nat.digits_lt_base (by omega) (List.mem_reverse.mp hd)
  · intro hne
    rw [List.getLast_reverse]
    rwa [List.head_eq_getElem, List.getElem_of_eq (digits_pos hpos)]

theorem agrees_of_reversal_lt {val : Int32} {N : Nat} (hval : val.toInt = N) (hN : 0 < N)
    (hrev : reversal N < 2 ^ 31) : Agrees val := by
  have hrange := val.toInt_lt
  rw [hval] at hrange
  obtain ⟨k, m, hm, rfl⟩ := Nat.exists_eq_pow_mul_and_not_dvd hN.ne' 10 (by omega)
  have hm : m % 10 ≠ 0 := fun h => hm (Nat.dvd_of_mod_eq_zero h)
  have hk : k < 10 ^ k * m := by
    calc k < 10 ^ k := Nat.lt_pow_self (by omega)
      _ ≤ 10 ^ k * m := Nat.le_mul_of_pos_right _ (by omega)
  refine ⟨(Nat.digits 10 (10 ^ k * m)).length + (Nat.digits 10 (reversal (10 ^ k * m))).length + k + 1, ?_⟩
  unfold printIntFast
  generalize hn : (Nat.digits 10 (10 ^ k * m)).length + (Nat.digits 10 (reversal (10 ^ k * m))).length + k + 1 = n
  have hcount : countZeros n (10 ^ k * m : Nat) 0 = .ok (k : Int) := by
    have hzero : 0 + k < 2 ^ 31 := by omega
    have := countZeros_nat (show k < n by omega) hm (by omega) hzero
    rwa [Nat.zero_add] at this
  rw [hval, if_neg (by omega), hcount, ok_bind, reverse_start (by omega) (by omega), int_nat hrev, ok_bind,
    writeDigits_nat (by omega) hrev, ok_bind, writeZeros_nat (by omega) (by omega), ok_bind, printInt_pos hval hN,
    ← digits_reversal hm k, List.map_append, List.map_replicate]
  rfl

theorem reversal_lt_of_agrees {val : Int32} {N : Nat} (hval : val.toInt = N) (hN : 0 < N) (h : Agrees val) :
    reversal N < 2 ^ 31 := by
  have hrange := val.toInt_lt
  obtain ⟨n, h⟩ := h
  unfold printIntFast at h
  rw [hval, if_neg (by omega)] at h
  obtain ⟨count, -, h⟩ := bind_eq_ok h
  obtain ⟨rev, hrev, -⟩ := bind_eq_ok h
  have hsteps : (Nat.digits 10 N).length < n := @reverse_steps n N 0 rev hrev (by omega)
  rw [reverse_start hsteps (by omega)] at hrev
  by_contra hge
  rw [int_overflow (by omega)] at hrev
  cases hrev

/-! ## Negative arguments -/

theorem tmod_nonpos {v : Int} (h : v ≤ 0) : -9 ≤ v.tmod 10 ∧ v.tmod 10 ≤ 0 := by
  obtain ⟨N, rfl⟩ : ∃ N : Nat, v = -N := ⟨v.natAbs, by omega⟩
  rw [Int.neg_tmod, tmod_nat]
  omega

theorem tdiv_nonpos {v : Int} (h : v ≤ 0) : v.tdiv 10 ≤ 0 := by
  obtain ⟨N, rfl⟩ : ∃ N : Nat, v = -N := ⟨v.natAbs, by omega⟩
  rw [Int.neg_tdiv, tdiv_nat]
  omega

theorem pushDigit_nonpos {rev N r : Int} (h : pushDigit rev N = .ok r) (hrev : rev ≤ 0) (hN : N ≤ 0) : r ≤ 0 := by
  unfold pushDigit at h
  obtain ⟨a, ha, h⟩ := bind_eq_ok h
  obtain ⟨b, hb, h⟩ := bind_eq_ok h
  obtain ⟨sum, hsum, h⟩ := bind_eq_ok h
  have hshl : ∀ {k w}, shl rev k = .ok w → w ≤ 0 := by
    intro k w hw
    unfold shl at hw
    split at hw
    · obtain rfl : rev = 0 := by omega
      rw [int_eq_ok hw]
      omega
    · cases hw
  have := hshl ha
  have := hshl hb
  have := int_eq_ok hsum
  have := (tmod_nonpos hN).2
  rw [int_eq_ok h]
  omega

theorem reverse_nonpos {n : Nat} {N rev r : Int} (h : reverse n N rev = .ok r) (hrev : rev ≤ 0) (hN : N ≤ 0) :
    r ≤ 0 := by
  induction n generalizing N rev with
  | zero => cases h
  | succ n ih =>
    unfold reverse at h
    split at h
    · obtain ⟨rev', hrev', h⟩ := bind_eq_ok h
      obtain ⟨N', hN', h⟩ := bind_eq_ok h
      refine ih h (pushDigit_nonpos hrev' hrev hN) ?_
      rw [int_eq_ok hN']
      exact tdiv_nonpos hN
    · obtain rfl := Except.ok.inj h
      exact hrev

/-- The remainder of a negative number is not positive. -/
theorem writeDigits_nonpos {n : Nat} {rev : Int} {bytes : List UInt8} (h : writeDigits n rev = .ok bytes)
    (hrev : rev ≤ 0) : ∀ b ∈ bytes, b ≤ 48 := by
  induction n generalizing rev bytes with
  | zero => cases h
  | succ n ih =>
    unfold writeDigits at h
    split at h
    · obtain ⟨c, hc, h⟩ := bind_eq_ok h
      obtain ⟨next, hnext, h⟩ := bind_eq_ok h
      obtain ⟨rest, hrest, h⟩ := bind_eq_ok h
      obtain rfl := Except.ok.inj h
      intro b hb
      rcases List.mem_cons.mp hb with rfl | hb
      · have hc := int_eq_ok hc
        obtain ⟨hlo, hhi⟩ := tmod_nonpos hrev
        subst hc
        generalize rev.tmod 10 = d at hlo hhi
        interval_cases d <;> decide
      · refine ih hrest ?_ b hb
        rw [int_eq_ok hnext]
        exact tdiv_nonpos hrev
    · obtain rfl := Except.ok.inj h
      exact List.forall_mem_nil _

theorem writeZeros_le {n : Nat} {count : Int} {bytes : List UInt8} (h : writeZeros n count = .ok bytes) :
    ∀ b ∈ bytes, b ≤ 48 := by
  induction n generalizing count bytes with
  | zero => cases h
  | succ n ih =>
    unfold writeZeros at h
    obtain ⟨next, hnext, h⟩ := bind_eq_ok h
    split at h
    · obtain ⟨rest, hrest, h⟩ := bind_eq_ok h
      obtain rfl := Except.ok.inj h
      intro b hb
      rcases List.mem_cons.mp hb with rfl | hb
      · decide
      · exact ih hrest b hb
    · obtain rfl := Except.ok.inj h
      exact List.forall_mem_nil _

/-- No byte that is written for a negative argument is greater than that of `0`. -/
theorem not_agrees_of_neg {val : Int32} (hval : val.toInt < 0) : ¬ Agrees val := by
  rintro ⟨n, h⟩
  obtain ⟨b, hb, hdigit⟩ := printInt_neg hval
  unfold printIntFast at h
  rw [if_neg (by omega)] at h
  obtain ⟨count, -, h⟩ := bind_eq_ok h
  obtain ⟨rev, hrev, h⟩ := bind_eq_ok h
  obtain ⟨digits, hdigits, h⟩ := bind_eq_ok h
  obtain ⟨zeros, hzeros, h⟩ := bind_eq_ok h
  rw [← Except.ok.inj h, List.append_assoc, List.mem_append, List.mem_append, List.mem_singleton] at hb
  have hle : b ≤ 48 := by
    rcases hb with hb | hb | rfl
    · exact writeDigits_nonpos hdigits (reverse_nonpos hrev (Int.le_refl 0) (by omega)) b hb
    · exact writeZeros_le hzeros b hb
    · decide
  exact absurd hdigit (UInt8.not_lt.mpr hle)

-- "/" instead of "-1"
example : printIntFast 2 (-1) = .ok [47, 10] := rfl

/-! ## Both printers -/

/-- `print_int_fast` does what `print_int` does for no negative argument, and for the others as long as the argument
read backwards is an `int`. -/
theorem printIntFast_agrees (val : Int32) :
    Agrees val ↔ 0 ≤ val.toInt ∧ reversal val.toInt.toNat < 2 ^ 31 := by
  by_cases hneg : val.toInt < 0
  · exact iff_of_false (not_agrees_of_neg hneg) fun h => absurd h.1 (by omega)
  · obtain ⟨N, hN⟩ := Int.eq_ofNat_of_zero_le (Int.not_lt.mp hneg)
    rw [hN, Int.toNat_natCast]
    by_cases hzero : N = 0
    · subst hzero
      have hval : val = 0 := Int32.toInt_inj.mp hN
      subst hval
      exact iff_of_true ⟨0, by decide⟩ ⟨by omega, by decide⟩
    · have hpos : 0 < N := by omega
      exact ⟨fun h => ⟨by omega, reversal_lt_of_agrees hN hpos h⟩, fun h => agrees_of_reversal_lt hN hpos h.2⟩

/-- A digit that is negative; a reversal that is no `int`. -/
theorem printIntFast_disagrees : ¬ Agrees (-1) ∧ ¬ Agrees 1000000009 := by
  refine ⟨not_agrees_of_neg (by decide), fun h => ?_⟩
  have := reversal_lt_of_agrees (N := 1000000009) (by decide) (by decide) h
  exact absurd this (by decide)

end Mjc.PrintInt

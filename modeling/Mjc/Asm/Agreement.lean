import Mjc.Asm.Outcome
import Mjc.Lockstep

/-!
# Two runs that agree

What two runs of almost the same instructions have in common: the low bytes of every register in which they agree,
whether they agree in the flags, and how a register of one run depends on a register of the other. Memory and calls are
the same in both.

* `LowEq n` : two words with the same low `n` bytes;
* `Common`, `Common.Holds` : what is known of the two states;
* `Common.after` : what is known after an instruction of each, if they still agree in memory and calls;
  `Common.after_holds`.
-/

namespace Mjc.Asm
open Mjc.Bytes Mjc.Lockstep

set_option autoImplicit false

/-! ## Low bytes -/

/-- The low `n` bytes of the words are the same. -/
def LowEq (n : Nat) (v v' : BitVec 64) : Prop := v.setWidth (8 * n) = v'.setWidth (8 * n)

section
variable {m n : Nat} {v v' x x' : BitVec 64}

theorem LowEq.refl (n : Nat) (v : BitVec 64) : LowEq n v v := rfl

theorem LowEq.symm (h : LowEq n v v') : LowEq n v' v := Eq.symm h

theorem LowEq.mono (h : LowEq n v v') (hm : m ≤ n) : LowEq m v v' := by
  have hle : 8 * m ≤ 8 * n := Nat.mul_le_mul_left 8 hm
  have hcut := congrArg (BitVec.setWidth (8 * m)) h
  rwa [BitVec.setWidth_setWidth_of_le _ hle, BitVec.setWidth_setWidth_of_le _ hle] at hcut

theorem LowEq.eq (h : LowEq n v v') (hn : 8 ≤ n) : v = v' := by
  have hall : v.setWidth 64 = v'.setWidth 64 := h.mono hn
  rwa [BitVec.setWidth_eq, BitVec.setWidth_eq] at hall

theorem LowEq.zero (v v' : BitVec 64) : LowEq 0 v v' := Subsingleton.elim (α := BitVec 0) _ _

theorem lowEq_iff : LowEq n v v' ↔ v.toNat % 256 ^ n = v'.toNat % 256 ^ n := by
  unfold LowEq
  rw [← BitVec.toNat_inj, BitVec.toNat_setWidth, BitVec.toNat_setWidth, pow_mul]
  rfl

/-- The low bytes of a result depend on those of the operands only. -/
theorem LowEq.binary (f : Binary) (hv : LowEq n v v') (hx : LowEq n x x') :
    LowEq n (f.apply v x) (f.apply v' x') := by
  by_cases hn : 8 ≤ n
  · rw [hv.eq hn, hx.eq hn]
    exact .refl n _
  · have hle : 8 * n ≤ 64 := by omega
    unfold LowEq at hv hx ⊢
    cases f with
    | add => simp only [Binary.apply, BitVec.setWidth_add _ _ hle, hv, hx]
    | sub => simp only [Binary.apply, BitVec.sub_eq_add_neg, BitVec.setWidth_add _ _ hle,
        BitVec.setWidth_neg_of_le hle, hv, hx]
    | imul => simp only [Binary.apply, BitVec.setWidth_mul _ _ hle, hv, hx]
    | xor => simp only [Binary.apply, BitVec.setWidth_xor, hv, hx]

theorem LowEq.unary (f : Unary) (hv : LowEq n v v') : LowEq n (f.apply v) (f.apply v') := by
  cases f with
  | neg =>
    have h : LowEq n (0#64 - v) (0#64 - v') := LowEq.binary .sub (.refl n 0) hv
    rwa [BitVec.zero_sub, BitVec.zero_sub] at h
  | inc => exact LowEq.binary .add hv (.refl n 1)
  | dec => exact LowEq.binary .sub hv (.refl n 1)

theorem LowEq.low_eq (h : LowEq n v v') {w : RegMode} (hw : w.bytes ≤ n) : w.low v = w.low v' :=
  congrArg (BitVec.setWidth 64) (h.mono hw)

theorem LowEq.low (h : LowEq n v v') (w : RegMode) : LowEq n (w.low v) (w.low v') := by
  by_cases hw : w.bytes ≤ n
  · rw [h.low_eq hw]
    exact .refl n _
  · rw [lowEq_iff] at h ⊢
    obtain ⟨d, hd⟩ := Nat.exists_eq_add_of_lt (Nat.lt_of_not_le hw)
    have hdvd : 256 ^ n ∣ 256 ^ w.bytes := Nat.pow_dvd_pow 256 (by omega)
    rw [toNat_low, toNat_low, Nat.mod_mod_of_dvd _ hdvd, Nat.mod_mod_of_dvd _ hdvd, h]

theorem LowEq.signExtend (h : LowEq n v v') :
    LowEq (if 4 ≤ n then 8 else n) ((v.setWidth 32).signExtend 64) ((v'.setWidth 32).signExtend 64) := by
  by_cases hn : 4 ≤ n
  · have hlow : v.setWidth 32 = v'.setWidth 32 := h.mono hn
    rw [if_pos hn, hlow]
    exact .refl 8 _
  · have hle : 8 * n ≤ 32 := by omega
    rw [if_neg hn]
    have hcut : ∀ y : BitVec 64, ((y.setWidth 32).signExtend 64).setWidth (8 * n) = y.setWidth (8 * n) := by
      intro y
      apply BitVec.eq_of_getLsbD_eq
      intro i hi
      have hi' : i < 32 := by omega
      rw [BitVec.getLsbD_setWidth, BitVec.getLsbD_setWidth, BitVec.getLsbD_signExtend, if_pos hi',
        BitVec.getLsbD_setWidth]
      simp [hi, hi', (by omega : i < 64)]
    unfold LowEq at h ⊢
    rw [hcut, hcut, h]

/-- The low bytes that a register has in common after a write, given those of the value and those it had before. -/
def RegMode.merged (w : RegMode) (n m : Nat) : Nat :=
  match w with
  | .R => n
  | .E => if 4 ≤ n then 8 else n
  | .L => if n = 0 then 0 else max 1 m

theorem toNat_mergeReg_L (old v : BitVec 64) :
    (mergeReg .L old v).toNat = v.toNat % 256 + 256 * (old.toNat / 256) := by
  have ho := old.isLt
  rw [mergeReg, BitVec.toNat_ofNat, Nat.mod_eq_of_lt]
  omega

theorem LowEq.merge (hv : LowEq n v v') (hx : LowEq m x x') (w : RegMode) :
    LowEq (w.merged n m) (mergeReg w x v) (mergeReg w x' v') := by
  cases w with
  | R => exact hv
  | E =>
    unfold RegMode.merged
    by_cases hn : 4 ≤ n
    · have hlow : v.setWidth 32 = v'.setWidth 32 := hv.mono hn
      rw [if_pos hn, mergeReg, mergeReg, hlow]
      exact .refl 8 _
    · rw [if_neg hn]
      exact hv.low .E
  | L =>
    unfold RegMode.merged
    by_cases hn : n = 0
    · rw [if_pos hn]
      exact .zero _ _
    · rw [if_neg hn, lowEq_iff]
      obtain ⟨k, hk⟩ : ∃ k, max 1 m = 1 + k := Nat.exists_eq_add_of_le (Nat.le_max_left 1 m)
      have hbyte := lowEq_iff.mp (hv.mono (Nat.one_le_iff_ne_zero.mpr hn))
      have hold : x.toNat / 256 % 256 ^ k = x'.toNat / 256 % 256 ^ k := by
        by_cases hm : m = 0
        · obtain rfl : k = 0 := by omega
          rw [pow_zero, Nat.mod_one, Nat.mod_one]
        · have hx' := lowEq_iff.mp hx
          rw [show m = 1 + k by omega, pow_add, pow_one, Nat.mod_mul, Nat.mod_mul] at hx'
          omega
      rw [hk, pow_add, pow_one, Nat.mod_mul, Nat.mod_mul, toNat_mergeReg_L, toNat_mergeReg_L]
      have hone : 256 ^ 1 = 256 := rfl
      rw [hone] at hbyte
      have hlow : ∀ y z : Nat, (y % 256 + 256 * (z / 256)) % 256 = y % 256 := by omega
      have hhigh : ∀ y z : Nat, (y % 256 + 256 * (z / 256)) / 256 = z / 256 := by omega
      rw [hlow, hlow, hhigh, hhigh, hbyte, hold]

end

/-! ## What two states have in common -/

/-- A register of the second run that depends on a register of the first one. -/
inductive Link where
  /-- The low bytes of `dst` in the first run are those of `src` in the second one. -/
  | copy (src dst : RegName) (n : Nat)
  /-- The register holds `c` more in the first run. -/
  | sum (r : RegName) (c : Int)
  deriving DecidableEq

def Link.Holds (s s' : State) : Link → Prop
  | .copy src dst n => LowEq n (s.regs dst) (s'.regs src)
  | .sum r c => s.regs r = s'.regs r + BitVec.ofInt 64 c

def Link.mentions (r : RegName) : Link → Bool
  | .copy src dst _ => r = src || r = dst
  | .sum q _ => r = q

/-- What is known of the states of two runs. -/
structure Common where
  low : RegName → Nat
  flags : Bool
  link : Option Link

structure Common.Holds (κ : Common) (s s' : State) : Prop where
  mem : s'.mem = s.mem
  calls : s'.calls = s.calls
  regs : ∀ r, LowEq (κ.low r) (s.regs r) (s'.regs r)
  flags : κ.flags = true → s'.flags = s.flags
  link : ∀ l ∈ κ.link, l.Holds s s'

/-- The runs have all in common. -/
def Common.all : Common := ⟨fun _ => 8, true, none⟩

/-- The register is written in both runs; its low `n` bytes are the same afterwards. -/
def Common.setLow (κ : Common) (r : RegName) (n : Nat) : Common :=
  { κ with low := Function.update κ.low r n, link := κ.link.filter fun l => !l.mentions r }

theorem Common.setLow_self (κ : Common) (r : RegName) (n : Nat) : (κ.setLow r n).low r = n :=
  Function.update_self ..

theorem Common.setLow_of_ne (κ : Common) {q r : RegName} (h : q ≠ r) (n : Nat) : (κ.setLow r n).low q = κ.low q :=
  Function.update_of_ne h ..

section
variable {κ κ' : Common} {s s' : State} {n : Nat} {w : RegMode} {op op' : Op}

theorem Link.Holds.setReg {l : Link} (h : l.Holds s s') {r : RegName} (hr : l.mentions r = false) (v v' : BitVec 64) :
    l.Holds (s.setReg r v) (s'.setReg r v') := by
  cases l with
  | copy src dst n =>
    obtain ⟨hsrc, hdst⟩ : r ≠ src ∧ r ≠ dst := by simpa [Link.mentions] using hr
    show LowEq n ((s.setReg r v).regs dst) ((s'.setReg r v').regs src)
    rw [regs_setReg_of_ne s hdst.symm, regs_setReg_of_ne s' hsrc.symm]
    exact h
  | sum q c =>
    have hq : r ≠ q := by simpa [Link.mentions] using hr
    show (s.setReg r v).regs q = (s'.setReg r v').regs q + _
    rw [regs_setReg_of_ne s hq.symm, regs_setReg_of_ne s' hq.symm]
    exact h

theorem Common.Holds.setReg (h : κ.Holds s s') {v v' : BitVec 64} (hv : LowEq n v v') (r : RegName) :
    (κ.setLow r n).Holds (s.setReg r v) (s'.setReg r v') := by
  refine ⟨h.mem, h.calls, fun q => ?_, h.flags, fun l hl => ?_⟩
  · by_cases hq : q = r
    · subst hq
      rw [regs_setReg_self, regs_setReg_self, κ.setLow_self]
      exact hv
    · rw [regs_setReg_of_ne s hq, regs_setReg_of_ne s' hq, κ.setLow_of_ne hq]
      exact h.regs q
  · obtain ⟨hmem, hr⟩ := Option.mem_filter_iff.mp hl
    exact (h.link l hmem).setReg (by simpa using hr) v v'

/-! ## Operands -/

/-- The number of low bytes that `r` in the first run and `r'` in the second one share by the link. -/
def Link.low : Link → RegName → RegName → Nat
  | .copy src dst n, r, r' => if r = dst ∧ r' = src then n else 0
  | .sum _ _, _, _ => 0

/-- The two memory operands are at the same address by the link. -/
def Link.samePlace : Link → RegName → Int → RegName → Int → Bool
  | .copy src dst n, b, o, b', o' => b = dst && b' = src && o' = o && 8 ≤ n && b ≠ .bp && b' ≠ .bp
  | .sum r c, b, o, b', o' => b = r && b' = r && o' = o + c && r ≠ .bp

def Common.regLow (κ : Common) (r r' : RegName) : Nat :=
  max (if r' = r then κ.low r else 0) (κ.link.elim 0 fun l => l.low r r')

/-- The memory operands `o(b)` of the first run and `o'(b')` of the second one are at the same address. -/
def Common.samePlace (κ : Common) (b : RegName) (o : Int) (b' : RegName) (o' : Int) : Bool :=
  (b' = b && o' = o && (b = .bp || 8 ≤ κ.low b)) || κ.link.any fun l => l.samePlace b o b' o'

/-- The number of low bytes that the values of two operands share; eight if they are the same. -/
def Common.value (κ : Common) (w : RegMode) : Op → Op → Option Nat
  | .imm v, .imm v' => some (if v' = v then 8 else 0)
  | .reg r mode, .reg r' mode' =>
    if mode' = mode then some (if w.bytes ≤ κ.regLow r r' then 8 else κ.regLow r r') else none
  | .ind b mode o, .ind b' mode' o' =>
    if mode' = mode then some (if κ.samePlace b o b' o' then 8 else 0) else none
  | _, _ => none

/-- What is known after values that share `n` low bytes are written to the operands. -/
def Common.write (κ : Common) (w : RegMode) (n : Nat) : Op → Op → Option Common
  | .reg r mode, .reg r' mode' =>
    if r' = r ∧ mode' = mode then some (κ.setLow r (w.merged n (κ.low r))) else none
  | .ind b mode o, .ind b' mode' o' =>
    if mode' = mode ∧ κ.samePlace b o b' o' = true ∧ 8 ≤ n then some κ else none
  | _, _ => none

theorem Common.Holds.regLow (h : κ.Holds s s') (r r' : RegName) :
    LowEq (κ.regLow r r') (s.regs r) (s'.regs r') := by
  unfold Common.regLow
  rcases Nat.le_total (if r' = r then κ.low r else 0) (κ.link.elim 0 fun l => l.low r r') with hle | hle
  · rw [Nat.max_eq_right hle]
    cases hlink : κ.link with
    | none => exact .zero _ _
    | some l =>
      have hl := h.link l hlink
      cases l with
      | copy src dst n =>
        show LowEq (if r = dst ∧ r' = src then n else 0) _ _
        split
        next heq =>
          obtain ⟨rfl, rfl⟩ := heq
          exact hl
        next => exact .zero _ _
      | sum q c => exact .zero _ _
  · rw [Nat.max_eq_left hle]
    split
    next heq =>
      subst heq
      exact h.regs _
    next => exact .zero _ _

theorem Common.Holds.samePlace (h : κ.Holds s s') {b b' : RegName} {o o' : Int}
    (hplace : κ.samePlace b o b' o' = true) : locOf s'.regs b' o' = locOf s.regs b o := by
  rcases Bool.or_eq_true_iff.mp hplace with hsame | hlink
  · obtain ⟨⟨rfl, rfl⟩, hb⟩ : (b' = b ∧ o' = o) ∧ (b = .bp ∨ 8 ≤ κ.low b) := by simpa using hsame
    unfold locOf
    by_cases hbp : b' = .bp
    · rw [if_pos hbp, if_pos hbp]
    · rw [if_neg hbp, if_neg hbp, (h.regs b').eq (hb.resolve_left hbp)]
  · obtain ⟨l, hl, hl'⟩ := (Option.any_eq_true _ _).mp hlink
    have hholds := h.link l hl
    cases l with
    | copy src dst n =>
      obtain ⟨⟨⟨⟨⟨rfl, rfl⟩, rfl⟩, hn⟩, hb⟩, hb'⟩ : ((((b = dst ∧ b' = src) ∧ o' = o) ∧ 8 ≤ n) ∧ b ≠ .bp) ∧
          b' ≠ .bp := by simpa [Link.samePlace] using hl'
      unfold locOf
      rw [if_neg hb, if_neg hb', hholds.eq hn]
    | sum r c =>
      obtain ⟨⟨⟨rfl, rfl⟩, rfl⟩, hb⟩ : ((b = r ∧ b' = r) ∧ o' = o + c) ∧ r ≠ .bp := by
        simpa [Link.samePlace] using hl'
      have hsum : s.regs b' = s'.regs b' + BitVec.ofInt 64 c := hholds
      unfold locOf
      rw [if_neg hb, if_neg hb, hsum, BitVec.ofInt_add, BitVec.add_assoc, BitVec.add_comm (BitVec.ofInt 64 c)]

theorem Common.Holds.value_holds (h : κ.Holds s s') (hvalue : κ.value w op op' = some n) :
    Option.Rel (LowEq n) (readOp s w op) (readOp s' w op') := by
  cases op with
  | imm v =>
    cases op' with
    | imm v' =>
      cases hvalue
      refine .some ?_
      split
      next heq =>
        subst heq
        exact .refl 8 _
      next => exact .zero _ _
    | _ => cases hvalue
  | reg r mode =>
    cases op' with
    | reg r' mode' =>
      simp only [Common.value, Option.ite_none_right_eq_some, Option.some.injEq] at hvalue
      obtain ⟨rfl, rfl⟩ := hvalue
      by_cases hmode : mode' = w
      · rw [readOp, readOp, if_pos hmode, if_pos hmode]
        refine .some ?_
        split
        next hle =>
          rw [(h.regLow r r').low_eq hle]
          exact .refl 8 _
        next => exact (h.regLow r r').low w
      · rw [readOp, readOp, if_neg hmode, if_neg hmode]
        exact .none
    | _ => cases hvalue
  | ind b mode o =>
    cases op' with
    | ind b' mode' o' =>
      simp only [Common.value, Option.ite_none_right_eq_some, Option.some.injEq] at hvalue
      obtain ⟨rfl, rfl⟩ := hvalue
      by_cases hmode : mode' = .R
      · rw [readOp, readOp, if_pos hmode, if_pos hmode]
        refine .some ?_
        split
        next hplace =>
          rw [h.samePlace hplace, h.mem]
          exact .refl 8 _
        next => exact .zero _ _
      · rw [readOp, readOp, if_neg hmode, if_neg hmode]
        exact .none
    | _ => cases hvalue
  | str t => cases op' <;> cases hvalue

theorem Common.Holds.write_holds (h : κ.Holds s s') (hwrite : κ.write w n op op' = some κ') {v v' : BitVec 64}
    (hv : LowEq n v v') : Option.Rel κ'.Holds (writeOp s w v op) (writeOp s' w v' op') := by
  cases op with
  | reg r mode =>
    cases op' with
    | reg r' mode' =>
      simp only [Common.write, Option.ite_none_right_eq_some, Option.some.injEq] at hwrite
      obtain ⟨⟨rfl, rfl⟩, rfl⟩ := hwrite
      by_cases hok : mode' = w ∧ r' ≠ .bp
      · rw [writeOp, writeOp, if_pos hok, if_pos hok]
        exact .some (h.setReg (hv.merge (h.regs r') w) r')
      · rw [writeOp, writeOp, if_neg hok, if_neg hok]
        exact .none
    | _ => cases hwrite
  | ind b mode o =>
    cases op' with
    | ind b' mode' o' =>
      simp only [Common.write, Option.ite_none_right_eq_some, Option.some.injEq] at hwrite
      obtain ⟨⟨rfl, hplace, hn⟩, rfl⟩ := hwrite
      by_cases hok : mode' = .R
      · rw [writeOp, writeOp, if_pos hok, if_pos hok, h.samePlace hplace, h.mem, hv.eq hn]
        exact .some ⟨rfl, h.calls, h.regs, h.flags, h.link⟩
      · rw [writeOp, writeOp, if_neg hok, if_neg hok]
        exact .none
    | _ => cases hwrite
  | imm x => cases op' <;> cases hwrite
  | str t => cases op' <;> cases hwrite

/-! ## Instructions -/

def Common.withFlags (b : Bool) (κ : Common) : Common := { κ with flags := b }

/-- What is known after an instruction of each run; `none` if the runs may come apart. -/
def Common.after (κ : Common) : Act → Act → Option Common
  | .mov w source dest, .mov w' source' dest' =>
    if w' = w then (κ.value w source source').bind fun n => κ.write w n dest dest' else none
  | .movslq source dest, .movslq source' dest' =>
    (κ.value .E source source').bind fun n => κ.write .R (if 4 ≤ n then 8 else n) dest dest'
  | .binary w f source dest, .binary w' f' source' dest' =>
    if w' = w ∧ f' = f then
      -- the exclusive or of an operand with itself is zero in both runs
      if f = .xor ∧ source = dest ∧ source' = dest' then
        (κ.value w source source').bind fun _ => (Common.withFlags true) <$> κ.write w 8 dest dest'
      else (κ.value w source source').bind fun m => (κ.value w dest dest').bind fun n =>
        (Common.withFlags (8 ≤ min m n)) <$> κ.write w (min m n) dest dest'
    else none
  | .unary w f dest, .unary w' f' dest' =>
    if w' = w ∧ f' = f then
      (κ.value w dest dest').bind fun n => (Common.withFlags (8 ≤ n)) <$> κ.write w n dest dest'
    else none
  | .cmp w source dest, .cmp w' source' dest' =>
    if w' = w then (κ.value w source source').bind fun m => (κ.value w dest dest').bind fun n =>
      some (κ.withFlags (8 ≤ min m n))
    else none
  | .cqto, .cqto => some (κ.setLow .dx (if 8 ≤ κ.low .ax then 8 else 0))
  | .div source, .div source' => (κ.value .R source source').bind fun n =>
    if 8 ≤ n ∧ 8 ≤ κ.low .ax ∧ 8 ≤ κ.low .dx then some ((κ.setLow .ax 8).setLow .dx 8) else none
  | .call name, .call name' =>
    if name' = name ∧ 8 ≤ κ.low .di ∧ 8 ≤ κ.low .si ∧ 8 ≤ κ.low .sp then
      some ⟨fun r => if kept r then κ.low r else 8, κ.flags, none⟩
    else none
  | _, _ => none

theorem Common.Holds.withFlags (h : κ.Holds s s') {b : Bool} {f f' : Flags} (hf : b = true → f' = f) :
    (κ.withFlags b).Holds { s with flags := f } { s' with flags := f' } := by
  refine ⟨h.mem, h.calls, h.regs, hf, fun l hl => ?_⟩
  have hold := h.link l hl
  cases l <;> exact hold

theorem Common.Holds.execMov (h : κ.Holds s s') {source source' dest dest' : Op}
    (hafter : ((κ.value w source source').bind fun n => κ.write w n dest dest') = some κ') :
    Option.Rel κ'.Holds (execMov s w source dest) (execMov s' w source' dest') := by
  obtain ⟨n, hvalue, hwrite⟩ := Option.bind_eq_some_iff.mp hafter
  exact rel_bind (h.value_holds hvalue) fun _ _ hv => h.write_holds hwrite hv

theorem Common.Holds.execUnary (h : κ.Holds s s') {f : Unary} {dest dest' : Op}
    (hafter : ((κ.value w dest dest').bind fun n => (Common.withFlags (8 ≤ n)) <$> κ.write w n dest dest') = some κ') :
    Option.Rel κ'.Holds (execUnary s w f.apply f.exact dest) (execUnary s' w f.apply f.exact dest') := by
  obtain ⟨n, hvalue, hafter⟩ := Option.bind_eq_some_iff.mp hafter
  obtain ⟨κ₁, hwrite, rfl⟩ := Option.map_eq_some_iff.mp hafter
  refine rel_bind (h.value_holds hvalue) fun v v' hv => ?_
  refine rel_bind (h.write_holds hwrite (hv.unary f)) fun t t' ht => .some (ht.withFlags fun hn => ?_)
  rw [hv.eq (of_decide_eq_true hn)]

theorem Common.Holds.execBinary (h : κ.Holds s s') {f : Binary} {source source' dest dest' : Op}
    (hafter : ((κ.value w source source').bind fun m => (κ.value w dest dest').bind fun n =>
      (Common.withFlags (8 ≤ min m n)) <$> κ.write w (min m n) dest dest') = some κ') :
    Option.Rel κ'.Holds (execBinary s w f.apply f.exact source dest)
      (execBinary s' w f.apply f.exact source' dest') := by
  obtain ⟨m, hsource, hafter⟩ := Option.bind_eq_some_iff.mp hafter
  obtain ⟨n, hdest, hafter⟩ := Option.bind_eq_some_iff.mp hafter
  obtain ⟨κ₁, hwrite, rfl⟩ := Option.map_eq_some_iff.mp hafter
  refine rel_bind (h.value_holds hsource) fun b b' hb => rel_bind (h.value_holds hdest) fun a a' ha => ?_
  have hresult := (ha.mono (Nat.min_le_right m n)).binary f (hb.mono (Nat.min_le_left m n))
  refine rel_bind (h.write_holds hwrite hresult) fun t t' ht => .some (ht.withFlags fun hn => ?_)
  have hle : 8 ≤ min m n := of_decide_eq_true hn
  rw [ha.eq (by omega), hb.eq (by omega)]

theorem Common.Holds.execDiv (h : κ.Holds s s') {source source' : Op}
    (hafter : ((κ.value .R source source').bind fun n =>
      if 8 ≤ n ∧ 8 ≤ κ.low .ax ∧ 8 ≤ κ.low .dx then some ((κ.setLow .ax 8).setLow .dx 8) else none) = some κ') :
    Option.Rel κ'.Holds (execDiv s source) (execDiv s' source') := by
  obtain ⟨n, hvalue, hafter⟩ := Option.bind_eq_some_iff.mp hafter
  simp only [Option.ite_none_right_eq_some, Option.some.injEq] at hafter
  obtain ⟨⟨hn, hax, hdx⟩, rfl⟩ := hafter
  refine rel_bind (h.value_holds hvalue) fun v v' hv => ?_
  rw [hv.eq hn, (h.regs .ax).eq hax, (h.regs .dx).eq hdx]
  dsimp only
  split
  · exact .none
  · exact .some ((h.setReg (.refl 8 _) .ax).setReg (.refl 8 _) .dx)

theorem Common.Holds.execCall (h : κ.Holds s s') (hdi : 8 ≤ κ.low .di) (hsi : 8 ≤ κ.low .si) (hsp : 8 ≤ κ.low .sp)
    (env : Env) (name : String) :
    Common.Holds ⟨fun r => if kept r then κ.low r else 8, κ.flags, none⟩ (execCall env s name)
      (execCall env s' name) := by
  have hcalls : s'.calls ++ [⟨name, s'.regs .di, s'.regs .si, s'.regs .sp, s'.mem⟩] =
      s.calls ++ [⟨name, s.regs .di, s.regs .si, s.regs .sp, s.mem⟩] := by
    rw [h.calls, h.mem, (h.regs .di).eq hdi, (h.regs .si).eq hsi, (h.regs .sp).eq hsp]
  unfold Asm.execCall
  rw [hcalls]
  refine ⟨rfl, rfl, fun r => ?_, h.flags, fun l hl => by cases hl⟩
  by_cases hr : r = .sp ∨ r = .bp
  · have hk : kept r = true := decide_eq_true hr
    simp only [hk, if_true, hr]
    exact h.regs r
  · have hk : kept r = false := decide_eq_false hr
    simp only [hk, hr, if_false]
    exact .refl _ _

end

end Mjc.Asm

import Mjc.Asm.LowerSlots

/-!
# What the code of a node does

* `Place.word` : the word at the place of a node;
* `Does` : one instruction, its flags left open;
* `Leaves` : a piece of code that ends, with the memory it leaves;
* `leaves_binaryCode`, `leaves_minusCode`, `leaves_loadCode`, `leaves_storeCode`, `run_divisionCode` : the code
  of a node, for any places.
-/

namespace Mjc.Asm
open Mjc.Firm Mjc.Bytes

set_option autoImplicit false

/-! ## Operands -/

/-- The word in a slot. -/
def slotWord (mem : Mem) (offset : Int) : Word := BitVec.ofNat 64 (read mem (.frame offset) 8)

/-- The word at a place. -/
def Place.word (mem : Mem) : Place → Word
  | .imm value => BitVec.ofInt 64 value
  | .slot offset => slotWord mem offset

theorem slotWord_toNat (mem : Mem) (offset : Int) : (slotWord mem offset).toNat = read mem (.frame offset) 8 := by
  have h := read_lt mem (.frame offset) 8
  rw [slotWord, BitVec.toNat_ofNat]
  exact Nat.mod_eq_of_lt h

theorem readOp_place (st : State) (w : RegMode) (p : Place) : readOp st w p.op = some (w.low (p.word st.mem)) := by
  cases p with
  | imm v => rfl
  | slot o =>
    show some (BitVec.ofNat 64 (read st.mem (.frame o) w.bytes)) = some (w.low (slotWord st.mem o))
    congr 1
    apply BitVec.eq_of_toNat_eq
    have hlt : read st.mem (Loc.frame o) w.bytes < 2 ^ 64 :=
      Nat.lt_of_lt_of_le (read_lt _ _ _) (Nat.pow_le_pow_right (by decide : 0 < 256) w.bytes_le)
    rw [toNat_low, slotWord_toNat, read_mod _ _ w.bytes_le, BitVec.toNat_ofNat, Nat.mod_eq_of_lt hlt]

/-! ## Instructions at places -/

section
variable (env : Env) (st : State) (p : Place) (r : RegName) (o : Int)

theorem widthOf_place (w : RegMode) : widthOf [p.op, .reg r w] = some w := by
  cases p <;> rfl

theorem oneMemory_place (q : Op) (h : ∀ b m k, q ≠ .ind b m k) : oneMemory [p.op, q] = true := by
  cases p <;> cases q <;> simp_all [Place.op, oneMemory]

/-- The instruction ends in a state with these registers and this memory, its flags left open. -/
def Does (env : Env) (i : Instr) (st : State) (regs : RegName → Word) (mem : Mem) : Prop :=
  ∃ flags, exec env i st = some ({ st with regs := regs, mem := mem, flags := flags }, none)

theorem does_mov_place (w : RegMode) (hr : r ≠ .bp) : Does env ⟨.Mov, [p.op, .reg r w]⟩ st
    (Function.update st.regs r (mergeReg w (st.regs r) (w.low (p.word st.mem)))) st.mem := by
  refine ⟨st.flags, ?_⟩
  simp [exec, oneMemory_place, widthOf_place, execMov, readOp_place, writeOp, hr, State.setReg]

theorem does_store_slot : Does env ⟨.Mov, [.reg r .R, .ind .bp .R o]⟩ st st.regs
    (write st.mem (.frame o) 8 (st.regs r).toNat) := by
  refine ⟨st.flags, ?_⟩
  simp [exec, oneMemory, widthOf, execMov, readOp, writeOp, low_R, locOf, RegMode.bytes]

/-- The operation of a binary instruction. -/
def binaryOf : Mnemonic → Option (Word → Word → Word)
  | .Add => some (· + ·)
  | .Sub => some (· - ·)
  | .IMul => some (· * ·)
  | _ => none

theorem binaryOf_add : binaryOf .Add = some (· + ·) := rfl
theorem binaryOf_sub : binaryOf .Sub = some (· - ·) := rfl
theorem binaryOf_imul : binaryOf .IMul = some (· * ·) := rfl

theorem execBinary_place (f : Word → Word → Word) (exact : Int → Int → Int) :
    ∃ flags, execBinary st .R f exact p.op rbx = some { st with
      regs := Function.update st.regs .bx (f (st.regs .bx) (p.word st.mem))
      flags := flags } := by
  refine ⟨flagsOf .R (f (st.regs .bx) (p.word st.mem))
    (overflows .R (exact (signed .R (st.regs .bx)) (signed .R (p.word st.mem)))), ?_⟩
  simp [rbx, execBinary, readOp_place, readOp_reg, writeOp, low_R, mergeReg, State.setReg]

theorem does_binary_place {mnemonic : Mnemonic} {f : Word → Word → Word} (hf : binaryOf mnemonic = some f) :
    Does env ⟨mnemonic, [p.op, rbx]⟩ st (Function.update st.regs .bx (f (st.regs .bx) (p.word st.mem))) st.mem := by
  have hone : oneMemory [p.op, rbx] = true := oneMemory_place p _ (by simp [rbx])
  have hw : widthOf [p.op, rbx] = some .R := widthOf_place p .bx .R
  cases mnemonic with
  | Add =>
    cases hf
    obtain ⟨flags, h⟩ := execBinary_place st p (· + ·) (· + ·)
    exact ⟨flags, by simp [exec, hone, hw, h]⟩
  | Sub =>
    cases hf
    obtain ⟨flags, h⟩ := execBinary_place st p (· - ·) (· - ·)
    exact ⟨flags, by simp [exec, hone, hw, h]⟩
  | IMul =>
    cases hf
    obtain ⟨flags, h⟩ := execBinary_place st p (· * ·) (· * ·)
    exact ⟨flags, by simp [exec, hone, hw, h]⟩
  | _ => cases hf

theorem does_neg (w : RegMode) (hr : r ≠ .bp) : Does env ⟨.Neg, [.reg r w]⟩ st
    (Function.update st.regs r (mergeReg w (st.regs r) (-w.low (st.regs r)))) st.mem := by
  refine ⟨flagsOf w (-w.low (st.regs r)) (overflows w (-signed w (w.low (st.regs r)))), ?_⟩
  simp [exec, oneMemory, widthOf, execUnary, readOp_reg, writeOp, hr, State.setReg]

theorem does_makeMov_slot (w : RegMode) : Does env (makeMov w (.reg r w) (.ind .bp .R o)) st st.regs
    (write st.mem (.frame o) w.bytes (w.low (st.regs r)).toNat) := by
  refine ⟨st.flags, ?_⟩
  cases w <;> simp [makeMov, RegMode.mov, exec, oneMemory, execMov, readOp_reg, writeOp, locOf]

/-! ## The code of a node -/

/-- The code ends, with this memory. -/
def Leaves (env : Env) (is : List Instr) (st : State) (mem : Mem) : Prop :=
  ∃ st', runBlock env is (st, none) = some (st', none) ∧ st'.mem = mem

variable {env st} in
theorem Does.cons {i : Instr} {is : List Instr} {regs : RegName → Word} {mem mem' : Mem} (h : Does env i st regs mem)
    (hrest : ∀ flags, Leaves env is { st with regs := regs, mem := mem, flags := flags } mem') :
    Leaves env (i :: is) st mem' := by
  obtain ⟨flags, hi⟩ := h
  obtain ⟨st', hrun, hmem⟩ := hrest flags
  exact ⟨st', by rw [runBlock_exec hi, hrun], hmem⟩

variable {env st} in
theorem Leaves.nil {mem : Mem} (h : st.mem = mem) : Leaves env [] st mem := ⟨st, rfl, h⟩

theorem leaves_binaryCode {mnemonic : Mnemonic} {f : Word → Word → Word} (hf : binaryOf mnemonic = some f)
    (q : Place) : Leaves env (binaryCode mnemonic p.op q.op (.ind .bp .R o)) st
      (write st.mem (.frame o) 8 (f (p.word st.mem) (q.word st.mem)).toNat) := by
  refine (does_mov_place env st p .bx .R (by decide)).cons fun _ => ?_
  refine (does_binary_place env _ q hf).cons fun _ => ?_
  refine (does_store_slot env _ .bx o).cons fun _ => ?_
  apply Leaves.nil
  simp only [Function.update_self, low_R, mergeReg]

theorem neg_mod (w : RegMode) {u v : Word} (h : u.toNat % 256 ^ w.bytes = v.toNat % 256 ^ w.bytes) :
    (-u).toNat % 256 ^ w.bytes = (-v).toNat % 256 ^ w.bytes := by
  have hu := u.isLt
  have hv := v.isLt
  rw [BitVec.toNat_neg, BitVec.toNat_neg]
  cases w <;> simp only [RegMode.bytes] at h ⊢ <;> omega

theorem leaves_minusCode (w : RegMode) : Leaves env (minusCode w p.op (.ind .bp .R o)) st
    (write st.mem (.frame o) w.bytes (-p.word st.mem).toNat) := by
  refine (does_mov_place env st p .bx w (by decide)).cons fun _ => ?_
  refine (does_neg env _ .bx w (by decide)).cons fun _ => ?_
  refine (does_makeMov_slot env _ .bx o w).cons fun _ => ?_
  apply Leaves.nil
  apply write_congr
  simp only [Function.update_self]
  rw [low_mod, mergeReg_mod]
  apply neg_mod
  rw [low_mod, mergeReg_mod, low_mod]

theorem does_makeMov_place (w : RegMode) (hr : r ≠ .bp) : Does env (makeMov w p.op (.reg r w)) st
    (Function.update st.regs r (mergeReg w (st.regs r) (w.low (p.word st.mem)))) st.mem := by
  refine ⟨st.flags, ?_⟩
  cases w <;> simp [makeMov, RegMode.mov, exec, oneMemory_place, execMov, readOp_place, writeOp, hr, State.setReg]

theorem locOf_bx (regs : RegName → Word) : locOf regs .bx 0 = .addr (regs .bx) := by
  simp [locOf]

/-- The value that a load leaves in `%rcx`. -/
def loaded (w : RegMode) (old : Word) (mem : Mem) (a : Word) : Word :=
  mergeReg w old (BitVec.ofNat 64 (read mem (.addr a) w.bytes))

theorem does_load_bx (w : RegMode) : Does env (makeMov w (.ind .bx .R 0) (.reg .cx w)) st
    (Function.update st.regs .cx (loaded w (st.regs .cx) st.mem (st.regs .bx))) st.mem := by
  refine ⟨st.flags, ?_⟩
  cases w <;> simp [makeMov, RegMode.mov, exec, oneMemory, execMov, readOp, writeOp, State.setReg, locOf_bx, loaded]

theorem does_movq_slot : Does env ⟨.Movq, [.reg r .R, .ind .bp .R o]⟩ st st.regs
    (write st.mem (.frame o) 8 (st.regs r).toNat) := by
  refine ⟨st.flags, ?_⟩
  simp [exec, oneMemory, execMov, readOp, writeOp, low_R, locOf, RegMode.bytes]

theorem leaves_loadCode (w : RegMode) : Leaves env (loadCode w p.op (.ind .bp .R o)) st
    (write st.mem (.frame o) 8 (loaded w (st.regs .cx) st.mem (p.word st.mem)).toNat) := by
  refine (does_makeMov_place env st p .bx .R (by decide)).cons fun _ => ?_
  refine (does_load_bx env _ w).cons fun _ => ?_
  refine (does_movq_slot env _ .cx o).cons fun _ => ?_
  apply Leaves.nil
  simp [Function.update_self, low_R, mergeReg]

theorem does_store_bx (w : RegMode) : Does env (makeMov w (.reg r w) (.ind .bx .R 0)) st st.regs
    (write st.mem (.addr (st.regs .bx)) w.bytes (st.regs r).toNat) := by
  refine ⟨st.flags, ?_⟩
  have hwrite := write_congr st.mem (.addr (st.regs .bx)) (low_mod w (st.regs r))
  rw [← hwrite]
  cases w <;> simp [makeMov, RegMode.mov, exec, oneMemory, execMov, readOp_reg, writeOp, locOf_bx]

theorem does_storeImm_bx (w : RegMode) (v : Int) : Does env (makeMov w (.imm v) (.ind .bx .R 0)) st st.regs
    (write st.mem (.addr (st.regs .bx)) w.bytes (BitVec.ofInt 64 v).toNat) := by
  refine ⟨st.flags, ?_⟩
  have hwrite := write_congr st.mem (.addr (st.regs .bx)) (low_mod w (BitVec.ofInt 64 v))
  rw [← hwrite]
  cases w <;> simp [makeMov, RegMode.mov, exec, oneMemory, execMov, readOp, writeOp, locOf_bx]

theorem leaves_storeCode (w : RegMode) (q : Place) : Leaves env (storeCode w p.op q.op) st
    (write st.mem (.addr (p.word st.mem)) w.bytes (q.word st.mem).toNat) := by
  cases q with
  | imm v =>
    refine (does_makeMov_place env st p .bx .R (by decide)).cons fun _ => ?_
    refine (does_storeImm_bx env _ w v).cons fun _ => ?_
    apply Leaves.nil
    simp only [Function.update_self, low_R, mergeReg, Place.word]
  | slot o =>
    refine (does_makeMov_place env st p .bx .R (by decide)).cons fun _ => ?_
    refine (does_makeMov_place env _ (.slot o) .cx .R (by decide)).cons fun _ => ?_
    refine (does_store_bx env _ .cx w).cons fun _ => ?_
    apply Leaves.nil
    simp [Function.update_self, low_R, mergeReg, Place.word]

/-! ## Division -/

theorem low_E_setWidth (v : Word) : (RegMode.low .E v).setWidth 32 = v.setWidth 32 := by
  rw [setWidth_eq_iff]
  exact low_mod .E v

theorem does_movslq_place (hr : r ≠ .bp) : Does env ⟨.Movslq, [p.op, .reg r .R]⟩ st
    (Function.update st.regs r (low (p.word st.mem))) st.mem := by
  refine ⟨st.flags, ?_⟩
  simp [exec, oneMemory_place, readOp_place, writeOp, hr, State.setReg, mergeReg, low_E_setWidth, low]

theorem does_movslq_self (hr : r ≠ .bp) : Does env ⟨.Movslq, [.reg r .E, .reg r .R]⟩ st
    (Function.update st.regs r (low (st.regs r))) st.mem := by
  refine ⟨st.flags, ?_⟩
  simp [exec, oneMemory, readOp_reg, writeOp, hr, State.setReg, mergeReg, low_E_setWidth, low]

/-- The operand of a division, in its register. -/
theorem run_divOperand (hr : r ≠ .bp) (is : List Instr) :
    ∃ flags, runBlock env (divOperand p.op r ++ is) (st, none) =
      runBlock env is ({ st with regs := Function.update st.regs r (low (p.word st.mem)), flags := flags }, none) := by
  cases p with
  | imm v =>
    obtain ⟨f₁, h₁⟩ := does_mov_place env st (.imm v) r .R hr
    obtain ⟨f₂, h₂⟩ := does_movslq_self env { st with
      regs := Function.update st.regs r (mergeReg .R (st.regs r) (RegMode.low .R (Place.word st.mem (.imm v))))
      flags := f₁ } r hr
    refine ⟨f₂, ?_⟩
    show runBlock env (⟨.Mov, [(Place.imm v).op, .reg r .R]⟩ :: ⟨.Movslq, [.reg r .E, .reg r .R]⟩ :: is) (st, none) = _
    rw [runBlock_exec h₁, runBlock_exec h₂]
    simp [low_R, mergeReg]
  | slot o =>
    obtain ⟨f, h⟩ := does_movslq_place env st (.slot o) r hr
    exact ⟨f, runBlock_exec h is⟩

theorem low_toInt (v : Word) : -2 ^ 31 ≤ (low v).toInt ∧ (low v).toInt < 2 ^ 31 := by
  rw [low, BitVec.toInt_signExtend_of_le (by decide)]
  exact ⟨BitVec.le_toInt _, BitVec.toInt_lt⟩

/-- The sign of `%rax` in all of `%rdx`. -/
theorem dividend_eq (a : Word) : (if a.msb then (-1 : Word) else 0).toInt * 2 ^ 64 + a.toNat = a.toInt := by
  have h := BitVec.toInt_eq_msb_cond a
  cases hm : a.msb with
  | false =>
    rw [hm] at h
    simpa using h.symm
  | true =>
    rw [hm] at h
    have hone : (-1 : Word).toInt = -1 := by decide
    rw [if_pos rfl] at h ⊢
    rw [h, hone]
    omega

theorem tdiv_bounds {a b : Int} (ha : -2 ^ 31 ≤ a ∧ a < 2 ^ 31) : -2 ^ 31 ≤ a.tdiv b ∧ a.tdiv b ≤ 2 ^ 31 := by
  have h := Int.natAbs_tdiv_le_natAbs a b
  omega

theorem exec_idiv (a : Word) (hax : st.regs .ax = low a) (hdx : st.regs .dx = if (low a).msb then -1 else 0)
    (b : Word) (hcx : st.regs .cx = low b) :
    exec env ⟨.Div, [rcx]⟩ st = if low b = 0 then none else
      some ((st.setReg .ax (quot (low a) (low b))).setReg .dx (rem (low a) (low b)), none) := by
  have hdiv := @tdiv_bounds _ (low b).toInt (low_toInt a)
  have hover : overflows .R ((low a).toInt.tdiv (low b).toInt) = false := by
    have hmin : ¬(low a).toInt.tdiv (low b).toInt < -2 ^ 63 := by omega
    have hmax : ¬2 ^ 63 ≤ (low a).toInt.tdiv (low b).toInt := by omega
    simp [overflows, RegMode.bytes, -Int.reducePow, hmin, hmax]
  have hzero : (low b).toInt = 0 ↔ low b = 0 := by
    constructor
    · intro h
      exact BitVec.eq_of_toInt_eq (by simpa using h)
    · intro h
      rw [h]
      rfl
  have hread : readOp st .R rcx = some (low b) := by
    rw [rcx, readOp_reg, low_R, hcx]
  by_cases hb : low b = 0
  · rw [if_pos hb]
    simp [exec, oneMemory, execDiv, hread, hb]
  · rw [if_neg hb]
    have hb' : (low b).toInt ≠ 0 := fun h => hb (hzero.1 h)
    simp only [exec, oneMemory, execDiv, hread, hax, hdx, dividend_eq, Option.bind_eq_bind, Option.bind_some, hb',
      hover]
    rfl

theorem exec_cqto : exec env ⟨.Cqto, []⟩ st = some (st.setReg .dx (if (st.regs .ax).msb then -1 else 0), none) := rfl

theorem run_divisionCode {result : RegName} {f : Word → Word → Word}
    (hf : result = .ax ∧ f = quot ∨ result = .dx ∧ f = rem) (q : Place) :
    (low (q.word st.mem) = 0 → runBlock env (divisionCode result p.op q.op (.ind .bp .R o)) (st, none) = none) ∧
    (low (q.word st.mem) ≠ 0 → Leaves env (divisionCode result p.op q.op (.ind .bp .R o)) st
      (write st.mem (.frame o) 8 (f (low (p.word st.mem)) (low (q.word st.mem))).toNat)) := by
  obtain ⟨f₁, h₁⟩ := run_divOperand env st p .ax (by decide) (divOperand q.op .cx ++
    [⟨.Cqto, []⟩, ⟨.Div, [rcx]⟩, ⟨.Movq, [.reg result .R, .ind .bp .R o]⟩])
  obtain ⟨f₂, h₂⟩ := run_divOperand env { st with
    regs := Function.update st.regs .ax (low (p.word st.mem)), flags := f₁ } q .cx (by decide)
    [⟨.Cqto, []⟩, ⟨.Div, [rcx]⟩, ⟨.Movq, [.reg result .R, .ind .bp .R o]⟩]
  generalize hst₂ : ({ st with
    regs := Function.update (Function.update st.regs .ax (low (p.word st.mem))) .cx (low (q.word st.mem))
    flags := f₂ } : State) = st₂ at h₂
  have hmem : st₂.mem = st.mem := by rw [← hst₂]
  have hax : st₂.regs .ax = low (p.word st.mem) := by simp [← hst₂]
  have hcx : st₂.regs .cx = low (q.word st.mem) := by simp [← hst₂]
  have hdiv := exec_idiv env (st₂.setReg .dx (if (st₂.regs .ax).msb then -1 else 0)) (p.word st.mem)
    (by simp [State.setReg, hax]) (by simp [State.setReg, hax]) (q.word st.mem) (by simp [State.setReg, hcx])
  constructor
  · intro hzero
    rw [if_pos hzero] at hdiv
    rw [divisionCode, h₁, h₂, runBlock_exec (exec_cqto ..), runBlock_fails hdiv]
  · intro hzero
    rw [if_neg hzero] at hdiv
    obtain ⟨f₃, h₃⟩ := does_movq_slot env _ result o
    refine ⟨_, by rw [divisionCode, h₁, h₂, runBlock_exec (exec_cqto ..), runBlock_exec hdiv, runBlock_exec h₃]; rfl, ?_⟩
    rcases hf with ⟨rfl, rfl⟩ | ⟨rfl, rfl⟩
    · simp [State.setReg, hmem]
    · simp [State.setReg, hmem]

end

end Mjc.Asm

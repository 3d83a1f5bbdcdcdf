import Mathlib.Data.List.Basic
import Mjc.Asm.Instr
import Mjc.Bytes

/-!
# Running instructions

The x86-64 meaning of the instructions that the code generator emits.

* `Loc` : a byte of memory. The frame of the running method, addressed off `%rbp`, is apart from all other
  memory; no emitted instruction writes `%rbp` inside a method body;
* `State` : registers, memory, flags, and the calls made so far;
* `readOp`, `writeOp` : an operand at a width; a 32-bit write to a register clears its upper half, an 8-bit
  write keeps the rest of it;
* `exec` : one instruction. `none` is an instruction that cannot be encoded, or a trap;
* `runBlock` : a list of them. The labels inside of a list are those of `generateBoolPhi`, and every jump to one of
  them goes forward: what stands before the label is passed over;
* `branches` : the outcome of every jump that is executed in a list.
-/

namespace Mjc.Asm
open Mjc.Bytes

set_option autoImplicit false

/-- A byte of memory: at an offset of the frame, or at an address outside of it. -/
inductive Loc where
  | frame (offset : Int)
  | addr (a : BitVec 64)
  deriving DecidableEq

/-- The byte `i` further on. -/
def Loc.shift : Loc → Nat → Loc
  | .frame offset, i => .frame (offset + i)
  | .addr a, i => .addr (a + BitVec.ofNat 64 i)

instance : Addr Loc where
  shift := Loc.shift
  shift_inj := by
    intro a i j hi hj h
    cases a with
    | frame offset =>
      have : offset + i = offset + j := by simpa [Loc.shift] using h
      omega
    | addr a =>
      have : BitVec.ofNat 64 i = BitVec.ofNat 64 j := by simpa [Loc.shift] using h
      have h' := congrArg BitVec.toNat this
      simp only [BitVec.toNat_ofNat] at h'
      omega

abbrev Mem := Loc → BitVec 8

/-- The flags that conditional jumps read. -/
structure Flags where
  zf : Bool
  sf : Bool
  of : Bool
  deriving DecidableEq

/-- A call: its target, the argument registers, and the memory with the stack arguments in it. -/
structure CallEvent where
  name : String
  di : BitVec 64
  si : BitVec 64
  sp : BitVec 64
  mem : Mem

/-- The machine between two instructions. -/
structure State where
  regs : RegName → BitVec 64
  mem : Mem
  flags : Flags
  calls : List CallEvent

/-- What a call leaves behind, given the calls so far with this one last: registers and memory. -/
abbrev Env := List CallEvent → (RegName → BitVec 64) × Mem

/-! ## Operands -/

/-- The number of bytes of a mode. -/
def RegMode.bytes : RegMode → Nat
  | .R => 8
  | .E => 4
  | .L => 1

/-- The low part of a word that a mode stands for. -/
def RegMode.low (w : RegMode) (v : BitVec 64) : BitVec 64 := (v.setWidth (8 * w.bytes)).setWidth 64

/-- The location of a memory operand. -/
def locOf (regs : RegName → BitVec 64) (base : RegName) (offset : Int) : Loc :=
  if base = .bp then .frame offset else .addr (regs base + BitVec.ofInt 64 offset)

/-- The value of an operand read at a width. -/
def readOp (s : State) (w : RegMode) : Op → Option (BitVec 64)
  | .imm value => some (w.low (BitVec.ofInt 64 value))
  | .reg name mode => if mode = w then some (w.low (s.regs name)) else none
  | .ind base mode offset =>
    if mode = .R then some (BitVec.ofNat 64 (read s.mem (locOf s.regs base offset) w.bytes)) else none
  | .str _ => none

/-- What a write at a width leaves in a register. -/
def mergeReg (w : RegMode) (old v : BitVec 64) : BitVec 64 :=
  match w with
  | .R => v
  | .E => (v.setWidth 32).setWidth 64
  | .L => BitVec.ofNat 64 (v.toNat % 256 + 256 * (old.toNat / 256))

def State.setReg (s : State) (name : RegName) (v : BitVec 64) : State :=
  { s with regs := Function.update s.regs name v }

/-- Write an operand at a width. -/
def writeOp (s : State) (w : RegMode) (v : BitVec 64) : Op → Option State
  | .reg name mode =>
    if mode = w ∧ name ≠ .bp then some (s.setReg name (mergeReg w (s.regs name) v)) else none
  | .ind base mode offset =>
    if mode = .R then some { s with mem := write s.mem (locOf s.regs base offset) w.bytes v.toNat } else none
  | _ => none

theorem toNat_low (w : RegMode) (v : BitVec 64) : (w.low v).toNat = v.toNat % 256 ^ w.bytes := by
  have hv := v.isLt
  cases w <;> simp [RegMode.low, RegMode.bytes] <;> omega

theorem low_R (v : BitVec 64) : RegMode.low .R v = v := by
  apply BitVec.eq_of_toNat_eq
  rw [toNat_low]
  exact Nat.mod_eq_of_lt v.isLt

theorem RegMode.bytes_le (w : RegMode) : w.bytes ≤ 8 := by
  cases w <;> decide

theorem low_mod (w : RegMode) (v : BitVec 64) : (w.low v).toNat % 256 ^ w.bytes = v.toNat % 256 ^ w.bytes := by
  rw [toNat_low, Nat.mod_mod]

theorem mergeReg_mod (w : RegMode) (old v : BitVec 64) :
    (mergeReg w old v).toNat % 256 ^ w.bytes = v.toNat % 256 ^ w.bytes := by
  have hv := v.isLt
  have ho := old.isLt
  cases w with
  | R => rfl
  | E => simp [mergeReg, RegMode.bytes]
  | L =>
    simp only [mergeReg, RegMode.bytes, BitVec.toNat_ofNat]
    omega

theorem readOp_reg (st : State) (w : RegMode) (r : RegName) : readOp st w (.reg r w) = some (w.low (st.regs r)) :=
  if_pos rfl

/-! ## Instructions -/

/-- The flags after an operation with this result; `of` is the signed overflow. -/
def flagsOf (w : RegMode) (result : BitVec 64) (of : Bool) : Flags :=
  ⟨w.low result = 0, (result.setWidth (8 * w.bytes)).msb, of⟩

/-- A signed operation overflows at the width. -/
def overflows (w : RegMode) (exact : Int) : Bool :=
  decide (exact < -2 ^ (8 * w.bytes - 1)) || decide (2 ^ (8 * w.bytes - 1) ≤ exact)

/-- The signed value at a width. -/
def signed (w : RegMode) (v : BitVec 64) : Int := (v.setWidth (8 * w.bytes)).toInt

/-- The width that a register operand gives to an instruction without a suffix. -/
def widthOf : List Op → Option RegMode
  | [.reg _ mode] | [.reg _ mode, .imm _] | [.reg _ mode, .ind _ _ _] => some mode
  | [.imm _, .reg _ mode] | [.ind _ _ _, .reg _ mode] => some mode
  | [.reg _ mode, .reg _ mode'] => if mode = mode' then some mode else none
  | _ => none

/-- No instruction has two memory operands. -/
def oneMemory : List Op → Bool
  | [.ind _ _ _, .ind _ _ _] => false
  | _ => true

/-- The condition of a conditional jump. -/
def taken (f : Flags) : Mnemonic → Bool
  | .Je => f.zf
  | .Jne => !f.zf
  | .Jl => f.sf != f.of
  | .Jge => f.sf == f.of
  | .Jle => f.zf || f.sf != f.of
  | .Jg => !f.zf && f.sf == f.of
  | _ => true

/-- A move at a width. -/
def execMov (s : State) (w : RegMode) (source dest : Op) : Option State := do
  let v ← readOp s w source
  writeOp s w v dest

/-- An operation on two operands that writes the second one and sets the flags. -/
def execBinary (s : State) (w : RegMode) (f : BitVec 64 → BitVec 64 → BitVec 64) (exact : Int → Int → Int)
    (source dest : Op) : Option State := do
  let b ← readOp s w source
  let a ← readOp s w dest
  let s' ← writeOp s w (f a b) dest
  some { s' with flags := flagsOf w (f a b) (overflows w (exact (signed w a) (signed w b))) }

/-- An operation on one operand. -/
def execUnary (s : State) (w : RegMode) (f : BitVec 64 → BitVec 64) (exact : Int → Int) (dest : Op) :
    Option State := do
  let a ← readOp s w dest
  let s' ← writeOp s w (f a) dest
  some { s' with flags := flagsOf w (f a) (overflows w (exact (signed w a))) }

/-- `idivq`: divide `%rdx:%rax`, quotient to `%rax`, remainder to `%rdx`. -/
def execDiv (s : State) (source : Op) : Option State := do
  let v ← readOp s .R source
  let dividend := (s.regs .dx).toInt * 2 ^ 64 + (s.regs .ax).toNat
  let divisor := v.toInt
  if divisor = 0 ∨ overflows .R (dividend.tdiv divisor) then none
  else some ((s.setReg .ax (BitVec.ofInt 64 (dividend.tdiv divisor))).setReg .dx
    (BitVec.ofInt 64 (dividend.tmod divisor)))

/-- A call: everything but `%rsp` and `%rbp` may change. -/
def execCall (env : Env) (s : State) (name : String) : State :=
  let calls := s.calls ++ [⟨name, s.regs .di, s.regs .si, s.regs .sp, s.mem⟩]
  let (regs, mem) := env calls
  { s with
    regs := fun r => if r = .sp ∨ r = .bp then s.regs r else regs r
    mem := mem
    calls := calls }

/-- What an instruction does: the next state, and the label it jumps to. -/
def exec (env : Env) (i : Instr) (s : State) : Option (State × Option String) :=
  if !oneMemory i.ops then none else
  match i.mnemonic, i.ops with
  | .Mov, [source, dest] => do
    let w ← widthOf [source, dest]
    (·, none) <$> execMov s w source dest
  | .Movq, [source, dest] => (·, none) <$> execMov s .R source dest
  | .Movl, [source, dest] => (·, none) <$> execMov s .E source dest
  | .Movb, [source, dest] => (·, none) <$> execMov s .L source dest
  | .Movslq, [source, dest] => do
    let v ← readOp s .E source
    (·, none) <$> writeOp s .R ((v.setWidth 32).signExtend 64) dest
  | .Add, [source, dest] => do
    let w ← widthOf [source, dest]
    (·, none) <$> execBinary s w (· + ·) (· + ·) source dest
  | .Sub, [source, dest] => do
    let w ← widthOf [source, dest]
    (·, none) <$> execBinary s w (· - ·) (· - ·) source dest
  | .IMul, [source, dest] => do
    let w ← widthOf [source, dest]
    (·, none) <$> execBinary s w (· * ·) (· * ·) source dest
  | .Xor, [source, dest] => do
    let w ← widthOf [source, dest]
    (·, none) <$> execBinary s w (· ^^^ ·) (fun _ _ => 0) source dest
  | .Cmp, [source, dest] => do
    let w ← widthOf [source, dest]
    let b ← readOp s w source
    let a ← readOp s w dest
    some ({ s with flags := flagsOf w (a - b) (overflows w (signed w a - signed w b)) }, none)
  | .Neg, [dest] => do
    let w ← widthOf [dest]
    (·, none) <$> execUnary s w (- ·) (- ·) dest
  | .Inc, [dest] => do
    let w ← widthOf [dest]
    (·, none) <$> execUnary s w (· + 1) (· + 1) dest
  | .Dec, [dest] => do
    let w ← widthOf [dest]
    (·, none) <$> execUnary s w (· - 1) (· - 1) dest
  | .Cqto, [] => some (s.setReg .dx (if (s.regs .ax).msb then -1 else 0), none)
  | .Div, [source] => (·, none) <$> execDiv s source
  | .Call, [.str name] => some (execCall env s name, none)
  | .Label, [.str _] => some (s, none)
  | m, [.str label] => if m ∈ [Mnemonic.Jmp, .Je, .Jne, .Jg, .Jge, .Jl, .Jle] then
      some (s, if taken s.flags m then some label else none) else none
  | _, _ => none

/-- One instruction; it is passed over while a jump to a label further down is under way. -/
def stepInstr (env : Env) (c : State × Option String) (i : Instr) : Option (State × Option String) :=
  match c.2 with
  | none => exec env i c.1
  | some label => if i = ⟨.Label, [.str label]⟩ then some (c.1, none) else some c

/-- The instructions of a block: the state behind it, and the label of the jump that leaves it. -/
def runBlock (env : Env) (is : List Instr) (c : State × Option String) : Option (State × Option String) :=
  is.foldlM (stepInstr env) c

@[simp] theorem runBlock_nil (env : Env) (c : State × Option String) : runBlock env [] c = some c := rfl

@[simp] theorem runBlock_cons (env : Env) (i : Instr) (is : List Instr) (c : State × Option String) :
    runBlock env (i :: is) c = (stepInstr env c i).bind (runBlock env is) := rfl

theorem runBlock_append (env : Env) (is js : List Instr) (c : State × Option String) :
    runBlock env (is ++ js) c = (runBlock env is c).bind (runBlock env js) := by
  unfold runBlock
  rw [List.foldlM_append]
  rfl

theorem runBlock_exec {env : Env} {i : Instr} {s t : State} (h : exec env i s = some (t, none)) (is : List Instr) :
    runBlock env (i :: is) (s, none) = runBlock env is (t, none) := congrArg (Option.bind · (runBlock env is)) h

theorem runBlock_fails {env : Env} {i : Instr} {s : State} (h : exec env i s = none) (is : List Instr) :
    runBlock env (i :: is) (s, none) = none := congrArg (Option.bind · (runBlock env is)) h

/-- The outcomes of the jumps that are executed: the label that is jumped to, or none. -/
def branches (env : Env) : List Instr → State × Option String → List (Option String)
  | [], _ => []
  | i :: is, c =>
    match stepInstr env c i with
    | none => []
    | some c' => (if c.2 = none ∧ i.isJmp then [c'.2] else []) ++ branches env is c'

theorem branches_append {env : Env} {is : List Instr} {c : State × Option String} (js : List Instr) :
    branches env (is ++ js) c = branches env is c ++ (runBlock env is c).elim [] (branches env js) := by
  induction is generalizing c with
  | nil => rfl
  | cons i is ih =>
    rw [List.cons_append, branches, branches, runBlock_cons]
    cases stepInstr env c i with
    | none => rfl
    | some c' =>
      show _ ++ branches env (is ++ js) c' = (_ ++ branches env is c') ++ _
      rw [ih, List.append_assoc]
      rfl

/-! ## Jumps under way -/

section
variable {env : Env} {is : List Instr} {c : State × Option String}

/-- The list has no label to jump to. -/
def NoLabels (is : List Instr) : Prop := ∀ i ∈ is, i.mnemonic ≠ .Label

theorem stepInstr_pending {i : Instr} (hi : i.mnemonic ≠ .Label) (s : State) (label : String) :
    stepInstr env (s, some label) i = some (s, some label) := by
  refine if_neg ?_
  rintro rfl
  exact hi rfl

theorem runBlock_pending (his : NoLabels is) (s : State) (label : String) :
    runBlock env is (s, some label) = some (s, some label) := by
  induction is with
  | nil => rfl
  | cons i is ih =>
    rw [runBlock_cons, stepInstr_pending (his i List.mem_cons_self)]
    exact ih fun j hj => his j (by simp [hj])

theorem branches_eq_nil (his : ∀ i ∈ is, i.isJmp = false) : branches env is c = [] := by
  induction is generalizing c with
  | nil => rfl
  | cons i is ih =>
    rw [branches, his i List.mem_cons_self]
    cases stepInstr env c i with
    | none => rfl
    | some c' => simpa using ih fun j hj => his j (by simp [hj])

theorem branches_pending (his : NoLabels is) (s : State) (label : String) : branches env is (s, some label) = [] := by
  induction is with
  | nil => rfl
  | cons i is ih =>
    rw [branches, stepInstr_pending (his i List.mem_cons_self)]
    simpa using ih fun j hj => his j (by simp [hj])

end

end Mjc.Asm

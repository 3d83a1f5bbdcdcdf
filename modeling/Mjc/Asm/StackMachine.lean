import Mjc.Asm.Effects

/-!
# The machine with one memory

The same instructions where the frames of all methods lie on one stack, as they do when the program runs.

* `MemoryMap` : the stack and the heap objects;
* `Flat` : registers, memory, flags; `Flat.readOp`, `Flat.writeOp` : operands. `%rbp` and `%rsp` point into the stack, all
  other bases into heap objects; an access elsewhere ends the run;
* `Act.flat`, `runCode` : a decoded instruction, and a list of them;
* `Act.flat_effect` : an instruction changes `%rsp`, `%rbp` and memory at its destination only;
* `Tame`, `runCode_kept` : code that writes slots, heap objects and other registers keeps the rest of the stack.
-/

namespace Mjc.Asm
open Mjc.Bytes

set_option autoImplicit false

/-- The stack goes from `stackLow` up to `stackHigh`; the heap objects lie elsewhere. -/
structure MemoryMap where
  stackLow : Nat
  stackHigh : Nat
  heap : BitVec 64 → Bool
  heap_apart : ∀ a, heap a = true → a.toNat < stackLow ∨ stackHigh ≤ a.toNat
  -- no frame at the low end reaches around to the high end
  high_le : stackHigh + 2 ^ 33 ≤ 2 ^ 64

/-- The machine between two instructions. -/
structure Flat where
  regs : RegName → BitVec 64
  mem : BitVec 64 → BitVec 8
  flags : Flags

namespace Flat

def setReg (s : Flat) (name : RegName) (v : BitVec 64) : Flat := { s with regs := Function.update s.regs name v }

@[simp] theorem setReg_mem (s : Flat) (name : RegName) (v : BitVec 64) : (s.setReg name v).mem = s.mem := rfl

@[simp] theorem setReg_self (s : Flat) (name : RegName) (v : BitVec 64) : (s.setReg name v).regs name = v :=
  Function.update_self ..

theorem setReg_of_ne (s : Flat) {name r : RegName} (v : BitVec 64) (h : r ≠ name) : (s.setReg name v).regs r = s.regs r :=
  Function.update_of_ne h _ _

/-- The address of a memory operand. -/
def address (s : Flat) (base : RegName) (offset : Int) : BitVec 64 := s.regs base + BitVec.ofInt 64 offset

/-- The word at an address. -/
def word (s : Flat) (a : BitVec 64) : BitVec 64 := BitVec.ofNat 64 (read s.mem a 8)

end Flat

/-- The bytes lie inside the stack. -/
def MemoryMap.InStack (map : MemoryMap) (a : BitVec 64) (n : Nat) : Prop :=
  map.stackLow ≤ a.toNat ∧ a.toNat + n ≤ map.stackHigh

instance (map : MemoryMap) (a : BitVec 64) (n : Nat) : Decidable (map.InStack a n) :=
  inferInstanceAs (Decidable (map.stackLow ≤ a.toNat ∧ a.toNat + n ≤ map.stackHigh))

/-- Frames are accessed inside the stack, arrays and fields inside heap objects. -/
def MemoryMap.CanAccess (map : MemoryMap) (base : RegName) (a : BitVec 64) (n : Nat) : Prop :=
  if base = .bp ∨ base = .sp then map.InStack a n else ∀ i < n, map.heap (Addr.shift a i) = true

instance (map : MemoryMap) (base : RegName) (a : BitVec 64) (n : Nat) : Decidable (map.CanAccess base a n) :=
  inferInstanceAs (Decidable
    (if base = .bp ∨ base = .sp then map.InStack a n else ∀ i < n, map.heap (Addr.shift a i) = true))

namespace Flat

variable (map : MemoryMap)

/-- The value of an operand read at a width. -/
def readOp (s : Flat) (w : RegMode) : Op → Option (BitVec 64)
  | .imm value => some (w.low (BitVec.ofInt 64 value))
  | .reg name mode => if mode = w then some (w.low (s.regs name)) else none
  | .ind base mode offset =>
    if mode = .R ∧ map.CanAccess base (s.address base offset) w.bytes then
      some (BitVec.ofNat 64 (read s.mem (s.address base offset) w.bytes))
    else none
  | .str _ => none

/-- Write an operand at a width. -/
def writeOp (s : Flat) (w : RegMode) (v : BitVec 64) : Op → Option Flat
  | .reg name mode => if mode = w then some (s.setReg name (mergeReg w (s.regs name) v)) else none
  | .ind base mode offset =>
    if mode = .R ∧ map.CanAccess base (s.address base offset) w.bytes then
      some { s with mem := write s.mem (s.address base offset) w.bytes v.toNat }
    else none
  | _ => none

/-- `push`; a full stack ends the run. -/
def push (s : Flat) (v : BitVec 64) : Option Flat :=
  if map.InStack (s.regs .sp - 8) 8 then
    some { s.setReg .sp (s.regs .sp - 8) with mem := write s.mem (s.regs .sp - 8) 8 v.toNat }
  else none

def pop (s : Flat) : Option (BitVec 64 × Flat) :=
  if map.InStack (s.regs .sp) 8 then some (s.word (s.regs .sp), s.setReg .sp (s.regs .sp + 8)) else none

/-- `leave`: `%rsp` goes back to `%rbp`, which is popped. -/
def leave (s : Flat) : Option Flat := do
  let (bp, s) ← (s.setReg .sp (s.regs .bp)).pop map
  some (s.setReg .bp bp)

end Flat

/-- What a decoded instruction does. Calls are steps of their own. -/
def Act.flat (map : MemoryMap) (s : Flat) : Act → Option (Flat × Option String)
  | .mov w source dest => do
    let v ← s.readOp map w source
    (·, none) <$> s.writeOp map w v dest
  | .movslq source dest => do
    let v ← s.readOp map .E source
    (·, none) <$> s.writeOp map .R ((v.setWidth 32).signExtend 64) dest
  | .binary w f source dest => do
    let b ← s.readOp map w source
    let a ← s.readOp map w dest
    let s' ← s.writeOp map w (f.apply a b) dest
    some ({ s' with flags := flagsOf w (f.apply a b) (overflows w (f.exact (signed w a) (signed w b))) }, none)
  | .unary w f dest => do
    let a ← s.readOp map w dest
    let s' ← s.writeOp map w (f.apply a) dest
    some ({ s' with flags := flagsOf w (f.apply a) (overflows w (f.exact (signed w a))) }, none)
  | .cmp w source dest => do
    let b ← s.readOp map w source
    let a ← s.readOp map w dest
    some ({ s with flags := flagsOf w (a - b) (overflows w (signed w a - signed w b)) }, none)
  | .cqto => some (s.setReg .dx (if (s.regs .ax).msb then -1 else 0), none)
  | .div source => do
    let v ← s.readOp map .R source
    let dividend := (s.regs .dx).toInt * 2 ^ 64 + (s.regs .ax).toNat
    let divisor := v.toInt
    if divisor = 0 ∨ overflows .R (dividend.tdiv divisor) then none
    else some ((s.setReg .ax (BitVec.ofInt 64 (dividend.tdiv divisor))).setReg .dx
      (BitVec.ofInt 64 (dividend.tmod divisor)), none)
  | .call _ => none
  | .label => some (s, none)
  | .jump m target => some (s, if taken s.flags m then some target else none)

/-- One instruction; it is passed over while a jump to a label further down is under way. -/
def stepFlat (map : MemoryMap) (c : Flat × Option String) (i : Instr) : Option (Flat × Option String) :=
  match c.2 with
  | none => (act i).bind (Act.flat map c.1)
  | some label => if i = ⟨.Label, [.str label]⟩ then some (c.1, none) else some c

def runCode (map : MemoryMap) (is : List Instr) (c : Flat × Option String) : Option (Flat × Option String) :=
  is.foldlM (stepFlat map) c

section
variable {map : MemoryMap}

@[simp] theorem runCode_nil (c : Flat × Option String) : runCode map [] c = some c := rfl

@[simp] theorem runCode_cons (i : Instr) (is : List Instr) (c : Flat × Option String) :
    runCode map (i :: is) c = (stepFlat map c i).bind (runCode map is) := rfl

theorem runCode_append (is js : List Instr) (c : Flat × Option String) :
    runCode map (is ++ js) c = (runCode map is c).bind (runCode map js) := by
  unfold runCode
  rw [List.foldlM_append]
  rfl

/-! ## Effects -/

/-- Memory is written at the destination, and of `%rsp` and `%rbp` only a destination changes. -/
structure Effect (map : MemoryMap) (s s' : Flat) (dest : Option Op) : Prop where
  regs : ∀ r, r = .sp ∨ r = .bp → s'.regs r = s.regs r ∨ ∃ mode, dest = some (.reg r mode)
  mem : s'.mem = s.mem ∨ ∃ base offset w v, dest = some (.ind base .R offset) ∧
    map.CanAccess base (s.address base offset) (RegMode.bytes w) ∧
    s'.mem = write s.mem (s.address base offset) (RegMode.bytes w) v

theorem Effect.refl (s : Flat) (dest : Option Op) : Effect map s s dest :=
  ⟨fun _ _ => Or.inl rfl, Or.inl rfl⟩

theorem Flat.writeOp_effect {s s' : Flat} {w : RegMode} {v : BitVec 64} {dest : Op}
    (h : s.writeOp map w v dest = some s') : Effect map s s' (some dest) := by
  cases dest with
  | imm value => cases h
  | str text => cases h
  | reg name mode =>
    simp only [Flat.writeOp] at h
    split at h
    · cases h
      refine ⟨fun r _ => ?_, Or.inl rfl⟩
      by_cases hr : r = name
      · subst hr
        exact Or.inr ⟨mode, rfl⟩
      · exact Or.inl (s.setReg_of_ne _ hr)
    · cases h
  | ind base mode offset =>
    simp only [Flat.writeOp] at h
    split at h
    · rename_i hcan
      obtain ⟨rfl, hcan⟩ := hcan
      cases h
      exact ⟨fun _ _ => Or.inl rfl, Or.inr ⟨base, offset, w, v.toNat, rfl, hcan, rfl⟩⟩
    · cases h

theorem Effect.of_flags {s s' : Flat} {dest : Option Op} (h : Effect map s s' dest) (flags : Flags) :
    Effect map s { s' with flags := flags } dest := ⟨h.regs, h.mem⟩

theorem Act.flat_effect {a : Act} {s s' : Flat} {label : Option String} (h : a.flat map s = some (s', label)) :
    Effect map s s' a.dest := by
  cases a with
  | mov w source dest =>
    obtain ⟨v, -, h⟩ := Option.bind_eq_some_iff.1 h
    obtain ⟨t, ht, h⟩ := Option.map_eq_some_iff.1 h
    cases h
    exact Flat.writeOp_effect ht
  | movslq source dest =>
    obtain ⟨v, -, h⟩ := Option.bind_eq_some_iff.1 h
    obtain ⟨t, ht, h⟩ := Option.map_eq_some_iff.1 h
    cases h
    exact Flat.writeOp_effect ht
  | binary w f source dest =>
    obtain ⟨b, -, h⟩ := Option.bind_eq_some_iff.1 h
    obtain ⟨a, -, h⟩ := Option.bind_eq_some_iff.1 h
    obtain ⟨t, ht, h⟩ := Option.bind_eq_some_iff.1 h
    cases h
    exact (Flat.writeOp_effect ht).of_flags _
  | unary w f dest =>
    obtain ⟨a, -, h⟩ := Option.bind_eq_some_iff.1 h
    obtain ⟨t, ht, h⟩ := Option.bind_eq_some_iff.1 h
    cases h
    exact (Flat.writeOp_effect ht).of_flags _
  | cmp w source dest =>
    obtain ⟨b, -, h⟩ := Option.bind_eq_some_iff.1 h
    obtain ⟨a, -, h⟩ := Option.bind_eq_some_iff.1 h
    cases h
    exact (Effect.refl s _).of_flags _
  | cqto =>
    cases h
    refine ⟨fun r hr => Or.inl (s.setReg_of_ne _ ?_), Or.inl rfl⟩
    rcases hr with rfl | rfl <;> decide
  | div source =>
    obtain ⟨v, -, h⟩ := Option.bind_eq_some_iff.1 h
    dsimp only at h
    split at h
    · cases h
    · cases h
      refine ⟨fun r hr => Or.inl ?_, Or.inl rfl⟩
      have hax : r ≠ .ax := by rcases hr with rfl | rfl <;> decide
      have hdx : r ≠ .dx := by rcases hr with rfl | rfl <;> decide
      rw [Flat.setReg_of_ne _ _ hdx, Flat.setReg_of_ne _ _ hax]
  | call name => cases h
  | label =>
    cases h
    exact Effect.refl s _
  | jump m target =>
    cases h
    exact Effect.refl s _

/-! ## Code inside a frame -/

/-- The operand is no stack register, and a slot if its base is `%rbp`. -/
def TameOp (slots : Int → Prop) : Op → Prop
  | .reg name _ => name ≠ .sp ∧ name ≠ .bp
  | .ind base _ offset => if base = .bp then slots offset else base ≠ .sp
  | _ => True

/-- The instruction writes slots, heap objects and other registers only. -/
def Tame (slots : Int → Prop) (i : Instr) : Prop := ∀ a, act i = some a → ∀ dest, a.dest = some dest → TameOp slots dest

/-- The destination is the last operand. -/
theorem dest_mem_ops {i : Instr} {a : Act} (h : act i = some a) {dest : Op} (hdest : a.dest = some dest) :
    i.ops.getLast? = some dest := by
  unfold act at h
  split at h
  · cases h
  · have hpair : ∀ {f : RegMode → Act} {o : Option RegMode} {ops : List Op}, i.ops = ops →
        f <$> o = some a → (∀ w, (f w).dest = none ∨ ops.getLast? = (f w).dest) → i.ops.getLast? = some dest := by
      intro f o ops hops h hf
      obtain ⟨w, -, rfl⟩ := Option.map_eq_some_iff.1 h
      rw [hops, ← hdest]
      exact (hf w).resolve_left fun hnone => by rw [hnone] at hdest; cases hdest
    split at h
    all_goals first
      | exact hpair ‹_› h fun w => Or.inr rfl
      | exact hpair ‹_› h fun w => Or.inl rfl
      | (cases h; cases hdest; rename_i hops; rw [hops]; rfl)
      | (cases h; cases hdest)
      | (split at h <;> cases h; cases hdest)
      | cases h

theorem Tame.of_ops {slots : Int → Prop} {i : Instr} (h : ∀ dest, i.ops.getLast? = some dest → TameOp slots dest) :
    Tame slots i := fun _ ha dest hdest => h dest (dest_mem_ops ha hdest)

/-- The bytes of the stack that a method with `n` parameters keeps, where `%rbp` is `bp`: the two words that it found there,
and what lies above its parameters. -/
def MemoryMap.Protected (map : MemoryMap) (bp n : Nat) (x : BitVec 64) : Prop :=
  (bp ≤ x.toNat ∧ x.toNat < bp + 16) ∨ (bp + 16 + 8 * n ≤ x.toNat ∧ x.toNat < map.stackHigh)

/-- Parameters, and words below `%rbp`. -/
def FrameSlot (n : Nat) (offset : Int) : Prop :=
  (∃ num < n, offset = 16 + num * 8) ∨ ∃ k : Nat, offset = -(8 * (k + 1)) ∧ 8 * (k + 1) < 2 ^ 31

/-- The stack registers and the protected bytes stay. -/
structure Kept (map : MemoryMap) (bp n : Nat) (s s' : Flat) : Prop where
  rsp : s'.regs .sp = s.regs .sp
  rbp : s'.regs .bp = s.regs .bp
  mem : ∀ x, map.Protected bp n x → s'.mem x = s.mem x

theorem Kept.refl (bp n : Nat) (s : Flat) : Kept map bp n s s := ⟨rfl, rfl, fun _ _ => rfl⟩

theorem Kept.trans {bp n : Nat} {s s' s'' : Flat} (h : Kept map bp n s s') (h' : Kept map bp n s' s'') :
    Kept map bp n s s'' :=
  ⟨h'.rsp.trans h.rsp, h'.rbp.trans h.rbp, fun x hx => (h'.mem x hx).trans (h.mem x hx)⟩

/-- The bytes of a slot lie in the frame or among the parameters. -/
theorem slot_bytes {bp n : Nat} (hhigh : bp + 16 + 8 * n ≤ map.stackHigh) {offset : Int} (hslot : FrameSlot n offset)
    {a : BitVec 64} (ha : a = BitVec.ofNat 64 bp + BitVec.ofInt 64 offset) (w : RegMode) (hin : map.InStack a w.bytes) :
    a.toNat + w.bytes ≤ bp ∨ bp + 16 ≤ a.toNat ∧ a.toNat + w.bytes ≤ bp + 16 + 8 * n := by
  have hw := w.bytes_le
  have hle := map.high_le
  obtain ⟨-, hin⟩ := hin
  rcases hslot with ⟨num, hnum, rfl⟩ | ⟨k, rfl, hk⟩
  · have hofs : BitVec.ofInt 64 (16 + (num : Int) * 8) = BitVec.ofNat 64 (16 + num * 8) := by
      rw [← BitVec.ofInt_natCast]
      push_cast
      rfl
    rw [hofs, ← BitVec.ofNat_add] at ha
    have hval : a.toNat = bp + (16 + num * 8) := by
      rw [ha, BitVec.toNat_ofNat, Nat.mod_eq_of_lt (by omega)]
    omega
  · have hofs : BitVec.ofInt 64 (-(8 * ((k : Int) + 1))) = -BitVec.ofNat 64 (8 * (k + 1)) := by
      rw [BitVec.ofInt_neg, ← BitVec.ofInt_natCast]
      push_cast
      rfl
    rw [hofs, BitVec.add_neg_eq_sub] at ha
    have hval : a.toNat = (2 ^ 64 - 8 * (k + 1) + bp) % 2 ^ 64 := by
      rw [ha, BitVec.toNat_sub, BitVec.toNat_ofNat, BitVec.toNat_ofNat, Nat.mod_eq_of_lt (a := 8 * (k + 1)) (by omega),
        Nat.mod_eq_of_lt (a := bp) (by omega)]
    omega

theorem Effect.kept {s s' : Flat} {dest : Option Op} (h : Effect map s s' dest) {slots : Int → Prop}
    (htame : ∀ op, dest = some op → TameOp slots op) {bp n : Nat} (hslots : ∀ o, slots o → FrameSlot n o)
    (hbp : s.regs .bp = BitVec.ofNat 64 bp) (hlow : map.stackLow ≤ bp) (hhigh : bp + 16 + 8 * n ≤ map.stackHigh) :
    Kept map bp n s s' := by
  have hreg : ∀ r, r = .sp ∨ r = .bp → s'.regs r = s.regs r := by
    intro r hr
    rcases h.regs r hr with heq | ⟨mode, hdest⟩
    · exact heq
    · have hne : r ≠ .sp ∧ r ≠ .bp := htame _ hdest
      exact (hr.elim hne.1 hne.2).elim
  refine ⟨hreg .sp (Or.inl rfl), hreg .bp (Or.inr rfl), fun x hx => ?_⟩
  have hle := map.high_le
  rcases h.mem with heq | ⟨base, offset, w, v, hdest, hcan, heq⟩
  · rw [heq]
  · have hop : if base = .bp then slots offset else base ≠ .sp := htame _ hdest
    rw [heq]
    unfold MemoryMap.CanAccess at hcan
    by_cases hbase : base = .bp
    · subst hbase
      rw [if_pos rfl] at hop
      rw [if_pos (Or.inl rfl)] at hcan
      have hbytes := slot_bytes hhigh (hslots _ hop) (by rw [Flat.address, hbp]) w hcan
      apply write_outside _ _ (by have := hcan.2; omega)
      unfold MemoryMap.Protected at hx
      omega
    · rw [if_neg hbase] at hop
      rw [if_neg (not_or.mpr ⟨hbase, hop⟩)] at hcan
      apply write_of_ne
      rintro i hi rfl
      have := map.heap_apart _ (hcan i hi)
      unfold MemoryMap.Protected at hx
      omega

/-- Tame code keeps the stack registers and the protected bytes. -/
theorem runCode_kept {slots : Int → Prop} {is : List Instr} (htame : ∀ i ∈ is, Tame slots i) {bp n : Nat}
    (hslots : ∀ o, slots o → FrameSlot n o) (hlow : map.stackLow ≤ bp) (hhigh : bp + 16 + 8 * n ≤ map.stackHigh)
    {s : Flat} {label : Option String} {c : Flat × Option String} (hbp : s.regs .bp = BitVec.ofNat 64 bp)
    (hrun : runCode map is (s, label) = some c) : Kept map bp n s c.1 := by
  induction is generalizing s label with
  | nil =>
    cases hrun
    exact Kept.refl bp n s
  | cons i is ih =>
    rw [runCode_cons] at hrun
    obtain ⟨⟨t, label'⟩, hstep, hrest⟩ := Option.bind_eq_some_iff.1 hrun
    have hkept : Kept map bp n s t := by
      cases label with
      | none =>
        obtain ⟨a, ha, hflat⟩ := Option.bind_eq_some_iff.1 hstep
        exact (Act.flat_effect hflat).kept (htame i List.mem_cons_self a ha) hslots hbp hlow hhigh
      | some label =>
        simp only [stepFlat] at hstep
        split at hstep <;> cases hstep <;> exact Kept.refl bp n s
    exact hkept.trans (ih (fun j hj => htame j (List.mem_cons_of_mem i hj)) (hkept.rbp.trans hbp) hrest)

end

end Mjc.Asm

import Mjc.Asm.Flags

/-!
# Cheaper instructions

`AsmSimpleOptimizer` of `asm_optimizer.cpp`: `add $0` goes, `add $1` and `sub $1` become `inc` and `dec`, a register is
cleared by `xor`.

* `simpler`, `simpleOptimize`, `simpleOptimizeBlock` : the pass;
* `Instr.bodyForm` : the instructions of `instrs`: they can be encoded, do not jump, and add constants to 64-bit registers
  only; `NodeCode.bodyForm` : the visit functions push no others;
* `simpleOptimize_agree` : the list does the same to registers and memory and makes the same calls.
-/

namespace Mjc.Asm

set_option autoImplicit false

/-! ## The pass -/

def Op.isInd : Op → Bool
  | .ind _ _ _ => true
  | _ => false

/-- What takes the place of an instruction. -/
def simpler (instr : Instr) : List Instr :=
  match instr.mnemonic, instr.ops with
  | .Add, [.imm value, dest] => if value = 0 then [] else if value = 1 then [⟨.Inc, [dest]⟩] else [instr]
  | .Sub, [.imm value, dest] => if value = 1 then [⟨.Dec, [dest]⟩] else [instr]
  | _, [.imm value, dest] => if instr.isMov ∧ value = 0 ∧ ¬dest.isInd then [⟨.Xor, [dest, dest]⟩] else [instr]
  | _, _ => [instr]

/-- The loop over `instrs`. Where an instruction is removed, the next one takes its index and is passed over. -/
def simpleOptimize : List Instr → List Instr
  | [] => []
  | instr :: rest =>
    match simpler instr with
    | [] =>
      match rest with
      | [] => []
      | next :: rest => next :: simpleOptimize rest
    | is => is ++ simpleOptimize rest

theorem simpleOptimize_removed_nil {instr : Instr} (h : simpler instr = []) : simpleOptimize [instr] = [] := by
  unfold simpleOptimize
  rw [h]

theorem simpleOptimize_removed_cons {instr : Instr} (h : simpler instr = []) (next : Instr) (rest : List Instr) :
    simpleOptimize (instr :: next :: rest) = next :: simpleOptimize rest := by
  rw [simpleOptimize]
  simp only [h]

theorem simpleOptimize_replaced {instr : Instr} (h : simpler instr ≠ []) (rest : List Instr) :
    simpleOptimize (instr :: rest) = simpler instr ++ simpleOptimize rest := by
  rw [simpleOptimize.eq_def]
  simp only

/-- `AsmSimpleOptimizer::optimizeBlock`. `removeInstr` and `replaceInstr` assert that the block is not flattened yet. -/
def simpleOptimizeBlock (b : BasicBlock) : Option BasicBlock :=
  if b.flattenedInstrs = [] ∨ ∀ i ∈ b.instrs, simpler i = [i] then some { b with instrs := simpleOptimize b.instrs }
  else none

/-! ## The instructions of a body -/

/-- Constants are added to 64-bit registers only. -/
def Instr.addsWide (i : Instr) : Bool :=
  match i.mnemonic, i.ops with
  | .Add, [.imm _, .reg _ mode] => mode = .R
  | _, _ => true

def Instr.bodyForm (i : Instr) : Bool :=
  (act i).elim false Act.fits && !i.isJmp && i.mnemonic ≠ .Label && i.addsWide

theorem bodyForm_binaryCode {m : Mnemonic} (hm : m = .Add ∨ m = .Sub ∨ m = .IMul) (a b : NodeOp) (slot : Int) :
    (binaryCode m a.op b.op (slotOp slot)).all Instr.bodyForm = true := by
  rcases hm with rfl | rfl | rfl <;> cases a <;> cases b <;> rfl

theorem bodyForm_divModCode {r : RegName} (hr : r = .ax ∨ r = .dx) (a b : NodeOp) (succ : Option Int) :
    (divModCode r a.op b.op succ).all Instr.bodyForm = true := by
  rcases hr with rfl | rfl <;> cases a <;> cases b <;> cases succ <;> rfl

theorem bodyForm_paramsCode (offset : Int) (params : List NodeOp) :
    (paramsCode offset params).all Instr.bodyForm = true := by
  induction params generalizing offset with
  | nil => rfl
  | cons p ps ih =>
    rw [paramsCode, List.all_append, ih]
    cases p <;> rfl

theorem CallCode.bodyForm (c : CallCode) (resultProj : Option Int) : (c.code resultProj).all Instr.bodyForm = true := by
  have hbefore : c.before.all Instr.bodyForm = true := by
    cases c with
    | print funcName p => cases p <;> rfl
    | allocate n size nMode sizeMode => cases n <;> cases size <;> cases nMode <;> cases sizeMode <;> rfl
    | method funcName params =>
      rw [CallCode.before, List.all_append, bodyForm_paramsCode]
      split <;> rfl
  have hafter : (c.after resultProj).all Instr.bodyForm = true := by
    rw [CallCode.after, List.all_append]
    cases resultProj <;> split <;> rfl
  rw [CallCode.code, List.all_append, hbefore, List.all_cons, hafter]
  rfl

/-- The visit functions push instructions of these forms. -/
theorem NodeCode.bodyForm (n : NodeCode) : n.code.all Instr.bodyForm = true := by
  cases n with
  | add a b slot => exact bodyForm_binaryCode (.inl rfl) a b slot
  | sub a b slot => exact bodyForm_binaryCode (.inr (.inl rfl)) a b slot
  | mul a b slot => exact bodyForm_binaryCode (.inr (.inr rfl)) a b slot
  | div a b succ => exact bodyForm_divModCode (.inl rfl) a b succ
  | mod a b succ => exact bodyForm_divModCode (.inr rfl) a b succ
  | minus mode a slot => cases mode <;> cases a <;> rfl
  | load mode a slot => cases mode <;> cases a <;> rfl
  | store mode a b => cases mode <;> cases a <;> cases b <;> rfl
  | call c resultProj => exact c.bodyForm resultProj
  | ret op =>
    rcases op with _ | op
    · rfl
    · cases op <;> rfl

theorem fits_of_bodyForm {i : Instr} (h : i.bodyForm = true) : i.Fits := by
  unfold Instr.bodyForm at h
  simp only [Bool.and_eq_true] at h
  exact h.1.1.1

theorem isJmp_of_bodyForm {i : Instr} (h : i.bodyForm = true) : i.isJmp = false := by
  unfold Instr.bodyForm at h
  simp only [Bool.and_eq_true, Bool.not_eq_true'] at h
  exact h.1.1.2

theorem label_of_bodyForm {i : Instr} (h : i.bodyForm = true) : i.mnemonic ≠ .Label := by
  unfold Instr.bodyForm at h
  simp only [Bool.and_eq_true, decide_eq_true_eq] at h
  exact h.1.2

theorem readsFlags_of_bodyForm {i : Instr} (h : i.bodyForm = true) : i.readsFlags = false := by
  have hjmp := isJmp_of_bodyForm h
  unfold Instr.readsFlags
  cases hact : act i with
  | none => rfl
  | some a =>
    cases a with
    | jump m target => cases hjmp.symm.trans (isJmp_of_act hact)
    | _ => rfl

/-! ## One instruction -/

/-- An operation on a register. -/
theorem execBinary_reg {name : RegName} (hname : name ≠ .bp) {s : State} {w : RegMode} {source : Op} {b : BitVec 64}
    (hb : readOp s w source = some b) (f : BitVec 64 → BitVec 64 → BitVec 64) (exact : Int → Int → Int) :
    ∃ flags, execBinary s w f exact source (.reg name w) =
      some { s.setReg name (mergeReg w (s.regs name) (f (w.low (s.regs name)) b)) with flags := flags } := by
  have hwrite : ∀ v, writeOp s w v (.reg name w) = some (s.setReg name (mergeReg w (s.regs name) v)) :=
    fun v => if_pos ⟨rfl, hname⟩
  unfold execBinary
  rw [hb, readOp_reg]
  exact ⟨_, congrArg (Option.bind · _) (hwrite _)⟩

theorem execUnary_reg {name : RegName} (hname : name ≠ .bp) (s : State) (w : RegMode) (f : BitVec 64 → BitVec 64)
    (exact : Int → Int) : ∃ flags, execUnary s w f exact (.reg name w) =
      some { s.setReg name (mergeReg w (s.regs name) (f (w.low (s.regs name)))) with flags := flags } := by
  have hwrite : ∀ v, writeOp s w v (.reg name w) = some (s.setReg name (mergeReg w (s.regs name) v)) :=
    fun v => if_pos ⟨rfl, hname⟩
  unfold execUnary
  rw [readOp_reg]
  exact ⟨_, congrArg (Option.bind · _) (hwrite _)⟩

/-- One instruction that writes a register and, perhaps, the flags. -/
theorem agree_of_setReg {env : Env} {s t : State} {i j : Instr} {f f' : Flags}
    (hi : exec env i s = some ({ t with flags := f }, none)) (hj : exec env j s = some ({ t with flags := f' }, none)) :
    AgreeResults (runBlock env [i] (s, none)) (runBlock env [j] (s, none)) := by
  show AgreeResults ((exec env i s).bind _) ((exec env j s).bind _)
  rw [hi, hj]
  exact .some ⟨f', rfl⟩

section
variable (env : Env) (s : State) {name : RegName} (hname : name ≠ .bp)
include hname

theorem addOne_agree (w : RegMode) : AgreeResults (runBlock env [⟨.Add, [.imm 1, .reg name w]⟩] (s, none))
    (runBlock env [⟨.Inc, [.reg name w]⟩] (s, none)) := by
  obtain ⟨f, hadd⟩ := execBinary_reg hname (show readOp s w (.imm 1) = some (w.low (BitVec.ofInt 64 1)) from rfl)
    (· + ·) (· + ·)
  obtain ⟨f', hinc⟩ := execUnary_reg hname s w (· + 1) (· + 1)
  have hone : w.low (BitVec.ofInt 64 1) = 1 := by cases w <;> rfl
  rw [hone] at hadd
  exact agree_of_setReg (congrArg ((·, none) <$> ·) hadd) (congrArg ((·, none) <$> ·) hinc)

theorem subOne_agree (w : RegMode) : AgreeResults (runBlock env [⟨.Sub, [.imm 1, .reg name w]⟩] (s, none))
    (runBlock env [⟨.Dec, [.reg name w]⟩] (s, none)) := by
  obtain ⟨f, hsub⟩ := execBinary_reg hname (show readOp s w (.imm 1) = some (w.low (BitVec.ofInt 64 1)) from rfl)
    (· - ·) (· - ·)
  obtain ⟨f', hdec⟩ := execUnary_reg hname s w (· - 1) (· - 1)
  have hone : w.low (BitVec.ofInt 64 1) = 1 := by cases w <;> rfl
  rw [hone] at hsub
  exact agree_of_setReg (congrArg ((·, none) <$> ·) hsub) (congrArg ((·, none) <$> ·) hdec)

/-- An addition of zero to a whole register. -/
theorem addZero_agree : AgreeResults (runBlock env [⟨.Add, [.imm 0, .reg name .R]⟩] (s, none)) (some (s, none)) := by
  obtain ⟨f, hadd⟩ := execBinary_reg hname (show readOp s .R (.imm 0) = some 0#64 from rfl) (· + ·) (· + ·)
  have hself : mergeReg .R (s.regs name) (RegMode.R.low (s.regs name) + 0#64) = s.regs name := BitVec.add_zero _
  rw [hself, setReg_self] at hadd
  have hexec : exec env ⟨.Add, [.imm 0, .reg name .R]⟩ s = some ({ s with flags := f }, none) :=
    congrArg ((·, none) <$> ·) hadd
  show AgreeResults ((exec env _ s).bind _) _
  rw [hexec]
  exact .some ⟨s.flags, rfl⟩

/-- Clearing a register. -/
theorem movZero_agree {i : Instr} {w : RegMode} (hi : act i = some (.mov w (.imm 0) (.reg name w))) :
    AgreeResults (runBlock env [i] (s, none)) (runBlock env [⟨.Xor, [.reg name w, .reg name w]⟩] (s, none)) := by
  obtain ⟨f, hxor⟩ := execBinary_reg hname (readOp_reg s w name) (· ^^^ ·) (fun _ _ => 0)
  rw [BitVec.xor_self] at hxor
  have hzero : w.low (BitVec.ofInt 64 0) = 0 := by cases w <;> rfl
  have hmov : exec env i s = some ({ s.setReg name (mergeReg w (s.regs name) 0) with flags := s.flags }, none) := by
    rw [exec_act hi, ← hzero]
    exact congrArg ((·, none) <$> ·) (if_pos ⟨rfl, hname⟩)
  refine agree_of_setReg hmov ((exec_act (a := .binary w .xor (.reg name w) (.reg name w)) ?_ s).trans
    (congrArg ((·, none) <$> ·) hxor))
  cases w <;> rfl

end

/-- An addition or subtraction of a constant has a register to work on. -/
theorem dest_of_fits {m : Mnemonic} (hm : m = .Add ∨ m = .Sub) {value : Int} {dest : Op}
    (h : Instr.Fits ⟨m, [.imm value, dest]⟩) : ∃ name w, dest = .reg name w ∧ name ≠ .bp := by
  cases dest with
  | reg name w =>
    refine ⟨name, w, rfl, ?_⟩
    rintro rfl
    rcases hm with rfl | rfl <;> cases w <;> exact Bool.false_ne_true h
  | _ => rcases hm with rfl | rfl <;> exact (Bool.false_ne_true h).elim

/-- So has a move of a constant that is not to memory. -/
theorem dest_of_fits_mov {m : Mnemonic} {value : Int} {dest : Op} (hmov : Instr.isMov ⟨m, [.imm value, dest]⟩ = true)
    (hind : ¬dest.isInd = true) (h : Instr.Fits ⟨m, [.imm value, dest]⟩) : ∃ name w,
      dest = .reg name w ∧ name ≠ .bp ∧ act ⟨m, [.imm value, dest]⟩ = some (.mov w (.imm value) dest) := by
  have hm : m = .Mov ∨ m = .Movq ∨ m = .Movl ∨ m = .Movb := by simpa [Instr.isMov] using hmov
  cases dest with
  | reg name w =>
    have hname : name ≠ .bp := by
      rintro rfl
      rcases hm with rfl | rfl | rfl | rfl <;> cases w <;> exact Bool.false_ne_true h
    refine ⟨name, w, rfl, hname, ?_⟩
    rcases hm with rfl | rfl | rfl | rfl <;> cases w <;> first
      | rfl
      | exact (Bool.false_ne_true h).elim
  | ind base mode offset => exact absurd rfl hind
  | _ => rcases hm with rfl | rfl | rfl | rfl <;> exact (Bool.false_ne_true h).elim

/-- What takes the place of an instruction does the same to registers and memory. -/
theorem simpler_agree {i : Instr} (hi : i.bodyForm = true) (env : Env) (s : State) :
    AgreeResults (runBlock env [i] (s, none)) (runBlock env (simpler i) (s, none)) := by
  have hfits := fits_of_bodyForm hi
  obtain ⟨m, ops⟩ := i
  unfold simpler
  split
  · rename_i value dest hm hops
    obtain rfl : m = .Add := hm
    obtain rfl : ops = [.imm value, dest] := hops
    obtain ⟨name, w, rfl, hname⟩ := dest_of_fits (.inl rfl) hfits
    split
    · rename_i hzero
      obtain rfl : w = .R := by simpa [Instr.bodyForm, Instr.addsWide] using (Bool.and_eq_true_iff.1 hi).2
      rw [hzero]
      exact addZero_agree env s hname
    · split
      · rename_i hone
        rw [hone]
        exact addOne_agree env s hname w
      · exact .refl _
  · rename_i value dest hm hops
    obtain rfl : m = .Sub := hm
    obtain rfl : ops = [.imm value, dest] := hops
    obtain ⟨name, w, rfl, hname⟩ := dest_of_fits (.inr rfl) hfits
    split
    · rename_i hone
      rw [hone]
      exact subOne_agree env s hname w
    · exact .refl _
  · rename_i value dest hops _ _
    obtain rfl : ops = [.imm value, dest] := hops
    split
    · rename_i hmov
      obtain ⟨hmov, hzero, hind⟩ := hmov
      obtain ⟨name, w, rfl, hname, hact⟩ := dest_of_fits_mov hmov hind hfits
      rw [hzero] at hact ⊢
      exact movZero_agree env s hname hact
    · exact .refl _
  · exact .refl _

/-! ## A list -/

/-- The instruction neither jumps nor is a label. -/
def Instr.plain (i : Instr) : Bool := !i.isJmp && i.mnemonic ≠ .Label

theorem plain_of_bodyForm {i : Instr} (hi : i.bodyForm = true) : i.plain = true := by
  unfold Instr.plain
  rw [isJmp_of_bodyForm hi, decide_eq_true (label_of_bodyForm hi)]
  rfl

theorem plain_simpler {i : Instr} (hi : i.plain = true) : (simpler i).all Instr.plain = true := by
  unfold simpler
  split <;> (try split) <;> (try split) <;> simp [hi] <;> rfl

theorem plain_simpleOptimize {is : List Instr} (his : is.all Instr.plain = true) :
    (simpleOptimize is).all Instr.plain = true := by
  induction is using simpleOptimize.induct with
  | case1 => rfl
  | case2 instr hnil =>
    rw [simpleOptimize_removed_nil hnil]
    rfl
  | case3 instr hnil next rest ih =>
    obtain ⟨-, hnext, hrest⟩ : instr.plain = true ∧ next.plain = true ∧ rest.all Instr.plain = true := by
      simpa only [List.all_cons, Bool.and_eq_true] using his
    rw [simpleOptimize_removed_cons hnil, List.all_cons, hnext, ih hrest]
    rfl
  | case4 instr rest hne ih =>
    obtain ⟨hi, hrest⟩ : instr.plain = true ∧ rest.all Instr.plain = true := by
      simpa only [List.all_cons, Bool.and_eq_true] using his
    rw [simpleOptimize_replaced hne, List.all_append, plain_simpler hi, ih hrest]
    rfl

theorem noLabels_of_plain {is : List Instr} (his : is.all Instr.plain = true) : NoLabels is := by
  intro i hi
  have := List.all_eq_true.1 his i hi
  unfold Instr.plain at this
  simpa using (Bool.and_eq_true_iff.1 this).2

theorem simpler_agree_pending {i : Instr} (hi : i.bodyForm = true) (env : Env) {c c' : State × Option String}
    (h : AgreeButFlags c c') : AgreeResults (runBlock env [i] c) (runBlock env (simpler i) c') := by
  have hplain := plain_of_bodyForm hi
  have hlabels : NoLabels [i] := noLabels_of_plain (by simp [hplain])
  obtain ⟨f, rfl⟩ := h
  obtain ⟨s, _ | label⟩ := c
  · have hreads : ∀ j ∈ [i], j.readsFlags = false := by simp [readsFlags_of_bodyForm hi]
    exact (runBlock_agree hreads ⟨f, rfl⟩).trans (simpler_agree hi env { s with flags := f })
  · rw [runBlock_pending hlabels, runBlock_pending (noLabels_of_plain (plain_simpler hplain))]
    exact .some ⟨f, rfl⟩

/-- The list after the pass does the same to registers and memory, makes the same calls and ends with the same jump under
way, from states that differ at most in the flags. -/
theorem simpleOptimize_agree {is : List Instr} (his : is.all Instr.bodyForm = true) (env : Env)
    {c c' : State × Option String} (h : AgreeButFlags c c') :
    AgreeResults (runBlock env is c) (runBlock env (simpleOptimize is) c') := by
  induction is using simpleOptimize.induct generalizing c c' with
  | case1 => exact .some h
  | case2 instr hnil =>
    obtain ⟨hi, -⟩ : instr.bodyForm = true ∧ _ := by simpa only [List.all_cons, Bool.and_eq_true] using his
    have hremoved := simpler_agree_pending hi env h
    rw [hnil] at hremoved
    rw [simpleOptimize_removed_nil hnil]
    exact hremoved
  | case3 instr hnil next rest ih =>
    obtain ⟨hi, hnext, hrest⟩ : instr.bodyForm = true ∧ next.bodyForm = true ∧ rest.all Instr.bodyForm = true := by
      simpa only [List.all_cons, Bool.and_eq_true] using his
    have hremoved := simpler_agree_pending hi env h
    rw [simpleOptimize_removed_cons hnil, show instr :: next :: rest = [instr] ++ next :: rest from rfl, runBlock_append]
    rw [hnil] at hremoved
    refine @AgreeResults.bind _ _ _ (runBlock env (next :: simpleOptimize rest)) hremoved fun d d' hd => ?_
    rw [runBlock_cons, runBlock_cons]
    exact (stepInstr_agree (readsFlags_of_bodyForm hnext) hd).bind fun _ _ => ih hrest
  | case4 instr rest hne ih =>
    obtain ⟨hi, hrest⟩ : instr.bodyForm = true ∧ rest.all Instr.bodyForm = true := by
      simpa only [List.all_cons, Bool.and_eq_true] using his
    rw [simpleOptimize_replaced hne, show instr :: rest = [instr] ++ rest from rfl, runBlock_append, runBlock_append]
    exact (simpler_agree_pending hi env h).bind fun _ _ => ih hrest

end Mjc.Asm

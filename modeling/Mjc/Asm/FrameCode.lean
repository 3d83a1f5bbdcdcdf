import Mjc.Asm.Frames
import Mjc.Fold

/-!
# The code of a method on the stack

* `Method.tame` : apart from its calls, a method writes its own slots, heap objects and scratch registers;
* `before_regs`, `before_mem`, `before_args` : the code in front of a call makes room below `%rsp` and leaves there the
  values that the parameters had;
* `prolog_spec`, `epilog_spec` : what the callee does on entry and on exit.
-/

namespace Mjc.Asm
open Mjc.Bytes StackSlotManager

set_option autoImplicit false

/-! ## Tame code -/

section
variable {slots : Int → Prop}

theorem tame_reg {i : Instr} {name : RegName} {mode : RegMode} (h : i.ops.getLast? = some (.reg name mode))
    (hsp : name ≠ .sp) (hbp : name ≠ .bp) : Tame slots i := by
  apply Tame.of_ops
  intro dest hdest
  rw [h] at hdest
  obtain rfl := Option.some.inj hdest
  exact ⟨hsp, hbp⟩

theorem tame_slot {i : Instr} {offset : Int} (h : i.ops.getLast? = some (slotOp offset)) (hslot : slots offset) :
    Tame slots i := by
  apply Tame.of_ops
  intro dest hdest
  rw [h] at hdest
  obtain rfl := Option.some.inj hdest
  show if RegName.bp = .bp then slots offset else RegName.bp ≠ .sp
  rwa [if_pos rfl]

theorem tame_heap {i : Instr} (h : i.ops.getLast? = some (.ind .bx .R 0)) : Tame slots i := by
  apply Tame.of_ops
  intro dest hdest
  rw [h] at hdest
  obtain rfl := Option.some.inj hdest
  have hbase : RegName.bx ≠ .bp := by decide
  show if RegName.bx = .bp then slots 0 else RegName.bx ≠ .sp
  rw [if_neg hbase]
  exact RegName.noConfusion

theorem tame_str {i : Instr} {text : String} (h : i.ops.getLast? = some (.str text)) : Tame slots i := by
  apply Tame.of_ops
  intro dest hdest
  rw [h] at hdest
  obtain rfl := Option.some.inj hdest
  trivial

theorem tame_cqto : Tame slots ⟨.Cqto, []⟩ := Tame.of_ops fun _ hdest => by cases hdest

/-- All instructions of the code are tame. -/
def TameCode (slots : Int → Prop) (is : List Instr) : Prop := ∀ i ∈ is, Tame slots i

theorem TameCode.nil : TameCode slots [] := List.forall_mem_nil _

theorem TameCode.cons {i : Instr} {is : List Instr} (h : Tame slots i) (hs : TameCode slots is) :
    TameCode slots (i :: is) := List.forall_mem_cons.mpr ⟨h, hs⟩

theorem TameCode.append {is js : List Instr} (h : TameCode slots is) (h' : TameCode slots js) :
    TameCode slots (is ++ js) := List.forall_mem_append.mpr ⟨h, h'⟩

theorem TameCode.flatMap {α : Type} {l : List α} {f : α → List Instr} (h : ∀ x ∈ l, TameCode slots (f x)) :
    TameCode slots (l.flatMap f) := by
  intro i hi
  obtain ⟨x, hx, hi⟩ := List.mem_flatMap.mp hi
  exact h x hx i hi

theorem tame_binaryCode (mnemonic : Mnemonic) (firstOp secondOp : Op) {slot : Int} (h : slots slot) :
    TameCode slots (binaryCode mnemonic firstOp secondOp (slotOp slot)) :=
  .cons (tame_reg rfl (by decide) (by decide)) (.cons (tame_reg rfl (by decide) (by decide)) (.cons (tame_slot rfl h) .nil))

theorem tame_divOperand (op : Op) {reg : RegName} (hsp : reg ≠ .sp) (hbp : reg ≠ .bp) :
    TameCode slots (divOperand op reg) := by
  unfold divOperand
  split
  · exact .cons (tame_reg rfl hsp hbp) (.cons (tame_reg rfl hsp hbp) .nil)
  · exact .cons (tame_reg rfl hsp hbp) .nil

theorem tame_divModCode (result : RegName) (leftOp rightOp : Op) {succ : Option Int} (h : ∀ o ∈ succ.toList, slots o) :
    TameCode slots (divModCode result leftOp rightOp succ) := by
  have hleft : TameCode slots (divOperand leftOp .ax) := tame_divOperand leftOp (by decide) (by decide)
  have hright : TameCode slots (divOperand rightOp .cx) := tame_divOperand rightOp (by decide) (by decide)
  have hdiv : Tame slots ⟨.Div, [rcx]⟩ := tame_reg rfl (by decide) (by decide)
  cases succ with
  | none => exact hleft.append (hright.append (.cons tame_cqto (.cons hdiv .nil)))
  | some slot =>
    have hslot : slots slot := h slot (List.mem_singleton.mpr rfl)
    exact hleft.append (hright.append (.cons tame_cqto (.cons hdiv (.cons (tame_slot rfl hslot) .nil))))

theorem tame_storeCode (mode : RegMode) (destOp sourceOp : Op) : TameCode slots (storeCode mode destOp sourceOp) := by
  unfold storeCode
  split
  · exact .cons (tame_reg rfl (by decide) (by decide)) (.cons (tame_heap rfl) .nil)
  · exact .cons (tame_reg rfl (by decide) (by decide)) (.cons (tame_reg rfl (by decide) (by decide))
      (.cons (tame_heap rfl) .nil))

theorem tame_resultCode {resultProj : Option Int} (h : ∀ o ∈ resultProj.toList, slots o) :
    TameCode slots (resultCode resultProj) := by
  cases resultProj with
  | none => exact .nil
  | some slot => exact .cons (tame_slot rfl (h slot (List.mem_singleton.mpr rfl))) .nil

theorem tame_phiMoveCode (src : NodeOp) {slot : Int} (h : slots slot) : TameCode slots (phiMoveCode src slot) := by
  cases src with
  | const value => exact .cons (tame_slot rfl h) .nil
  | slot offset => exact .cons (tame_reg rfl (by decide) (by decide)) (.cons (tame_slot rfl h) .nil)

/-- A node: what it computes, or a call with the code around it. -/
theorem tame_pieces {n : NodeCode} (h : ∀ o ∈ n.slots, slots o) {is : List Instr} (his : .code is ∈ n.pieces) :
    TameCode slots is := by
  have hlast : ∀ {l : List Int} {slot : Int}, (∀ o ∈ l ++ [slot], slots o) → slots slot :=
    fun h => h _ (List.mem_append_right _ (List.mem_singleton.mpr rfl))
  have hopt : ∀ {l : List Int} {slot : Option Int}, (∀ o ∈ l ++ slot.toList, slots o) → ∀ o ∈ slot.toList, slots o :=
    fun h o ho => h o (List.mem_append_right _ ho)
  cases n with
  | call c resultProj =>
    rcases List.mem_cons.mp his with his | his
    · cases his
    · cases List.mem_singleton.mp his
      exact tame_resultCode (hopt h)
  | add firstOp secondOp slot =>
    cases List.mem_singleton.mp his
    exact tame_binaryCode _ _ _ (hlast h)
  | sub leftOp rightOp slot =>
    cases List.mem_singleton.mp his
    exact tame_binaryCode _ _ _ (hlast h)
  | mul rightOp leftOp slot =>
    cases List.mem_singleton.mp his
    exact tame_binaryCode _ _ _ (hlast h)
  | div leftOp rightOp succ =>
    cases List.mem_singleton.mp his
    exact tame_divModCode _ _ _ (hopt h)
  | mod leftOp rightOp succ =>
    cases List.mem_singleton.mp his
    exact tame_divModCode _ _ _ (hopt h)
  | minus mode op slot =>
    cases List.mem_singleton.mp his
    exact .cons (tame_reg rfl (by decide) (by decide)) (.cons (tame_reg rfl (by decide) (by decide))
      (.cons (tame_slot rfl (hlast h)) .nil))
  | load mode op slot =>
    cases List.mem_singleton.mp his
    exact .cons (tame_reg rfl (by decide) (by decide)) (.cons (tame_reg rfl (by decide) (by decide))
      (.cons (tame_slot rfl (hlast h)) .nil))
  | store mode destOp sourceOp =>
    cases List.mem_singleton.mp his
    exact tame_storeCode _ _ _
  | ret op =>
    cases List.mem_singleton.mp his
    cases op with
    | none => exact .nil
    | some op => exact .cons (tame_reg rfl (by decide) (by decide)) .nil

theorem tame_makeJump (target : String) (relation : IrRelation) : Tame slots (makeJump target relation) := tame_str rfl

theorem tame_startPhi {phi : StartPhi} (h : ∀ o ∈ phi.slots, slots o) {is : List Instr} (his : phi.code = some is) :
    TameCode slots is := by
  cases phi with
  | bool node relation truePred falsePred slot =>
    obtain ⟨inverse, -, his⟩ := Option.bind_eq_some_iff.1 his
    cases his
    have hslot : slots slot := h slot (List.mem_append_right _ (List.mem_singleton.mpr rfl))
    have htrue := tame_phiMoveCode truePred hslot
    have hfalse := tame_phiMoveCode falsePred hslot
    exact .append (.append (.cons (tame_makeJump _ _) htrue) (.cons (tame_makeJump _ _) (.cons (tame_str rfl) hfalse)))
      (.cons (tame_str rfl) .nil)
  | swap slot tmpSlot =>
    cases his
    exact .cons (tame_reg rfl (by decide) (by decide)) (.cons (tame_slot rfl (h tmpSlot (by simp [StartPhi.slots]))) .nil)
  | normal slot tmpSlot =>
    cases his
    exact .cons (tame_reg rfl (by decide) (by decide)) (.cons (tame_slot rfl (h tmpSlot (by simp [StartPhi.slots]))) .nil)

theorem tame_phiMove {move : PhiMove} (h : ∀ o ∈ move.slots, slots o) : TameCode slots move.code := by
  cases move with
  | normal src slot => exact tame_phiMoveCode src (h slot (by simp [PhiMove.slots]))
  | swap src slot =>
    exact .cons (tame_reg rfl (by decide) (by decide)) (.cons (tame_slot rfl (h slot (by simp [PhiMove.slots]))) .nil)

theorem tame_jumpInstrs {e : BlockExit} {is : List Instr} (his : e.jumpInstrs = some is) : TameCode slots is := by
  have hcompare : ∀ mode leftOp rightOp, TameCode slots (compareCode mode leftOp rightOp) := fun _ _ _ =>
    .cons (tame_reg rfl (by decide) (by decide)) (.cons (tame_reg rfl (by decide) (by decide)) .nil)
  cases BlockExit.jumpShape his with
  | empty => exact .nil
  | jmp target => exact .cons (tame_makeJump _ _) .nil
  | cond mode leftOp rightOp h trueBlock falseBlock =>
    exact (hcompare mode leftOp rightOp).append (.cons (tame_makeJump _ _) (.cons (tame_makeJump _ _) .nil))
  | boolean mode leftOp rightOp target =>
    exact (hcompare mode leftOp rightOp).append (.cons (tame_makeJump _ _) .nil)

theorem tame_block {b : BlockCode} (h : ∀ o ∈ b.slots, slots o) {pieces : List Piece} (hpieces : b.pieces = some pieces)
    {is : List Instr} (his : .code is ∈ pieces) : TameCode slots is := by
  obtain ⟨startPhiInstrs, hstart, hpieces⟩ := Option.bind_eq_some_iff.1 hpieces
  obtain ⟨jumpInstrs, hjump, hpieces⟩ := Option.bind_eq_some_iff.1 hpieces
  cases hpieces
  have hphis : ∀ phi ∈ b.startPhis, ∀ o ∈ phi.slots, slots o := fun phi hphi o ho => h o (by
    simp only [BlockCode.slots, List.mem_append, List.mem_flatMap]
    exact Or.inl (Or.inl (Or.inl ⟨phi, hphi, ho⟩)))
  have hbody : ∀ n ∈ b.body, ∀ o ∈ n.slots, slots o := fun n hn o ho => h o (by
    simp only [BlockCode.slots, List.mem_append, List.mem_flatMap]
    exact Or.inl (Or.inl (Or.inr ⟨n, hn, ho⟩)))
  have hmoves : ∀ move ∈ b.phiMoves, ∀ o ∈ move.slots, slots o := fun move hmove o ho => h o (by
    simp only [BlockCode.slots, List.mem_append, List.mem_flatMap]
    exact Or.inl (Or.inr ⟨move, hmove, ho⟩))
  rcases List.mem_cons.mp his with heq | his
  · cases heq
    intro i hi
    obtain ⟨code, hcode, hi⟩ := List.mem_flatten.mp hi
    obtain ⟨phi, hphi, hcode⟩ := Fold.mem_of_mapM hstart hcode
    exact tame_startPhi (hphis phi hphi) hcode i hi
  rcases List.mem_append.mp his with his | his
  · obtain ⟨n, hn, his⟩ := List.mem_flatMap.mp his
    exact tame_pieces (hbody n hn) his
  rcases List.mem_cons.mp his with heq | his
  · cases heq
    exact .flatMap fun move hmove => tame_phiMove (hmoves move hmove)
  · cases List.mem_singleton.mp his
    exact tame_jumpInstrs hjump

end

/-! ## Calls -/

/-- The parameters that go onto the stack. -/
def CallCode.stackParams : CallCode → List NodeOp
  | .method _ params => params
  | _ => []

theorem CallCode.addSize_eq (c : CallCode) : c.addSize = c.stackParams.length * 8 := by
  cases c <;> rfl

theorem CallCode.addSize_ofInt (c : CallCode) : BitVec.ofInt 64 c.addSize = BitVec.ofNat 64 (8 * c.stackParams.length) := by
  rw [c.addSize_eq, ← BitVec.ofInt_natCast]
  congr 1
  omega

/-- The value of an operand in a state. -/
def NodeOp.value (s : Flat) : NodeOp → BitVec 64
  | .const value => BitVec.ofInt 64 value
  | .slot offset => s.word (s.address .bp offset)

section
variable {map : MemoryMap}

theorem binary_rsp (f : Binary) (s : Flat) (size : Int) : ∃ t,
    (Act.binary .R f (.imm size) rsp).flat map s = some (t, none) ∧
      t.regs .sp = f.apply (s.regs .sp) (BitVec.ofInt 64 size) ∧ t.regs .bp = s.regs .bp ∧ t.mem = s.mem := by
  have hbp : ∀ v, (s.setReg .sp v).regs .bp = s.regs .bp := fun v => s.setReg_of_ne v RegName.noConfusion
  simp only [Act.flat, Flat.readOp, Flat.writeOp, rsp, low_R, if_pos, Option.bind_eq_bind, Option.bind_some, mergeReg]
  exact ⟨_, rfl, s.setReg_self .sp _, hbp (f.apply (s.regs .sp) (BitVec.ofInt 64 size)), rfl⟩

theorem mov_rsp_rbp (s : Flat) : ∃ t, stepFlat map (s, none) ⟨.Mov, [rsp, rbp]⟩ = some (t, none) ∧
    t.regs .sp = s.regs .sp ∧ t.regs .bp = s.regs .sp ∧ t.mem = s.mem := by
  show ∃ t, (Act.mov .R rsp rbp).flat map s = some (t, none) ∧ _
  have hsp : ∀ v, (s.setReg .bp v).regs .sp = s.regs .sp := fun v => s.setReg_of_ne v RegName.noConfusion
  simp only [Act.flat, Flat.readOp, Flat.writeOp, rsp, rbp, low_R, if_pos, Option.bind_eq_bind, Option.bind_some, mergeReg]
  exact ⟨_, rfl, hsp _, s.setReg_self .bp _, rfl⟩

/-- Nothing but memory differs, or scratch registers and flags. -/
structure SameStack (s s' : Flat) : Prop where
  rsp : s'.regs .sp = s.regs .sp
  rbp : s'.regs .bp = s.regs .bp

theorem paramCode_spec {s : Flat} {offset : Int} {p : NodeOp} {c : Flat × Option String}
    (h : runCode map (paramCode offset p) (s, none) = some c) : c.2 = none ∧ SameStack s c.1 ∧
      map.InStack (s.address .sp offset) 8 ∧
      c.1.mem = write s.mem (s.address .sp offset) 8 (p.value s).toNat := by
  cases p with
  | const value =>
    change ((Act.mov .R (.imm value) (.ind .sp .R offset)).flat map s).bind some = some c at h
    simp only [Act.flat, Flat.readOp, Flat.writeOp, low_R, Option.bind_eq_bind, Option.bind_some, true_and] at h
    split at h
    · rename_i hcan
      cases h
      exact ⟨rfl, ⟨rfl, rfl⟩, hcan, rfl⟩
    · cases h
  | slot slot =>
    change ((Act.mov .R (slotOp slot) rcx).flat map s).bind
      (fun d => (stepFlat map d ⟨.Movq, [rcx, .ind .sp .R offset]⟩).bind some) = some c at h
    simp only [Act.flat, Flat.readOp, Flat.writeOp, slotOp, rcx, Option.bind_eq_bind, true_and, if_pos] at h
    split at h
    · rename_i hslot
      generalize hv : BitVec.ofNat 64 (read s.mem (s.address .bp slot) (RegMode.bytes .R)) = v at h
      change ((Act.mov .R rcx (.ind .sp .R offset)).flat map (s.setReg .cx v)).bind some = some c at h
      simp only [Act.flat, Flat.readOp, Flat.writeOp, rcx, low_R, Option.bind_eq_bind, Option.bind_some, true_and, if_pos,
        Flat.setReg_self] at h
      split at h
      · rename_i hcan
        cases h
        refine ⟨rfl, ⟨?_, ?_⟩, hcan, ?_⟩
        · show (s.setReg .cx v).regs .sp = s.regs .sp
          exact s.setReg_of_ne v RegName.noConfusion
        · show (s.setReg .cx v).regs .bp = s.regs .bp
          exact s.setReg_of_ne v RegName.noConfusion
        · show write s.mem _ 8 v.toNat = _
          rw [← hv]
          rfl
      · cases h
    · cases h

theorem SameStack.refl (s : Flat) : SameStack s s := ⟨rfl, rfl⟩

theorem SameStack.trans {s s' s'' : Flat} (h : SameStack s s') (h' : SameStack s' s'') : SameStack s s'' :=
  ⟨h'.rsp.trans h.rsp, h'.rbp.trans h.rbp⟩

theorem SameStack.address {s s' : Flat} (h : SameStack s s') {base : RegName} (hbase : base = .sp ∨ base = .bp)
    (offset : Int) : s'.address base offset = s.address base offset := by
  unfold Flat.address
  rcases hbase with rfl | rfl
  · rw [h.rsp]
  · rw [h.rbp]

/-- The place of the parameter `j`. -/
theorem toNat_paramAddress {s : Flat} {j : Nat} (h : (s.regs .sp).toNat + 8 * j < 2 ^ 64) :
    (s.address .sp (8 * j)).toNat = (s.regs .sp).toNat + 8 * j := by
  have hofs : BitVec.ofInt 64 (8 * (j : Int)) = BitVec.ofNat 64 (8 * j) := by
    rw [← BitVec.ofInt_natCast]
    push_cast
    rfl
  unfold Flat.address
  rw [hofs, BitVec.toNat_add, BitVec.toNat_ofNat]
  omega

theorem word_congr {s s' : Flat} {a : BitVec 64} (ha : a.toNat + 8 ≤ 2 ^ 64)
    (h : ∀ x : BitVec 64, a.toNat ≤ x.toNat → x.toNat < a.toNat + 8 → s'.mem x = s.mem x) : s'.word a = s.word a := by
  unfold Flat.word
  rw [read_eq_of_range ha h]

theorem word_write {s : Flat} {m : BitVec 64 → BitVec 8} {a v : BitVec 64} (h : s.mem = write m a 8 v.toNat) :
    s.word a = v := by
  unfold Flat.word
  rw [h, read_write_self _ _ _ (Nat.le_refl 8)]
  apply BitVec.eq_of_toNat_eq
  have := v.isLt
  rw [BitVec.toNat_ofNat]
  omega

/-- The slots of the operand lie above an address. -/
def NodeOp.Above (s : Flat) (top : Nat) (p : NodeOp) : Prop :=
  ∀ offset ∈ p.slots, top ≤ (s.address .bp offset).toNat ∧ (s.address .bp offset).toNat + 8 ≤ 2 ^ 64

theorem NodeOp.Above.value {s s' : Flat} {top : Nat} {p : NodeOp} (h : p.Above s top) (hs : SameStack s s')
    (hmem : ∀ x : BitVec 64, top ≤ x.toNat → s'.mem x = s.mem x) : p.value s' = p.value s := by
  cases p with
  | const value => rfl
  | slot offset =>
    obtain ⟨htop, hlt⟩ := h offset (List.mem_singleton.mpr rfl)
    show s'.word (s'.address .bp offset) = _
    rw [hs.address (Or.inr rfl)]
    exact word_congr hlt fun x hx _ => hmem x (by omega)

/-- The parameters from number `j` on: what is written lies between the places of the first and the last one. -/
theorem paramsCode_spec {s : Flat} {j : Nat} {ps : List NodeOp} {c : Flat × Option String}
    (h : runCode map (paramsCode (8 * j) ps) (s, none) = some c)
    (hfits : (s.regs .sp).toNat + 8 * (j + ps.length) ≤ 2 ^ 64) : c.2 = none ∧ SameStack s c.1 ∧
      (∀ x : BitVec 64, x.toNat < (s.regs .sp).toNat + 8 * j ∨ (s.regs .sp).toNat + 8 * (j + ps.length) ≤ x.toNat →
        c.1.mem x = s.mem x) ∧
      ((∀ p ∈ ps, p.Above s ((s.regs .sp).toNat + 8 * (j + ps.length))) →
        ∀ (i : Nat) p, ps[i]? = some p → c.1.word (s.address .sp (8 * (j + i : Nat))) = p.value s) := by
  induction ps generalizing s j with
  | nil =>
    cases h
    exact ⟨rfl, SameStack.refl s, fun _ _ => rfl, fun _ i p hp => by cases hp⟩
  | cons p ps ih =>
    rw [List.length_cons] at hfits ⊢
    rw [paramsCode, runCode_append] at h
    obtain ⟨⟨t, label⟩, ht, h⟩ := Option.bind_eq_some_iff.1 h
    obtain ⟨hnone, hstack, hin, hmem⟩ := paramCode_spec ht
    obtain rfl : label = none := hnone
    have hplace : (s.address .sp (8 * j)).toNat = (s.regs .sp).toNat + 8 * j := toNat_paramAddress (by omega)
    have hoffset : (8 * j + 8 : Int) = 8 * ((j + 1 : Nat) : Int) := by omega
    rw [hoffset] at h
    have hsp : (t.regs .sp).toNat = (s.regs .sp).toNat := by rw [hstack.rsp]
    obtain ⟨hc, hstack', hrest, hwords⟩ := ih h (by rw [hsp]; omega)
    have hfirst : ∀ x : BitVec 64,
        x.toNat < (s.regs .sp).toNat + 8 * j ∨ (s.regs .sp).toNat + 8 * (j + 1) ≤ x.toNat → t.mem x = s.mem x := by
      intro x hx
      change t.mem = _ at hmem
      rw [hmem]
      exact write_outside _ _ (by omega) (by omega)
    refine ⟨hc, hstack.trans hstack', fun x hx => ?_, fun habove i q hq => ?_⟩
    · rw [hrest x (by rw [hsp]; omega), hfirst x (by omega)]
    · cases i with
      | zero =>
        obtain rfl := Option.some.inj hq
        have hword : t.word (s.address .sp (8 * j)) = p.value s := word_write hmem
        rw [Nat.add_zero, ← hword]
        exact word_congr (by omega) fun x hx hlt => hrest x (by rw [hsp]; omega)
      | succ i =>
        have hq : ps[i]? = some q := hq
        have habove' : ∀ p ∈ ps, p.Above s ((s.regs .sp).toNat + 8 * (j + (ps.length + 1))) := fun p hp =>
          habove p (List.mem_cons_of_mem _ hp)
        have hvalue : q.value t = q.value s := (habove' q (List.mem_of_getElem? hq)).value hstack fun x hx =>
          hfirst x (by omega)
        have := hwords (fun p hp offset ho => ?_) i q hq
        · rw [hstack.address (Or.inl rfl)] at this
          rw [← hvalue, ← this]
          congr 3
          omega
        · obtain ⟨htop, hlt⟩ := habove' p hp offset ho
          rw [hstack.address (Or.inr rfl), hsp]
          exact ⟨by omega, hlt⟩

theorem paramsCode_stack {s : Flat} {offset : Int} {ps : List NodeOp} {c : Flat × Option String}
    (h : runCode map (paramsCode offset ps) (s, none) = some c) : c.2 = none ∧ SameStack s c.1 := by
  induction ps generalizing s offset with
  | nil =>
    cases h
    exact ⟨rfl, SameStack.refl s⟩
  | cons p ps ih =>
    rw [paramsCode, runCode_append] at h
    obtain ⟨⟨t, label⟩, ht, h⟩ := Option.bind_eq_some_iff.1 h
    obtain ⟨hnone, hstack, -, -⟩ := paramCode_spec ht
    obtain rfl : label = none := hnone
    obtain ⟨hc, hstack'⟩ := ih h
    exact ⟨hc, hstack.trans hstack'⟩

theorem NodeOp.value_congr {s s' : Flat} (hbp : s'.regs .bp = s.regs .bp) (hmem : s'.mem = s.mem) (p : NodeOp) :
    p.value s' = p.value s := by
  cases p with
  | const value => rfl
  | slot offset =>
    show BitVec.ofNat 64 (read s'.mem (s'.regs .bp + _) 8) = BitVec.ofNat 64 (read s.mem (s.regs .bp + _) 8)
    rw [hbp, hmem]

/-- The room for the parameters, `s'` being the state at the call instruction. -/
structure Before (c : CallCode) (s s' : Flat) : Prop where
  rbp : s'.regs .bp = s.regs .bp
  rsp : s'.regs .sp = s.regs .sp - BitVec.ofNat 64 (8 * c.stackParams.length)
  mem : (s'.regs .sp).toNat + 8 * c.stackParams.length ≤ 2 ^ 64 → ∀ x : BitVec 64,
    x.toNat < (s'.regs .sp).toNat ∨ (s'.regs .sp).toNat + 8 * c.stackParams.length ≤ x.toNat → s'.mem x = s.mem x
  params : (s'.regs .sp).toNat + 8 * c.stackParams.length ≤ 2 ^ 64 →
    (∀ p ∈ c.stackParams, p.Above s ((s'.regs .sp).toNat + 8 * c.stackParams.length)) →
    ∀ (i : Nat) p, c.stackParams[i]? = some p → s'.word (s'.address .sp (8 * i)) = p.value s

/-- The parameter goes into a register. -/
theorem Before.of_effect {c : CallCode} {s s' : Flat} (hparams : c.stackParams = []) (h : SameStack s s')
    (hmem : s'.mem = s.mem) : Before c s s' := by
  refine ⟨h.rbp, ?_, fun _ x _ => by rw [hmem], fun _ _ i p hp => ?_⟩
  · rw [h.rsp, hparams]
    exact (BitVec.sub_zero _).symm
  · rw [hparams] at hp
    cases hp

theorem mov_reg_spec {s t : Flat} {label : Option String} {op : Op} {name : RegName} {mode : RegMode}
    (hsp : name ≠ .sp) (hbp : name ≠ .bp) (h : stepFlat map (s, none) ⟨.Mov, [op, .reg name mode]⟩ = some (t, label)) :
    label = none ∧ SameStack s t ∧ t.mem = s.mem := by
  obtain ⟨a, ha, hflat⟩ := Option.bind_eq_some_iff.1 h
  have hact : ∃ w, a = .mov w op (.reg name mode) := by
    obtain ⟨w, -, rfl⟩ := Option.map_eq_some_iff.1 (show Option.map (Act.mov · op (.reg name mode))
      (widthOf [op, .reg name mode]) = some a by cases op <;> exact ha)
    exact ⟨w, rfl⟩
  obtain ⟨w, rfl⟩ := hact
  obtain ⟨v, -, hwrite⟩ := Option.bind_eq_some_iff.1 hflat
  obtain ⟨t', ht', heq⟩ := Option.map_eq_some_iff.1 hwrite
  cases heq
  simp only [Flat.writeOp] at ht'
  split at ht'
  · cases ht'
    exact ⟨rfl, ⟨s.setReg_of_ne _ hsp.symm, s.setReg_of_ne _ hbp.symm⟩, rfl⟩
  · cases ht'

theorem before_spec {c : CallCode} {s : Flat} {d : Flat × Option String} (h : runCode map c.before (s, none) = some d) :
    Before c s d.1 := by
  cases c with
  | print funcName p =>
    obtain ⟨⟨t, label⟩, ht, h⟩ := Option.bind_eq_some_iff.1 h
    cases h
    obtain ⟨-, hstack, hmem⟩ := mov_reg_spec RegName.noConfusion RegName.noConfusion ht
    exact .of_effect rfl hstack hmem
  | allocate n size nMode sizeMode =>
    obtain ⟨⟨t, label⟩, ht, h⟩ := Option.bind_eq_some_iff.1 h
    obtain ⟨rfl, hstack, hmem⟩ := mov_reg_spec RegName.noConfusion RegName.noConfusion ht
    obtain ⟨⟨t', label'⟩, ht', h⟩ := Option.bind_eq_some_iff.1 h
    cases h
    obtain ⟨-, hstack', hmem'⟩ := mov_reg_spec RegName.noConfusion RegName.noConfusion ht'
    exact .of_effect rfl (hstack.trans hstack') (hmem'.trans hmem)
  | method funcName params =>
    rw [CallCode.before, runCode_append] at h
    obtain ⟨⟨t, label⟩, ht, h⟩ := Option.bind_eq_some_iff.1 h
    -- the state behind the `sub`, if there is one
    obtain ⟨rfl, hsp, hbp, hmem⟩ : label = none ∧ t.regs .sp = s.regs .sp - BitVec.ofNat 64 (8 * params.length) ∧
        t.regs .bp = s.regs .bp ∧ t.mem = s.mem := by
      by_cases hpos : 0 < (CallCode.method funcName params).addSize
      · rw [if_pos hpos] at ht
        obtain ⟨u, hu, hsp, hbp, hmem⟩ :=
          @binary_rsp map .sub s (CallCode.method funcName params).addSize
        change ((Act.binary .R .sub (.imm _) rsp).flat map s).bind some = some (t, label) at ht
        rw [hu] at ht
        cases ht
        refine ⟨rfl, ?_, hbp, hmem⟩
        rw [hsp, CallCode.addSize_ofInt]
        rfl
      · rw [if_neg hpos] at ht
        cases ht
        have hlength : params.length = 0 := by
          change ¬ 0 < (params.length : Int) * 8 at hpos
          omega
        rw [hlength]
        exact ⟨rfl, (BitVec.sub_zero _).symm, rfl, rfl⟩
    obtain ⟨-, hstack⟩ := paramsCode_stack h
    refine ⟨hstack.rbp.trans hbp, hstack.rsp.trans hsp, fun hfits x hx => ?_, fun hfits habove i p hp => ?_⟩
    · rw [hstack.rsp] at hfits hx
      obtain ⟨-, -, hrest, -⟩ := paramsCode_spec (j := 0) h (by rw [Nat.zero_add]; exact hfits)
      rw [hrest x (by rw [Nat.zero_add]; exact hx), hmem]
    · rw [hstack.rsp] at hfits habove
      obtain ⟨-, -, -, hwords⟩ := paramsCode_spec (j := 0) h (by rw [Nat.zero_add]; exact hfits)
      have := hwords (fun q hq offset ho => ?_) i p hp
      · rw [hstack.address (Or.inl rfl), ← NodeOp.value_congr hbp hmem p, ← this, Nat.zero_add]
      · have := habove q hq offset ho
        unfold Flat.address at this ⊢
        rw [hbp, Nat.zero_add]
        exact this

/-! ## Prolog and epilog -/

theorem push_spec {s t : Flat} {v : BitVec 64} (h : s.push map v = some t) : map.InStack (s.regs .sp - 8) 8 ∧
    t.regs .sp = s.regs .sp - 8 ∧ t.regs .bp = s.regs .bp ∧ t.mem = write s.mem (s.regs .sp - 8) 8 v.toNat := by
  unfold Flat.push at h
  split at h
  · rename_i hin
    cases h
    have hbp : ∀ v, (s.setReg .sp v).regs .bp = s.regs .bp := fun v => s.setReg_of_ne v RegName.noConfusion
    exact ⟨hin, s.setReg_self .sp _, hbp (s.regs .sp - 8), rfl⟩
  · cases h

theorem Method.arSize_eq (m : Method) : ∃ k : Nat, m.arSize = 8 * (k + 1) :=
  m.generated.argSlots.reachable.sound.current

theorem Method.arSize_pos (m : Method) : 0 < m.arSize := by
  obtain ⟨k, hk⟩ := m.arSize_eq
  omega

theorem prolog_spec {m : Method} {s t : Flat} (h : m.prolog.foldlM (Line.run map) s = some t) :
    map.InStack (s.regs .sp - 8) 8 ∧ t.regs .bp = s.regs .sp - 8 ∧
      t.regs .sp = s.regs .sp - 8 - BitVec.ofInt 64 m.arSize ∧
      t.mem = write s.mem (s.regs .sp - 8) 8 (s.regs .bp).toNat := by
  unfold Method.prolog at h
  rw [if_pos m.arSize_pos, List.cons_append, List.foldlM_cons] at h
  obtain ⟨u, hu, h⟩ := Option.bind_eq_some_iff.1 h
  obtain ⟨hin, hsp, -, hmem⟩ := push_spec hu
  obtain ⟨v, hv, hvsp, hvbp, hvmem⟩ := @mov_rsp_rbp map u
  obtain ⟨w, hw, hwsp, hwbp, hwmem⟩ := @binary_rsp map .sub v m.arSize
  change (Prod.fst <$> stepFlat map (u, none) ⟨.Mov, [rsp, rbp]⟩).bind (fun v =>
    (Prod.fst <$> (Act.binary .R .sub (.imm m.arSize) rsp).flat map v).bind some) = some t at h
  rw [hv, Option.map_eq_map, Option.map_some, Option.bind_some, hw] at h
  cases h
  refine ⟨hin, ?_, ?_, ?_⟩
  · rw [hwbp, hvbp, hsp]
  · rw [hwsp, hvsp, hsp]
    rfl
  · rw [hwmem, hvmem, hmem]

theorem pop_spec {s : Flat} (hin : map.InStack (s.regs .sp) 8) : ∃ t, s.pop map = some (s.word (s.regs .sp), t) ∧
    t.regs .sp = s.regs .sp + 8 ∧ t.regs .bp = s.regs .bp ∧ t.mem = s.mem := by
  have hbp : ∀ v, (s.setReg .sp v).regs .bp = s.regs .bp := fun v => s.setReg_of_ne v RegName.noConfusion
  unfold Flat.pop
  rw [if_pos hin]
  exact ⟨_, rfl, s.setReg_self .sp _, hbp _, rfl⟩

theorem leave_spec {s : Flat} (hin : map.InStack (s.regs .bp) 8) : ∃ t, s.leave map = some t ∧
    t.regs .sp = s.regs .bp + 8 ∧ t.regs .bp = s.word (s.regs .bp) ∧ t.mem = s.mem := by
  have hsp : (s.setReg .sp (s.regs .bp)).regs .sp = s.regs .bp := s.setReg_self .sp _
  obtain ⟨t, ht, htsp, -, htmem⟩ := @pop_spec map (s.setReg .sp (s.regs .bp)) (by rwa [hsp])
  unfold Flat.leave
  rw [ht]
  refine ⟨t.setReg .bp _, rfl, ?_, ?_, htmem⟩
  · rw [t.setReg_of_ne _ RegName.noConfusion, htsp, hsp]
  · rw [t.setReg_self, hsp]
    rfl

theorem epilog_run {m : Method} {s : Flat} (hin : map.InStack (s.regs .bp) 8) :
    ∃ t, m.epilog.foldlM (Line.run map) s = some t ∧ t.regs .sp = s.regs .bp + 8 ∧
      t.regs .bp = s.word (s.regs .bp) ∧ t.mem = s.mem := by
  unfold Method.epilog
  rw [if_pos m.arSize_pos, List.cons_append, List.nil_append]
  obtain ⟨u, hu, -, hubp, humem⟩ := @binary_rsp map .add s m.arSize
  obtain ⟨t, ht, htsp, htbp, htmem⟩ := @leave_spec map u (by rwa [hubp])
  refine ⟨t, ?_, ?_, ?_, htmem.trans humem⟩
  · show (Prod.fst <$> (Act.binary .R .add (.imm m.arSize) rsp).flat map s).bind (fun u => (u.leave map).bind some) = some t
    rw [hu, Option.map_eq_map, Option.map_some, Option.bind_some, ht]
    rfl
  · rw [htsp, hubp]
  · rw [htbp, hubp]
    unfold Flat.word
    rw [humem]

end

end Mjc.Asm

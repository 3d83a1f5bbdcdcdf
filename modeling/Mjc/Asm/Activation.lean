import Mjc.Asm.FrameCode

/-!
# Activations of methods

* `Method.slot_cases` : the slots of a method are its parameters and words of its frame;
* `Activation`, `At` : an activation, with the two words at `%rbp` and the memory of its callers, and what holds at every
  place of its method;
* `At.plain`, `At.call`, `At.ret` : steps inside the method, into a callee, and back; `machine_rule`;
* `run_at` : in every run of a program, the activation that it is in.
-/

namespace Mjc.Asm
open Mjc.Bytes Mjc.Nesting StackSlotManager

set_option autoImplicit false

/-! ## The slots of a method -/

/-- `ARsize` as a number. -/
def Method.frameSize (m : Method) : Nat := m.arSize.toNat

theorem Method.arSize_eq_frameSize (m : Method) : m.arSize = m.frameSize :=
  (Int.toNat_of_nonneg (Int.le_of_lt m.arSize_pos)).symm

theorem Method.frameSize_lt (m : Method) : m.frameSize < 2 ^ 31 := by
  have hlt : m.arSize < 2 ^ 31 := m.ssm_lt
  have := m.arSize_eq_frameSize
  omega

theorem Method.frameSize_mod (m : Method) : m.frameSize % 8 = 0 := by
  obtain ⟨k, hk⟩ := m.arSize_eq
  have := m.arSize_eq_frameSize
  omega

/-- A slot is a parameter, or a word of the frame. -/
theorem Method.slot_cases (m : Method) {offset : Int} (h : m.ssm.HasOffset offset) :
    (∃ num < m.nParams, offset = 16 + num * 8) ∨ ∃ k : Nat, offset = -(8 * (k + 1)) ∧ 8 * (k + 1) < m.frameSize := by
  have hslots := m.generated.argSlots
  have hsize := m.arSize_eq_frameSize
  rcases hslots.offsets offset h with ⟨arg, harg, rfl⟩ | hneg
  · exact Or.inl ⟨arg.2, m.args_lt arg harg, rfl⟩
  · rcases hslots.reachable.sound.inFrame offset h with ⟨num, rfl⟩ | ⟨k, hk, hlt⟩
    · omega
    · have hlt : 8 * ((k : Int) + 1) < m.arSize := hlt
      exact Or.inr ⟨k, hk, by omega⟩

theorem Method.frameSlot (m : Method) {offset : Int} (h : m.ssm.HasOffset offset) : FrameSlot m.nParams offset := by
  have := m.frameSize_lt
  rcases m.slot_cases h with h | ⟨k, hk, hlt⟩
  · exact Or.inl h
  · exact Or.inr ⟨k, hk, by omega⟩

/-- Where a slot lies, if the frame does not reach below address zero. -/
theorem Method.slot_address (m : Method) {offset : Int} (h : m.ssm.HasOffset offset) {bp : Nat} {s : Flat}
    (hbp : s.regs .bp = BitVec.ofNat 64 bp) (hlow : m.frameSize ≤ bp) (hhigh : bp + 16 + 8 * m.nParams < 2 ^ 64) :
    bp - m.frameSize ≤ (s.address .bp offset).toNat ∧ (s.address .bp offset).toNat + 8 ≤ bp + 16 + 8 * m.nParams := by
  unfold Flat.address
  rw [hbp]
  rcases m.slot_cases h with ⟨num, hnum, rfl⟩ | ⟨k, rfl, hlt⟩
  · have hofs : BitVec.ofInt 64 (16 + (num : Int) * 8) = BitVec.ofNat 64 (16 + num * 8) := by
      rw [← BitVec.ofInt_natCast]
      push_cast
      rfl
    rw [hofs, BitVec.toNat_add, BitVec.toNat_ofNat, BitVec.toNat_ofNat]
    omega
  · have hofs : BitVec.ofInt 64 (-(8 * ((k : Int) + 1))) = -BitVec.ofNat 64 (8 * (k + 1)) := by
      rw [BitVec.ofInt_neg, ← BitVec.ofInt_natCast]
      push_cast
      rfl
    rw [hofs, BitVec.add_neg_eq_sub, BitVec.toNat_sub, BitVec.toNat_ofNat, BitVec.toNat_ofNat]
    omega

theorem Method.block_of_code (m : Method) {b : Nat} {block : String × List Piece} (hb : m.code[b]? = some block) :
    ∃ bc ∈ m.blocks, bc.pieces = some block.2 := by
  obtain ⟨bc, hbc, hpieces⟩ := Fold.mem_of_mapM m.emitted (List.mem_of_getElem? hb)
  obtain ⟨pieces, hemit, rfl⟩ := Option.map_eq_some_iff.1 hpieces
  exact ⟨bc, hbc, hemit⟩

theorem Method.tame (m : Method) {b k : Nat} {block : String × List Piece} (hb : m.code[b]? = some block)
    {is : List Instr} (hk : block.2[k]? = some (.code is)) : TameCode m.ssm.HasOffset is := by
  obtain ⟨bc, hbc, hpieces⟩ := m.block_of_code hb
  exact tame_block (m.slots bc hbc) hpieces (List.mem_of_getElem? hk)

/-- A call piece comes from a visited call. -/
theorem Method.call_of_piece (m : Method) {b k : Nat} {block : String × List Piece} (hb : m.code[b]? = some block)
    {c : CallCode} (hk : block.2[k]? = some (.call c)) : ∃ bc ∈ m.blocks, ∃ resultProj, .call c resultProj ∈ bc.body := by
  obtain ⟨bc, hbc, hpieces⟩ := m.block_of_code hb
  obtain ⟨startPhiInstrs, -, hpieces⟩ := Option.bind_eq_some_iff.1 hpieces
  obtain ⟨jumpInstrs, -, hpieces⟩ := Option.bind_eq_some_iff.1 hpieces
  have hmem := List.mem_of_getElem? hk
  rw [← Option.some.inj hpieces] at hmem
  refine ⟨bc, hbc, ?_⟩
  rcases List.mem_cons.mp hmem with heq | hmem
  · cases heq
  rcases List.mem_append.mp hmem with hmem | hmem
  · obtain ⟨n, hn, hmem⟩ := List.mem_flatMap.mp hmem
    cases n with
    | call c' resultProj =>
      rcases List.mem_cons.mp hmem with heq | hmem
      · cases heq
        exact ⟨resultProj, hn⟩
      · cases List.mem_singleton.mp hmem
    | _ => cases List.mem_singleton.mp hmem
  · rcases List.mem_cons.mp hmem with heq | hmem
    · cases heq
    · cases List.mem_singleton.mp hmem

theorem Method.call_facts (m : Method) {b k : Nat} {block : String × List Piece} (hb : m.code[b]? = some block)
    {c : CallCode} (hk : block.2[k]? = some (.call c)) :
    8 * c.stackParams.length < 2 ^ 31 ∧ ∀ q ∈ c.stackParams, ∀ offset ∈ q.slots, m.ssm.HasOffset offset := by
  obtain ⟨bc, hbc, resultProj, hcall⟩ := m.call_of_piece hb hk
  constructor
  · have := m.sizes_lt bc hbc c resultProj hcall
    rw [c.addSize_eq] at this
    omega
  · intro q hq offset ho
    apply m.slots bc hbc
    unfold BlockCode.slots
    simp only [List.mem_append, List.mem_flatMap]
    refine Or.inl (Or.inl (Or.inr ⟨_, hcall, List.mem_append_left _ ?_⟩))
    cases c with
    | method funcName params => exact List.mem_flatMap.mpr ⟨q, hq, ho⟩
    | _ => cases hq

/-! ## Activations -/

def Position.method : Position → Nat
  | .at m _ _ => m
  | .behind m _ _ => m

variable {p : Program} {r : Runtime p}

/-- The number of parameters that are still on the stack. -/
def pushed (p : Program) : Position → Nat
  | .at _ _ _ => 0
  | .behind m b k =>
    match p.pieceAt m b k with
    | some (.call c) => c.stackParams.length
    | _ => 0

/-- An activation: the calls that led to it, its method, the value of `%rbp` and the two words there, and the memory when
it began, which is that of its callers. -/
structure Activation where
  chain : List CallLabel
  index : Nat
  method : Method
  bp : Nat
  saved : BitVec 64
  target : BitVec 64
  above : BitVec 64 → BitVec 8

/-- The bytes that a call takes: those of the caller's frame, the parameters, the return address and the saved `%rbp`. -/
def CallLabel.bytes (l : CallLabel) : Nat := l.caller.frameSize + 8 * l.code.stackParams.length + 16

def chainBytes : List CallLabel → Nat
  | [] => 0
  | l :: ls => l.bytes + chainBytes ls

/-- What holds inside an activation; `base` is the `%rbp` of the first one. -/
structure At (p : Program) (r : Runtime p) (base : Nat) (a : Activation) (c : Config) : Prop where
  method : p.methods[a.index]? = some a.method
  pos : c.pos.method = a.index
  rbp : c.state.regs .bp = BitVec.ofNat 64 a.bp
  rsp : c.state.regs .sp =
    BitVec.ofNat 64 a.bp - BitVec.ofNat 64 a.method.frameSize - BitVec.ofNat 64 (8 * pushed p c.pos)
  low : r.map.stackLow ≤ a.bp
  high : a.bp + 16 + 8 * a.method.nParams ≤ r.map.stackHigh
  saved : c.state.word (BitVec.ofNat 64 a.bp) = a.saved
  target : c.state.word (BitVec.ofNat 64 (a.bp + 8)) = a.target
  above : ∀ x : BitVec 64, a.bp + 16 + 8 * a.method.nParams ≤ x.toNat → x.toNat < r.map.stackHigh →
    c.state.mem x = a.above x
  base : a.bp + chainBytes a.chain = base

section
variable {base : Nat} {a : Activation} {c : Config}

/-- The stack registers are as they should be at the new place, and the protected bytes stay. -/
theorem At.move (h : At p r base a c) {c' : Config} (hpos : c'.pos.method = a.index)
    (hrbp : c'.state.regs .bp = c.state.regs .bp)
    (hrsp : c'.state.regs .sp =
      BitVec.ofNat 64 a.bp - BitVec.ofNat 64 a.method.frameSize - BitVec.ofNat 64 (8 * pushed p c'.pos))
    (hmem : ∀ x, r.map.Protected a.bp a.method.nParams x → c'.state.mem x = c.state.mem x) : At p r base a c' := by
  have hhigh := h.high
  have hle := r.map.high_le
  have hword : ∀ k, a.bp ≤ k → k + 8 ≤ a.bp + 16 →
      c'.state.word (BitVec.ofNat 64 k) = c.state.word (BitVec.ofNat 64 k) := by
    intro k hk hk'
    have hval : (BitVec.ofNat 64 k).toNat = k := by
      rw [BitVec.toNat_ofNat]
      omega
    refine word_congr (by omega) fun x hx hlt => hmem x (Or.inl ?_)
    omega
  refine ⟨h.method, hpos, hrbp.trans h.rbp, hrsp, h.low, hhigh, ?_, ?_, fun x hx hlt => ?_, h.base⟩
  · rw [hword a.bp (Nat.le_refl _) (by omega), h.saved]
  · rw [hword (a.bp + 8) (by omega) (by omega), h.target]
  · rw [hmem x (Or.inr ⟨hx, hlt⟩), h.above x hx hlt]

/-- In front of a piece of the method. -/
theorem At.at_pos (h : At p r base a c) {m b k : Nat} (hpos : c.pos = .at m b k) : m = a.index ∧
    c.state.regs .sp = BitVec.ofNat 64 a.bp - BitVec.ofNat 64 a.method.frameSize := by
  have hm := h.pos
  have hrsp := h.rsp
  rw [hpos] at hm hrsp
  exact ⟨hm, hrsp.trans (BitVec.sub_zero _)⟩

/-- Below `%rbp` the frame and the parameters of a call follow, if there is room for them. -/
theorem At.sp_toNat (h : At p r base a c) {n : Nat} (hn : n < 2 ^ 31) {sp : BitVec 64}
    (hsp : sp = BitVec.ofNat 64 a.bp - BitVec.ofNat 64 a.method.frameSize - BitVec.ofNat 64 n)
    (hin : r.map.InStack (sp - 8) 8) : sp.toNat + n + a.method.frameSize = a.bp ∧ (sp - 8).toNat + 8 = sp.toNat := by
  have hhigh := h.high
  have hle := r.map.high_le
  have hsize := a.method.frameSize_lt
  obtain ⟨-, hin⟩ := hin
  have hval : sp.toNat = (2 ^ 64 - n + (2 ^ 64 - a.method.frameSize + a.bp) % 2 ^ 64) % 2 ^ 64 := by
    rw [hsp, BitVec.toNat_sub, BitVec.toNat_sub, BitVec.toNat_ofNat, BitVec.toNat_ofNat, BitVec.toNat_ofNat,
      Nat.mod_eq_of_lt (a := n) (by omega), Nat.mod_eq_of_lt (a := a.method.frameSize) (by omega),
      Nat.mod_eq_of_lt (a := a.bp) (by omega)]
  have hval' : (sp - 8).toNat = (2 ^ 64 - 8 + sp.toNat) % 2 ^ 64 := BitVec.toNat_sub _ _
  rw [hval'] at hin ⊢
  omega

theorem pushed_behind {m b k : Nat} {cc : CallCode} (h : p.pieceAt m b k = some (.call cc)) :
    pushed p (.behind m b k) = cc.stackParams.length := by
  simp only [pushed, h]

theorem pieceAt_eq_some {m b k : Nat} {piece : Piece} (h : p.pieceAt m b k = some piece) : ∃ method block,
    p.methods[m]? = some method ∧ method.code[b]? = some block ∧ block.2[k]? = some piece := by
  obtain ⟨method, hmethod, h⟩ := Option.bind_eq_some_iff.1 h
  obtain ⟨block, hblock, h⟩ := Option.bind_eq_some_iff.1 h
  exact ⟨method, block, hmethod, hblock, h⟩

/-- A call up to the state at the call instruction: the parameters lie right below the frame. -/
theorem At.before (h : At p r base a c) {m b k : Nat} (hpos : c.pos = .at m b k) {cc : CallCode}
    (hpiece : p.pieceAt m b k = some (.call cc)) {s : Flat} {label : Option String}
    (hs : runCode r.map cc.before (c.state, none) = some (s, label)) (hin : r.map.InStack (s.regs .sp - 8) 8) :
    s.regs .bp = BitVec.ofNat 64 a.bp ∧
      (s.regs .sp).toNat + 8 * cc.stackParams.length + a.method.frameSize = a.bp ∧
      (s.regs .sp - 8).toNat + 8 = (s.regs .sp).toNat ∧
      (∀ x : BitVec 64, (s.regs .sp).toNat + 8 * cc.stackParams.length ≤ x.toNat → s.mem x = c.state.mem x) ∧
      ∀ (i : Nat) q, cc.stackParams[i]? = some q → s.word (s.address .sp (8 * i)) = q.value c.state := by
  obtain ⟨hm, hrsp⟩ := h.at_pos hpos
  obtain ⟨method, block, hmethod, hblock, hk⟩ := pieceAt_eq_some hpiece
  obtain rfl : method = a.method := by
    rw [hm, h.method] at hmethod
    exact (Option.some.inj hmethod).symm
  obtain ⟨hsize, hslots⟩ := a.method.call_facts hblock hk
  have hbefore : Before cc c.state s := before_spec hs
  have hhigh := h.high
  have hle := r.map.high_le
  obtain ⟨hsp, hsp8⟩ := h.sp_toNat hsize (hbefore.rsp.trans (by rw [hrsp])) hin
  refine ⟨hbefore.rbp.trans h.rbp, hsp, hsp8, fun x hx => hbefore.mem (by omega) x (Or.inr hx), ?_⟩
  refine hbefore.params (by omega) fun q hq offset ho => ?_
  have := a.method.slot_address (hslots q hq offset ho) h.rbp (by omega) (by omega)
  omega

/-- A call of the C library keeps everything from the caller's frame upwards. -/
theorem At.callLibc (h : At p r base a c) {m b k : Nat} (hpos : c.pos = .at m b k) {cc : CallCode}
    (hpiece : p.pieceAt m b k = some (.call cc)) {s : Flat} (hs : r.callLibc m b k cc c.state = some s) :
    At p r base a ⟨.behind m b k, s⟩ := by
  obtain ⟨⟨t, label⟩, ht, hs⟩ := Option.bind_eq_some_iff.1 hs
  obtain ⟨u, hu, hs⟩ := Option.bind_eq_some_iff.1 hs
  cases hs
  obtain ⟨hin, husp, hubp, humem⟩ := push_spec hu
  obtain ⟨hbp, hsp, hsp8, hmem, -⟩ := h.before hpos hpiece ht hin
  obtain ⟨hm, hrsp⟩ := h.at_pos hpos
  have hhigh := h.high
  have hle := r.map.high_le
  refine h.move hm ?_ ?_ fun x hx => ?_
  · show (r.libc cc.callee u).regs .bp = _
    rw [r.libc_bp, hubp, hbp, h.rbp]
  · show (r.libc cc.callee u).regs .sp = _
    rw [r.libc_sp, husp, pushed_behind hpiece, BitVec.sub_add_cancel, (before_spec ht).rsp, hrsp]
  · have hx' : a.bp ≤ x.toNat ∧ x.toNat < r.map.stackHigh := by
      unfold MemoryMap.Protected at hx
      omega
    show (r.libc cc.callee u).mem x = _
    have husp8 : (u.regs .sp).toNat + 8 = (t.regs .sp).toNat := by rw [husp, hsp8]
    rw [r.libc_mem _ _ x (by omega) hx'.2, humem, write_outside _ _ (by omega) (by omega), hmem x (by omega)]

/-- The code behind a call gives the stack back. -/
theorem addCode_run (c : CallCode) (s : Flat) : ∃ t, runCode r.map c.addCode (s, none) = some (t, none) ∧
    t.regs .sp = s.regs .sp + BitVec.ofNat 64 (8 * c.stackParams.length) ∧ t.regs .bp = s.regs .bp ∧ t.mem = s.mem := by
  unfold CallCode.addCode
  by_cases hpos : 0 < c.addSize
  · rw [if_pos hpos]
    obtain ⟨t, ht, hsp, hbp, hmem⟩ := @binary_rsp r.map .add s c.addSize
    refine ⟨t, ?_, ?_, hbp, hmem⟩
    · show ((Act.binary .R .add (.imm c.addSize) rsp).flat r.map s).bind some = _
      rw [ht]
      rfl
    · rw [hsp, c.addSize_ofInt]
      rfl
  · rw [if_neg hpos]
    have hlength : c.stackParams.length = 0 := by
      rw [c.addSize_eq] at hpos
      omega
    rw [hlength]
    exact ⟨s, rfl, (BitVec.add_zero _).symm, rfl, rfl⟩

theorem At.behind (h : At p r base a c) {m b k : Nat} (hpos : c.pos = .behind m b k) {cc : CallCode}
    (hpiece : p.pieceAt m b k = some (.call cc)) : ∃ c', plainStep p r c = some c' ∧ c'.pos = .at m b (k + 1) ∧
      c'.state.mem = c.state.mem ∧ At p r base a c' := by
  obtain ⟨t, ht, hsp, hbp, hmem⟩ := @addCode_run p r cc c.state
  refine ⟨⟨.at m b (k + 1), t⟩, ?_, rfl, hmem, h.move ?_ hbp ?_ fun x _ => by rw [hmem]⟩
  · unfold plainStep
    rw [hpos]
    show (match p.pieceAt m b k with | some (.call cc) => _ | _ => _) = _
    rw [hpiece]
    show (fun s => Config.mk _ s.1) <$> runCode r.map cc.addCode (c.state, none) = _
    rw [ht]
    rfl
  · rw [← h.pos, hpos]
    rfl
  · show t.regs .sp = _
    rw [hsp, h.rsp, hpos, pushed_behind hpiece, BitVec.sub_add_cancel]
    exact (BitVec.sub_zero _).symm

theorem At.plain (h : At p r base a c) {c' : Config} (hstep : plainStep p r c = some c') : At p r base a c' := by
  cases hpos : c.pos with
  | behind m b k =>
    have hpiece : ∃ cc, p.pieceAt m b k = some (.call cc) := by
      unfold plainStep at hstep
      rw [hpos] at hstep
      simp only at hstep
      split at hstep
      · exact ⟨_, ‹_›⟩
      · cases hstep
    obtain ⟨cc, hpiece⟩ := hpiece
    obtain ⟨d, hd, -, -, hat⟩ := h.behind hpos hpiece
    obtain rfl : d = c' := Option.some.inj (hd.symm.trans hstep)
    exact hat
  | «at» m b k =>
    obtain ⟨hm, hrsp⟩ := h.at_pos hpos
    have hstay : ∀ {d : Config} {m' b' k' : Nat}, d.pos = .at m' b' k' → m' = a.index →
        Kept r.map a.bp a.method.nParams c.state d.state → At p r base a d := by
      intro d m' b' k' hd hm' hkept
      refine h.move (by rw [hd]; exact hm') hkept.rbp ?_ hkept.mem
      rw [hkept.rsp, hrsp, hd]
      exact (BitVec.sub_zero _).symm
    unfold plainStep at hstep
    rw [hpos] at hstep
    obtain ⟨method, hmethod, hstep⟩ := Option.bind_eq_some_iff.1 hstep
    obtain ⟨block, hblock, hstep⟩ := Option.bind_eq_some_iff.1 hstep
    obtain rfl : method = a.method := by
      rw [hm, h.method] at hmethod
      exact (Option.some.inj hmethod).symm
    simp only at hstep
    split at hstep
    · cases hstep
      exact hstay rfl hm (Kept.refl _ _ _)
    · rename_i is hk
      obtain ⟨⟨t, label⟩, ht, hstep⟩ := Option.bind_eq_some_iff.1 hstep
      have hkept := runCode_kept (a.method.tame hblock hk) (fun _ => a.method.frameSlot) h.low h.high h.rbp ht
      cases label with
      | none =>
        cases hstep
        exact hstay rfl hm hkept
      | some label =>
        obtain ⟨b', -, hstep⟩ := Option.map_eq_some_iff.1 hstep
        cases hstep
        exact hstay rfl hm hkept
    · rename_i cc hk
      split at hstep
      · obtain ⟨s, hs, hstep⟩ := Option.map_eq_some_iff.1 hstep
        cases hstep
        have hpiece : p.pieceAt m b k = some (.call cc) := by
          unfold Program.pieceAt
          rw [hmethod, Option.bind_eq_bind, Option.bind_some, hblock, Option.bind_eq_bind, Option.bind_some, hk]
        exact h.callLibc hpos hpiece hs
      · cases hstep

/-! ## Calls and returns -/

/-- The activation that a call begins. -/
def Activation.enter (a : Activation) (l : CallLabel) (g : Nat) (callee : Method) (bp : Nat) (target : BitVec 64)
    (s : Flat) : Activation where
  chain := l :: a.chain
  index := g
  method := callee
  bp := bp
  saved := s.regs .bp
  target := target
  above := s.mem

theorem callAt_eq_some (h : At p r base a c) {l : CallLabel} (hl : callAt p c = some l) :
    ∃ b k, c.pos = .at a.index b k ∧ p.pieceAt a.index b k = some (.call l.code) ∧ l.caller = a.method := by
  unfold callAt at hl
  split at hl
  · rename_i m b k hpos
    obtain ⟨hm, -⟩ := h.at_pos hpos
    subst hm
    obtain ⟨method, hmethod, hl⟩ := Option.bind_eq_some_iff.1 hl
    rw [h.method] at hmethod
    obtain rfl := Option.some.inj hmethod
    split at hl
    · rename_i cc hpiece
      cases hl
      exact ⟨b, k, hpos, hpiece, rfl⟩
    · cases hl
  · cases hl

theorem callee_eq_some {cc : CallCode} {g : Nat} (hg : p.callee cc = some g) {callee : Method}
    (hcallee : p.methods[g]? = some callee) : ∃ funcName params, cc = .method funcName params ∧ callee.fnName = funcName := by
  cases cc with
  | method funcName params =>
    refine ⟨funcName, params, rfl, ?_⟩
    obtain ⟨hlt, hname, -⟩ := List.findIdx?_eq_some_iff_getElem.1 hg
    obtain ⟨_, rfl⟩ := List.getElem?_eq_some_iff.1 hcallee
    exact of_decide_eq_true hname
  | _ => cases hg

/-- A call: the callee's frame begins right below the parameters, which hold what they held in the caller. -/
theorem At.call (h : At p r base a c) {l : CallLabel} (hl : callAt p c = some l) {c' : Config}
    (hstep : callStep p r l c = some c') : ∃ b k g callee bp, c.pos = .at a.index b k ∧
      p.pieceAt a.index b k = some (.call l.code) ∧ l.caller = a.method ∧ p.callee l.code = some g ∧
      p.methods[g]? = some callee ∧ l.code.stackParams.length = callee.nParams ∧ c'.pos = .at g 0 0 ∧
      bp + l.bytes = a.bp ∧
      At p r base (a.enter l g callee bp (r.addrOf a.index b k) c.state) c' ∧
      ∀ (i : Nat) q, l.code.stackParams[i]? = some q →
        c'.state.word (c'.state.address .bp (16 + 8 * i)) = q.value c.state := by
  obtain ⟨b, k, hpos, hpiece, hcaller⟩ := callAt_eq_some h hl
  unfold callStep at hstep
  rw [hpos] at hstep
  obtain ⟨g, hg, hstep⟩ := Option.bind_eq_some_iff.1 hstep
  obtain ⟨callee, hcallee, hstep⟩ := Option.bind_eq_some_iff.1 hstep
  obtain ⟨⟨s, label⟩, hs, hstep⟩ := Option.bind_eq_some_iff.1 hstep
  obtain ⟨t, ht, hstep⟩ := Option.bind_eq_some_iff.1 hstep
  obtain ⟨u, hu, hstep⟩ := Option.bind_eq_some_iff.1 hstep
  cases hstep
  obtain ⟨hin, htsp, htbp, htmem⟩ := push_spec ht
  obtain ⟨hin', hubp, husp, humem⟩ := prolog_spec hu
  obtain ⟨hsbp, hsp, hsp8, hsmem, hparams⟩ := h.before hpos hpiece hs hin
  have hlength : l.code.stackParams.length = callee.nParams := by
    obtain ⟨funcName, params, hcode, hname⟩ := callee_eq_some hg hcallee
    obtain ⟨method, block, hmethod, hblock, hk⟩ := pieceAt_eq_some hpiece
    obtain ⟨bc, hbc, resultProj, hcall⟩ := method.call_of_piece hblock hk
    rw [hcode] at hcall ⊢
    exact p.arity method (List.mem_of_getElem? hmethod) bc hbc funcName params resultProj hcall callee
      (List.mem_of_getElem? hcallee) hname
  have hhigh := h.high
  have hle := r.map.high_le
  -- `%rsp` goes down by two words
  rw [htsp] at hin' hubp husp humem
  obtain ⟨hlow', hhigh'⟩ := hin'
  have hbp8 : (s.regs .sp - 8 - 8).toNat + 16 = (s.regs .sp).toNat := by
    have hval : (s.regs .sp - 8 - 8).toNat = (2 ^ 64 - 8 + (s.regs .sp - 8).toNat) % 2 ^ 64 := BitVec.toNat_sub _ _
    rw [hval] at hhigh' ⊢
    omega
  generalize hbp : (s.regs .sp - 8 - 8).toNat = bp at hlow' hhigh' hbp8
  have hofNat : s.regs .sp - 8 - 8 = BitVec.ofNat 64 bp := by
    rw [← hbp, BitVec.ofNat_toNat, BitVec.setWidth_eq]
  have hofNat8 : s.regs .sp - 8 = BitVec.ofNat 64 (bp + 8) := by
    apply BitVec.eq_of_toNat_eq
    rw [BitVec.toNat_ofNat]
    omega
  have hbytes : bp + l.bytes = a.bp := by
    unfold CallLabel.bytes
    rw [hcaller]
    omega
  have hmem : ∀ x : BitVec 64, bp + 16 ≤ x.toNat → u.mem x = s.mem x := by
    intro x hx
    rw [humem, write_outside _ _ (by omega) (by omega), htmem, write_outside _ _ (by omega) (by omega)]
  refine ⟨b, k, g, callee, bp, hpos, hpiece, hcaller, hg, hcallee, hlength, rfl, hbytes, ?_, fun i q hq => ?_⟩
  · have hval : (BitVec.ofNat 64 bp).toNat = bp := by
      rw [BitVec.toNat_ofNat]
      omega
    refine ⟨hcallee, rfl, hubp.trans hofNat, ?_, hlow', ?_, ?_, ?_, fun x hx _ => ?_, ?_⟩
    · show u.regs .sp = BitVec.ofNat 64 bp - BitVec.ofNat 64 callee.frameSize - 0#64
      rw [husp, hofNat, BitVec.sub_zero, callee.arSize_eq_frameSize, BitVec.ofInt_natCast]
    · show bp + 16 + 8 * callee.nParams ≤ _
      omega
    · show u.word (BitVec.ofNat 64 bp) = c.state.regs .bp
      rw [← hofNat, word_write humem, htbp, hsbp, h.rbp]
    · show u.word (BitVec.ofNat 64 (bp + 8)) = r.addrOf a.index b k
      rw [← hofNat8]
      have hkeep : u.word (s.regs .sp - 8) = t.word (s.regs .sp - 8) := by
        refine word_congr (by omega) fun x hx _ => ?_
        rw [humem, write_outside _ _ (by omega) (by omega)]
      rw [hkeep, word_write htmem]
    · have hx : bp + 16 + 8 * callee.nParams ≤ x.toNat := hx
      show u.mem x = c.state.mem x
      rw [hmem x (by omega), hsmem x (by omega)]
    · show bp + (l.bytes + chainBytes a.chain) = base
      rw [← Nat.add_assoc, hbytes, h.base]
  · have hi : i < l.code.stackParams.length := (List.getElem?_eq_some_iff.1 hq).1
    have haddr : u.address .bp (16 + 8 * i) = s.address .sp (8 * i) := by
      unfold Flat.address
      rw [hubp, BitVec.ofInt_add, ← BitVec.add_assoc]
      congr 1
      rw [show BitVec.ofInt 64 16 = 8 + 8 from rfl, ← BitVec.add_assoc, BitVec.sub_add_cancel, BitVec.sub_add_cancel]
    have hplace := toNat_paramAddress (s := s) (j := i) (by omega)
    show u.word (u.address .bp (16 + 8 * i)) = _
    rw [haddr, ← hparams i q hq]
    exact word_congr (by omega) fun x hx _ => hmem x (by omega)

/-- The epilog finds the two words of the activation. -/
theorem At.epilog (h : At p r base a c) : ∃ t u, a.method.epilog.foldlM (Line.run r.map) c.state = some t ∧
    t.pop r.map = some (a.target, u) ∧ u.regs .sp = BitVec.ofNat 64 (a.bp + 16) ∧ u.regs .bp = a.saved ∧
    u.mem = c.state.mem := by
  have hhigh := h.high
  have hlow := h.low
  have hle := r.map.high_le
  have hin : ∀ n, n ≤ 8 → r.map.InStack (BitVec.ofNat 64 (a.bp + n)) 8 := by
    intro n hn
    unfold MemoryMap.InStack
    rw [BitVec.toNat_ofNat]
    omega
  obtain ⟨t, ht, htsp, htbp, htmem⟩ := @epilog_run r.map a.method c.state (by rw [h.rbp]; exact hin 0 (by omega))
  have htsp : t.regs .sp = BitVec.ofNat 64 (a.bp + 8) := by
    rw [htsp, h.rbp, BitVec.ofNat_add]
    rfl
  obtain ⟨u, hu, husp, hubp, humem⟩ := @pop_spec r.map t (by rw [htsp]; exact hin 8 (by omega))
  have htarget : t.word (t.regs .sp) = a.target := by
    rw [htsp, ← h.target]
    unfold Flat.word
    rw [htmem]
  rw [htarget] at hu
  refine ⟨t, u, ht, hu, ?_, ?_, humem.trans htmem⟩
  · rw [husp, htsp, BitVec.ofNat_add, BitVec.ofNat_add, BitVec.add_assoc]
    rfl
  · rw [hubp, htbp, h.rbp, h.saved]

theorem At.ret_run (h : At p r base a c) (hpos : c.pos = .at a.index a.method.code.length 0) {m b k : Nat}
    (hplace : r.place a.target = some (m, b, k)) : ∃ c', retStep p r c = some c' ∧ c'.pos = .behind m b k ∧
      c'.state.regs .sp = BitVec.ofNat 64 (a.bp + 16) ∧ c'.state.regs .bp = a.saved ∧ c'.state.mem = c.state.mem := by
  obtain ⟨t, u, ht, hu, husp, hubp, humem⟩ := h.epilog
  refine ⟨⟨.behind m b k, u⟩, ?_, rfl, husp, hubp, humem⟩
  unfold retStep
  rw [hpos]
  simp only [h.method, Option.bind_eq_bind, Option.bind_some, if_pos, ht, hu, hplace]

theorem At.ret_pos (h : At p r base a c) {c' : Config} (hstep : retStep p r c = some c') :
    c.pos = .at a.index a.method.code.length 0 ∧ ∃ place, r.place a.target = some place := by
  obtain ⟨t, u, ht, hu, -⟩ := h.epilog
  unfold retStep at hstep
  split at hstep
  · rename_i m b hpos
    obtain ⟨hm, -⟩ := h.at_pos hpos
    subst hm
    obtain ⟨method, hmethod, hstep⟩ := Option.bind_eq_some_iff.1 hstep
    rw [h.method] at hmethod
    obtain rfl := Option.some.inj hmethod
    by_cases hb : b = a.method.code.length
    · rw [if_pos hb, ht, Option.bind_eq_bind, Option.bind_some, hu, Option.bind_eq_bind, Option.bind_some] at hstep
      obtain ⟨place, hplace, -⟩ := Option.bind_eq_some_iff.1 hstep
      exact ⟨by rw [hpos, hb], place, hplace⟩
    · rw [if_neg hb] at hstep
      cases hstep
  · cases hstep

/-- Back from a callee. -/
theorem At.ret (h : At p r base a c) {b k : Nat} {l : CallLabel}
    (hpiece : p.pieceAt a.index b k = some (.call l.code)) (hcaller : l.caller = a.method) {g : Nat} {callee : Method}
    (hlength : l.code.stackParams.length = callee.nParams) {bp : Nat} (hbytes : bp + l.bytes = a.bp) {d d' : Config}
    (hd : At p r base (a.enter l g callee bp (r.addrOf a.index b k) c.state) d) (hstep : retStep p r d = some d') :
    At p r base a d' ∧ d'.pos = .behind a.index b k ∧
      ∀ x : BitVec 64, a.bp ≤ x.toNat + a.method.frameSize → x.toNat < r.map.stackHigh → d'.state.mem x = c.state.mem x := by
  have hplace := r.place_addrOf _ _ _ _ hpiece
  obtain ⟨e, he, hepos, hesp, hebp, hemem⟩ := hd.ret_run (hd.ret_pos hstep).1 hplace
  obtain rfl : e = d' := Option.some.inj (he.symm.trans hstep)
  have hbytes : bp + (a.method.frameSize + 8 * l.code.stackParams.length + 16) = a.bp := by
    rw [← hcaller]
    exact hbytes
  have hmem : ∀ x : BitVec 64, a.bp ≤ x.toNat + a.method.frameSize → x.toNat < r.map.stackHigh →
      e.state.mem x = c.state.mem x := by
    intro x hx hlt
    rw [hemem]
    exact hd.above x (show bp + 16 + 8 * callee.nParams ≤ x.toNat by omega) hlt
  have hhigh := h.high
  refine ⟨h.move (by rw [hepos]; rfl) hebp ?_ fun x hx => ?_, hepos, hmem⟩
  · have hsum : a.bp = bp + 16 + 8 * l.code.stackParams.length + a.method.frameSize := by omega
    rw [hepos, pushed_behind hpiece, hesp, hsum, BitVec.ofNat_add (bp + 16 + _), BitVec.add_sub_cancel,
      BitVec.ofNat_add (bp + 16), BitVec.add_sub_cancel]
    rfl
  · unfold MemoryMap.Protected at hx
    exact hmem x (by omega) (by omega)

theorem machine_rule (base : Nat) : Rule (machine p r) (At p r base) Activation.chain where
  plain _ _ _ ha hstep := ha.plain hstep
  call a l c c' ha hcall := by
    obtain ⟨hl, hstep⟩ := hcall
    obtain ⟨b, k, g, callee, bp, -, hpiece, hcaller, -, -, hlength, -, hbytes, hat, -⟩ := ha.call hl hstep
    exact ⟨_, rfl, hat, fun d d' hd hret => (ha.ret hpiece hcaller hlength hbytes hd hret).1⟩

/-! ## Whole runs -/

/-- The first activation: its `%rbp` is a word below the return address. -/
theorem start_at {e : Nat} {entry : Flat} (hentry : Entry p r e entry) {c₀ : Config} (hstart : start p r e entry = some c₀) :
    ∃ a, At p r ((entry.regs .sp).toNat - 8) a c₀ ∧ 8 ≤ (entry.regs .sp).toNat ∧ a.chain = [] ∧ r.place a.target = none := by
  obtain ⟨m, hm, hstart⟩ := Option.bind_eq_some_iff.1 hstart
  obtain ⟨s, hs, hstart⟩ := Option.bind_eq_some_iff.1 hstart
  cases hstart
  obtain ⟨hin, hbp, hsp, hmem⟩ := prolog_spec hs
  have hroom := hentry.room m hm
  have hle := r.map.high_le
  obtain ⟨hlow, hhigh⟩ := hin
  have hval : (entry.regs .sp - 8).toNat + 8 = (entry.regs .sp).toNat := by
    have hval : (entry.regs .sp - 8).toNat = (2 ^ 64 - 8 + (entry.regs .sp).toNat) % 2 ^ 64 := BitVec.toNat_sub _ _
    rw [hval] at hhigh ⊢
    omega
  generalize hbase : (entry.regs .sp - 8).toNat = bp at hval hlow hhigh
  have hofNat : entry.regs .sp - 8 = BitVec.ofNat 64 bp := by
    rw [← hbase, BitVec.ofNat_toNat, BitVec.setWidth_eq]
  have hofNat8 : entry.regs .sp = BitVec.ofNat 64 (bp + 8) := by
    apply BitVec.eq_of_toNat_eq
    rw [BitVec.toNat_ofNat]
    omega
  have htarget : s.word (entry.regs .sp) = entry.word (entry.regs .sp) := by
    refine word_congr (by omega) fun x hx _ => ?_
    rw [hmem, write_outside _ _ (by omega) (by omega)]
  refine ⟨⟨[], e, m, bp, entry.regs .bp, entry.word (entry.regs .sp), s.mem⟩, ?_, by omega, rfl, hentry.outside⟩
  refine ⟨hm, rfl, hbp.trans hofNat, ?_, hlow, ?_, ?_, ?_, fun _ _ _ => rfl, ?_⟩
  · show s.regs .sp = BitVec.ofNat 64 bp - BitVec.ofNat 64 m.frameSize - 0#64
    rw [hsp, hofNat, BitVec.sub_zero, m.arSize_eq_frameSize, BitVec.ofInt_natCast]
  · show bp + 16 + 8 * m.nParams ≤ _
    omega
  · show s.word (BitVec.ofNat 64 bp) = _
    rw [← hofNat, word_write hmem]
  · show s.word (BitVec.ofNat 64 (bp + 8)) = _
    rw [← hofNat8, htarget]
  · show bp + 0 = _
    omega

/-- Every run has its pending calls, and at its end there is an activation. -/
theorem run_at {e : Nat} {entry : Flat} (hentry : Entry p r e entry) {c₀ : Config} (hstart : start p r e entry = some c₀) :
    8 ≤ (entry.regs .sp).toNat ∧
      (∀ c, Steps (machine p r) c₀ c → ∃ chain, Pending (machine p r) c₀ chain c) ∧
      ∀ chain c, Pending (machine p r) c₀ chain c → ∃ a, a.chain = chain ∧ At p r ((entry.regs .sp).toNat - 8) a c := by
  obtain ⟨a₀, ha₀, hsp, hchain, houtside⟩ := start_at hentry hstart
  refine ⟨hsp, fun c hrun => pending_of_steps (fun d d' hd hret => ?_) hrun, fun chain c hpending => ?_⟩
  · obtain ⟨-, place, hplace⟩ := (hd.keeps (machine_rule _) ha₀).ret_pos hret
    rw [houtside] at hplace
    cases hplace
  · obtain ⟨a, ha, hat⟩ := hpending.activation (machine_rule _) ha₀
    refine ⟨a, ?_, hat⟩
    rw [ha, hchain, List.append_nil]

end

end Mjc.Asm

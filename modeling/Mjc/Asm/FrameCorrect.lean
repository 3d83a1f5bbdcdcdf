import Mjc.Asm.Activation

/-!
# Caller and callee

* `frames_agree` : on every call the callee finds the arguments in its parameter slots, none of its other slots lies there
  or at `%rbp`, and the caller finds its registers and slots again;
* `aligned_iff` : the alignment of `%rsp` at a call depends on the sizes of all frames on the way to it.
-/

namespace Mjc.Asm
open Mjc.Bytes Mjc.Nesting StackSlotManager

set_option autoImplicit false

/-! ## Sample programs -/

/-- A `main` that makes one call. -/
def sampleCaller (c : CallCode) (hslots : c.slots = []) (hsize : c.addSize < 2 ^ 31) : Method where
  fnName := "main"
  nParams := 0
  args := []
  ssm := .init
  blocks := [⟨1, [], [.call c none, .ret none], [], .jmp 2⟩, ⟨2, [], [], [], .leave⟩]
  code := [(getBlockLabel 1, [.code [], .call c, .code [], .code [], .code [], .code [makeJump (getBlockLabel 2) .true]]),
    (getBlockLabel 2, [.code [], .code [], .code []])]
  args_lt := List.forall_mem_nil _
  generated := .before rfl
  slots := by
    intro b hb offset ho
    rcases List.mem_pair.mp hb with rfl | rfl
    · simp [BlockCode.slots, NodeCode.slots, BlockExit.slots, hslots] at ho
    · cases ho
  emitted := rfl
  ssm_lt := by decide
  params_lt := by decide
  sizes_lt := by
    intro b hb c' resultProj hcall
    rcases List.mem_pair.mp hb with rfl | rfl
    · rcases List.mem_pair.mp hcall with heq | heq
      · cases heq
        exact hsize
      · cases heq
    · cases hcall

/-- A method that returns its parameter. -/
def sampleCallee : Method where
  fnName := "f"
  nParams := 1
  args := [(0, 0)]
  ssm := { StackSlotManager.init with offsets := Function.update (fun _ => none) 0 (some 16) }
  blocks := [⟨3, [], [.ret (some (.slot 16))], [], .jmp 4⟩, ⟨4, [], [], [], .leave⟩]
  code := [(getBlockLabel 3, [.code [], .code [⟨.Mov, [slotOp 16, rax]⟩], .code [],
      .code [makeJump (getBlockLabel 4) .true]]),
    (getBlockLabel 4, [.code [], .code [], .code []])]
  args_lt := by decide
  generated := .before rfl
  slots := by
    intro b hb offset ho
    rcases List.mem_pair.mp hb with rfl | rfl
    · obtain rfl : offset = 16 := by simpa [BlockCode.slots, NodeCode.slots, NodeOp.slots, BlockExit.slots] using ho
      exact ⟨0, Or.inl rfl⟩
    · cases ho
  emitted := rfl
  ssm_lt := by decide
  params_lt := by decide
  sizes_lt := by
    intro b hb c resultProj hcall
    rcases List.mem_pair.mp hb with rfl | rfl
    · cases List.mem_singleton.mp hcall
    · cases hcall

/-- The call of the method and the call of the library. -/
def sampleCall : CallCode := .method "f" [.const 7]

def sampleFlush : CallCode := .method "flush_int" []

def samplePassing : Program where
  methods := [sampleCaller sampleCall rfl (by decide), sampleCallee]
  arity := by
    intro m hm b hb funcName params resultProj hcall g hg hname
    have hcallee : ∀ g ∈ [sampleCaller sampleCall rfl (by decide), sampleCallee], g.fnName = "f" → 1 = g.nParams := by
      decide
    rcases List.mem_pair.mp hm with rfl | rfl
    · rcases List.mem_pair.mp hb with rfl | rfl
      · rcases List.mem_pair.mp hcall with heq | heq
        · cases heq
          exact hcallee g hg hname
        · cases heq
      · cases hcall
    · rcases List.mem_pair.mp hb with rfl | rfl
      · cases List.mem_singleton.mp hcall
      · cases hcall

def sampleFlushing : Program where
  methods := [sampleCaller sampleFlush rfl (by decide)]
  arity := by
    intro m hm b hb funcName params resultProj hcall g hg hname
    obtain rfl := List.mem_singleton.mp hm
    obtain rfl := List.mem_singleton.mp hg
    rcases List.mem_pair.mp hb with rfl | rfl
    · rcases List.mem_pair.mp hcall with heq | heq
      · cases heq
        exact absurd hname (by decide)
      · cases heq
    · cases hcall

/-- The return address of the only call is 1; library functions return at once. -/
def sampleRuntime (p : Program) (hcalls : ∀ m b k c, p.pieceAt m b k = some (.call c) → (m, b, k) = (0, 0, 1)) :
    Runtime p where
  map := ⟨0, 2 ^ 40, fun _ => false, fun _ h => (Bool.false_ne_true h).elim, by decide⟩
  addrOf _ _ _ := 1
  place w := if w = 1 then some (0, 0, 1) else none
  place_addrOf m b k c h := by
    rw [if_pos rfl, hcalls m b k c h]
  libc _ s := s.setReg .sp (s.regs .sp + 8)
  libc_bp _ s := s.setReg_of_ne _ RegName.noConfusion
  libc_sp _ s := s.setReg_self .sp _
  libc_mem _ _ _ _ _ := rfl

theorem samplePassing_calls (m b k : Nat) (c : CallCode) (h : samplePassing.pieceAt m b k = some (.call c)) :
    (m, b, k) = (0, 0, 1) := by
  rcases m with _ | _ | m
  · rcases b with _ | _ | b
    · rcases k with _ | _ | _ | _ | _ | _ | k <;> first | rfl | cases h
    · rcases k with _ | _ | _ | k <;> cases h
    · cases h
  · rcases b with _ | _ | b
    · rcases k with _ | _ | _ | _ | k <;> cases h
    · rcases k with _ | _ | _ | k <;> cases h
    · cases h
  · cases h

theorem sampleFlushing_calls (m b k : Nat) (c : CallCode) (h : sampleFlushing.pieceAt m b k = some (.call c)) :
    (m, b, k) = (0, 0, 1) := by
  rcases m with _ | m
  · rcases b with _ | _ | b
    · rcases k with _ | _ | _ | _ | _ | _ | k <;> first | rfl | cases h
    · rcases k with _ | _ | _ | k <;> cases h
    · cases h
  · cases h

/-- `%rsp` as the calling convention has it on entry. -/
def sampleEntry : Flat := ⟨fun r => if r = .sp then 1000008 else 0, fun _ => 0, ⟨false, false, false⟩⟩

theorem samplePassing_entry : Entry samplePassing (sampleRuntime _ samplePassing_calls) 0 sampleEntry where
  room m hm := by
    cases hm
    decide
  outside := by decide

theorem sampleFlushing_entry : Entry sampleFlushing (sampleRuntime _ sampleFlushing_calls) 0 sampleEntry where
  room m hm := by
    cases hm
    decide
  outside := by decide

section
variable {p : Program} {r : Runtime p}

/-- Every call of a method in every run: the callee finds the values of the arguments in its parameter slots; its other
slots lie below `%rbp`, in its own frame; and once it returns, which it can from its epilog, `%rsp`, `%rbp` and all slots
of the caller are as before. -/
theorem frames_agree {e : Nat} {entry : Flat} (hentry : Entry p r e entry) {c₀ c c₁ : Config}
    (hstart : start p r e entry = some c₀) (hrun : Steps (machine p r) c₀ c) {l : CallLabel}
    (hcall : (machine p r).call l c c₁) : ∃ m b k g callee, c.pos = .at m b k ∧ p.methods[m]? = some l.caller ∧
      p.pieceAt m b k = some (.call l.code) ∧ p.callee l.code = some g ∧ p.methods[g]? = some callee ∧
      l.code.stackParams.length = callee.nParams ∧
      (∀ (i : Nat) q, l.code.stackParams[i]? = some q →
        c₁.state.word (c₁.state.address .bp (16 + 8 * i)) = q.value c.state) ∧
      (∀ arg ∈ callee.args, callee.ssm.offsets arg.1 = some (16 + 8 * (arg.2 : Int))) ∧
      (∀ offset, callee.ssm.HasOffset offset →
        (∃ i < callee.nParams, offset = 16 + 8 * i) ∨ -callee.arSize < offset ∧ offset + 8 ≤ 0) ∧
      (∀ node offset, callee.ssm.tmpSlots node = some offset → offset + 8 ≤ 0) ∧
      ∀ c₂, Balanced (machine p r) c₁ c₂ → c₂.pos = .at g callee.code.length 0 →
        ∃ c₃ c₄, (machine p r).ret c₂ c₃ ∧ (machine p r).plain c₃ c₄ ∧ c₄.pos = .at m b (k + 1) ∧
          c₄.state.regs .sp = c.state.regs .sp ∧ c₄.state.regs .bp = c.state.regs .bp ∧
          ∀ offset, l.caller.ssm.HasOffset offset →
            c₄.state.word (c₄.state.address .bp offset) = c.state.word (c.state.address .bp offset) := by
  obtain ⟨-, hpending, hactivation⟩ := run_at hentry hstart
  obtain ⟨chain, hchain⟩ := hpending c hrun
  obtain ⟨a, -, hat⟩ := hactivation chain c hchain
  obtain ⟨b, k, g, callee, bp, hpos, hpiece, hcaller, hg, hcallee, hlength, hpos₁, hbytes, hat₁, hparams⟩ :=
    hat.call hcall.1 hcall.2
  refine ⟨a.index, b, k, g, callee, hpos, by rw [hcaller, hat.method], hpiece, hg, hcallee, hlength, hparams,
    fun arg harg => ?_, fun offset ho => ?_, fun node offset ho => ?_, fun c₂ hc₂ hpos₂ => ?_⟩
  · rw [callee.generated.argSlots.params arg harg, Int.mul_comm]
  · have hsize := callee.arSize_eq_frameSize
    rcases callee.slot_cases ho with ⟨i, hi, rfl⟩ | ⟨j, rfl, hj⟩
    · exact Or.inl ⟨i, hi, by omega⟩
    · exact Or.inr (by omega)
  · have hneg := callee.generated.argSlots.tmpSlots node offset ho
    rcases callee.slot_cases ⟨node, Or.inr ho⟩ with ⟨i, hi, rfl⟩ | ⟨j, rfl, hj⟩
    · omega
    · omega
  · have hat₂ := hc₂.keeps (machine_rule _) hat₁
    obtain ⟨c₃, hret, -⟩ := hat₂.ret_run hpos₂ (r.place_addrOf _ _ _ _ hpiece)
    obtain ⟨hat₃, hpos₃, hmem₃⟩ := hat.ret hpiece hcaller hlength hbytes hat₂ hret
    obtain ⟨c₄, hplain, hpos₄, hmem₄, hat₄⟩ := hat₃.behind hpos₃ hpiece
    have hrbp : c₄.state.regs .bp = c.state.regs .bp := hat₄.rbp.trans hat.rbp.symm
    refine ⟨c₃, c₄, hret, hplain, hpos₄, ?_, hrbp, fun offset ho => ?_⟩
    · rw [(hat₄.at_pos hpos₄).2, (hat.at_pos hpos).2]
    · rw [hcaller] at ho
      have hhigh := hat.high
      have hle := r.map.high_le
      have hlow : a.method.frameSize ≤ a.bp := by
        unfold CallLabel.bytes at hbytes
        rw [hcaller] at hbytes
        omega
      have hslot := a.method.slot_address ho hat.rbp hlow (by omega)
      have haddr : c₄.state.address .bp offset = c.state.address .bp offset := by
        unfold Flat.address
        rw [hrbp]
      rw [haddr]
      refine word_congr (by omega) fun x hx hlt => ?_
      rw [hmem₄, hmem₃ x (by omega) (by omega)]

theorem frames_agree_samplePassing : ∃ c c₁, (machine samplePassing (sampleRuntime _ samplePassing_calls)).call
    ⟨sampleCaller sampleCall rfl (by decide), sampleCall⟩ c c₁ ∧ c₁.state.word (c₁.state.address .bp 16) = 7 := by
  obtain ⟨c₀, c, c₁, hstart, hplain, hcall⟩ : ∃ c₀ c c₁,
      start samplePassing (sampleRuntime _ samplePassing_calls) 0 sampleEntry = some c₀ ∧
        (machine samplePassing (sampleRuntime _ samplePassing_calls)).plain c₀ c ∧
        (machine samplePassing (sampleRuntime _ samplePassing_calls)).call
          ⟨sampleCaller sampleCall rfl (by decide), sampleCall⟩ c c₁ := ⟨_, _, _, rfl, rfl, rfl, rfl⟩
  obtain ⟨m, b, k, g, callee, -, -, -, -, -, -, hparams, -⟩ :=
    frames_agree samplePassing_entry hstart (.single (.plain hplain)) hcall
  exact ⟨c, c₁, hcall, hparams 0 (.const 7) rfl⟩

/-! ## Alignment -/

/-- The words that the frames of a chain of calls and their parameters take. -/
def chainWords : List CallLabel → Nat
  | [] => 0
  | l :: ls => l.caller.frameSize / 8 + l.code.stackParams.length + chainWords ls

theorem chainBytes_mod (chain : List CallLabel) : chainBytes chain % 16 = 8 * chainWords chain % 16 := by
  induction chain with
  | nil => rfl
  | cons l ls ih =>
    have := l.caller.frameSize_mod
    unfold chainBytes chainWords CallLabel.bytes
    omega

/-- At a call, `%rsp` is aligned if and only if the frames and parameters on the chain take an even number of words. -/
theorem aligned_iff {e : Nat} {entry : Flat} (hentry : Entry p r e entry) (haligned : (entry.regs .sp).toNat % 16 = 8)
    {c₀ c : Config} (hstart : start p r e entry = some c₀) (hrun : Steps (machine p r) c₀ c) {l : CallLabel}
    (hl : callAt p c = some l) {s : Flat × Option String}
    (hs : runCode r.map l.code.before (c.state, none) = some s) :
    (∃ chain, Pending (machine p r) c₀ chain c) ∧ ∀ chain, Pending (machine p r) c₀ chain c →
      ((s.1.regs .sp).toNat % 16 = 0 ↔ chainWords (l :: chain) % 2 = 0) := by
  obtain ⟨hsp, hpending, hactivation⟩ := run_at hentry hstart
  refine ⟨hpending c hrun, fun chain hchain => ?_⟩
  obtain ⟨a, rfl, hat⟩ := hactivation chain c hchain
  obtain ⟨b, k, hpos, -, hcaller⟩ := callAt_eq_some hat hl
  have hbase := hat.base
  have hbytes := chainBytes_mod a.chain
  have hsize := a.method.frameSize_mod
  have hhigh := hat.high
  have hle := r.map.high_le
  have hlt := a.method.frameSize_lt
  have hrsp : (s.1.regs .sp).toNat = (2 ^ 64 - 8 * l.code.stackParams.length % 2 ^ 64 +
      (2 ^ 64 - a.method.frameSize + a.bp) % 2 ^ 64) % 2 ^ 64 := by
    rw [(before_spec hs).rsp, (hat.at_pos hpos).2, BitVec.toNat_sub, BitVec.toNat_sub, BitVec.toNat_ofNat,
      BitVec.toNat_ofNat, BitVec.toNat_ofNat, Nat.mod_eq_of_lt (a := a.method.frameSize) (by omega),
      Nat.mod_eq_of_lt (a := a.bp) (by omega)]
  rw [hrsp]
  unfold chainWords
  rw [hcaller]
  omega

/-- A `main` that only flushes the output calls with `%rsp` off by a word. -/
theorem misaligned_sampleFlushing : ¬ ∀ (p : Program) (r : Runtime p) (e : Nat) (entry : Flat), Entry p r e entry →
    (entry.regs .sp).toNat % 16 = 8 → ∀ c₀ c l s, start p r e entry = some c₀ → Steps (machine p r) c₀ c →
    callAt p c = some l → runCode r.map l.code.before (c.state, none) = some s → (s.1.regs .sp).toNat % 16 = 0 := by
  intro h
  obtain ⟨c₀, c, l, s, hstart, hplain, hl, hs, hsp⟩ : ∃ c₀ c l s,
      start sampleFlushing (sampleRuntime _ sampleFlushing_calls) 0 sampleEntry = some c₀ ∧
        (machine sampleFlushing (sampleRuntime _ sampleFlushing_calls)).plain c₀ c ∧ callAt sampleFlushing c = some l ∧
        runCode (sampleRuntime _ sampleFlushing_calls).map l.code.before (c.state, none) = some s ∧
        (s.1.regs .sp).toNat % 16 = 8 := ⟨_, _, _, _, rfl, rfl, rfl, rfl, rfl⟩
  have := h _ _ 0 sampleEntry sampleFlushing_entry rfl c₀ c l s hstart (.single (.plain hplain)) hl hs
  omega

theorem aligned_iff_samplePassing : ∃ c l s, callAt samplePassing c = some l ∧
    runCode (sampleRuntime _ samplePassing_calls).map l.code.before (c.state, none) = some s ∧
    ((s.1.regs .sp).toNat % 16 = 0 ↔ chainWords [l] % 2 = 0) := by
  obtain ⟨c₀, c, l, s, hstart, hplain, hl, hs⟩ : ∃ c₀ c l s,
      start samplePassing (sampleRuntime _ samplePassing_calls) 0 sampleEntry = some c₀ ∧
        (machine samplePassing (sampleRuntime _ samplePassing_calls)).plain c₀ c ∧ callAt samplePassing c = some l ∧
        runCode (sampleRuntime _ samplePassing_calls).map l.code.before (c.state, none) = some s :=
    ⟨_, _, _, _, rfl, rfl, rfl, rfl⟩
  refine ⟨c, l, s, hl, hs, ?_⟩
  exact (aligned_iff samplePassing_entry rfl hstart (.single (.plain hplain)) hl hs).2 []
    (.first (.plain (.refl c₀) hplain))

end

end Mjc.Asm

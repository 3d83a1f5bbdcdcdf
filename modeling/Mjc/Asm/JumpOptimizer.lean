import Mjc.Asm.Jumps

/-!
# Redundant jumps

`AsmJumpOptimizer` of `asm_optimizer.cpp`: of the jumps that end a block, remove the one that goes to the block
behind it.

* `removeJump` : one block, given the label behind it; `removeJump_spec` : a jump list of one of the shapes without the
  jump leaves the block where it did before, the jump to the next block apart, which is now a fall-through;
* `jumpOptimizeFunction` : the pass; `stepBlock_jumpOptimizeBlocks` : every block leads from every state to the same
  block and state as before;
* `jumpOptimizeFunction_blocksRun` : every run goes through the same blocks.
-/

namespace Mjc.Asm
open Mjc.Lockstep

set_option autoImplicit false

/-! ## The pass -/

/-- `*ops[0].str.str`: the pass reads a pointer there, whatever the operand is. -/
def Instr.jumpTarget (i : Instr) : Option String :=
  match i.ops with
  | .str str :: _ => some str
  | _ => none

@[simp] theorem jumpTarget_makeJump (target : String) (relation : IrRelation) :
    (makeJump target relation).jumpTarget = some target := rfl

@[simp] theorem isJmp_makeJump (target : String) (relation : IrRelation) : (makeJump target relation).isJmp = true := by
  cases relation <;> rfl

/-- The body of the loop, on the jump list of a block and the label of the next block. -/
def removeJump (nextLabel : String) (jumpInstrs : List Instr) : Option (List Instr) :=
  match jumpInstrs.reverse with
  | [] => some jumpInstrs
  | lastJmp :: before => do
    let lastTarget ← lastJmp.jumpTarget
    if lastTarget = nextLabel then some before.reverse
    else match before with
      | [] => some jumpInstrs
      | secondToLastJmp :: before' =>
        if secondToLastJmp.isJmp then do
          let target ← secondToLastJmp.jumpTarget
          if target = nextLabel then some (before'.reverse ++ [lastJmp]) else some jumpInstrs
        else some jumpInstrs

/-- The loop over two neighbouring blocks at a time. -/
def jumpOptimizeBlocks : List BasicBlock → Option (List BasicBlock)
  | bb :: nextBB :: rest => do
    let jumpInstrs ← removeJump nextBB.getLabelStr bb.jumpInstrs
    let rest' ← jumpOptimizeBlocks (nextBB :: rest)
    some ({ bb with jumpInstrs := jumpInstrs } :: rest')
  | bs => some bs

theorem jumpOptimizeBlocks_nodes {bs bs' : List BasicBlock} (h : jumpOptimizeBlocks bs = some bs') :
    bs'.map BasicBlock.node = bs.map BasicBlock.node := by
  induction bs using jumpOptimizeBlocks.induct generalizing bs' with
  | case1 bb nextBB rest ih =>
    unfold jumpOptimizeBlocks at h
    obtain ⟨jumpInstrs, -, h⟩ := Option.bind_eq_some_iff.1 h
    obtain ⟨rest', hrest, h⟩ := Option.bind_eq_some_iff.1 h
    cases h
    simp [ih hrest]
  | case2 bs hbs =>
    rw [jumpOptimizeBlocks] at h
    · cases h
      rfl
    · exact hbs

/-- `AsmJumpOptimizer::optimizeFunction`. Without blocks, `size() - 1` wraps around and `at(0)` throws. -/
def jumpOptimizeFunction (f : Function) : Option Function :=
  if f.orderedBasicBlocks = [] then none
  else match h : jumpOptimizeBlocks f.orderedBasicBlocks with
    | none => none
    | some bs => some { f with
        orderedBasicBlocks := bs
        nodup := by
          rw [jumpOptimizeBlocks_nodes h]
          exact f.nodup }

/-! ## One block -/

/-- The same way out of a block, but for a jump to `nextLabel` that has become a fall-through. -/
def LeavesAlike (nextLabel : String) (r r' : Option (State × Option String)) : Prop :=
  r' = r ∨ ∃ s, r = some (s, some nextLabel) ∧ r' = some (s, none)

theorem LeavesAlike.bind {nextLabel : String} {js js' : List Instr} {env : Env}
    (h : ∀ c, LeavesAlike nextLabel (runBlock env js c) (runBlock env js' c)) (pre : List Instr)
    (c : State × Option String) : LeavesAlike nextLabel (runBlock env (pre ++ js) c) (runBlock env (pre ++ js') c) := by
  rw [runBlock_append, runBlock_append]
  cases runBlock env pre c with
  | none => exact .inl rfl
  | some c' => exact h c'

attribute [local simp] stepInstr_makeJump stepInstr_makeJump_pending

theorem leavesAlike_jmp (env : Env) (nextLabel : String) (c : State × Option String) :
    LeavesAlike nextLabel (runBlock env [makeJump nextLabel .true] c) (runBlock env [] c) := by
  obtain ⟨s, _ | label⟩ := c
  · exact .inr ⟨s, by simp [IrRelation.jump, taken], rfl⟩
  · exact .inl (by simp)

/-- The second one of two complementary jumps goes to the next block. -/
theorem leavesAlike_last (env : Env) {relation inverse : IrRelation} (h : getInverseRelation relation = some inverse)
    (target nextLabel : String) (c : State × Option String) :
    LeavesAlike nextLabel (runBlock env [makeJump target relation, makeJump nextLabel inverse] c)
      (runBlock env [makeJump target relation] c) := by
  obtain ⟨s, _ | label⟩ := c
  · have hinverse := taken_inverse h s.flags
    cases htaken : taken s.flags relation.jump with
    | true => exact .inl (by simp [htaken])
    | false => exact .inr ⟨s, by simp [htaken, hinverse], by simp [htaken]⟩
  · exact .inl (by simp)

/-- The first one of two complementary jumps goes to the next block. -/
theorem leavesAlike_first (env : Env) {relation inverse : IrRelation} (h : getInverseRelation relation = some inverse)
    (target nextLabel : String) (c : State × Option String) :
    LeavesAlike nextLabel (runBlock env [makeJump nextLabel relation, makeJump target inverse] c)
      (runBlock env [makeJump target inverse] c) := by
  obtain ⟨s, _ | label⟩ := c
  · have hinverse := taken_inverse h s.flags
    cases htaken : taken s.flags relation.jump with
    | true => exact .inr ⟨s, by simp [htaken], by simp [htaken, hinverse]⟩
    | false => exact .inl (by simp [htaken, hinverse])
  · exact .inl (by simp)

/-- The pass finds its way in every jump list of one of the shapes, and leaves the block alike. -/
theorem removeJump_spec (nextLabel : String) {jumpInstrs : List Instr} (h : JumpShape jumpInstrs) :
    ∃ js, removeJump nextLabel jumpInstrs = some js ∧
      ∀ env c, LeavesAlike nextLabel (runBlock env jumpInstrs c) (runBlock env js c) := by
  cases h with
  | empty => exact ⟨[], rfl, fun _ _ => .inl rfl⟩
  | jmp target =>
    by_cases htarget : getBlockLabel target = nextLabel
    · refine ⟨[], by simp [removeJump, htarget], ?_⟩
      rw [htarget]
      exact fun env => leavesAlike_jmp env nextLabel
    · exact ⟨_, by simp [removeJump, htarget], fun _ _ => .inl rfl⟩
  | @cond mode leftOp rightOp relation inverse hinverse trueBlock falseBlock =>
    by_cases hfalse : getBlockLabel falseBlock = nextLabel
    · refine ⟨compareCode mode leftOp rightOp ++ [makeJump (getBlockLabel trueBlock) relation],
        by simp [removeJump, compareCode, hfalse], ?_⟩
      rw [hfalse]
      exact fun env => LeavesAlike.bind (leavesAlike_last env hinverse _ nextLabel) _
    · by_cases htrue : getBlockLabel trueBlock = nextLabel
      · refine ⟨compareCode mode leftOp rightOp ++ [makeJump (getBlockLabel falseBlock) inverse],
          by simp [removeJump, compareCode, hfalse, htrue], ?_⟩
        rw [htrue]
        exact fun env => LeavesAlike.bind (leavesAlike_first env hinverse _ nextLabel) _
      · exact ⟨_, by simp [removeJump, compareCode, hfalse, htrue], fun _ _ => .inl rfl⟩
  | boolean mode leftOp rightOp target =>
    by_cases htarget : getBlockLabel target = nextLabel
    · refine ⟨compareCode mode leftOp rightOp ++ [], by simp [removeJump, compareCode, htarget], ?_⟩
      rw [htarget]
      exact fun env => LeavesAlike.bind (leavesAlike_jmp env nextLabel) _
    -- before the jump stands the compare, which is not a jump
    · exact ⟨_, by simp [removeJump, compareCode, htarget, Instr.isJmp], fun _ _ => .inl rfl⟩

/-- The pass removes jumps only: a comparison stays. -/
theorem removeJump_compares {nextLabel : String} {js js' : List Instr} (h : JumpShape js)
    (hjs : removeJump nextLabel js = some js') : js'.Sublist js ∧
      ∀ mode leftOp rightOp rest, js = compareCode mode leftOp rightOp ++ rest →
        ∃ rest', js' = compareCode mode leftOp rightOp ++ rest' := by
  have hcompare : ∀ (tail tail' : List Instr) (mode : RegMode) (leftOp rightOp : Op), ∀ mode' leftOp' rightOp' rest,
      compareCode mode leftOp rightOp ++ tail = compareCode mode' leftOp' rightOp' ++ rest →
      ∃ rest', compareCode mode leftOp rightOp ++ tail' = compareCode mode' leftOp' rightOp' ++ rest' := by
    intro tail tail' mode leftOp rightOp mode' leftOp' rightOp' rest heq
    exact ⟨tail', by rw [(List.append_inj heq rfl).1]⟩
  cases h with
  | empty => cases hjs; exact ⟨List.Sublist.refl _, fun _ _ _ _ h => ⟨_, h⟩⟩
  | jmp target =>
    refine ⟨?_, fun mode leftOp rightOp rest heq => by cases congrArg List.length heq⟩
    simp [removeJump] at hjs
    split at hjs <;> cases hjs <;> simp
  | cond mode leftOp rightOp hinverse trueBlock falseBlock =>
    simp [removeJump, compareCode] at hjs
    split at hjs
    · cases hjs
      refine ⟨?_, hcompare _ [_] mode leftOp rightOp⟩
      simp [compareCode]
    · split at hjs <;> cases hjs
      · refine ⟨?_, hcompare _ [_] mode leftOp rightOp⟩
        simp [compareCode]
      · exact ⟨List.Sublist.refl _, hcompare _ _ mode leftOp rightOp⟩
  | boolean mode leftOp rightOp target =>
    simp [removeJump, compareCode, Instr.isJmp] at hjs
    split at hjs <;> cases hjs
    · refine ⟨?_, hcompare _ [] mode leftOp rightOp⟩
      simp [compareCode]
    · exact ⟨List.Sublist.refl _, hcompare _ _ mode leftOp rightOp⟩
/-! ## All blocks -/

theorem blockAt_eq_findIdx? (text : Text) (label : String) :
    blockAt text label = (text.map Prod.fst).findIdx? (· = label) := by
  unfold blockAt
  rw [List.findIdx?_map]
  rfl

theorem textOf_labels (bs : List BasicBlock) : (textOf bs).map Prod.fst = (bs.map BasicBlock.node).map getBlockLabel := by
  unfold textOf
  rw [List.map_map, List.map_map]
  rfl

/-- What the pass did to block `i`. -/
theorem jumpOptimizeBlocks_getElem? {bs bs' : List BasicBlock} (h : jumpOptimizeBlocks bs = some bs') {i : Nat}
    {b : BasicBlock} (hb : bs[i]? = some b) :
    bs'[i]? = some b ∨ ∃ nextBB js, bs[i + 1]? = some nextBB ∧
      removeJump nextBB.getLabelStr b.jumpInstrs = some js ∧ bs'[i]? = some { b with jumpInstrs := js } := by
  induction bs using jumpOptimizeBlocks.induct generalizing bs' i with
  | case1 bb nextBB rest ih =>
    unfold jumpOptimizeBlocks at h
    obtain ⟨js, hjs, h⟩ := Option.bind_eq_some_iff.1 h
    obtain ⟨rest', hrest, h⟩ := Option.bind_eq_some_iff.1 h
    cases h
    cases i with
    | zero =>
      cases hb
      exact .inr ⟨nextBB, js, rfl, hjs, rfl⟩
    | succ i => exact ih hrest hb
  | case2 bs hbs =>
    rw [jumpOptimizeBlocks] at h
    · cases h
      exact .inl hb
    · exact hbs

theorem jumpOptimizeBlocks_isSome {bs : List BasicBlock} (hshape : ∀ b ∈ bs, JumpShape b.jumpInstrs) :
    ∃ bs', jumpOptimizeBlocks bs = some bs' := by
  induction bs using jumpOptimizeBlocks.induct with
  | case1 bb nextBB rest ih =>
    obtain ⟨js, hjs, -⟩ := removeJump_spec nextBB.getLabelStr (hshape bb (by simp))
    obtain ⟨rest', hrest⟩ := ih fun b hb => hshape b (by simp [List.mem_cons.1 hb])
    refine ⟨{ bb with jumpInstrs := js } :: rest', ?_⟩
    unfold jumpOptimizeBlocks
    rw [hjs, hrest]
    rfl
  | case2 bs hbs =>
    refine ⟨bs, ?_⟩
    rw [jumpOptimizeBlocks]
    exact hbs

theorem exitTo_jumpOptimizeBlocks {bs bs' : List BasicBlock} (h : jumpOptimizeBlocks bs = some bs') (i : Nat) :
    exitTo (textOf bs') i = exitTo (textOf bs) i := by
  funext ⟨s, target⟩
  unfold exitTo
  simp only [blockAt_eq_findIdx?, textOf_labels, jumpOptimizeBlocks_nodes h]

/-- From every block and state, the text leads to the same block and state after the pass. -/
theorem stepBlock_jumpOptimizeBlocks (env : Env) {bs bs' : List BasicBlock} (hnodup : (bs.map BasicBlock.node).Nodup)
    (hshape : ∀ b ∈ bs, JumpShape b.jumpInstrs) (h : jumpOptimizeBlocks bs = some bs') (c : Nat × State) :
    stepBlock env (textOf bs') c = stepBlock env (textOf bs) c := by
  have hlength : bs'.length = bs.length := by
    simpa using congrArg List.length (jumpOptimizeBlocks_nodes h)
  obtain ⟨i, s⟩ := c
  unfold stepBlock
  rw [exitTo_jumpOptimizeBlocks h]
  unfold textOf
  rw [List.getElem?_map, List.getElem?_map]
  cases hb : bs[i]? with
  | none =>
    have : bs'[i]? = none := by
      rw [List.getElem?_eq_none_iff] at hb ⊢
      omega
    rw [this]
  | some b =>
    rcases jumpOptimizeBlocks_getElem? h hb with hb' | ⟨nextBB, js, hnext, hjs, hb'⟩
    · rw [hb']
    · rw [hb']
      show (runBlock env ((b.startPhiInstrs ++ b.instrs ++ b.phiInstrs) ++ js) (s, none)).bind _ =
        (runBlock env ((b.startPhiInstrs ++ b.instrs ++ b.phiInstrs) ++ b.jumpInstrs) (s, none)).bind _
      obtain ⟨js', hjs', halike⟩ := removeJump_spec nextBB.getLabelStr (hshape b (List.mem_of_getElem? hb))
      obtain rfl : js = js' := Option.some.inj (hjs.symm.trans hjs')
      rcases LeavesAlike.bind (halike env) (b.startPhiInstrs ++ b.instrs ++ b.phiInstrs) (s, none) with
        hsame | ⟨s', hjump, hfall⟩
      · rw [hsame]
      · rw [hjump, hfall]
        -- the label of the next block is found right behind this block
        show some (i + 1, s') = (·, s') <$> blockAt (textOf bs) nextBB.getLabelStr
        rw [blockAt_textOf hnodup hnext]
        rfl

theorem blocksRun_congr {env : Env} {text text' : Text} (hlabels : text'.map Prod.fst = text.map Prod.fst)
    (hstep : ∀ c, stepBlock env text' c = stepBlock env text c) (n : Nat) (s : State) :
    blocksRun env text' n s = blocksRun env text n s := by
  have hlabelAt : labelAt text' = labelAt text := by
    funext c
    unfold labelAt
    rw [← List.getElem?_map, ← List.getElem?_map, hlabels]
  unfold blocksRun
  rw [funext hstep, hlabelAt]

/-- The pass goes through on every function with jump lists of these shapes. Afterwards the function has the same
blocks in the same order, each of them leads from every state to the same block and state as before, and every run
goes through the same blocks. -/
theorem jumpOptimizeFunction_blocksRun (f : Function) (hblocks : f.orderedBasicBlocks ≠ [])
    (hshape : ∀ b ∈ f.orderedBasicBlocks, JumpShape b.jumpInstrs) :
    ∃ f', jumpOptimizeFunction f = some f' ∧
      f'.orderedBasicBlocks.map BasicBlock.node = f.orderedBasicBlocks.map BasicBlock.node ∧
      ∀ env, (∀ c, stepBlock env (textOf f'.orderedBasicBlocks) c = stepBlock env (textOf f.orderedBasicBlocks) c) ∧
        ∀ n s, blocksRun env (textOf f'.orderedBasicBlocks) n s = blocksRun env (textOf f.orderedBasicBlocks) n s := by
  obtain ⟨bs, hbs⟩ := jumpOptimizeBlocks_isSome hshape
  have hnodes := jumpOptimizeBlocks_nodes hbs
  have hf : jumpOptimizeFunction f = some { f with orderedBasicBlocks := bs, nodup := by rw [hnodes]; exact f.nodup } := by
    unfold jumpOptimizeFunction
    rw [if_neg hblocks]
    split
    · rename_i hnone
      cases hnone.symm.trans hbs
    · rename_i bs' hsome
      obtain rfl := Option.some.inj (hsome.symm.trans hbs)
      rfl
  refine ⟨_, hf, hnodes, fun env => ?_⟩
  have hstep := stepBlock_jumpOptimizeBlocks env f.nodup hshape hbs
  refine ⟨hstep, blocksRun_congr ?_ hstep⟩
  rw [textOf_labels, textOf_labels, hnodes]

/-- A loop: the header compares a slot and goes to the body, which comes behind it, or to the end block. -/
def sampleLoop : Function where
  fnName := "loop"
  arSize := 16
  orderedBasicBlocks :=
    [{ node := 1, startPhiInstrs := [], phiInstrs := [], instrs := [], flattenedInstrs := []
       jumpInstrs := compareCode .E (.ind .bp .R (-8)) (.imm 10) ++
         [makeJump (getBlockLabel 2) .less, makeJump (getBlockLabel 3) .greaterEqual] },
     { node := 2, startPhiInstrs := [], phiInstrs := [], instrs := [⟨.Inc, [.reg .bx .R]⟩], flattenedInstrs := []
       jumpInstrs := [makeJump (getBlockLabel 1) .true] },
     { node := 3, startPhiInstrs := [], phiInstrs := [], instrs := [], jumpInstrs := [], flattenedInstrs := [] }]
  nodup := by decide

theorem jumpOptimizeFunction_blocksRun_sampleLoop : ∃ f', jumpOptimizeFunction sampleLoop = some f' ∧
    f'.orderedBasicBlocks.map BasicBlock.node = sampleLoop.orderedBasicBlocks.map BasicBlock.node ∧
    ∀ env, (∀ c, stepBlock env (textOf f'.orderedBasicBlocks) c =
        stepBlock env (textOf sampleLoop.orderedBasicBlocks) c) ∧
      ∀ n s, blocksRun env (textOf f'.orderedBasicBlocks) n s =
        blocksRun env (textOf sampleLoop.orderedBasicBlocks) n s := by
  apply jumpOptimizeFunction_blocksRun sampleLoop
  · simp [sampleLoop]
  · simp only [sampleLoop, List.forall_mem_cons, List.not_mem_nil, false_implies, implies_true, and_true]
    exact ⟨.cond _ _ _ rfl _ _, .jmp _, .empty⟩

example : (jumpOptimizeFunction sampleLoop).map (fun f => f.orderedBasicBlocks.map BasicBlock.jumpInstrs) =
    some [compareCode .E (.ind .bp .R (-8)) (.imm 10) ++ [makeJump (getBlockLabel 3) .greaterEqual],
      [makeJump (getBlockLabel 1) .true], []] := by
  decide

end Mjc.Asm

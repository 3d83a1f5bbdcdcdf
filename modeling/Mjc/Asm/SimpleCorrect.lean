import Mjc.Asm.JumpOptimizer
import Mjc.Asm.SimpleOptimizer
import Mjc.Fold

/-!
# Cheaper instructions in a function

`inc`, `dec`, `xor` and a missing `add` leave other flags behind than the instructions they stand for. No jump sees them.

* `FlagSafe` : a block whose phis and jumps do not read the flags of its body; `emit_flagSafe`;
* `FlagsFlow` : a block that starts with a branch is entered from a comparison only; `emit_flagsFlow`;
* `stepBlock_agree` : from block to block, the states agree but for the flags, and in the flags where they are read;
* `simpleOptimize_viewsRun` : before and after the pass, a run goes through the same blocks with the same registers and
  memory, and every jump in them has the same outcome.
-/

namespace Mjc.Asm
open Mjc.Lockstep

set_option autoImplicit false

theorem readsFlags_of_plain {i : Instr} (h : i.plain = true) : i.readsFlags = false := by
  have hjmp : i.isJmp = false := by
    unfold Instr.plain at h
    simpa using (Bool.and_eq_true_iff.1 h).1
  unfold Instr.readsFlags
  cases hact : act i with
  | none => rfl
  | some a =>
    cases a with
    | jump m target => cases hjmp.symm.trans (isJmp_of_act hact)
    | _ => rfl

theorem isJmp_of_plain {i : Instr} (h : i.plain = true) : i.isJmp = false := by
  unfold Instr.plain at h
  simpa using (Bool.and_eq_true_iff.1 h).1

theorem exec_plain {env : Env} {i : Instr} (h : i.plain = true) {s t : State} {target : Option String}
    (hi : exec env i s = some (t, target)) : target = none := by
  cases target with
  | none => rfl
  | some target =>
    have hjumps := exec_target hi
    unfold Instr.jumps at hjumps
    cases hact : act i with
    | none =>
      rw [hact] at hjumps
      cases hjumps
    | some a =>
      cases a with
      | jump m target => cases (isJmp_of_plain h).symm.trans (isJmp_of_act hact)
      | _ =>
        rw [hact] at hjumps
        cases hjumps

/-- Instructions that do not jump end without a jump under way. -/
theorem runBlock_plain {env : Env} {is : List Instr} (his : is.all Instr.plain = true) {s t : State}
    {target : Option String} (h : runBlock env is (s, none) = some (t, target)) : target = none := by
  induction is generalizing s with
  | nil =>
    cases h
    rfl
  | cons i is ih =>
    obtain ⟨hi, hrest⟩ : i.plain = true ∧ is.all Instr.plain = true := by
      simpa only [List.all_cons, Bool.and_eq_true] using his
    rw [runBlock_cons] at h
    obtain ⟨⟨u, o⟩, hu, h⟩ := Option.bind_eq_some_iff.1 h
    obtain rfl : o = none := exec_plain hi hu
    exact ih hrest h

/-! ## Blocks -/

/-- The flags of the body are not seen inside of the block. -/
structure FlagSafe (b : BasicBlock) : Prop where
  start : ∀ env s t target, runBlock env b.startPhiInstrs (s, none) = some (t, target) → target = none
  body : b.instrs.all Instr.bodyForm = true
  phis : b.phiInstrs.all Instr.plain = true
  jumps : Guarded b.jumpInstrs

/-- The block starts with a branch: with a bool `Phi`. -/
def BasicBlock.branchesFirst (b : BasicBlock) : Prop := b.startPhiInstrs.all Instr.plain = false

/-- The block compares before it jumps. -/
def BasicBlock.compares (b : BasicBlock) : Prop :=
  ∃ mode leftOp rightOp js, b.jumpInstrs = compareCode mode leftOp rightOp ++ js

/-- The block after the pass. -/
def BasicBlock.simplified (b : BasicBlock) : BasicBlock := { b with instrs := simpleOptimize b.instrs }

section
variable {b : BasicBlock} (hb : FlagSafe b) (env : Env) {s s' : State}
include hb

/-- Up to the jumps. -/
theorem agree_beforeJumps (h : AgreeButFlags (s, none) (s', none)) (hfirst : b.branchesFirst → s' = s) :
    AgreeResults (runBlock env b.beforeJumps (s, none)) (runBlock env b.simplified.beforeJumps (s', none)) := by
  unfold BasicBlock.beforeJumps
  rw [runBlock_append, runBlock_append, runBlock_append, runBlock_append]
  refine AgreeResults.bind (AgreeResults.bind ?_ fun _ _ => simpleOptimize_agree hb.body env) fun _ _ =>
    runBlock_agree fun i hi => readsFlags_of_plain (List.all_eq_true.1 hb.phis i hi)
  cases hplain : b.startPhiInstrs.all Instr.plain with
  | true => exact runBlock_agree (fun i hi => readsFlags_of_plain (List.all_eq_true.1 hplain i hi)) h
  | false =>
    rw [hfirst hplain]
    exact .refl _

theorem target_beforeJumps {t : State} {target : Option String}
    (h : runBlock env b.beforeJumps (s, none) = some (t, target)) : target = none := by
  unfold BasicBlock.beforeJumps at h
  rw [runBlock_append, runBlock_append] at h
  obtain ⟨⟨u, o⟩, hu, h⟩ := Option.bind_eq_some_iff.1 h
  obtain ⟨⟨v, o'⟩, hv, hu⟩ := Option.bind_eq_some_iff.1 hu
  obtain rfl := hb.start env s v o' hv
  have hbody : b.instrs.all Instr.plain = true :=
    List.all_eq_true.2 fun i hi => plain_of_bodyForm (List.all_eq_true.1 hb.body i hi)
  obtain rfl := runBlock_plain hbody hu
  exact runBlock_plain hb.phis h

/-- The whole block. -/
theorem agree_block (h : AgreeButFlags (s, none) (s', none)) (hfirst : b.branchesFirst → s' = s) :
    AgreeResults (runBlock env b.lists (s, none)) (runBlock env b.simplified.lists (s', none)) := by
  rw [runBlock_lists, runBlock_lists]
  exact (agree_beforeJumps hb env h hfirst).bind fun _ _ => runBlock_guarded hb.jumps

/-- A comparison makes the flags agree again. -/
theorem eq_block_of_compares (h : AgreeButFlags (s, none) (s', none)) (hfirst : b.branchesFirst → s' = s)
    (hcompares : b.compares) : runBlock env b.simplified.lists (s', none) = runBlock env b.lists (s, none) := by
  have hbefore := agree_beforeJumps hb env h hfirst
  have htarget := fun t target => @target_beforeJumps _ hb env s t target
  obtain ⟨mode, leftOp, rightOp, js, hjs⟩ := hcompares
  rw [runBlock_lists, runBlock_lists]
  show (runBlock env b.simplified.beforeJumps (s', none)).bind (runBlock env b.jumpInstrs) = _
  rw [hjs]
  generalize runBlock env b.beforeJumps (s, none) = r at hbefore htarget
  generalize runBlock env b.simplified.beforeJumps (s', none) = r' at hbefore
  cases hbefore with
  | none => rfl
  | @some c c' hagree =>
    obtain ⟨t, target⟩ := c
    obtain ⟨f, rfl⟩ := hagree
    obtain rfl := htarget t target rfl
    exact runBlock_compareCode mode leftOp rightOp js t f

/-- Every jump of the block has the same outcome. -/
theorem branches_block (h : AgreeButFlags (s, none) (s', none)) (hfirst : b.branchesFirst → s' = s) :
    branches env b.simplified.lists (s', none) = branches env b.lists (s, none) := by
  have hbefore := agree_beforeJumps hb env h hfirst
  have hbody : ∀ c, branches env b.instrs c = [] := fun c =>
    branches_eq_nil fun i hi => isJmp_of_bodyForm (List.all_eq_true.1 hb.body i hi)
  have hbody' : ∀ c, branches env (simpleOptimize b.instrs) c = [] := fun c =>
    branches_eq_nil fun i hi => isJmp_of_plain (List.all_eq_true.1 (plain_simpleOptimize (List.all_eq_true.2
      fun i hi => plain_of_bodyForm (List.all_eq_true.1 hb.body i hi))) i hi)
  have hphis : ∀ c, branches env b.phiInstrs c = [] := fun c =>
    branches_eq_nil fun i hi => isJmp_of_plain (List.all_eq_true.1 hb.phis i hi)
  have hstart : branches env b.startPhiInstrs (s', none) = branches env b.startPhiInstrs (s, none) := by
    cases hplain : b.startPhiInstrs.all Instr.plain with
    | true => exact branches_agree (fun i hi => readsFlags_of_plain (List.all_eq_true.1 hplain i hi)) h
    | false => rw [hfirst hplain]
  have hlists : branches env b.beforeJumps (s, none) = branches env b.startPhiInstrs (s, none) := by
    unfold BasicBlock.beforeJumps
    rw [branches_append_of_nil hphis, branches_append_of_nil hbody]
  have hlists' : branches env b.simplified.beforeJumps (s', none) = branches env b.startPhiInstrs (s', none) := by
    show branches env (b.startPhiInstrs ++ simpleOptimize b.instrs ++ b.phiInstrs) _ = _
    rw [branches_append_of_nil hphis, branches_append_of_nil hbody']
  show branches env (b.simplified.beforeJumps ++ b.jumpInstrs) _ = branches env (b.beforeJumps ++ b.jumpInstrs) _
  rw [branches_append, branches_append, hlists, hlists', hstart]
  exact congrArg (_ ++ ·) (hbefore.elim_eq fun _ _ => branches_guarded hb.jumps)

end

/-! ## From block to block -/

/-- A block that starts with a branch is entered from a block with a comparison only. -/
def FlagsFlow (bs : List BasicBlock) : Prop :=
  ∀ env i s j t, stepBlock env (textOf bs) (i, s) = some (j, t) → ∀ b, bs[j]? = some b → b.branchesFirst →
    ∃ pred, bs[i]? = some pred ∧ pred.compares

/-- The same block, with states that agree but for the flags, and in the flags if the block starts with a branch. -/
def SameBlock (bs : List BasicBlock) (c c' : Nat × State) : Prop :=
  c'.1 = c.1 ∧ AgreeButFlags (c.2, none) (c'.2, none) ∧ ∀ b, bs[c.1]? = some b → b.branchesFirst → c'.2 = c.2

section
variable {bs : List BasicBlock} (hsafe : ∀ b ∈ bs, FlagSafe b) (hflow : FlagsFlow bs) (env : Env)

theorem textOf_simplified_labels (bs : List BasicBlock) :
    (textOf (bs.map BasicBlock.simplified)).map Prod.fst = (textOf bs).map Prod.fst := by
  rw [textOf_labels, textOf_labels, List.map_map, List.map_map, List.map_map]
  rfl

theorem getElem?_textOf (bs : List BasicBlock) (i : Nat) :
    (textOf bs)[i]? = (bs[i]?).map fun b => (b.getLabelStr, b.lists) := List.getElem?_map

theorem exitTo_simplified (i : Nat) : exitTo (textOf (bs.map BasicBlock.simplified)) i = exitTo (textOf bs) i := by
  funext ⟨s, target⟩
  unfold exitTo
  simp only [blockAt_eq_findIdx?, textOf_simplified_labels]

include hsafe hflow in
theorem stepBlock_agree {c c' : Nat × State} (h : SameBlock bs c c') : Option.Rel (SameBlock bs)
    (stepBlock env (textOf bs) c) (stepBlock env (textOf (bs.map BasicBlock.simplified)) c') := by
  obtain ⟨i, s⟩ := c
  obtain ⟨i', s'⟩ := c'
  obtain ⟨rfl, hagree, hfirst⟩ := h
  have hentry := hflow env i' s
  unfold stepBlock at hentry ⊢
  rw [getElem?_textOf] at hentry ⊢
  rw [getElem?_textOf, List.getElem?_map, exitTo_simplified]
  dsimp only at hentry hfirst ⊢
  cases hb : bs[i']? with
  | none => exact .none
  | some b =>
    have hbsafe := hsafe b (List.mem_of_getElem? hb)
    have hblock := agree_block hbsafe env hagree (hfirst b hb)
    have heq := eq_block_of_compares hbsafe env hagree (hfirst b hb)
    rw [hb] at hentry
    show Option.Rel _ ((runBlock env b.lists (s, none)).bind _) ((runBlock env b.simplified.lists (s', none)).bind _)
    replace hentry : ∀ j t, (runBlock env b.lists (s, none)).bind (exitTo (textOf bs) i') = some (j, t) →
      ∀ b', bs[j]? = some b' → b'.branchesFirst → b.compares := by
      intro j t hj b' hb' hbranches
      obtain ⟨pred, hpred, hcompares⟩ := hentry j t hj b' hb' hbranches
      obtain rfl := Option.some.inj hpred
      exact hcompares
    generalize runBlock env b.lists (s, none) = r at hblock heq hentry
    generalize runBlock env b.simplified.lists (s', none) = r' at hblock heq
    cases hblock with
    | none => exact .none
    | @some d d' hagree =>
      obtain ⟨t, target⟩ := d
      obtain ⟨f, rfl⟩ := hagree
      replace hentry := fun j => hentry j t
      have hflags : b.compares → f = t.flags := fun h => by
        have := congrArg (Option.map fun d => d.1.flags) (heq h)
        exact Option.some.inj this
      unfold exitTo at hentry ⊢
      have hrel : ∀ j, (some (t, target)).bind (exitTo (textOf bs) i') = some (j, t) →
          SameBlock bs (j, t) (j, { t with flags := f }) := by
        intro j hj
        refine ⟨rfl, ⟨f, rfl⟩, fun b' hb' hbranches => ?_⟩
        obtain rfl := hflags (hentry j hj b' hb' hbranches)
        rfl
      cases target with
      | none => exact .some (hrel (i' + 1) rfl)
      | some label =>
        show Option.Rel _ ((·, t) <$> blockAt (textOf bs) label)
          ((·, { t with flags := f }) <$> blockAt (textOf bs) label)
        cases hj : blockAt (textOf bs) label with
        | none => exact .none
        | some j =>
          refine .some (hrel j ?_)
          show (·, t) <$> blockAt (textOf bs) label = _
          rw [hj]
          rfl

/-- What is seen at the start of a block: where control is, the registers and the memory, the calls so far, and the
outcomes of the jumps that the block is going to execute. -/
structure BlockView where
  label : Option String
  regs : RegName → BitVec 64
  mem : Mem
  calls : List CallEvent
  branches : List (Option String)

def viewBlock (env : Env) (text : Text) (c : Nat × State) : BlockView where
  label := labelAt text c
  regs := c.2.regs
  mem := c.2.mem
  calls := c.2.calls
  branches := (text[c.1]?).elim [] fun block => branches env block.2 (c.2, none)

/-- The views of the first `n` blocks that run. -/
def viewsRun (env : Env) (text : Text) (n : Nat) (s : State) : List BlockView :=
  trace (stepBlock env text) (viewBlock env text) n (0, s)

include hsafe in
theorem viewBlock_simplified {c c' : Nat × State} (h : SameBlock bs c c') :
    viewBlock env (textOf bs) c = viewBlock env (textOf (bs.map BasicBlock.simplified)) c' := by
  obtain ⟨i, s⟩ := c
  obtain ⟨i', s'⟩ := c'
  obtain ⟨rfl, hagree, hfirst⟩ := h
  obtain ⟨f, hs'⟩ := hagree
  obtain rfl : s' = { s with flags := f } := congrArg Prod.fst hs'
  unfold viewBlock labelAt
  rw [getElem?_textOf, getElem?_textOf, List.getElem?_map]
  dsimp only at hfirst ⊢
  cases hb : bs[i']? with
  | none => rfl
  | some b =>
    have hbranches := branches_block (hsafe b (List.mem_of_getElem? hb)) env ⟨f, rfl⟩ (hfirst b hb)
    show BlockView.mk (some b.getLabelStr) s.regs s.mem s.calls (branches env b.lists (s, none)) =
      BlockView.mk (some b.getLabelStr) s.regs s.mem s.calls
        (branches env b.simplified.lists ({ s with flags := f }, none))
    rw [hbranches]

include hsafe hflow in
theorem viewsRun_simplified (n : Nat) (s : State) :
    viewsRun env (textOf (bs.map BasicBlock.simplified)) n s = viewsRun env (textOf bs) n s :=
  (rel_trace (fun _ _ => stepBlock_agree hsafe hflow env) (fun _ _ => viewBlock_simplified hsafe env) n
    ⟨rfl, .refl _, fun _ _ _ => rfl⟩).symm

end

/-! ## What is emitted -/

theorem plain_phiMoveCode (src : NodeOp) (slot : Int) : (phiMoveCode src slot).all Instr.plain = true := by
  cases src <;> rfl

theorem PhiMove.plain (m : PhiMove) : m.code.all Instr.plain = true := by
  cases m with
  | normal src slot => exact plain_phiMoveCode src slot
  | swap src slot => cases src <;> rfl

theorem StartPhi.plain {phi : StartPhi} (h : phi.isBool = false) {code : List Instr} (hcode : phi.code = some code) :
    code.all Instr.plain = true := by
  cases phi with
  | bool => cases h
  | swap slot tmpSlot =>
    cases hcode
    rfl
  | normal slot tmpSlot =>
    cases hcode
    rfl

theorem falseLabel_ne_phiLabel (m n : Nat) : falseLabel m ≠ phiLabel n := by
  intro h
  have := congrArg (fun s => s.toList.head?) h
  simp [falseLabel, phiLabel] at this

/-- The false branch of a bool `Phi`: it is jumped to, or jumped over. -/
theorem target_falseBranch {env : Env} (node : Nat) {is : List Instr} (his : is.all Instr.plain = true) {label : String}
    (hlabel : label = falseLabel node ∨ label = phiLabel node) {s t : State} {target : Option String}
    (h : runBlock env (⟨.Label, [.str (falseLabel node)]⟩ :: (is ++ [⟨.Label, [.str (phiLabel node)]⟩])) (s, some label) =
      some (t, target)) : target = none := by
  rcases hlabel with rfl | rfl
  · have hstep : stepInstr env (s, some (falseLabel node)) ⟨.Label, [.str (falseLabel node)]⟩ = some (s, none) :=
      if_pos rfl
    rw [runBlock_cons, hstep, Option.bind_some, runBlock_append] at h
    obtain ⟨⟨u, o⟩, hu, h⟩ := Option.bind_eq_some_iff.1 h
    obtain rfl := runBlock_plain his hu
    cases h
    rfl
  · have hskip : stepInstr env (s, some (phiLabel node)) ⟨.Label, [.str (falseLabel node)]⟩ =
        some (s, some (phiLabel node)) := by
      have hne : (⟨.Label, [.str (falseLabel node)]⟩ : Instr) ≠ ⟨.Label, [.str (phiLabel node)]⟩ := by
        simpa using falseLabel_ne_phiLabel node node
      exact if_neg (t := some (s, (none : Option String))) hne
    have hstep : stepInstr env (s, some (phiLabel node)) ⟨.Label, [.str (phiLabel node)]⟩ = some (s, none) := if_pos rfl
    rw [runBlock_cons, hskip, Option.bind_some, runBlock_append, runBlock_pending (noLabels_of_plain his),
      Option.bind_some, runBlock_cons, hstep] at h
    cases h
    rfl

/-- Both branches of a bool `Phi` meet at its end. -/
theorem StartPhi.target {env : Env} {phi : StartPhi} {code : List Instr} (hcode : phi.code = some code) {s t : State}
    {target : Option String} (h : runBlock env code (s, none) = some (t, target)) : target = none := by
  cases hbool : phi.isBool with
  | false => exact runBlock_plain (phi.plain hbool hcode) h
  | true =>
    obtain ⟨node, relation, truePred, falsePred, slot⟩ | _ | _ := phi
    · obtain ⟨inverse, hinverse, hcode⟩ := Option.bind_eq_some_iff.1 hcode
      cases hcode
      have hfalse := plain_phiMoveCode falsePred slot
      simp only [List.cons_append, List.append_assoc] at h
      rw [runBlock_cons, stepInstr_makeJump, Option.bind_some, runBlock_append] at h
      obtain ⟨⟨u, o⟩, hu, h⟩ := Option.bind_eq_some_iff.1 h
      rw [runBlock_cons] at h
      cases htaken : taken s.flags inverse.jump with
      | true =>
        rw [htaken, if_pos rfl, runBlock_pending (noLabels_of_plain (plain_phiMoveCode truePred slot))] at hu
        cases hu
        rw [stepInstr_makeJump_pending, Option.bind_some] at h
        exact target_falseBranch node hfalse (.inl rfl) h
      | false =>
        rw [htaken, if_neg Bool.false_ne_true] at hu
        obtain rfl := runBlock_plain (plain_phiMoveCode truePred slot) hu
        rw [stepInstr_makeJump, Option.bind_some] at h
        exact target_falseBranch node hfalse (.inr rfl) h
    · cases hbool
    · cases hbool

theorem startPhis_target {env : Env} {phis : List StartPhi} {code : List (List Instr)}
    (hcode : phis.mapM StartPhi.code = some code) {s t : State} {target : Option String}
    (h : runBlock env code.flatten (s, none) = some (t, target)) : target = none := by
  have hall := Fold.forall₂_of_mapM hcode
  clear hcode
  induction hall generalizing s with
  | nil =>
    cases h
    rfl
  | cons hphi _ ih =>
    rw [List.flatten_cons, runBlock_append] at h
    obtain ⟨⟨u, o⟩, hu, h⟩ := Option.bind_eq_some_iff.1 h
    obtain rfl := StartPhi.target hphi hu
    exact ih h

theorem startPhis_plain {phis : List StartPhi} {code : List (List Instr)}
    (hcode : phis.mapM StartPhi.code = some code) (hphis : ∀ phi ∈ phis, phi.isBool = false) :
    code.flatten.all Instr.plain = true := by
  have hall := Fold.forall₂_of_mapM hcode
  clear hcode
  induction hall with
  | nil => rfl
  | cons hphi _ ih =>
    rw [List.flatten_cons, List.all_append, StartPhi.plain (hphis _ (by simp)) hphi,
      ih fun phi h => hphis phi (by simp [h])]
    rfl

theorem plain_compareCode (mode : RegMode) (leftOp rightOp : Op) :
    (compareCode mode leftOp rightOp).all Instr.plain = true := by
  cases mode <;> rfl

theorem guarded_of_compareCode (mode : RegMode) (leftOp rightOp : Op) {js : List Instr} (hjs : NoLabels js) :
    Guarded (compareCode mode leftOp rightOp ++ js) := by
  refine ⟨fun i hi => ?_, .inr ⟨mode, leftOp, rightOp, js, rfl⟩⟩
  rcases List.mem_append.1 hi with hi | hi
  · exact noLabels_of_plain (plain_compareCode mode leftOp rightOp) i hi
  · exact hjs i hi

theorem label_makeJump (target : String) (relation : IrRelation) : (makeJump target relation).mnemonic ≠ .Label := by
  cases relation <;> exact Mnemonic.noConfusion

theorem guarded_of_jumpShape {js : List Instr} (h : JumpShape js) : Guarded js := by
  cases h with
  | empty => exact ⟨by simp [NoLabels], .inl (by simp)⟩
  | jmp target => exact ⟨by simp [NoLabels, label_makeJump], .inl (by simp; rfl)⟩
  | cond mode leftOp rightOp h trueBlock falseBlock =>
    exact guarded_of_compareCode _ _ _ (by simp [NoLabels, label_makeJump])
  | boolean mode leftOp rightOp target => exact guarded_of_compareCode _ _ _ (by simp [NoLabels, label_makeJump])

section
variable {b : BlockCode} {bb : BasicBlock} (hemit : b.emit = some bb)
include hemit

theorem emit_eq : ∃ startPhiInstrs jumpInstrs, b.startPhis.mapM StartPhi.code = some startPhiInstrs ∧
    b.exit.jumpInstrs = some jumpInstrs ∧ bb =
      { node := b.node, startPhiInstrs := startPhiInstrs.flatten, instrs := b.body.flatMap NodeCode.code
        phiInstrs := b.phiMoves.flatMap PhiMove.code, jumpInstrs := jumpInstrs, flattenedInstrs := [] } := by
  obtain ⟨startPhiInstrs, hstart, h⟩ := Option.bind_eq_some_iff.1 hemit
  obtain ⟨jumpInstrs, hjumps, h⟩ := Option.bind_eq_some_iff.1 h
  cases h
  exact ⟨startPhiInstrs, jumpInstrs, hstart, hjumps, rfl⟩

theorem emit_jumpShape : JumpShape bb.jumpInstrs := by
  obtain ⟨_, jumpInstrs, -, hjumps, rfl⟩ := emit_eq hemit
  exact BlockExit.jumpShape hjumps

theorem emit_flagSafe : FlagSafe bb := by
  obtain ⟨startPhiInstrs, jumpInstrs, hstart, hjumps, rfl⟩ := emit_eq hemit
  refine ⟨fun env s t target => startPhis_target hstart, ?_, ?_, guarded_of_jumpShape (BlockExit.jumpShape hjumps)⟩
  · rw [List.all_eq_true]
    intro i hi
    obtain ⟨n, -, hi⟩ := List.mem_flatMap.1 hi
    exact List.all_eq_true.1 n.bodyForm i hi
  · rw [List.all_eq_true]
    intro i hi
    obtain ⟨m, -, hi⟩ := List.mem_flatMap.1 hi
    exact List.all_eq_true.1 m.plain i hi

theorem emit_node : bb.node = b.node := by
  obtain ⟨_, _, -, -, rfl⟩ := emit_eq hemit
  rfl

/-- A block that starts with a branch has a bool `Phi`. -/
theorem bool_of_branchesFirst (h : bb.branchesFirst) : ∃ phi ∈ b.startPhis, phi.isBool = true := by
  obtain ⟨startPhiInstrs, jumpInstrs, hstart, hjumps, rfl⟩ := emit_eq hemit
  by_contra hnone
  refine Bool.false_ne_true (h.symm.trans (startPhis_plain hstart fun phi hphi => ?_))
  cases hbool : phi.isBool with
  | false => rfl
  | true => exact absurd ⟨phi, hphi, hbool⟩ hnone

end

theorem runBlock_jmp {env : Env} {target : String} {s t : State} {label : Option String}
    (h : runBlock env [makeJump target .true] (s, none) = some (t, label)) : label = some target := by
  rw [runBlock_cons, stepInstr_makeJump] at h
  cases h
  rfl

/-- Where the jumps at the end of a block lead. -/
theorem exit_target {env : Env} {e : BlockExit} {js : List Instr} (hjs : e.jumpInstrs = some js) {s t : State}
    {target : Option String} (h : runBlock env js (s, none) = some (t, target)) :
    target = none ∧ e = .leave ∨ ∃ n ∈ e.targets, target = some (getBlockLabel n) := by
  cases e with
  | leave =>
    cases hjs
    cases h
    exact .inl ⟨rfl, rfl⟩
  | jmp jumpTarget =>
    cases hjs
    exact .inr ⟨jumpTarget, List.mem_singleton_self _, runBlock_jmp h⟩
  | cond mode leftOp rightOp relation trueBlock falseBlock =>
    right
    simp only [BlockExit.jumpInstrs] at hjs
    by_cases heq : falseBlock = trueBlock
    · rw [if_pos heq] at hjs
      cases hjs
      rw [runBlock_append] at h
      obtain ⟨⟨u, o⟩, hu, h⟩ := Option.bind_eq_some_iff.1 h
      obtain rfl := runBlock_plain (plain_compareCode mode leftOp.op rightOp.op) hu
      exact ⟨trueBlock, List.mem_cons_self, runBlock_jmp h⟩
    · rw [if_neg heq] at hjs
      obtain ⟨inverse, hinverse, hjs⟩ := Option.bind_eq_some_iff.1 hjs
      cases hjs
      rw [runBlock_append] at h
      obtain ⟨⟨u, o⟩, hu, h⟩ := Option.bind_eq_some_iff.1 h
      obtain rfl := runBlock_plain (plain_compareCode mode leftOp.op rightOp.op) hu
      rw [runBlock_cons, stepInstr_makeJump, Option.bind_some, runBlock_cons] at h
      have htaken := taken_inverse hinverse u.flags
      cases hfirst : taken u.flags relation.jump with
      | true =>
        rw [hfirst, if_pos rfl, stepInstr_makeJump_pending] at h
        cases h
        exact ⟨trueBlock, List.mem_cons_self, rfl⟩
      | false =>
        rw [hfirst] at htaken
        rw [hfirst, if_neg Bool.false_ne_true, stepInstr_makeJump, htaken] at h
        cases h
        exact ⟨falseBlock, List.mem_cons_of_mem _ List.mem_cons_self, rfl⟩

theorem label_of_blockAt {bs : List BasicBlock} {n j : Nat} {b : BasicBlock}
    (h : blockAt (textOf bs) (getBlockLabel n) = some j) (hb : bs[j]? = some b) : n = b.node := by
  unfold blockAt textOf at h
  rw [List.findIdx?_map, List.findIdx?_eq_some_iff_getElem] at h
  obtain ⟨hj, hlabel, -⟩ := h
  obtain ⟨_, rfl⟩ := List.getElem?_eq_some_iff.1 hb
  have hlabel : (bs[j]).getLabelStr = getBlockLabel n := by simpa using hlabel
  exact (getBlockLabel_inj.1 hlabel).symm

theorem nodes_emit {bs : List BlockCode} {blocks : List BasicBlock}
    (h : List.Forall₂ (fun b bb => BlockCode.emit b = some bb) bs blocks) :
    blocks.map BasicBlock.node = bs.map BlockCode.node := by
  induction h with
  | nil => rfl
  | cons hb _ ih => rw [List.map_cons, List.map_cons, emit_node hb, ih]

/-- In a function, a block that starts with a branch is entered from a comparison only. -/
theorem emit_flagsFlow {bs : List BlockCode} (hbs : WellFormed bs) {blocks : List BasicBlock}
    (hemit : bs.mapM BlockCode.emit = some blocks) : FlagsFlow blocks := by
  have hall := Fold.forall₂_of_mapM hemit
  intro env i s j t hstep b hb hbranches
  unfold stepBlock at hstep
  rw [getElem?_textOf] at hstep
  cases hpred : blocks[i]? with
  | none =>
    rw [hpred] at hstep
    cases hstep
  | some pred =>
    refine ⟨pred, rfl, ?_⟩
    rw [hpred] at hstep
    replace hstep : (runBlock env pred.lists (s, none)).bind (exitTo (textOf blocks) i) = some (j, t) := hstep
    obtain ⟨⟨u, target⟩, hu, hexit⟩ := Option.bind_eq_some_iff.1 hstep
    obtain ⟨bc, hbc, hbemit⟩ := Fold.forall₂_getElem? hall hb
    obtain ⟨pc, hpc, hpemit⟩ := Fold.forall₂_getElem? hall hpred
    obtain ⟨phi, hphi, hbool⟩ := bool_of_branchesFirst hbemit hbranches
    rw [runBlock_lists] at hu
    obtain ⟨⟨v, o⟩, hv, hu⟩ := Option.bind_eq_some_iff.1 hu
    obtain rfl := target_beforeJumps (emit_flagSafe hpemit) env hv
    obtain ⟨startPhiInstrs, jumpInstrs, -, hjumps, rfl⟩ := emit_eq hpemit
    have hnode : b.node = bc.node := emit_node hbemit
    rcases exit_target hjumps hu with ⟨rfl, hleave⟩ | ⟨n, hn, rfl⟩
    · -- the end block is the last one, and behind it is the epilog
      have hlast := hbs.leave i pc hpc hleave
      cases hexit
      have := (List.getElem?_eq_some_iff.1 hbc).1
      omega
    · obtain ⟨j', hj', hpair⟩ := Option.map_eq_some_iff.1 (show (blockAt (textOf blocks) (getBlockLabel n)).map _ = _ from hexit)
      cases hpair
      obtain rfl : n = bc.node := (label_of_blockAt hj' hb).trans hnode
      obtain ⟨mode, leftOp, rightOp, relation, hcond⟩ := hbs.bool bc (List.mem_of_getElem? hbc) phi hphi hbool pc
        (List.mem_of_getElem? hpc) hn
      rw [hcond] at hjumps
      simp only [BlockExit.jumpInstrs, if_true] at hjumps
      cases hjumps
      exact ⟨mode, leftOp.op, rightOp.op, _, rfl⟩

/-! ## After the jumps are optimized -/

theorem removeJump_guarded {nextLabel : String} {js js' : List Instr} (h : JumpShape js)
    (hjs : removeJump nextLabel js = some js') : Guarded js' := by
  obtain ⟨hsub, hcompares⟩ := removeJump_compares h hjs
  obtain ⟨hlabels, hreads⟩ := guarded_of_jumpShape h
  refine ⟨fun i hi => hlabels i (hsub.subset hi), ?_⟩
  rcases hreads with hreads | ⟨mode, leftOp, rightOp, rest, heq⟩
  · exact .inl fun i hi => hreads i (hsub.subset hi)
  · obtain ⟨rest', heq'⟩ := hcompares mode leftOp rightOp rest heq
    exact .inr ⟨mode, leftOp, rightOp, rest', heq'⟩

/-- A block after the pass, and the block before it. -/
theorem jumpOptimizeBlocks_before {bs bs' : List BasicBlock} (h : jumpOptimizeBlocks bs = some bs') {i : Nat}
    {b' : BasicBlock} (hb' : bs'[i]? = some b') : ∃ b, bs[i]? = some b ∧
      (b' = b ∨ ∃ nextLabel js, removeJump nextLabel b.jumpInstrs = some js ∧ b' = { b with jumpInstrs := js }) := by
  have hlength : bs'.length = bs.length := by
    simpa using congrArg List.length (jumpOptimizeBlocks_nodes h)
  have hi : i < bs.length := by
    have := (List.getElem?_eq_some_iff.1 hb').1
    omega
  have hb : bs[i]? = some bs[i] := List.getElem?_eq_getElem hi
  refine ⟨bs[i], hb, ?_⟩
  rcases jumpOptimizeBlocks_getElem? h hb with hsame | ⟨nextBB, js, -, hjs, hsome⟩
  · exact .inl (Option.some.inj (hb'.symm.trans hsame))
  · exact .inr ⟨_, js, hjs, Option.some.inj (hb'.symm.trans hsome)⟩

section
variable {bs bs' : List BasicBlock} (hshape : ∀ b ∈ bs, JumpShape b.jumpInstrs) (h : jumpOptimizeBlocks bs = some bs')
include hshape h

theorem jumpOptimizeBlocks_flagSafe (hsafe : ∀ b ∈ bs, FlagSafe b) : ∀ b ∈ bs', FlagSafe b := by
  intro b' hb'
  obtain ⟨i, hi⟩ := List.mem_iff_getElem?.1 hb'
  obtain ⟨b, hb, hsame | ⟨nextLabel, js, hjs, rfl⟩⟩ := jumpOptimizeBlocks_before h hi
  · rw [hsame]
    exact hsafe b (List.mem_of_getElem? hb)
  · obtain ⟨hstart, hbody, hphis, -⟩ := hsafe b (List.mem_of_getElem? hb)
    exact ⟨hstart, hbody, hphis, removeJump_guarded (hshape b (List.mem_of_getElem? hb)) hjs⟩

theorem jumpOptimizeBlocks_flagsFlow (hnodup : (bs.map BasicBlock.node).Nodup) (hflow : FlagsFlow bs) :
    FlagsFlow bs' := by
  intro env i s j t hstep b' hb' hbranches
  rw [stepBlock_jumpOptimizeBlocks env hnodup hshape h] at hstep
  obtain ⟨b, hb, hbefore⟩ := jumpOptimizeBlocks_before h hb'
  have hfirst : b.branchesFirst := by
    rcases hbefore with rfl | ⟨_, _, -, rfl⟩
    · exact hbranches
    · exact hbranches
  obtain ⟨pred, hpred, mode, leftOp, rightOp, rest, hcompares⟩ := hflow env i s j t hstep b hb hfirst
  rcases jumpOptimizeBlocks_getElem? h hpred with hsame | ⟨nextBB, js, -, hjs, hsome⟩
  · exact ⟨pred, hsame, mode, leftOp, rightOp, rest, hcompares⟩
  · obtain ⟨rest', hjs'⟩ := (removeJump_compares (hshape pred (List.mem_of_getElem? hpred)) hjs).2 _ _ _ _ hcompares
    exact ⟨_, hsome, mode, leftOp, rightOp, rest', hjs'⟩

end

/-! ## The pass on a function -/

theorem mapM_simpleOptimizeBlock {bs : List BasicBlock} (hbs : ∀ b ∈ bs, b.flattenedInstrs = []) :
    bs.mapM simpleOptimizeBlock = some (bs.map BasicBlock.simplified) := by
  induction bs with
  | nil => rfl
  | cons b bs ih =>
    have hb : simpleOptimizeBlock b = some b.simplified := if_pos (.inl (hbs b (by simp)))
    rw [List.mapM_cons, hb, ih fun b' hb' => hbs b' (by simp [hb'])]
    rfl

/-- What the visits leave of a block does the same to registers and memory after the pass, from every state, and makes the
same calls. In the whole function, with or without the redundant jumps, every run goes through the same blocks as before
with the same registers, memory and calls, and every jump at the start or at the end of a block has the same outcome. -/
theorem simpleOptimize_viewsRun {bs : List BlockCode} (hbs : WellFormed bs) {blocks : List BasicBlock}
    (hemit : bs.mapM BlockCode.emit = some blocks) :
    (∀ b ∈ blocks, ∀ env s,
      AgreeResults (runBlock env b.instrs (s, none)) (runBlock env (simpleOptimize b.instrs) (s, none))) ∧
    ∀ blocks', blocks' = blocks ∨ jumpOptimizeBlocks blocks = some blocks' →
      ∃ out, blocks'.mapM simpleOptimizeBlock = some out ∧
        ∀ env n s, viewsRun env (textOf out) n s = viewsRun env (textOf blocks') n s := by
  have hall := Fold.forall₂_of_mapM hemit
  have hemitted : ∀ bb ∈ blocks, ∃ b, BlockCode.emit b = some bb := by
    intro bb hbb
    obtain ⟨i, hi⟩ := List.mem_iff_getElem?.1 hbb
    obtain ⟨b, -, hb⟩ := Fold.forall₂_getElem? hall hi
    exact ⟨b, hb⟩
  have hsafe : ∀ bb ∈ blocks, FlagSafe bb := fun bb hbb => emit_flagSafe (hemitted bb hbb).choose_spec
  have hshape : ∀ bb ∈ blocks, JumpShape bb.jumpInstrs := fun bb hbb => emit_jumpShape (hemitted bb hbb).choose_spec
  have hflat : ∀ bb ∈ blocks, bb.flattenedInstrs = [] := by
    intro bb hbb
    obtain ⟨b, hb⟩ := hemitted bb hbb
    obtain ⟨_, _, -, -, rfl⟩ := emit_eq hb
    rfl
  have hflow := emit_flagsFlow hbs hemit
  refine ⟨fun bb hbb env s => simpleOptimize_agree (hsafe bb hbb).body env (.refl _), ?_⟩
  rintro blocks' (rfl | hjumps)
  · exact ⟨_, mapM_simpleOptimizeBlock hflat, viewsRun_simplified hsafe hflow⟩
  · have hnodup : (blocks.map BasicBlock.node).Nodup := by
      rw [nodes_emit hall]
      exact hbs.nodup
    refine ⟨_, mapM_simpleOptimizeBlock ?_, viewsRun_simplified (jumpOptimizeBlocks_flagSafe hshape hjumps hsafe)
      (jumpOptimizeBlocks_flagsFlow hshape hjumps hnodup hflow)⟩
    intro b' hb'
    obtain ⟨i, hi⟩ := List.mem_iff_getElem?.1 hb'
    obtain ⟨b, hb, hsame | ⟨_, _, -, rfl⟩⟩ := jumpOptimizeBlocks_before hjumps hi
    · rw [hsame]
      exact hflat b (List.mem_of_getElem? hb)
    · exact hflat b (List.mem_of_getElem? hb)

/-- `return x + 1 < 10` as a value: the second block starts with a branch on the comparison in front of it. -/
def sampleBool : List BlockCode :=
  [{ node := 1, startPhis := [], body := [.add (.slot 24) (.const 1) (-8)], phiMoves := []
     exit := .cond .E (.slot (-8)) (.const 10) .less 2 2 },
   { node := 2, startPhis := [.bool 7 .less (.const 1) (.const 0) (-16)]
     body := [.add (.slot (-16)) (.const 0) (-24), .ret (some (.slot (-24)))], phiMoves := [], exit := .jmp 3 },
   { node := 3, startPhis := [], body := [], phiMoves := [], exit := .leave }]

theorem wellFormed_sampleBool : WellFormed sampleBool where
  nodup := by decide
  leave := by
    intro i b hb hleave
    rcases i with _ | _ | _ | i
    · cases hb
      cases hleave
    · cases hb
      cases hleave
    · rfl
    · cases hb
  bool := by
    intro b hb phi hphi _ pred hpred htarget
    simp only [sampleBool, List.mem_cons, List.not_mem_nil, or_false] at hb hpred
    rcases hb with rfl | rfl | rfl
    · cases hphi
    · rcases hpred with rfl | rfl | rfl
      · exact ⟨_, _, _, _, rfl⟩
      · exact absurd htarget (by decide)
      · cases htarget
    · cases hphi

theorem simpleOptimize_viewsRun_sampleBool : ∃ blocks, sampleBool.mapM BlockCode.emit = some blocks ∧
    (∀ b ∈ blocks, ∀ env s,
      AgreeResults (runBlock env b.instrs (s, none)) (runBlock env (simpleOptimize b.instrs) (s, none))) ∧
    ∀ blocks', blocks' = blocks ∨ jumpOptimizeBlocks blocks = some blocks' →
      ∃ out, blocks'.mapM simpleOptimizeBlock = some out ∧
        ∀ env n s, viewsRun env (textOf out) n s = viewsRun env (textOf blocks') n s :=
  ⟨_, rfl, simpleOptimize_viewsRun wellFormed_sampleBool rfl⟩

end Mjc.Asm

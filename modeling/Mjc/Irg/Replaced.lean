import Mjc.Irg.Certificate
import Mjc.Irg.Substitution

/-!
# One node in the place of another

What an exchange by a new node keeps.

* `result_congr` : a node computes the same in two graphs, if its operands have the same values;
* `Replaces` : two graphs that differ in one node; `Replaces.run` : the executions of the one are those of the other, if
  the node has the same value in both wherever it is evaluated;
* `Replaces.wellFormed`, `Replaces.certified` : a new node without operands.
-/

namespace Mjc.Irg.FirmGraph

set_option autoImplicit false

open Dominance

variable {T W : Type} {size : Nat} {tv : Tarvals T} {apply : Fin size → List (Value T W) → Value T W}
  {g g' : FirmGraph T size}

theorem operand_congr {n : Fin size} {env env' : Env T W size}
    (hins : (g'.node n).ins.map env' = (g.node n).ins.map env) {i : Nat} (hi : i < (g.node n).ins.length) :
    env' (g'.operand n i) = env (g.operand n i) := by
  have hlength : (g'.node n).ins.length = (g.node n).ins.length := by
    rw [← List.length_map (f := env'), hins, List.length_map]
  have hget := congrArg (fun l => l[i]?) hins
  rw [List.getElem?_map, List.getElem?_map, getElem?_operand hi, getElem?_operand (hlength ▸ hi)] at hget
  exact Option.some.inj hget

/-- A node computes the same from the same values; the memory after a division is the memory before it. -/
theorem result_congr {n : Fin size} {env env' : Env T W size} (hop : g'.opcode n = g.opcode n)
    (hmode : g'.mode n = g.mode n) (hrelation : g'.relation n = g.relation n) (htarval : g'.tarval n = g.tarval n)
    (harity : (g.opcode n).arity ≤ (g.node n).ins.length)
    (hins : g.opcode n ≠ .End → (g'.node n).ins.map env' = (g.node n).ins.map env)
    (hmem : g.opcode n = .Proj → g.mode n = .M →
      (g'.opcode (g'.operand n 0)).isDivision = (g.opcode (g.operand n 0)).isDivision ∧
        ((g.opcode (g.operand n 0)).isDivision = true →
          env' (g'.operand (g'.operand n 0) 0) = env (g.operand (g.operand n 0) 0))) :
    g'.result tv apply env' n = g.result tv apply env n := by
  unfold result
  rw [hop, hmode]
  by_cases hX : g.mode n = .X
  · rw [if_pos hX, if_pos hX]
  rw [if_neg hX, if_neg hX]
  by_cases hend : g.opcode n = .End
  · rw [hend]
  have hins := hins hend
  have hget : ∀ (o : Opcode) (i : Nat), g.opcode n = o → i < o.arity →
      env' (g'.operand n i) = env (g.operand n i) := by
    rintro o i rfl hi
    exact operand_congr hins (lt_of_lt_of_le hi harity)
  cases hn : g.opcode n
  case Const =>
    dsimp only
    rw [htarval]
  case Add | Sub | Mul =>
    dsimp only
    rw [hget _ 0 hn (by decide), hget _ 1 hn (by decide), hins]
  case Cmp =>
    dsimp only
    rw [hget _ 0 hn (by decide), hget _ 1 hn (by decide), hins, hrelation]
  case Div | Mod =>
    dsimp only
    rw [hget _ 1 hn (by decide), hget _ 2 hn (by decide), hins]
  case Minus | Not | Conv =>
    dsimp only
    rw [hget _ 0 hn (by decide), hins]
  case Proj =>
    dsimp only
    rw [hget _ 0 hn (by decide), hins]
    by_cases hM : g.mode n = .M
    · obtain ⟨hdiv, hvalue⟩ := hmem hn hM
      rw [hdiv, decide_eq_true hM, Bool.true_and]
      split
      · exact hvalue ‹_›
      · rfl
    · rw [decide_eq_false hM, Bool.false_and]
      rfl
  all_goals first | rfl | (dsimp only; rw [hins])

/-- `n` has the value `v` wherever it was evaluated. -/
def HasValue (tv : Tarvals T) (apply : Fin size → List (Value T W) → Value T W) (g : FirmGraph T size) (n : Fin size)
    (v : Value T W) : Prop :=
  ∀ b env h, Run tv apply g ((b, env) :: h) → Evaluated g ((b, env) :: h) n → env n = v

theorem HasValue.update_eq {old : Fin size} {v : Value T W} (hval : HasValue tv apply g old v) {b : Fin size}
    {env : Env T W size}
    {h : List (Fin size × Env T W size)} (hrun : Run tv apply g ((b, env) :: h)) {m : Fin size}
    (hm : m = old → Evaluated g ((b, env) :: h) m) : Function.update env old v m = env m := by
  by_cases hmo : m = old
  · rw [hmo, Function.update_self]
    exact (hval b env h hrun (hmo ▸ hm hmo)).symm
  · exact Function.update_of_ne hmo _ _

/-- A node of control flow has no value of its own. -/
theorem hasValue_of_result {n : Fin size} {v : Value T W} (hphi : g.opcode n ≠ .Phi)
    (hresult : ∀ env : Env T W size, g.result tv apply env n = v) : HasValue tv apply g n v := by
  intro b env h hrun hn
  generalize hl : (b, env) :: h = l at hrun
  induction hrun generalizing b env h with
  | start hvalues =>
    obtain ⟨hb, rfl⟩ := List.cons.inj hl
    obtain ⟨rfl, rfl⟩ := Prod.mk.inj hb
    rw [hvalues n hn.1 (List.mem_singleton.mp hn.2), hresult]
  | @step a b' x i env₀ env' h' hrun _ _ _ henters ih =>
    obtain ⟨hb, rfl⟩ := List.cons.inj hl
    obtain ⟨rfl, rfl⟩ := Prod.mk.inj hb
    by_cases hnb : g.block n = b
    · rw [henters.result n hn.1 hnb hphi, hresult]
    · rw [henters.frame n hnb]
      exact ih _ _ _ ⟨hn.1, (List.mem_cons.mp hn.2).resolve_left hnb⟩ rfl

/-- Two graphs that differ in the node `old`. -/
structure Replaces (g g' : FirmGraph T size) (old : Fin size) : Prop where
  node : ∀ n, n ≠ old → g'.node n = g.node n
  tarval : ∀ n, n ≠ old → g'.tarval n = g.tarval n
  mode : g'.mode = g.mode
  relation : g'.relation = g.relation
  projNum : g'.projNum = g.projNum
  startBlock : g'.startBlock = g.startBlock
  isBlock : (g.node old).isBlock = false
  isBlock' : (g'.node old).isBlock = false

/-- The values, where `old` has its value from the start. -/
def withValue (old : Fin size) (v : Value T W) (p : Fin size × Env T W size) : Fin size × Env T W size :=
  (p.1, Function.update p.2 old v)

namespace Replaces

variable {old : Fin size}

theorem symm (hr : Replaces g g' old) : Replaces g' g old :=
  ⟨fun n hn => (hr.node n hn).symm, fun n hn => (hr.tarval n hn).symm, hr.mode.symm, hr.relation.symm, hr.projNum.symm,
    hr.startBlock.symm, hr.isBlock', hr.isBlock⟩

theorem opcode (hr : Replaces g g' old) {n : Fin size} (hn : n ≠ old) : g'.opcode n = g.opcode n := by
  unfold FirmGraph.opcode
  rw [hr.node n hn]

theorem block (hr : Replaces g g' old) {n : Fin size} (hn : n ≠ old) : g'.block n = g.block n := by
  unfold FirmGraph.block
  rw [hr.node n hn]

theorem operand (hr : Replaces g g' old) {n : Fin size} (hn : n ≠ old) (i : Nat) :
    g'.operand n i = g.operand n i := by
  unfold FirmGraph.operand
  rw [hr.node n hn]

theorem isBlock_eq (hr : Replaces g g' old) (n : Fin size) : (g'.node n).isBlock = (g.node n).isBlock := by
  by_cases hn : n = old
  · rw [hn, hr.isBlock, hr.isBlock']
  · rw [hr.node n hn]

theorem cfgpreds (hr : Replaces g g' old) {b : Fin size} (hb : (g.node b).isBlock = true) :
    g'.cfgpreds b = g.cfgpreds b := by
  unfold FirmGraph.cfgpreds
  rw [hr.node b]
  rintro rfl
  rw [hr.isBlock] at hb
  cases hb

/-- An execution of the one graph is one of the other, when `old` has the value `v` in both. -/
theorem run (hr : Replaces g g' old) (hg : g.WellFormed) (hg' : g'.WellFormed) {v : Value T W}
    (hval : HasValue tv apply g old v)
    (hmem : ∀ p, p ≠ old → g.opcode p = .Proj → g.mode p = .M → g.operand p 0 = old →
      (g'.opcode old).isDivision = false ∧ (g.opcode old).isDivision = false)
    (hexit : ∀ a env h x, Run tv apply g ((a, env) :: h) → Leaves tv g env a x →
      Leaves tv g' (Function.update env old v) a x)
    (hphi : ∀ a env h x i, Run tv apply g ((a, env) :: h) → Leaves tv g env a x →
      (g.cfgpreds (g'.block old))[i]? = some x → g'.opcode old = .Phi →
        Function.update env old v (g'.operand old i) = v)
    (hresult : ∀ b env h, Run tv apply g ((b, env) :: h) → g'.block old = b → g'.opcode old ≠ .Phi →
      g'.result tv apply (Function.update env old v) old = v)
    {h : List (Fin size × Env T W size)} (hrun : Run tv apply g h) : Run tv apply g' (h.map (withValue old v)) := by
  have hblock : ∀ {b env h}, Run tv apply g ((b, env) :: h) →
      (∀ n, (g.node n).isBlock = false → g.block n = b → g.opcode n ≠ .Phi → env n = g.result tv apply env n) →
      ∀ n, (g'.node n).isBlock = false → g'.block n = b → g'.opcode n ≠ .Phi →
        Function.update env old v n = g'.result tv apply (Function.update env old v) n := by
    intro b env h hrun hvalues n hnb hb hop
    by_cases hn : n = old
    · subst hn
      rw [Function.update_self]
      exact (hresult b env h hrun hb hop).symm
    · rw [hr.isBlock_eq] at hnb
      rw [hr.block hn] at hb
      rw [hr.opcode hn] at hop
      rw [Function.update_of_ne hn, hvalues n hnb hb hop]
      refine (result_congr (hr.opcode hn) (congrFun hr.mode n) (congrFun hr.relation n) (hr.tarval n hn) (hg.arity n)
        (fun hend => ?_) fun hproj hM => ?_).symm
      · rw [hr.node n hn]
        refine List.map_congr_left fun m hm => hval.update_eq hrun fun hmo => ?_
        have hdom := hg.operand_dom n hnb hend hop m hm
        rw [hb] at hdom
        exact hrun.evaluated hdom
      · rw [hr.operand hn]
        by_cases hpred : g.operand n 0 = old
        · obtain ⟨hdiv', hdiv⟩ := hmem n hn hproj hM hpred
          rw [hpred, hdiv', hdiv]
          exact ⟨rfl, fun h => by cases h⟩
        · rw [hr.opcode hpred, hr.operand hpred]
          refine ⟨rfl, fun hdiv => hval.update_eq hrun fun hmo => ?_⟩
          have harity := hg.arity n
          rw [hproj] at harity
          have hdom := hg.operand_dom n hnb (by rw [hproj]; decide) hop _ (operand_mem (i := 0) harity)
          obtain ⟨hphi', hend', harity'⟩ : g.opcode (g.operand n 0) ≠ .Phi ∧ g.opcode (g.operand n 0) ≠ .End ∧
              0 < (g.node (g.operand n 0)).ins.length := by
            have := hg.arity (g.operand n 0)
            unfold Opcode.isDivision at hdiv
            rw [Bool.or_eq_true, decide_eq_true_eq, decide_eq_true_eq] at hdiv
            rcases hdiv with hdiv | hdiv <;> rw [hdiv] at this ⊢ <;>
              exact ⟨by decide, by decide, lt_of_lt_of_le (by decide) this⟩
          have hdom' := hg.operand_dom _ hdom.1 hend' hphi' _ (operand_mem harity')
          rw [hb] at hdom
          exact hrun.evaluated ⟨hdom'.1, hdom'.2.trans hdom.2⟩
  induction hrun with
  | @start env hvalues =>
    refine hr.startBlock ▸ Run.start fun n hnb hb => ?_
    have hop : g'.opcode n ≠ .Phi := fun hphi => hg'.start_phi n hphi hb
    exact hblock (.start hvalues) (fun n hnb hb _ => hvalues n hnb hb) n hnb (hb.trans hr.startBlock) hop
  | @step a b x i env env' h hrun hleaves hb hx henters ih =>
    have hrun' := hrun.step hleaves hb hx henters
    refine ih.step (hexit a env h x hrun hleaves) ((hr.isBlock_eq b).trans hb) (hr.cfgpreds hb ▸ hx) ⟨?_, ?_, ?_⟩
    · intro n hnb
      by_cases hn : n = old
      · rw [hn]
        dsimp only
        rw [Function.update_self, Function.update_self]
      · dsimp only
        rw [Function.update_of_ne hn, Function.update_of_ne hn]
        exact henters.frame n (hr.block hn ▸ hnb)
    · intro n hnb hbn hop
      by_cases hn : n = old
      · subst hn
        dsimp only
        rw [Function.update_self]
        exact (hphi a env h x i hrun hleaves (hbn ▸ hx) hop).symm
      · rw [hr.isBlock_eq] at hnb
        rw [hr.block hn] at hbn
        rw [hr.opcode hn] at hop
        dsimp only
        rw [Function.update_of_ne hn, henters.phi n hnb hbn hop, hr.operand hn]
        refine (hval.update_eq hrun fun _ => ?_).symm
        have hi : i < (g.node n).ins.length := by
          rw [hg.phi_length n hop, hbn]
          exact (List.getElem?_eq_some_iff.mp hx).1
        have hdom := hg.phi_dom n _ x i hop (getElem?_operand hi) (hbn ▸ hx) hleaves.exit
        exact hrun.evaluated (hleaves.block ▸ hdom)
    · exact hblock hrun' henters.result

/-! ## A new node -/

/-- The new node has no operands: a constant, or a way out of the block that the old one was a way out of. -/
structure Fresh (g g' : FirmGraph T size) (old : Fin size) : Prop where
  ins : (g'.node old).ins = []
  opcode : g'.opcode old = .Const ∨ g'.opcode old = .Jmp ∨ g'.opcode old = .Bad
  cond : g.opcode old ≠ .Cond
  block : g'.block old = g.startBlock ∨ g'.block old = g.block old
  exit : g'.isExit old = true → g.isExit old = true ∧ g'.block old = g.block old
  const : g'.opcode old = .Const → g.mode old ≠ .M ∧ g.mode old ≠ .X
  jmp : g'.opcode old = .Jmp → g.mode old = .X

theorem Fresh.opcode_ne (hf : Fresh g g' old) {o : Opcode} (h : o ≠ .Const ∧ o ≠ .Jmp ∧ o ≠ .Bad) :
    g'.opcode old ≠ o := by
  rintro rfl
  exact hf.opcode.elim h.1 fun hk => hk.elim h.2.1 h.2.2

theorem Fresh.arity (hf : Fresh g g' old) : (g'.opcode old).arity = 0 := by
  rcases hf.opcode with h | h | h <;> rw [h] <;> rfl

theorem isExit_eq (hr : Replaces g g' old) {x : Fin size} (hx : x ≠ old) : g'.isExit x = g.isExit x := by
  unfold isExit
  rw [hr.opcode hx, hr.mode]

/-- Ways out are not added. -/
theorem exit_of_exit (hr : Replaces g g' old) (hf : Fresh g g' old) {x : Fin size} (hx : g'.isExit x = true) :
    g.isExit x = true ∧ g'.block x = g.block x := by
  by_cases hxo : x = old
  · subst hxo
    exact hf.exit hx
  · exact ⟨(hr.isExit_eq hxo).symm.trans hx, hr.block hxo⟩

theorem edge (hr : Replaces g g' old) (hf : Fresh g g' old) (a b : Fin size) (h : g'.Edge a b) : g.Edge a b := by
  obtain ⟨hb, x, hx, hexit, hxa⟩ := h
  rw [hr.isBlock_eq] at hb
  rw [hr.cfgpreds hb] at hx
  obtain ⟨hexit', hblock⟩ := hr.exit_of_exit hf hexit
  exact ⟨hb, x, hx, hexit', hblock ▸ hxa⟩

theorem dom (hr : Replaces g g' old) (hf : Fresh g g' old) {a b : Fin size} (h : g.Dom a b) : g'.Dom a b := by
  unfold Dom
  rw [hr.startBlock]
  exact h.mono (hr.edge hf)

/-- The block of the new node dominates what that of the old one did. -/
theorem dom_block (hr : Replaces g g' old) (hf : Fresh g g' old) {m b : Fin size} (h : g.Dom (g.block m) b) :
    g'.Dom (g'.block m) b := by
  by_cases hm : m = old
  · subst hm
    rcases hf.block with hblock | hblock
    · rw [hblock, ← hr.startBlock]
      exact .of_root b
    · rw [hblock]
      exact hr.dom hf h
  · rw [hr.block hm]
    exact hr.dom hf h

theorem wellFormed (hr : Replaces g g' old) (hf : Fresh g g' old) (hg : g.WellFormed) : g'.WellFormed := by
  have hne : ∀ {n : Fin size} {o : Opcode}, g'.opcode n = o → o ≠ .Const ∧ o ≠ .Jmp ∧ o ≠ .Bad → n ≠ old := by
    rintro n o hn ho rfl
    exact hf.opcode_ne ho hn
  have hbreaks : ∀ n, n ≠ old → (g'.node n).isLoopBreaker = (g.node n).isLoopBreaker := by
    intro n hn
    rw [hr.node n hn]
  have huses : (g'.node old).uses = [g'.block old] := by
    unfold IrNode.uses
    rw [hr.isBlock', hf.ins]
    rfl
  refine ⟨?_, fun n => ?_, fun n hn => ?_, fun n hn => ?_, fun n hn => ?_, fun b hb x hx => ?_, ?_, ?_, fun n hn => ?_,
    fun n hn => ?_, fun n hb hend hphi m hm => ?_, fun n m x i hn hm hx hexit => ?_, fun n hn => ?_, fun n hn => ?_,
    fun n i hi => ?_, fun n hn => ?_, fun n hn hX => ?_, fun n n' hn hn' hM hM' hops hdiv => ?_⟩
  · -- the new node comes first
    obtain ⟨rank, hrank⟩ := hg.ranked
    refine ⟨fun n => if n = old then 0 else rank n + 1, fun m n hm hn huse => ?_⟩
    by_cases hmo : m = old
    · subst hmo
      rw [huses, List.mem_singleton] at huse
      have hblock : (g.node n).isBlock = true := by
        rcases hf.block with hb | hb <;> rw [huse, hb]
        · exact hg.start_isBlock
        · exact hg.block_isBlock _ hr.isBlock
      unfold IrNode.isLoopBreaker at hn
      rw [hr.isBlock_eq, hblock, Bool.or_true] at hn
      cases hn
    · dsimp only
      rw [if_neg hmo]
      by_cases hno : n = old
      · rw [if_pos hno]
        exact Nat.succ_pos _
      · rw [if_neg hno]
        rw [hbreaks m hmo] at hm
        rw [hbreaks n hno] at hn
        rw [hr.node m hmo] at huse
        exact Nat.succ_lt_succ (hrank m n hm hn huse)
  · by_cases hn : n = old
    · subst hn
      rw [hf.arity]
      exact Nat.zero_le _
    · rw [hr.opcode hn, hr.node n hn]
      exact hg.arity n
  · have hno := hne hn (by decide)
    rw [hr.opcode hno] at hn
    rw [hr.node n hno]
    exact hg.proj_length n hn
  · have hno := hne hn (by decide)
    rw [hr.opcode hno] at hn
    rw [hr.node n hno, hr.block hno, hr.cfgpreds (hg.block_isBlock n (isBlock_eq_false hn (by decide)))]
    exact hg.phi_length n hn
  · rw [hr.isBlock_eq] at hn ⊢
    by_cases hno : n = old
    · subst hno
      rcases hf.block with hblock | hblock <;> rw [hblock]
      · exact hg.start_isBlock
      · exact hg.block_isBlock n hn
    · rw [hr.block hno]
      exact hg.block_isBlock n hn
  · rw [hr.isBlock_eq] at hb
    rw [hr.cfgpreds hb] at hx
    rw [hr.mode]
    exact hg.cfgpred_mode b hb x hx
  · rw [hr.startBlock, hr.isBlock_eq]
    exact hg.start_isBlock
  · rw [hr.startBlock, hr.cfgpreds hg.start_isBlock]
    exact hg.start_ins
  · have hno := hne hn (by decide)
    rw [hr.opcode hno] at hn
    rw [hr.block hno, hr.startBlock]
    exact hg.start_phi n hn
  · have hno := hne hn (by decide)
    rw [hr.opcode hno] at hn
    rw [hr.block hno, hr.startBlock]
    exact hg.start_end n hn
  · by_cases hno : n = old
    · rw [hno, hf.ins] at hm
      cases hm
    · rw [hr.isBlock_eq] at hb ⊢
      rw [hr.opcode hno] at hend hphi
      rw [hr.node n hno] at hm
      obtain ⟨hmb, hdom⟩ := hg.operand_dom n hb hend hphi m hm
      rw [hr.block hno]
      exact ⟨hmb, hr.dom_block hf hdom⟩
  · have hno := hne hn (by decide)
    rw [hr.opcode hno] at hn
    rw [hr.node n hno] at hm
    rw [hr.block hno, hr.cfgpreds (hg.block_isBlock n (isBlock_eq_false hn (by decide)))] at hx
    obtain ⟨hexit', hblock⟩ := hr.exit_of_exit hf hexit
    obtain ⟨hmb, hdom⟩ := hg.phi_dom n m x i hn hm hx hexit'
    rw [hr.isBlock_eq, hblock]
    exact ⟨hmb, hr.dom_block hf hdom⟩
  · have hno := hne hn (by decide)
    rw [hr.opcode hno] at hn
    rw [hr.mode, hr.node n hno]
    exact hg.phi_mode n hn
  · rw [hr.mode] at hn
    by_cases hno : n = old
    · subst hno
      refine ⟨fun hconst => ?_, Or.inl hf.arity⟩
      exact hn.elim (hf.const hconst).1 (hf.const hconst).2
    · rw [hr.opcode hno]
      exact hg.no_value n hn
  · by_cases hno : n = old
    · rw [hno, hf.arity] at hi
      cases hi
    · rw [hr.opcode hno] at hi ⊢
      rw [hr.operand hno, hr.mode]
      exact hg.operand_memory n i hi
  · rw [hr.mode]
    by_cases hno : n = old
    · subst hno
      exact hf.jmp hn
    · rw [hr.opcode hno] at hn
      exact hg.jmp_mode n hn
  · have hno := hne hn (by decide)
    rw [hr.opcode hno] at hn
    rw [hr.mode] at hX
    have hcond := hg.proj_cond n hn hX
    have hco : g.operand n 0 ≠ old := fun h => hf.cond (h ▸ hcond)
    rw [hr.operand hno, hr.opcode hco]
    exact hcond
  · have hno := hne hn (by decide)
    have hno' := hne hn' (by decide)
    rw [hr.opcode hno] at hn
    rw [hr.opcode hno'] at hn'
    rw [hr.mode] at hM hM'
    rw [hr.operand hno] at hops hdiv
    rw [hr.operand hno'] at hops
    have hpo : g.operand n 0 ≠ old := by
      intro h
      rw [h] at hdiv
      unfold Opcode.isDivision at hdiv
      rw [Bool.or_eq_true, decide_eq_true_eq, decide_eq_true_eq] at hdiv
      exact hdiv.elim (hf.opcode_ne (by decide)) (hf.opcode_ne (by decide))
    rw [hr.opcode hpo] at hdiv
    exact hg.memory_proj n n' hn hn' hM hM' hops hdiv

theorem certified [DecidableEq T] {s : ConstPropState T size} (hr : Replaces g g' old) (hf : Fresh g g' old)
    (hg : g.WellFormed) (hs : Certified tv g s) (hlink : s.link old = newVal tv g' s old)
    (hjmp : g'.opcode old = .Jmp → exitTaken tv g s old = true) : Certified tv g' s := by
  refine ⟨fun n hM hphi => ?_, fun n hM hphi i m x hm hx => ?_, fun x hexit hreached htaken => ?_, fun n hM => ?_⟩
  · by_cases hn : n = old
    · rw [hn]
      exact hlink
    · rw [hr.mode] at hM
      rw [hr.opcode hn] at hphi
      rw [hs.value n hM hphi]
      refine (newVal_eq (hr.opcode hn) (congrFun hr.mode n) (congrFun hr.relation n) (hr.tarval n hn) ?_).symm
      intro i _ _
      rw [hr.operand hn]
  · have hn : n ≠ old := by
      rintro rfl
      exact hf.opcode_ne (by decide) hphi
    rw [hr.mode] at hM
    rw [hr.opcode hn] at hphi
    rw [hr.node n hn] at hm
    rw [hr.block hn, hr.cfgpreds (hg.block_isBlock n (isBlock_eq_false hphi (by decide)))] at hx
    exact hs.phi n hM hphi i m x hm hx
  · obtain ⟨hexit', hblock⟩ := hr.exit_of_exit hf hexit
    have hxb : (g.node x).isBlock = false := by
      rcases isExit_opcode hexit' with h | h <;> exact isBlock_eq_false h (by decide)
    rw [hblock] at hreached
    have hreached' : g.Reached s (g.block x) := by
      unfold Reached at hreached ⊢
      rwa [hr.startBlock, hr.cfgpreds (hg.block_isBlock x hxb)] at hreached
    refine hs.control x hexit' hreached' ?_
    by_cases hx : x = old
    · subst hx
      refine hjmp ((isExit_opcode hexit).resolve_right (hf.opcode_ne (by decide)))
    · unfold exitTaken projTaken at htaken ⊢
      rw [hr.opcode hx] at htaken
      by_cases hxjmp : g.opcode x = .Jmp
      · rw [if_pos hxjmp]
      · obtain ⟨hproj, hX⟩ := isExit_proj hexit' hxjmp
        have hco : g.operand x 0 ≠ old := fun h => hf.cond (h ▸ hg.proj_cond x hproj hX)
        unfold selector at htaken ⊢
        rwa [hr.operand hx, hr.operand hco, hr.projNum] at htaken
  · rw [hr.mode] at hM
    exact hs.memory n hM

end Replaces

end Mjc.Irg.FirmGraph

import Mjc.Irg.Bypassed
import Mjc.Irg.Propagation

/-!
# The constant propagation is correct

* `constProp_sound` : a constant link is the value of its node in every execution, and control takes no exit that is
  not marked;
* `Linked.Good` : what `substituteNode` keeps; `Linked.substNodesWalk_invariant` : the walk over the changing graph;
* `constPropPass_preserves` : the pass preserves the executions.
-/

namespace Mjc.Irg

set_option autoImplicit false

variable {T W : Type} {size : Nat} [DecidableEq T] {tv : Tarvals T}
  {apply : Fin size → List (Value T W) → Value T W}

namespace FirmGraph

/-- When the worklist is empty, the constants are right and so are the marks. -/
theorem constProp_sound {g : FirmGraph T size} (hg : g.WellFormed) (hwalk : g.Walkable)
    {outs : Fin size → List (Fin size)} (houts : ∀ m n, m ∈ outs n ↔ n ∈ (g.node m).uses) {rank : Fin size → Nat}
    {hrank : g.Ranked rank} {depth visits : Nat} {s : ConstPropState T size}
    (h : g.constProp tv outs rank hrank depth visits = some s) {b : Fin size} {env : Env T W size}
    {past : List (Fin size × Env T W size)} (hrun : Run tv apply g ((b, env) :: past)) :
    (∀ n t, Evaluated g ((b, env) :: past) n → s.link n = .const t → env n = .tarval t) ∧
      ∀ x, Leaves tv g env b x → s.controlFlowVisited x = some true := by
  have hs := constProp_certified hg hwalk houts h
  exact ⟨fun n t hn hlink => hs.hasValue hg hlink b env past hrun hn,
    fun x hx => hs.marked hg hrun (hs.explains hg hrun) hx⟩

end FirmGraph

namespace Linked

open FirmGraph

variable (tv) in
/-- The links are right, with the marks of the propagation. -/
structure Good (marks : Fin size → Option Bool) (st : Linked T size) : Prop where
  wellFormed : st.graph.WellFormed
  certified : Certified tv st.graph ⟨st.link, marks⟩

variable {marks : Fin size → Option Bool} {outs : FirmGraph T size → Fin size → List (Fin size)} {st : Linked T size}
  {n : Fin size}

/-- Of the operations with a constant value only the divisions use the memory. -/
theorem Good.isMemop (h : Good tv marks st) {c : T} (hlink : st.link n = .const c)
    (hconst : st.graph.opcode n ≠ .Const) :
    (st.graph.opcode n).isMemop = (st.graph.opcode n).isDivision := by
  cases hn : st.graph.opcode n <;>
    first | rfl | exact absurd hn (h.certified.link_opcode hlink hconst ⟨by simp, Or.inl rfl⟩)

/-- What the bypass of the memory leaves of a node that becomes a constant. -/
structure Readied (tv : Tarvals T) (apply : Fin size → List (Value T W) → Value T W) (marks : Fin size → Option Bool)
    (st : Linked T size) (n : Fin size) (st' : Linked T size) : Prop where
  good : Good tv marks st'
  preserves : Preserves tv apply st.graph st'.graph
  link : st'.link n = st.link n
  opcode : st'.graph.opcode n = st.graph.opcode n
  memory : ∀ p, st'.graph.opcode p = .Proj → st'.graph.mode p = .M → st'.graph.operand p 0 = n →
    (st'.graph.opcode n).isDivision = false

theorem Good.bypassMem (houts : ∀ g m n, m ∈ outs g n ↔ n ∈ (g.node m).uses) (h : Good tv marks st) {c : T}
    (hlink : st.link n = .const c) (hconst : st.graph.opcode n ≠ .Const) :
    Readied tv apply marks st n (st.bypassMem outs n) := by
  have hg := h.wellFormed
  have hM := (h.certified.operands hlink hconst).1
  have hproj : ∀ p, st.graph.opcode p = .Proj → st.graph.operand p 0 ∈ (st.graph.node p).ins := by
    intro p hp
    exact operand_mem (by rw [hg.proj_length p hp]; exact Nat.zero_lt_one)
  unfold Linked.bypassMem
  rw [h.isMemop hlink hconst]
  by_cases hdiv : (st.graph.opcode n).isDivision = true
  · rw [if_pos hdiv]
    cases hfind : (outs st.graph n).find? fun succ => st.graph.opcode succ = .Proj && st.graph.mode succ = .M with
    | none =>
      -- the memory after the division is not used
      refine ⟨h, .refl _, rfl, rfl, fun p hp hpM hops => ?_⟩
      have hmem : p ∈ outs st.graph n := (houts _ _ _).mpr (mem_uses (hops ▸ hproj p hp))
      have := List.find?_eq_none.mp hfind p hmem
      rw [hp, hpM] at this
      exact absurd rfl this
    | some succ =>
      have hsucc := List.find?_some hfind
      rw [Bool.and_eq_true, decide_eq_true_eq, decide_eq_true_eq] at hsucc
      have hop : st.graph.operand succ 0 = n := by
        have huse := (houts _ _ _).mp (List.mem_of_find?_eq_some hfind)
        have hblock := isBlock_eq_false hsucc.1 (by decide)
        unfold IrNode.uses at huse
        rw [hblock] at huse
        rcases List.mem_cons.mp huse with huse | huse
        · -- the division is no block
          have hnb := hg.block_isBlock succ hblock
          rw [show st.graph.block succ = n from huse.symm] at hnb
          rcases isDivision_cases hdiv with hn | hn <;>
            rw [isBlock_eq_false hn (by decide)] at hnb <;> cases hnb
        · obtain ⟨m, hm⟩ := List.length_eq_one_iff.mp (hg.proj_length succ hsucc.1)
          have hmem := hproj succ hsucc.1
          rw [hm, List.mem_singleton] at hmem huse
          exact hmem.trans huse.symm
      have hp : Bypasses st.graph succ := ⟨hsucc.1, hsucc.2, hop.symm ▸ hdiv⟩
      have hmem : st.graph.operand n 0 = st.graph.memBefore succ := by
        unfold memBefore
        rw [hop]
      have hne : n ≠ succ := by
        rintro rfl
        exact hM hsucc.2
      dsimp only
      rw [hmem]
      refine ⟨⟨hp.wellFormed hg, hp.certified hg h.certified⟩, hp.preserves hg, ?_, bypass_opcode hne,
        fun p hpp hpM hops => ?_⟩
      · refine Function.update_of_ne ?_ _ _
        rintro rfl
        exact hM (hp.memBefore_mode hg)
      · -- there was one `Proj` of the memory
        have hpne : p ≠ succ := bypass_ne hpp (by decide)
        have hpp' : st.graph.opcode p = .Proj := (bypass_opcode hpne).symm.trans hpp
        have hlength : 0 < (st.graph.node p).ins.length := by
          rw [hg.proj_length p hpp']
          exact Nat.zero_lt_one
        have hpop : st.graph.operand p 0 = n := by
          have hops : (st.graph.bypass succ).operand p 0 = n := hops
          rw [bypass_operand hpne hlength] at hops
          by_cases h0 : st.graph.operand p 0 = succ
          · rw [h0, bypassed_self] at hops
            exact absurd (hops ▸ hp.memBefore_mode hg) hM
          · rwa [bypassed_of_ne h0] at hops
        exact absurd (hg.memory_proj p succ hpp' hsucc.1 hpM hsucc.2 (hpop.trans hop.symm) (hpop.symm ▸ hdiv)) hpne
  · rw [if_neg hdiv]
    exact ⟨h, .refl _, rfl, rfl, fun _ _ _ _ => Bool.eq_false_of_not_eq_true hdiv⟩

theorem Good.substituteNode (houts : ∀ g m n, m ∈ outs g n ↔ n ∈ (g.node m).uses) (h : Good tv marks st)
    (n : Fin size) :
    Good tv marks (st.substituteNode tv outs n) ∧
      Preserves tv apply st.graph (st.substituteNode tv outs n).graph := by
  have hstays : Good tv marks st ∧ Preserves tv apply st.graph st.graph := ⟨h, .refl _⟩
  unfold Linked.substituteNode
  split
  · exact hstays
  · rename_i hconst
    split
    · rename_i c hlink
      have hready : Readied tv apply marks st n _ := h.bypassMem houts hlink hconst
      have hlink' := hready.link.trans hlink
      have hconst' : (st.bypassMem outs n).graph.opcode n ≠ .Const := by rwa [hready.opcode]
      obtain ⟨hg', hs'⟩ := hready.good.certified.toConst hready.good.wellFormed hlink' hconst'
      exact ⟨⟨hg', hs'⟩, hready.preserves.trans
        (preserves_toConst hready.good.wellFormed hready.good.certified hlink' hconst' hready.memory)⟩
    · split
      · rename_i hexit
        split
        · rename_i c hlink
          have hexits := h.certified.substExit h.wellFormed hlink hexit.1 hexit.2
          have hpres : Preserves tv apply st.graph (FirmGraph.substExit tv st.graph n c) :=
            preserves_substExit h.wellFormed h.certified hlink hexit.1 hexit.2
          unfold substExit at hexits hpres
          split <;> rename_i htaken
          · rw [if_pos htaken] at hexits hpres
            exact ⟨⟨hexits.1, hexits.2⟩, hpres⟩
          · rw [if_neg htaken] at hexits hpres
            exact ⟨⟨hexits.1, hexits.2⟩, hpres⟩
        · exact hstays
      · exact hstays

/-- What every substitution keeps, the walk keeps. -/
theorem substNodesWalk_invariant {I : Linked T size → Prop} (hstep : ∀ st n, I st → I (st.substituteNode tv outs n))
    {depth : Nat} {irn : Fin size} {w w' : Walk T size} (hw : I w.linked)
    (h : substNodesWalk tv outs depth irn w = some w') : I w'.linked := by
  induction depth generalizing irn w w' with
  | zero => cases h
  | succ depth ih =>
    unfold substNodesWalk at h
    split at h
    · exact Option.some.inj h ▸ hw
    · obtain ⟨w₂, h₂, rfl⟩ := Option.map_eq_some_iff.mp h
      obtain ⟨w₁, h₁, h₂⟩ := Option.bind_eq_some_iff.mp h₂
      have henter : I (if (w.linked.graph.node irn).isLoopBreaker then w.mark irn else w).linked := by
        split <;> exact hw
      have hw₁ : I w₁.linked := by
        split at h₁
        · exact Option.some.inj h₁ ▸ henter
        · exact ih henter h₁
      have hw₂ : I w₂.linked := by
        generalize List.range (w.linked.graph.node irn).ins.length = indices at h₂
        clear h₁
        induction indices generalizing w₁ with
        | nil => exact Option.some.inj h₂ ▸ hw₁
        | cons i indices ih' =>
          rw [List.foldlM_cons] at h₂
          obtain ⟨w₃, h₃, h₂⟩ := Option.bind_eq_some_iff.mp h₂
          refine ih' w₃ ?_ h₂
          split at h₃
          · exact ih hw₁ h₃
          · exact Option.some.inj h₃ ▸ hw₁
      split
      · exact hstep _ _ hw₂
      · exact hw₂

end Linked

/-- The graph that the pass leaves goes through the same blocks, with the same operands and values of every operation
that is left. -/
theorem constPropPass_preserves {g : FirmGraph T size} (hg : g.WellFormed) (hwalk : g.Walkable)
    {outs : FirmGraph T size → Fin size → List (Fin size)} (houts : ∀ g m n, m ∈ outs g n ↔ n ∈ (g.node m).uses)
    {rank : Fin size → Nat} {hrank : g.Ranked rank} {depth visits : Nat} {g' : FirmGraph T size}
    (h : constPropPass tv outs g rank hrank depth visits = some g') : FirmGraph.Preserves tv apply g g' := by
  obtain ⟨s, hs, h⟩ := Option.bind_eq_some_iff.mp h
  obtain ⟨st, hst, rfl⟩ := Option.map_eq_some_iff.mp h
  obtain ⟨w, hw, rfl⟩ := Option.map_eq_some_iff.mp hst
  have hstart : Linked.Good tv s.controlFlowVisited ⟨g, s.link⟩ :=
    ⟨hg, FirmGraph.constProp_certified hg hwalk (houts g) hs⟩
  refine (Linked.substNodesWalk_invariant
    (I := fun st => Linked.Good tv s.controlFlowVisited st ∧ FirmGraph.Preserves tv apply g st.graph) ?_
    ⟨hstart, .refl g⟩ hw).2
  intro st n ⟨hgood, hpres⟩
  have hnext : Linked.Good tv _ _ ∧ FirmGraph.Preserves tv apply st.graph _ := hgood.substituteNode houts n
  exact ⟨hnext.1, hpres.trans hnext.2⟩

/-! ## An example -/

namespace FirmGraph

/-- The out edges of a node, in the order of the nodes. -/
def outEdges (g : FirmGraph T size) (n : Fin size) : List (Fin size) :=
  (List.finRange size).filter fun m => (g.node m).uses.contains n

omit [DecidableEq T] in
theorem mem_outEdges (g : FirmGraph T size) (m n : Fin size) : m ∈ g.outEdges n ↔ n ∈ (g.node m).uses := by
  unfold outEdges
  rw [List.mem_filter, List.contains_iff_mem]
  exact and_iff_right (List.mem_finRange m)

omit [DecidableEq T] in
/-- A graph whose operands are in the start block or in the block of their user. -/
theorem dom_of_near {g : FirmGraph T size} {a b : Fin size} (h : a = g.startBlock ∨ a = b) : g.Dom a b := by
  rcases h with rfl | rfl
  · exact .of_root b
  · exact .refl a

end FirmGraph

/-- The tarvals of `mode_Is` and `mode_b`. -/
def int32 : Tarvals (BitVec 32 ⊕ Bool) where
  add
    | .inl a, .inl b => some (.inl (a + b))
    | _, _ => none
  sub
    | .inl a, .inl b => some (.inl (a - b))
    | _, _ => none
  mul
    | .inl a, .inl b => some (.inl (a * b))
    | _, _ => none
  div
    | .inl a, .inl b => if b = 0 then none else some (.inl (a.sdiv b))
    | _, _ => none
  mod
    | .inl a, .inl b => if b = 0 then none else some (.inl (a.srem b))
    | _, _ => none
  neg
    | .inl a => some (.inl (-a))
    | _ => none
  not
    | .inl a => some (.inl (~~~a))
    | .inr b => some (.inr (!b))
  convert_to
    | .Is, .inl a => some (.inl a)
    | _, _ => none
  cmp
    | .inl a, .inl b => if a = b then .equal else if a.slt b then .less else .greater
    | .inr a, .inr b => if a = b then .equal else if b then .less else .greater
    | _, _ => .other
  b_true := .inr true
  b_false := .inr false
  eq_of_cmp a b h := by
    rcases a with a | a <;> rcases b with b | b <;> dsimp only at h
    · by_cases hab : a = b
      · rw [hab]
      · rw [if_neg hab] at h
        split at h <;> cases h
    · cases h
    · cases h
    · by_cases hab : a = b
      · rw [hab]
      · rw [if_neg hab] at h
        split at h <;> cases h
  b_true_ne := by decide

/-- `int d = 6 / 3; if (d < 6) x = d; else x = 6; return x;`, with the memory of the division. -/
def guardedDivision : FirmGraph (BitVec 32 ⊕ Bool) 19 where
  node n := (([⟨.Block, 0, []⟩, ⟨.Start, 0, []⟩, ⟨.Proj, 0, [1]⟩, ⟨.Const, 0, []⟩, ⟨.Const, 0, []⟩,
    ⟨.Div, 0, [2, 3, 4]⟩, ⟨.Proj, 0, [5]⟩, ⟨.Proj, 0, [5]⟩, ⟨.Cmp, 0, [7, 3]⟩, ⟨.Cond, 0, [8]⟩, ⟨.Proj, 0, [9]⟩,
    ⟨.Proj, 0, [9]⟩, ⟨.Block, 0, [10]⟩, ⟨.Jmp, 12, []⟩, ⟨.Block, 0, [11, 13]⟩, ⟨.Phi, 14, [3, 7]⟩,
    ⟨.Return, 14, [6, 15]⟩, ⟨.Block, 0, [16]⟩] : List (IrNode 19))[n.val]?).getD ⟨.End, 17, []⟩
  mode n := (([.BB, .T, .M, .Is, .Is, .T, .M, .Is, .b, .T, .X, .X, .BB, .X, .BB, .Is, .X, .BB] :
    List Mode)[n.val]?).getD .X
  tarval n := .inl (if n = 3 then 6 else 3)
  relation _ := .less
  projNum n := if n = 10 then 1 else 0
  startBlock := 0
  endNode := 18

theorem guardedDivision_ranked : guardedDivision.Ranked fun n => n.val := by
  unfold FirmGraph.Ranked
  decide

theorem guardedDivision_wellFormed : guardedDivision.WellFormed := by
  have hnear : ∀ n : Fin 19, (guardedDivision.node n).isBlock = false → guardedDivision.opcode n ≠ .End →
      guardedDivision.opcode n ≠ .Phi → ∀ m ∈ (guardedDivision.node n).ins, (guardedDivision.node m).isBlock = false ∧
        (guardedDivision.block m = guardedDivision.startBlock ∨ guardedDivision.block m = guardedDivision.block n) := by
    decide
  have hphi : ∀ n : Fin 19, guardedDivision.opcode n = .Phi → ∀ m ∈ (guardedDivision.node n).ins,
      (guardedDivision.node m).isBlock = false ∧ guardedDivision.block m = guardedDivision.startBlock := by
    decide
  refine ⟨⟨_, guardedDivision_ranked⟩, by decide, by decide, by decide, by decide, by decide, by decide, by decide,
    by decide, by decide, fun n hb hend hn m hm => ?_, fun n m x i hn hm _ _ => ?_, by decide, by decide, by decide,
    by decide, by decide, by decide⟩
  · exact (hnear n hb hend hn m hm).imp_right FirmGraph.dom_of_near
  · exact (hphi n hn m (List.mem_of_getElem? hm)).imp_right fun h => FirmGraph.dom_of_near (Or.inl h)

theorem guardedDivision_walkable : guardedDivision.Walkable := by
  have hall : ((guardedDivision.irGraph _ guardedDivision_ranked).initOrder 40).any
      (fun order : List (Fin 19) => (List.finRange 19).all fun n => decide (n ∈ order)) = true := by
    decide
  obtain ⟨order, horder, hmem⟩ := (Option.any_eq_true _ _).mp hall
  have hfirst : ∀ b p : Fin 19, guardedDivision.isExit p = true → guardedDivision.block p = guardedDivision.startBlock →
      ∀ i < 2, (guardedDivision.cfgpreds b)[i]? = some p → i = 0 := by
    decide
  have hlength : ∀ b : Fin 19, (guardedDivision.node b).isBlock = true → (guardedDivision.cfgpreds b).length ≤ 2 := by
    decide
  refine ⟨fun n => (IrGraph.mem_initOrder horder n).mp ?_, fun b p before after hb hins hexit hstart q hq => ?_⟩
  · have hn := List.all_eq_true.mp hmem n (List.mem_finRange n)
    rw [decide_eq_true_eq] at hn
    exact hn
  · have hle := hlength b hb
    rw [hins, List.length_append, List.length_cons] at hle
    have hget := hfirst b p hexit hstart before.length (by omega) (by rw [hins]; simp)
    rw [List.length_eq_zero_iff.mp hget] at hq
    cases hq

/-- What the other nodes compute, for the example: themselves. -/
def applyIndex (n : Fin 19) (_ : List (Value (BitVec 32 ⊕ Bool) (Fin 19))) : Value (BitVec 32 ⊕ Bool) (Fin 19) :=
  .other n

/-- The values after the start block, and from block 12 on. -/
def guardedEnv : Env (BitVec 32 ⊕ Bool) (Fin 19) 19 := fun n =>
  if n = 2 ∨ n = 6 then .other 2
  else if n = 3 then .tarval (.inl 6)
  else if n = 4 then .tarval (.inl 3)
  else if n = 5 ∨ n = 7 ∨ n = 15 then .tarval (.inl 2)
  else if n = 8 then .tarval (.inr true)
  else .other n

theorem guardedDivision_run :
    FirmGraph.Run int32 applyIndex guardedDivision [(14, guardedEnv), (12, guardedEnv), (0, guardedEnv)] := by
  have hstart : FirmGraph.Run int32 applyIndex guardedDivision [(0, guardedEnv)] :=
    FirmGraph.Run.start (g := guardedDivision) (by decide)
  have hthen : FirmGraph.Leaves int32 guardedDivision guardedEnv 0 10 := ⟨by decide, by decide, by decide⟩
  have hjoin : FirmGraph.Leaves int32 guardedDivision guardedEnv 12 13 := ⟨by decide, by decide, by decide⟩
  exact (hstart.step (i := 0) hthen (by decide) (by decide) ⟨by decide, by decide, by decide⟩).step (i := 1) hjoin
    (by decide) (by decide) ⟨by decide, by decide, by decide⟩

theorem constProp_sound_guardedDivision :
    ∃ s, guardedDivision.constProp int32 guardedDivision.outEdges _ guardedDivision_ranked 40 200 = some s ∧
      s.link 15 = .const (.inl 2) ∧ s.controlFlowVisited 11 = some false ∧
        guardedEnv 15 = .tarval (.inl 2) ∧
          ∀ x, FirmGraph.Leaves int32 guardedDivision guardedEnv 14 x → s.controlFlowVisited x = some true := by
  have h : (guardedDivision.constProp int32 guardedDivision.outEdges _ guardedDivision_ranked 40 200).any
      (fun s => s.link 15 = .const (.inl 2) && s.controlFlowVisited 11 = some false) = true := by
    decide +kernel
  obtain ⟨s, hs, hlink⟩ := (Option.any_eq_true _ _).mp h
  rw [Bool.and_eq_true, decide_eq_true_eq, decide_eq_true_eq] at hlink
  obtain ⟨hconst, hmarks⟩ := FirmGraph.constProp_sound guardedDivision_wellFormed guardedDivision_walkable
    (FirmGraph.mem_outEdges _) hs guardedDivision_run
  exact ⟨s, hs, hlink.1, hlink.2, hconst 15 _ ⟨by decide, by decide⟩ hlink.1, hmarks⟩

theorem constPropPass_preserves_guardedDivision :
    ∃ g', constPropPass int32 FirmGraph.outEdges guardedDivision _ guardedDivision_ranked 40 200 = some g' ∧
      g'.opcode 15 = .Const ∧ g'.tarval 15 = .inl 2 ∧ FirmGraph.Preserves int32 applyIndex guardedDivision g' := by
  have h : (constPropPass int32 FirmGraph.outEdges guardedDivision _ guardedDivision_ranked 40 200).any
      (fun g' => g'.opcode 15 = .Const && g'.tarval 15 = .inl 2) = true := by
    decide +kernel
  obtain ⟨g', hg', hphi⟩ := (Option.any_eq_true _ _).mp h
  rw [Bool.and_eq_true, decide_eq_true_eq, decide_eq_true_eq] at hphi
  exact ⟨g', hg', hphi.1, hphi.2, constPropPass_preserves guardedDivision_wellFormed guardedDivision_walkable
    FirmGraph.mem_outEdges hg'⟩

end Mjc.Irg

import Mathlib.Algebra.BigOperators.Group.Finset.Basic
import Mathlib.Algebra.Order.BigOperators.Group.Finset
import Mathlib.Data.List.Range
import Mathlib.Logic.Function.Basic

/-!
# Control flow graphs

The blocks of an `ir_graph` with their control-flow predecessors.

* `Cfg` : blocks and control-flow operations are numbers; every predecessor is in range;
* `Cfg.numSuccs`, `Cfg.Critical` : the edges that leave a block, and the critical ones;
* `Cfg.Path` : the blocks that control enters, each with the index of the edge it comes by, which selects the operands of
  the block's `Phi` nodes;
* `Cfg.splitEdge` : a new block on an edge; `numSuccs_splitEdge`.
-/

namespace Mjc.Irg

set_option autoImplicit false

open Finset

/-- A control-flow predecessor: a `Bad`, or an operation in a block. -/
inductive CfgPred where
  | bad
  | op (node block : Nat)
  deriving DecidableEq, Repr

/-- `get_Block_cfgpred_block` of a predecessor: null for a `Bad`. -/
def CfgPred.block? : CfgPred → Option Nat
  | .bad => none
  | .op _ block => some block

/-- The control flow of an `ir_graph`. A kept-alive node is a block or, for us, nothing. -/
structure Cfg where
  numBlocks : Nat
  numOps : Nat
  cfgpreds : Nat → List CfgPred
  endBlock : Nat
  keepalives : List (Option Nat)
  pred_lt : ∀ b < numBlocks, ∀ node block, .op node block ∈ cfgpreds b → node < numOps ∧ block < numBlocks
  end_lt : endBlock < numBlocks
  keepalive_lt : ∀ b, some b ∈ keepalives → b < numBlocks

namespace Cfg

/-- The edges from one block to another. -/
def edgesFrom (preds : List CfgPred) (block : Nat) : Nat := preds.countP fun p => p.block? = some block

/-- The number of edges that leave a block. -/
def numSuccs (g : Cfg) (block : Nat) : Nat := ∑ b ∈ range g.numBlocks, edgesFrom (g.cfgpreds b) block

/-- The `i`-th predecessor of `b` is an operation of the block `source`. -/
def Edge (g : Cfg) (source b i : Nat) : Prop :=
  b < g.numBlocks ∧ ∃ node, (g.cfgpreds b)[i]? = some (.op node source)

/-- The edge leads from a block with more than one successor to a block with more than one predecessor. -/
def Critical (g : Cfg) (source b : Nat) : Prop := 1 < g.numSuccs source ∧ 1 < (g.cfgpreds b).length

/-- A way through the graph: the blocks that are entered, with the indices of the edges. -/
inductive Path (g : Cfg) : Nat → List (Nat × Nat) → Nat → Prop where
  | nil (b : Nat) : Path g b [] b
  | cons {source b i target : Nat} {rest : List (Nat × Nat)} (h : g.Edge source b i) (hrest : Path g b rest target) :
      Path g source ((b, i) :: rest) target

theorem edgesFrom_singleton (p : CfgPred) (block : Nat) :
    edgesFrom [p] block = if p.block? = some block then 1 else 0 := by
  unfold edgesFrom
  rw [List.countP_singleton]
  simp only [decide_eq_true_eq]

theorem edgesFrom_cons (p : CfgPred) (preds : List CfgPred) (block : Nat) :
    edgesFrom (p :: preds) block = edgesFrom [p] block + edgesFrom preds block := by
  rw [edgesFrom_singleton, Nat.add_comm]
  unfold edgesFrom
  rw [List.countP_cons]
  simp only [decide_eq_true_eq]

theorem edgesFrom_set {preds : List CfgPred} {i : Nat} {p : CfgPred} (hp : preds[i]? = some p) (q : CfgPred)
    (block : Nat) : edgesFrom (preds.set i q) block + edgesFrom [p] block = edgesFrom preds block + edgesFrom [q] block := by
  induction preds generalizing i with
  | nil => cases hp
  | cons r preds ih =>
    cases i with
    | zero =>
      obtain rfl := Option.some.inj hp
      rw [List.set_cons_zero, edgesFrom_cons q preds, edgesFrom_cons r preds]
      omega
    | succ i =>
      have := ih hp
      rw [List.set_cons_succ, edgesFrom_cons r (preds.set i q), edgesFrom_cons r preds]
      omega

/-- No edge leaves a block that is not there. -/
theorem numSuccs_eq_zero (g : Cfg) {block : Nat} (h : g.numBlocks ≤ block) : g.numSuccs block = 0 := by
  refine sum_eq_zero fun b hb => ?_
  unfold edgesFrom
  rw [List.countP_eq_zero]
  intro p hp hblock
  cases p with
  | bad => cases of_decide_eq_true hblock
  | op node source =>
    have heq : source = block := Option.some.inj (of_decide_eq_true hblock)
    have := (g.pred_lt b (mem_range.mp hb) node source hp).2
    omega

variable (g : Cfg)

/-- Put a new block with a new `Jmp` on the edge. -/
def splitEdge (b i : Nat) : Cfg :=
  if h : b < g.numBlocks ∧ i < (g.cfgpreds b).length then
    { g with
      numBlocks := g.numBlocks + 1
      numOps := g.numOps + 1
      cfgpreds := Function.update (Function.update g.cfgpreds g.numBlocks [(g.cfgpreds b).get ⟨i, h.2⟩]) b
        ((g.cfgpreds b).set i (.op g.numOps g.numBlocks))
      pred_lt := by
        intro c hc node block hmem
        by_cases hcb : c = b
        · subst hcb
          rw [Function.update_self] at hmem
          rcases List.mem_or_eq_of_mem_set hmem with hmem | heq
          · have := g.pred_lt c h.1 node block hmem
            omega
          · cases heq
            omega
        · rw [Function.update_of_ne hcb] at hmem
          by_cases hcn : c = g.numBlocks
          · subst hcn
            rw [Function.update_self, List.mem_singleton] at hmem
            have := g.pred_lt b h.1 node block (hmem ▸ List.get_mem ..)
            omega
          · rw [Function.update_of_ne hcn] at hmem
            have := g.pred_lt c (by omega) node block hmem
            omega
      end_lt := Nat.lt_succ_of_lt g.end_lt
      keepalive_lt := fun c hc => Nat.lt_succ_of_lt (g.keepalive_lt c hc) }
  else g

section
variable {g} {b i : Nat} {p : CfgPred} (hb : b < g.numBlocks) (hp : (g.cfgpreds b)[i]? = some p)
include hb hp

theorem splitEdge_fields : (g.splitEdge b i).numBlocks = g.numBlocks + 1 ∧ (g.splitEdge b i).numOps = g.numOps + 1 ∧
    (g.splitEdge b i).endBlock = g.endBlock ∧ (g.splitEdge b i).keepalives = g.keepalives ∧
    (g.splitEdge b i).cfgpreds =
      Function.update (Function.update g.cfgpreds g.numBlocks [p]) b ((g.cfgpreds b).set i (.op g.numOps g.numBlocks)) := by
  obtain ⟨hi, rfl⟩ := List.getElem?_eq_some_iff.1 hp
  unfold splitEdge
  rw [dif_pos ⟨hb, hi⟩]
  exact ⟨rfl, rfl, rfl, rfl, rfl⟩

theorem cfgpreds_splitEdge_self : (g.splitEdge b i).cfgpreds b = (g.cfgpreds b).set i (.op g.numOps g.numBlocks) := by
  rw [(splitEdge_fields hb hp).2.2.2.2, Function.update_self]

theorem cfgpreds_splitEdge_new : (g.splitEdge b i).cfgpreds g.numBlocks = [p] := by
  rw [(splitEdge_fields hb hp).2.2.2.2, Function.update_of_ne (by omega), Function.update_self]

theorem cfgpreds_splitEdge_of_ne {c : Nat} (hc : c ≠ b) (hnew : c ≠ g.numBlocks) :
    (g.splitEdge b i).cfgpreds c = g.cfgpreds c := by
  rw [(splitEdge_fields hb hp).2.2.2.2, Function.update_of_ne hc, Function.update_of_ne hnew]

/-- The counts over all blocks, when the list of only one block changed. -/
theorem sum_edgesFrom_splitEdge (block : Nat) :
    ∑ c ∈ range g.numBlocks, edgesFrom ((g.splitEdge b i).cfgpreds c) block + edgesFrom [p] block =
      g.numSuccs block + edgesFrom [.op g.numOps g.numBlocks] block := by
  have hmem : b ∈ range g.numBlocks := mem_range.mpr hb
  have hrest : ∑ c ∈ (range g.numBlocks).erase b, edgesFrom ((g.splitEdge b i).cfgpreds c) block =
      ∑ c ∈ (range g.numBlocks).erase b, edgesFrom (g.cfgpreds c) block := by
    refine sum_congr rfl fun c hc => ?_
    have hlt := mem_range.mp (mem_of_mem_erase hc)
    rw [cfgpreds_splitEdge_of_ne hb hp (ne_of_mem_erase hc) (by omega)]
  have hset := edgesFrom_set hp (.op g.numOps g.numBlocks) block
  rw [← cfgpreds_splitEdge_self hb hp] at hset
  unfold numSuccs
  rw [← add_sum_erase _ _ hmem, hrest, ← add_sum_erase _ (fun c => edgesFrom (g.cfgpreds c) block) hmem]
  omega

theorem numSuccs_splitEdge_eq_add (block : Nat) :
    (g.splitEdge b i).numSuccs block = g.numSuccs block + edgesFrom [.op g.numOps g.numBlocks] block := by
  rw [← sum_edgesFrom_splitEdge hb hp, numSuccs, (splitEdge_fields hb hp).1, sum_range_succ,
    cfgpreds_splitEdge_new hb hp]

/-- The block at the start of the edge loses it and gets the edge to the new block. -/
theorem numSuccs_splitEdge {block : Nat} (hblock : block ≠ g.numBlocks) :
    (g.splitEdge b i).numSuccs block = g.numSuccs block := by
  rw [numSuccs_splitEdge_eq_add hb hp, edgesFrom_singleton, if_neg, Nat.add_zero]
  exact fun h => hblock (Option.some.inj h).symm

theorem numSuccs_splitEdge_new : (g.splitEdge b i).numSuccs g.numBlocks = 1 := by
  rw [numSuccs_splitEdge_eq_add hb hp, edgesFrom_singleton, if_pos (by rfl), g.numSuccs_eq_zero (Nat.le_refl _)]

end

/-! ## Split edges -/

/-- `g'` is `g` with a block of its own on each edge of `Split`. -/
structure Splits (g g' : Cfg) (Split : Nat → Nat → Prop) : Prop where
  blocks_le : g.numBlocks ≤ g'.numBlocks
  endBlock : g'.endBlock = g.endBlock
  keepalives : g'.keepalives = g.keepalives
  length : ∀ b < g.numBlocks, (g'.cfgpreds b).length = (g.cfgpreds b).length
  kept : ∀ b < g.numBlocks, ∀ i, ¬ Split b i → (g'.cfgpreds b)[i]? = (g.cfgpreds b)[i]?
  split : ∀ b < g.numBlocks, ∀ i p, Split b i → (g.cfgpreds b)[i]? = some p →
    ∃ node nb, (g'.cfgpreds b)[i]? = some (.op node nb) ∧ g.numBlocks ≤ nb ∧ nb < g'.numBlocks ∧ g'.cfgpreds nb = [p]
  added : ∀ nb, g.numBlocks ≤ nb → nb < g'.numBlocks →
    g'.numSuccs nb = 1 ∧ ∃ b < g.numBlocks, ∃ i p, Split b i ∧ (g.cfgpreds b)[i]? = some p ∧ g'.cfgpreds nb = [p]
  numSuccs : ∀ b < g.numBlocks, g'.numSuccs b = g.numSuccs b

theorem Splits.refl : Splits g g fun _ _ => False where
  blocks_le := Nat.le_refl _
  endBlock := rfl
  keepalives := rfl
  length _ _ := rfl
  kept _ _ _ _ := rfl
  split _ _ _ _ h := h.elim
  added _ hle hlt := absurd hle (Nat.not_le_of_gt hlt)
  numSuccs _ _ := rfl

variable {g} {g' : Cfg} {Split : Nat → Nat → Prop}

theorem Splits.congr (h : Splits g g' Split) {Split' : Nat → Nat → Prop} (hiff : ∀ b i, Split' b i ↔ Split b i) :
    Splits g g' Split' := by
  have heq : Split' = Split := by
    funext b i
    exact propext (hiff b i)
  rwa [heq]

/-- One more edge is split. -/
theorem Splits.splitEdge (h : Splits g g' Split) {b i : Nat} {p : CfgPred} (hb : b < g.numBlocks)
    (hp : (g.cfgpreds b)[i]? = some p) (hnew : ¬ Split b i) :
    Splits g (g'.splitEdge b i) fun c j => Split c j ∨ (c = b ∧ j = i) := by
  have hb' : b < g'.numBlocks := Nat.lt_of_lt_of_le hb h.blocks_le
  have hp' : (g'.cfgpreds b)[i]? = some p := by rw [h.kept b hb i hnew, hp]
  obtain ⟨hblocks, -, hend, hkeep, -⟩ := splitEdge_fields hb' hp'
  have hself := cfgpreds_splitEdge_self hb' hp'
  have hadded := cfgpreds_splitEdge_new hb' hp'
  have hother : ∀ c ≠ b, c < g'.numBlocks → (g'.splitEdge b i).cfgpreds c = g'.cfgpreds c := fun c hc hlt =>
    cfgpreds_splitEdge_of_ne hb' hp' hc (by omega)
  have hle := h.blocks_le
  -- the predecessors of a block that was there, at an index that is not split now
  have hget : ∀ c < g'.numBlocks, ∀ j, ¬ (c = b ∧ j = i) →
      ((g'.splitEdge b i).cfgpreds c)[j]? = (g'.cfgpreds c)[j]? := by
    intro c hc j hne
    by_cases hcb : c = b
    · subst hcb
      rw [hself, List.getElem?_set_ne fun hij => hne ⟨rfl, hij.symm⟩]
    · rw [hother c hcb hc]
  constructor
  · omega
  · rw [hend, h.endBlock]
  · rw [hkeep, h.keepalives]
  · intro c hc
    rw [← h.length c hc]
    by_cases hcb : c = b
    · subst hcb
      rw [hself, List.length_set]
    · rw [hother c hcb (by omega)]
  · intro c hc j hsplit
    rw [hget c (by omega) j fun h => hsplit (Or.inr h)]
    exact h.kept c hc j fun h => hsplit (Or.inl h)
  · intro c hc j q hsplit hq
    by_cases hcj : c = b ∧ j = i
    · obtain ⟨rfl, rfl⟩ := hcj
      obtain rfl : p = q := Option.some.inj (hp.symm.trans hq)
      refine ⟨g'.numOps, g'.numBlocks, ?_, hle, by omega, hadded⟩
      rw [hself, List.getElem?_set_self (List.getElem?_eq_some_iff.mp hp').1]
    · obtain ⟨node, nb, hnode, hnb, hlt, hpreds⟩ := h.split c hc j q (hsplit.resolve_right hcj) hq
      refine ⟨node, nb, ?_, hnb, by omega, ?_⟩
      · rw [hget c (by omega) j hcj, hnode]
      · rw [hother nb (by omega) hlt, hpreds]
  · intro nb hnb hlt
    by_cases hlast : nb = g'.numBlocks
    · subst hlast
      exact ⟨numSuccs_splitEdge_new hb' hp', b, hb, i, p, Or.inr ⟨rfl, rfl⟩, hp, hadded⟩
    · obtain ⟨hsuccs, c, hc, j, q, hsplit, hq, hpreds⟩ := h.added nb hnb (by omega)
      refine ⟨?_, c, hc, j, q, Or.inl hsplit, hq, ?_⟩
      · rw [numSuccs_splitEdge hb' hp' hlast, hsuccs]
      · rw [hother nb (by omega) (by omega), hpreds]
  · intro c hc
    rw [numSuccs_splitEdge hb' hp' (by omega), h.numSuccs c hc]

/-- The predecessor, or the one of its block when that block was added. -/
def contractPred (g : Cfg) (numOriginal : Nat) : CfgPred → CfgPred
  | .bad => .bad
  | .op node block => if numOriginal ≤ block then (g.cfgpreds block).headD .bad else .op node block

theorem Splits.contract (h : Splits g g' Split) {b : Nat} (hb : b < g.numBlocks) :
    (g'.cfgpreds b).map (g'.contractPred g.numBlocks) = g.cfgpreds b := by
  apply List.ext_getElem?
  intro i
  rw [List.getElem?_map]
  by_cases hi : i < (g.cfgpreds b).length
  · have hp := List.getElem?_eq_getElem hi
    by_cases hsplit : Split b i
    · obtain ⟨node, nb, hnode, hnb, -, hpreds⟩ := h.split b hb i _ hsplit hp
      rw [hnode, hp, Option.map_some, contractPred, if_pos hnb, hpreds, List.headD_cons]
    · rw [h.kept b hb i hsplit, hp, Option.map_some]
      congr 1
      cases heq : (g.cfgpreds b)[i] with
      | bad => rfl
      | op node block =>
        have := (g.pred_lt b hb node block (heq ▸ List.getElem_mem hi)).2
        rw [contractPred, if_neg (by omega)]
  · rw [List.getElem?_eq_none (by rw [h.length b hb]; omega), List.getElem?_eq_none (by omega), Option.map_none]

/-! ### Paths -/

theorem Splits.edge_added (h : Splits g g' Split) {source b i : Nat} {node : Nat} {s : Nat}
    (hsource : g.numBlocks ≤ source) (hpreds : g'.cfgpreds source = [.op node s]) (hedge : g'.Edge source b i) :
    g.Edge s b i := by
  obtain ⟨hb, jmp, hjmp⟩ := hedge
  have hb : b < g.numBlocks := by
    by_contra hle
    obtain ⟨-, c, hc, j, p, -, hp, hnb⟩ := h.added b (by omega) hb
    rw [hnb] at hjmp
    obtain rfl : p = .op jmp source := by
      cases i with
      | zero => exact Option.some.inj hjmp
      | succ i => cases hjmp
    have := (g.pred_lt c hc jmp source (List.mem_of_getElem? hp)).2
    omega
  by_cases hsplit : Split b i
  · obtain ⟨hi, -⟩ := List.getElem?_eq_some_iff.mp hjmp
    rw [h.length b hb] at hi
    have hp := List.getElem?_eq_getElem hi
    obtain ⟨node', nb, hnode, -, -, hnb⟩ := h.split b hb i _ hsplit hp
    obtain ⟨rfl, rfl⟩ : jmp = node' ∧ source = nb := by
      rw [hnode] at hjmp
      cases hjmp
      exact ⟨rfl, rfl⟩
    rw [hpreds] at hnb
    refine ⟨hb, node, ?_⟩
    rw [hp, List.singleton_inj.mp hnb]
  · rw [h.kept b hb i hsplit] at hjmp
    have := (g.pred_lt b hb jmp source (List.mem_of_getElem? hjmp)).2
    omega

/-- From an original block: an edge that was kept, or the first half of a split one. -/
theorem Splits.edge_original (h : Splits g g' Split) {source b i : Nat} (hsource : source < g.numBlocks)
    (hedge : g'.Edge source b i) : b < g.numBlocks ∧ g.Edge source b i ∨
      g.numBlocks ≤ b ∧ ∃ node, g'.cfgpreds b = [.op node source] := by
  obtain ⟨hb', node, hnode⟩ := hedge
  by_cases hb : b < g.numBlocks
  · refine Or.inl ⟨hb, hb, node, ?_⟩
    by_cases hsplit : Split b i
    · obtain ⟨hi, -⟩ := List.getElem?_eq_some_iff.mp hnode
      rw [h.length b hb] at hi
      obtain ⟨jmp, nb, hjmp, hnb, -, -⟩ := h.split b hb i _ hsplit (List.getElem?_eq_getElem hi)
      rw [hjmp] at hnode
      cases hnode
      omega
    · rw [← h.kept b hb i hsplit, hnode]
  · obtain ⟨-, c, hc, j, p, -, hp, hpreds⟩ := h.added b (by omega) hb'
    refine Or.inr ⟨by omega, node, ?_⟩
    rw [hpreds] at hnode ⊢
    cases i with
    | zero => rw [Option.some.inj hnode]
    | succ i => cases hnode

theorem Splits.path_contract (h : Splits g g' Split) {source target : Nat} {l : List (Nat × Nat)}
    (hpath : g'.Path source l target) (htarget : target < g.numBlocks) :
    (source < g.numBlocks → g.Path source (l.filter (·.1 < g.numBlocks)) target) ∧
      ∀ node s, g.numBlocks ≤ source → g'.cfgpreds source = [.op node s] →
        g.Path s (l.filter (·.1 < g.numBlocks)) target := by
  induction hpath with
  | nil b => exact ⟨fun _ => .nil b, fun _ _ hle => absurd htarget (Nat.not_lt_of_le hle)⟩
  | @cons source b i target rest hedge hrest ih =>
    obtain ⟨ihOriginal, ihAdded⟩ := ih htarget
    constructor
    · intro hsource
      rcases h.edge_original hsource hedge with ⟨hb, hedge⟩ | ⟨hb, node, hpreds⟩
      · rw [List.filter_cons_of_pos (by simpa using hb)]
        exact .cons hedge (ihOriginal hb)
      · rw [List.filter_cons_of_neg (by simpa using hb)]
        exact ihAdded node source hb hpreds
    · intro node s hsource hpreds
      have hedge := h.edge_added hsource hpreds hedge
      rw [List.filter_cons_of_pos (by simpa using hedge.1)]
      exact .cons hedge (ihOriginal hedge.1)

theorem Splits.path_expand (h : Splits g g' Split) {source target : Nat} {l : List (Nat × Nat)}
    (hpath : g.Path source l target) :
    ∃ l', g'.Path source l' target ∧ l'.filter (·.1 < g.numBlocks) = l := by
  induction hpath with
  | nil b => exact ⟨[], .nil b, rfl⟩
  | @cons source b i target rest hedge hrest ih =>
    obtain ⟨rest', hrest', hfilter⟩ := ih
    obtain ⟨hb, node, hnode⟩ := hedge
    have hb' : b < g'.numBlocks := Nat.lt_of_lt_of_le hb h.blocks_le
    by_cases hsplit : Split b i
    · obtain ⟨jmp, nb, hjmp, hnb, hlt, hpreds⟩ := h.split b hb i _ hsplit hnode
      refine ⟨(nb, 0) :: (b, i) :: rest', .cons ⟨hlt, node, ?_⟩ (.cons ⟨hb', jmp, hjmp⟩ hrest'), ?_⟩
      · rw [hpreds]
        rfl
      · rw [List.filter_cons_of_neg (by simpa using hnb), List.filter_cons_of_pos (by simpa using hb), hfilter]
    · refine ⟨(b, i) :: rest', .cons ⟨hb', node, ?_⟩ hrest', ?_⟩
      · rw [h.kept b hb i hsplit, hnode]
      · rw [List.filter_cons_of_pos (by simpa using hb), hfilter]

/-- Control takes the same ways through the original blocks, by the same edges. -/
theorem Splits.path_iff (h : Splits g g' Split) {source target : Nat} (hsource : source < g.numBlocks)
    (htarget : target < g.numBlocks) (l : List (Nat × Nat)) :
    g.Path source l target ↔ ∃ l', g'.Path source l' target ∧ l'.filter (·.1 < g.numBlocks) = l := by
  constructor
  · exact h.path_expand
  · rintro ⟨l', hpath, rfl⟩
    exact (h.path_contract hpath htarget).1 hsource

end Cfg

end Mjc.Irg

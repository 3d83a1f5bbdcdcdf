import Mathlib.Algebra.BigOperators.Group.List.Basic
import Mjc.Irg.Cfg
import Mjc.Worklist

/-!
# Critical edges

`remove_critical_edges` of `firm_visitor.cpp`: the successors of the blocks are counted from the end block backwards,
then the edges are split in the order of a hash map.

* `countEdges`, `countEdges_exact` : the search ends, with the counts of the graph;
* `splitEdges`, `splitEdges_splits` : the rewriting loops, for any list of edges;
* `removeCriticalEdges_correct` : exactly the critical edges are split.
-/

namespace Mjc.Irg

set_option autoImplicit false

open Finset

/-- `numBlockPreds` and `numBlockSuccs`. -/
structure BlockCounts where
  numBlockPreds : List (Nat × Nat)
  numBlockSuccs : Nat → Nat

namespace BlockCounts

def empty : BlockCounts := ⟨[], fun _ => 0⟩

def blocks (counts : BlockCounts) : List Nat := counts.numBlockPreds.map Prod.fst

/-- `numBlockSuccs[predBlock]`; nothing was counted for null. -/
def succsOf (counts : BlockCounts) : Option Nat → Nat
  | none => 0
  | some block => counts.numBlockSuccs block

end BlockCounts

namespace Cfg

variable (g : Cfg)

/-- The predecessors with a block; the others might be `Bad`. -/
def predBlocks (block : Nat) : List Nat := (g.cfgpreds block).filterMap CfgPred.block?

/-- The end block and the blocks that are kept alive. -/
def newBlocks : List Nat := g.endBlock :: g.keepalives.filterMap id

def addSucc (numBlockSuccs : Nat → Nat) (predBlock : Nat) : Nat → Nat :=
  Function.update numBlockSuccs predBlock (numBlockSuccs predBlock + 1)

/-- The body of the search. -/
def countBlock (block : Nat) (counts : BlockCounts) : BlockCounts × List Nat :=
  if block ∈ counts.blocks then (counts, [])
  else
    ({ numBlockPreds := (block, (g.cfgpreds block).length) :: counts.numBlockPreds
       numBlockSuccs := (g.predBlocks block).foldl addSucc counts.numBlockSuccs }, g.predBlocks block)

/-- Enough visits for every block and every edge. -/
def countVisits : Nat := Worklist.visitsLeft g.predBlocks (List.range g.numBlocks) g.newBlocks []

def countEdges : Option BlockCounts := Worklist.run g.countBlock g.countVisits g.newBlocks .empty

/-- The body of the inner loop of the rewriting. -/
def splitIfCritical (counts : BlockCounts) (g : Cfg) (edge : Nat × Nat) : Cfg :=
  match (g.cfgpreds edge.1)[edge.2]? with
  | none => g
  | some pred => if 1 < counts.succsOf pred.block? then g.splitEdge edge.1 edge.2 else g

def splitEdges (counts : BlockCounts) (g : Cfg) (edges : List (Nat × Nat)) : Cfg :=
  edges.foldl (splitIfCritical counts) g

/-- The inner loop: all predecessors of a block with more than one. -/
def splitBlock (counts : BlockCounts) (g : Cfg) (kv : Nat × Nat) : Cfg :=
  if 1 < kv.2 then splitEdges counts g ((List.range kv.2).map fun i => (kv.1, i)) else g

/-- `remove_critical_edges`; the order in which a hash map gives its entries is not known. -/
def removeCriticalEdges (hashOrder : List (Nat × Nat) → List (Nat × Nat)) : Option Cfg := do
  let counts ← g.countEdges
  return (hashOrder counts.numBlockPreds).foldl (splitBlock counts) g

/-! ## The counts -/

variable {g}

theorem foldl_addSucc (l : List Nat) (numBlockSuccs : Nat → Nat) (block : Nat) :
    l.foldl addSucc numBlockSuccs block = numBlockSuccs block + l.count block := by
  induction l generalizing numBlockSuccs with
  | nil => rfl
  | cons predBlock l ih =>
    rw [List.foldl_cons, ih, List.count_cons]
    unfold addSucc
    by_cases h : predBlock = block
    · subst h
      rw [Function.update_self, if_pos (beq_self_eq_true predBlock)]
      omega
    · rw [Function.update_of_ne (Ne.symm h), if_neg (by simpa using h), Nat.add_zero]

theorem count_predBlocks (preds : List CfgPred) (block : Nat) :
    (preds.filterMap CfgPred.block?).count block = edgesFrom preds block := by
  induction preds with
  | nil => rfl
  | cons p preds ih =>
    rw [edgesFrom_cons, edgesFrom_singleton, ← ih]
    cases h : p.block? with
    | none =>
      rw [List.filterMap_cons_none h, if_neg (by simp)]
      omega
    | some predBlock =>
      rw [List.filterMap_cons_some h, List.count_cons]
      simp only [beq_iff_eq, Option.some.injEq]
      omega

/-- What holds while the blocks are searched. -/
structure Counted (g : Cfg) (counts : BlockCounts) : Prop where
  nodup : counts.blocks.Nodup
  preds : ∀ kv ∈ counts.numBlockPreds, kv.2 = (g.cfgpreds kv.1).length
  succs : ∀ block, counts.numBlockSuccs block = (counts.blocks.map fun b => edgesFrom (g.cfgpreds b) block).sum

theorem Counted.empty : Counted g .empty where
  nodup := List.nodup_nil
  preds _ h := (List.not_mem_nil h).elim
  succs _ := rfl

theorem Counted.step {counts : BlockCounts} (h : Counted g counts) (block : Nat) :
    Counted g (g.countBlock block counts).1 := by
  unfold countBlock
  by_cases hold : block ∈ counts.blocks
  · rwa [if_pos hold]
  rw [if_neg hold]
  constructor
  · exact List.nodup_cons.mpr ⟨hold, h.nodup⟩
  · intro kv hkv
    rcases List.mem_cons.mp hkv with rfl | hkv
    · rfl
    · exact h.preds kv hkv
  · intro predBlock
    show (g.predBlocks block).foldl addSucc counts.numBlockSuccs predBlock = ((block :: counts.blocks).map _).sum
    rw [foldl_addSucc, predBlocks, count_predBlocks, h.succs, List.map_cons, List.sum_cons, Nat.add_comm]

/-- The keys of `numBlockPreds` are a closure. -/
theorem blocks_countBlock (block : Nat) (counts : BlockCounts) :
    Worklist.closeOver g.predBlocks block counts.blocks =
      ((g.countBlock block counts).1.blocks, (g.countBlock block counts).2) := by
  unfold Worklist.closeOver countBlock
  by_cases h : block ∈ counts.blocks
  · rw [if_pos h, if_pos h]
  · rw [if_neg h, if_neg h]
    rfl

theorem mem_predBlocks {source block : Nat} :
    source ∈ g.predBlocks block ↔ ∃ node, .op node source ∈ g.cfgpreds block := by
  unfold predBlocks
  rw [List.mem_filterMap]
  constructor
  · rintro ⟨p, hp, hblock⟩
    cases p with
    | bad => cases hblock
    | op node source' =>
      obtain rfl : source' = source := Option.some.inj hblock
      exact ⟨node, hp⟩
  · rintro ⟨node, hp⟩
    exact ⟨_, hp, rfl⟩

theorem predBlocks_lt {block source : Nat} (hblock : block < g.numBlocks) (h : source ∈ g.predBlocks block) :
    source < g.numBlocks := by
  obtain ⟨node, hp⟩ := mem_predBlocks.mp h
  exact (g.pred_lt block hblock node source hp).2

theorem newBlocks_lt {block : Nat} (h : block ∈ g.newBlocks) : block < g.numBlocks := by
  unfold newBlocks at h
  rcases List.mem_cons.mp h with rfl | h
  · exact g.end_lt
  · obtain ⟨k, hk, rfl⟩ := List.mem_filterMap.mp h
    exact g.keepalive_lt block hk

/-- The block reaches the end block or a block that is kept alive. -/
def ReachesEnd (g : Cfg) (block : Nat) : Prop := ∃ target ∈ g.newBlocks, ∃ l, g.Path block l target

theorem Path.reaches {source target : Nat} {l : List (Nat × Nat)} (h : g.Path source l target) :
    Relation.ReflTransGen (fun a b => b ∈ g.predBlocks a) target source := by
  induction h with
  | nil b => exact .refl
  | cons hedge _ ih =>
    obtain ⟨-, node, hnode⟩ := hedge
    exact ih.tail (mem_predBlocks.mpr ⟨node, List.mem_of_getElem? hnode⟩)

/-- The search ends; where every block reaches the end, the counts are those of the graph. -/
theorem countEdges_exact (hend : ∀ b < g.numBlocks, g.ReachesEnd b) :
    ∃ counts, g.countEdges = some counts ∧ counts.blocks.Nodup ∧ (∀ b, b ∈ counts.blocks ↔ b < g.numBlocks) ∧
      (∀ kv ∈ counts.numBlockPreds, kv.2 = (g.cfgpreds kv.1).length) ∧
      ∀ block, counts.numBlockSuccs block = g.numSuccs block := by
  have hinside : ∀ b ∈ List.range g.numBlocks, ∀ c ∈ g.predBlocks b, c ∈ List.range g.numBlocks :=
    fun b hb c hc => List.mem_range.mpr (predBlocks_lt (List.mem_range.mp hb) hc)
  obtain ⟨marked, hmarked, hreaches⟩ := Worklist.closeOver_reachable
    (fun b hb => List.mem_range.mpr (newBlocks_lt (g := g) hb)) hinside (Nat.le_refl _)
  have hblocks : Worklist.run (Worklist.closeOver g.predBlocks) g.countVisits g.newBlocks [] =
      g.countEdges.map BlockCounts.blocks := Worklist.run_map blocks_countBlock _ _ .empty
  obtain ⟨counts, hrun, rfl⟩ := Option.map_eq_some_iff.mp (hblocks.symm.trans hmarked)
  have hcounted : Counted g counts := @Worklist.run_invariant _ _ _ (fun _ counts => Counted g counts)
    (fun block _ _ h => h.step block) _ _ _ _ Counted.empty hrun
  have hmem : ∀ b, b ∈ counts.blocks ↔ b < g.numBlocks := by
    intro b
    rw [hreaches]
    constructor
    · rintro ⟨root, hroot, hpath⟩
      induction hpath with
      | refl => exact newBlocks_lt hroot
      | tail _ hedge ih => exact predBlocks_lt ih hedge
    · intro hb
      obtain ⟨target, htarget, l, hpath⟩ := hend b hb
      exact ⟨target, htarget, hpath.reaches⟩
  refine ⟨counts, hrun, hcounted.nodup, hmem, hcounted.preds, fun block => ?_⟩
  have hblocks : counts.blocks.toFinset = range g.numBlocks := by
    ext b
    rw [List.mem_toFinset, hmem, mem_range]
  rw [hcounted.succs, numSuccs, ← hblocks, List.sum_toFinset _ hcounted.nodup]

/-! ## The rewriting -/

/-- The edge comes from a block with more than one counted successor. -/
def IsCritical (counts : BlockCounts) (g : Cfg) (edge : Nat × Nat) : Prop :=
  ∃ p, (g.cfgpreds edge.1)[edge.2]? = some p ∧ 1 < counts.succsOf p.block?

theorem splitIfCritical_splits {counts : BlockCounts} {g' : Cfg} {edges : List (Nat × Nat)} {edge : Nat × Nat}
    (h : Splits g g' fun b i => (b, i) ∈ edges ∧ IsCritical counts g (b, i)) (hblock : edge.1 < g.numBlocks)
    (hnew : edge ∉ edges) :
    Splits g (splitIfCritical counts g' edge)
      fun b i => (b, i) ∈ edges ++ [edge] ∧ IsCritical counts g (b, i) := by
  obtain ⟨b, i⟩ := edge
  have hkept : (g'.cfgpreds b)[i]? = (g.cfgpreds b)[i]? := h.kept b hblock i fun hsplit => hnew hsplit.1
  unfold splitIfCritical
  rw [hkept]
  cases hp : (g.cfgpreds b)[i]? with
  | none =>
    refine h.congr fun c j => and_congr_left fun ⟨q, hq, _⟩ => ?_
    rw [List.mem_append, List.mem_singleton, or_iff_left]
    rintro ⟨rfl, rfl⟩
    rw [hp] at hq
    cases hq
  | some p =>
    show Splits g (if 1 < counts.succsOf p.block? then g'.splitEdge b i else g') _
    by_cases hcritical : 1 < counts.succsOf p.block?
    · rw [if_pos hcritical]
      refine (h.splitEdge hblock hp fun hsplit => hnew hsplit.1).congr fun c j => ?_
      rw [List.mem_append, List.mem_singleton, Prod.mk.injEq]
      constructor
      · rintro ⟨hmem | heq, hsplit⟩
        · exact Or.inl ⟨hmem, hsplit⟩
        · exact Or.inr heq
      · rintro (⟨hmem, hsplit⟩ | ⟨rfl, rfl⟩)
        · exact ⟨Or.inl hmem, hsplit⟩
        · exact ⟨Or.inr ⟨rfl, rfl⟩, p, hp, hcritical⟩
    · rw [if_neg hcritical]
      refine h.congr fun c j => and_congr_left fun ⟨q, hq, hsucc⟩ => ?_
      rw [List.mem_append, List.mem_singleton, or_iff_left]
      rintro ⟨rfl, rfl⟩
      obtain rfl : p = q := Option.some.inj (hp.symm.trans hq)
      exact hcritical hsucc

/-- The rewriting sees every edge as it was. -/
theorem splitEdges_splits {counts : BlockCounts} {edges : List (Nat × Nat)} (hnodup : edges.Nodup)
    (hblocks : ∀ edge ∈ edges, edge.1 < g.numBlocks) :
    Splits g (splitEdges counts g edges) fun b i => (b, i) ∈ edges ∧ IsCritical counts g (b, i) := by
  induction edges using List.reverseRecOn with
  | nil => exact (Splits.refl g).congr fun b i => ⟨fun h => List.not_mem_nil h.1, False.elim⟩
  | append_singleton edges edge ih =>
    obtain ⟨hnodup, -, hdisjoint⟩ := List.nodup_append.mp hnodup
    have ih := ih hnodup fun e he => hblocks e (List.mem_append_left _ he)
    unfold splitEdges at ih ⊢
    rw [List.foldl_append]
    refine splitIfCritical_splits ih (hblocks edge (List.mem_append_right _ (List.mem_singleton.mpr rfl))) ?_
    exact fun hmem => hdisjoint edge hmem edge (List.mem_singleton.mpr rfl) rfl

/-- The edges that the loops pass over. -/
def edgesOf (order : List (Nat × Nat)) : List (Nat × Nat) :=
  order.flatMap fun kv => if 1 < kv.2 then (List.range kv.2).map fun i => (kv.1, i) else []

theorem foldl_splitBlock (counts : BlockCounts) (order : List (Nat × Nat)) (g : Cfg) :
    order.foldl (splitBlock counts) g = splitEdges counts g (edgesOf order) := by
  induction order generalizing g with
  | nil => rfl
  | cons kv order ih =>
    unfold splitEdges edgesOf
    rw [List.foldl_cons, ih, List.flatMap_cons, List.foldl_append, splitBlock]
    by_cases h : 1 < kv.2
    · rw [if_pos h, if_pos h]
      rfl
    · rw [if_neg h, if_neg h]
      rfl

theorem mem_edgesOf {order : List (Nat × Nat)} {b i : Nat} :
    (b, i) ∈ edgesOf order ↔ ∃ n, (b, n) ∈ order ∧ 1 < n ∧ i < n := by
  unfold edgesOf
  rw [List.mem_flatMap]
  constructor
  · rintro ⟨⟨c, n⟩, hkv, hmem⟩
    by_cases h : 1 < n
    · rw [if_pos h, List.mem_map] at hmem
      obtain ⟨j, hj, heq⟩ := hmem
      cases heq
      exact ⟨n, hkv, h, List.mem_range.mp hj⟩
    · rw [if_neg h] at hmem
      cases hmem
  · rintro ⟨n, hkv, h, hi⟩
    refine ⟨(b, n), hkv, ?_⟩
    rw [if_pos h]
    exact List.mem_map_of_mem (List.mem_range.mpr hi)

theorem nodup_edgesOf {order : List (Nat × Nat)} (h : (order.map Prod.fst).Nodup) : (edgesOf order).Nodup := by
  unfold edgesOf
  rw [List.nodup_flatMap]
  constructor
  · intro kv _
    split
    · exact List.nodup_range.map fun i j hij => congrArg Prod.snd hij
    · exact List.nodup_nil
  · refine (List.pairwise_map.mp h).imp fun {kv kv'} hne => ?_
    rw [Function.onFun, List.disjoint_left]
    intro edge hmem hmem'
    have hfst : ∀ {kv : Nat × Nat}, edge ∈ (if 1 < kv.2 then (List.range kv.2).map fun i => (kv.1, i) else []) →
        edge.1 = kv.1 := by
      intro kv hmem
      split at hmem
      · obtain ⟨i, -, rfl⟩ := List.mem_map.mp hmem
        rfl
      · cases hmem
    exact hne ((hfst hmem).symm.trans (hfst hmem'))

/-- The edge is critical. -/
def CriticalEdge (g : Cfg) (b i : Nat) : Prop := ∃ source, g.Edge source b i ∧ g.Critical source b

/-- Exactly the critical edges are split. -/
theorem removeCriticalEdges_splits (hend : ∀ b < g.numBlocks, g.ReachesEnd b)
    {hashOrder : List (Nat × Nat) → List (Nat × Nat)} (hperm : ∀ l, (hashOrder l).Perm l) :
    ∃ g', g.removeCriticalEdges hashOrder = some g' ∧ Splits g g' g.CriticalEdge := by
  obtain ⟨counts, hcounts, hnodup, hmem, hpreds, hsuccs⟩ := countEdges_exact hend
  have hedges : ∀ b i, (b, i) ∈ edgesOf (hashOrder counts.numBlockPreds) ↔
      b < g.numBlocks ∧ 1 < (g.cfgpreds b).length ∧ i < (g.cfgpreds b).length := by
    intro b i
    rw [mem_edgesOf]
    constructor
    · rintro ⟨n, hkv, hn⟩
      have hkv := (hperm _).mem_iff.mp hkv
      obtain rfl : n = (g.cfgpreds b).length := hpreds _ hkv
      exact ⟨(hmem b).mp (List.mem_map_of_mem hkv), hn⟩
    · rintro ⟨hb, hn⟩
      obtain ⟨⟨b, n⟩, hkv, rfl⟩ := List.mem_map.mp ((hmem b).mpr hb)
      obtain rfl : n = (g.cfgpreds b).length := hpreds _ hkv
      exact ⟨_, (hperm _).mem_iff.mpr hkv, hn⟩
  refine ⟨splitEdges counts g (edgesOf (hashOrder counts.numBlockPreds)), ?_, ?_⟩
  · rw [removeCriticalEdges, hcounts, ← foldl_splitBlock]
    rfl
  · have hkeys : ((hashOrder counts.numBlockPreds).map Prod.fst).Nodup := ((hperm _).map _).nodup_iff.mpr hnodup
    refine (splitEdges_splits (nodup_edgesOf hkeys) fun edge he => ((hedges edge.1 edge.2).mp he).1).congr fun b i => ?_
    rw [hedges]
    unfold CriticalEdge Edge Critical IsCritical
    constructor
    · rintro ⟨source, ⟨hb, node, hnode⟩, hsource, hlen⟩
      refine ⟨⟨hb, hlen, (List.getElem?_eq_some_iff.mp hnode).1⟩, _, hnode, ?_⟩
      rwa [CfgPred.block?, BlockCounts.succsOf, hsuccs]
    · rintro ⟨⟨hb, hlen, -⟩, p, hp, hsource⟩
      cases p with
      | bad => exact absurd hsource (Nat.not_lt_zero 1)
      | op node source =>
        rw [CfgPred.block?, BlockCounts.succsOf, hsuccs] at hsource
        exact ⟨source, ⟨hb, node, hp⟩, hsource, hlen⟩

theorem Splits.no_critical {g' : Cfg} (h : Splits g g' g.CriticalEdge) (b i : Nat) : ¬ g'.CriticalEdge b i := by
  rintro ⟨source, ⟨hb, node, hnode⟩, hsource, hpreds⟩
  by_cases hsourceOld : source < g.numBlocks
  · rcases h.edge_original hsourceOld ⟨hb, node, hnode⟩ with ⟨hold, hedge⟩ | ⟨hnew, jmp, hjmp⟩
    · rw [h.numSuccs source hsourceOld] at hsource
      rw [h.length b hold] at hpreds
      have hcritical : g.CriticalEdge b i := ⟨source, hedge, hsource, hpreds⟩
      obtain ⟨-, pred, hpred⟩ := hedge
      obtain ⟨jmp, nb, hjmp, hnb, -⟩ := h.split b hold i _ hcritical hpred
      rw [hjmp] at hnode
      cases hnode
      omega
    · rw [hjmp] at hpreds
      exact absurd hpreds (Nat.lt_irrefl 1)
  · have hlt := (g'.pred_lt b hb node source (List.mem_of_getElem? hnode)).2
    have := (h.added source (by omega) hlt).1
    omega

/-- No critical edge is left; the added blocks have one predecessor and one successor; the other edges are untouched;
without the added blocks it is the graph that it was; and control enters the same blocks by the same edges. -/
theorem removeCriticalEdges_correct (g : Cfg) (hend : ∀ b < g.numBlocks, g.ReachesEnd b)
    (hashOrder : List (Nat × Nat) → List (Nat × Nat)) (hperm : ∀ l, (hashOrder l).Perm l) :
    ∃ g', g.removeCriticalEdges hashOrder = some g' ∧ g.numBlocks ≤ g'.numBlocks ∧ (∀ b i, ¬ g'.CriticalEdge b i) ∧
      (∀ nb, g.numBlocks ≤ nb → nb < g'.numBlocks → (g'.cfgpreds nb).length = 1 ∧ g'.numSuccs nb = 1) ∧
      (∀ b < g.numBlocks, ∀ i, ¬ g.CriticalEdge b i → (g'.cfgpreds b)[i]? = (g.cfgpreds b)[i]?) ∧
      (∀ b < g.numBlocks, ∀ i p, g.CriticalEdge b i → (g.cfgpreds b)[i]? = some p → ∃ jmp nb,
        (g'.cfgpreds b)[i]? = some (.op jmp nb) ∧ g.numBlocks ≤ nb ∧ nb < g'.numBlocks ∧ g'.cfgpreds nb = [p]) ∧
      (g'.endBlock = g.endBlock ∧ g'.keepalives = g.keepalives ∧
        ∀ b < g.numBlocks, (g'.cfgpreds b).map (g'.contractPred g.numBlocks) = g.cfgpreds b) ∧
      ∀ source < g.numBlocks, ∀ target < g.numBlocks, ∀ l,
        g.Path source l target ↔ ∃ l', g'.Path source l' target ∧ l'.filter (·.1 < g.numBlocks) = l := by
  obtain ⟨g', hrun, h⟩ := removeCriticalEdges_splits hend hperm
  refine ⟨g', hrun, h.blocks_le, h.no_critical, fun nb hnb hlt => ?_, h.kept, h.split,
    ⟨h.endBlock, h.keepalives, fun b hb => h.contract hb⟩, fun source hsource target htarget l =>
      h.path_iff hsource htarget l⟩
  obtain ⟨hsuccs, b, hb, i, p, -, -, hpreds⟩ := h.added nb hnb hlt
  rw [hpreds]
  exact ⟨rfl, hsuccs⟩

/-- A block that branches back to itself on both ways and out, and that had one more way in. -/
def sampleLoop : Cfg where
  numBlocks := 3
  numOps := 4
  cfgpreds b := [[], [.op 0 0, .op 1 1, .bad, .op 2 1], [.op 3 1]].getD b []
  endBlock := 2
  keepalives := [none, some 1]
  pred_lt b hb node block hmem := by
    rcases b with _ | _ | _ | b
    · cases hmem
    · simp only [List.getD, List.getElem?_cons_succ, List.getElem?_cons_zero, Option.getD_some, List.mem_cons,
        CfgPred.op.injEq, reduceCtorEq, List.not_mem_nil, or_false, false_or] at hmem
      omega
    · simp only [List.getD, List.getElem?_cons_succ, List.getElem?_cons_zero, Option.getD_some, List.mem_cons,
        CfgPred.op.injEq, List.not_mem_nil, or_false] at hmem
      omega
    · omega
  end_lt := by decide
  keepalive_lt := by
    rintro b hb
    simp only [List.mem_cons, reduceCtorEq, Option.some.injEq, List.not_mem_nil, or_false, false_or] at hb
    omega

theorem removeCriticalEdges_correct_sampleLoop :
    sampleLoop.CriticalEdge 1 3 ∧
      ∃ g', sampleLoop.removeCriticalEdges List.reverse = some g' ∧ ∀ b i, ¬ g'.CriticalEdge b i := by
  have hcritical : sampleLoop.CriticalEdge 1 3 := ⟨1, ⟨by decide, 2, by decide⟩, by decide, by decide⟩
  have hend : ∀ b < sampleLoop.numBlocks, sampleLoop.ReachesEnd b := by
    intro b hb
    have hloop : sampleLoop.Path 1 [(2, 0)] 2 := .cons ⟨by decide, 3, by decide⟩ (.nil 2)
    refine ⟨2, by decide, ?_⟩
    rcases b with _ | _ | _ | b
    · exact ⟨_, .cons (b := 1) (i := 0) ⟨by decide, 0, by decide⟩ hloop⟩
    · exact ⟨_, hloop⟩
    · exact ⟨_, .nil 2⟩
    · exact absurd hb (Nat.not_lt_of_le (Nat.le_add_left 3 b))
  obtain ⟨g', hrun, -, hnone, -⟩ := removeCriticalEdges_correct sampleLoop hend List.reverse fun l => List.reverse_perm l
  exact ⟨hcritical, g', hrun, hnone⟩

end Cfg

end Mjc.Irg

import Mjc.Asm.Function
import Mjc.Worklist

/-!
# The layout of a function

Which blocks `AsmMethodPass` makes for a graph, and in which order.

* `BlockGraph` : the blocks of an `ir_graph` with their successors;
* `BlockLists` : `orderedBasicBlocks` and `basicBlocks` of a `Function`; `newBB`, `getBB`;
* `BlockGraph.asmMethodPass` : the constructor, a breadth-first search and the move of the end block;
* `BlockGraph.asmMethodPass_layout` : it ends, with every block that can be reached; `BlockGraph.function`.
-/

namespace Mjc.Asm

set_option autoImplicit false

/-! ## Blocks -/

/-- The control flow of an `ir_graph`: the start block is not the end block, and a block has an edge to each of its
successors, maybe more than one. -/
structure BlockGraph where
  blocks : List Nat
  startBlock : Nat
  endBlock : Nat
  succs : Nat → List Nat
  start_mem : startBlock ∈ blocks
  succs_mem : ∀ b ∈ blocks, ∀ c ∈ succs b, c ∈ blocks
  start_ne_end : startBlock ≠ endBlock

/-- `BasicBlock *`: the object, and the block that it was made for. -/
structure BlockPtr where
  address : Nat
  node : Nat
  deriving DecidableEq

/-- What a `Function` has of its blocks; the objects that `new` gave have the addresses below `allocated`. -/
structure BlockLists where
  allocated : Nat
  orderedBasicBlocks : List BlockPtr
  basicBlocks : Nat → Option BlockPtr

namespace BlockLists

def empty : BlockLists := ⟨0, [], fun _ => none⟩

/-- `Function::newBB`. A key that is there keeps its value in `basicBlocks.insert`. -/
def newBB (f : BlockLists) (node : Nat) : BlockLists :=
  let bb : BlockPtr := ⟨f.allocated, node⟩
  { allocated := f.allocated + 1
    orderedBasicBlocks := f.orderedBasicBlocks ++ [bb]
    basicBlocks := if (f.basicBlocks node).isSome then f.basicBlocks else Function.update f.basicBlocks node (some bb) }

/-- `Function::getBB` -/
def getBB (f : BlockLists) (node : Nat) : Option BlockPtr := f.basicBlocks node

/-- The blocks in their order. -/
def nodes (f : BlockLists) : List Nat := f.orderedBasicBlocks.map BlockPtr.node

end BlockLists

/-- The blocks marked as visited, and the blocks of the function. -/
structure BlockWalk where
  visited : List Nat
  func : BlockLists

/-- From index `i` on: the first entry that is the end block's goes to the back. -/
def moveEndBlock (endBlock : Nat) (bbs : List BlockPtr) (i : Nat) : List BlockPtr :=
  match h : bbs[i]? with
  | some bb => if endBlock = bb.node then bbs.eraseIdx i ++ [bb] else moveEndBlock endBlock bbs (i + 1)
  | none => bbs
termination_by bbs.length - i
decreasing_by
  have := (List.getElem?_eq_some_iff.mp h).1
  omega

namespace BlockGraph

variable (g : BlockGraph)

/-- The body of the loop: the block at the front, with the blocks that are pushed. -/
def enlist (curBlock : Nat) (w : BlockWalk) : BlockWalk × List Nat :=
  if curBlock ∈ w.visited then (w, [])
  else (⟨curBlock :: w.visited, w.func.newBB curBlock⟩, g.succs curBlock)

/-- The constructor of `AsmMethodPass`, if the loop takes no more than `fuel` blocks from the queue. -/
def asmMethodPass (fuel : Nat) : Option BlockLists := do
  let w ← Worklist.run g.enlist fuel [g.startBlock] ⟨[], BlockLists.empty⟩
  some { w.func with orderedBasicBlocks := moveEndBlock g.endBlock w.func.orderedBasicBlocks 0 }

/-- Control can get from the start block to this one. -/
def Reachable (b : Nat) : Prop := Worklist.Reaches g.succs [g.startBlock] b

/-- The blocks that are reachable, in the order in which a breadth-first search meets them. -/
def DiscoveryOrder (order : List Nat) : Prop := Worklist.BreadthFirst g.succs [g.startBlock] order

end BlockGraph

/-! ## The search -/

/-- One entry for each block that is marked, in the order of the marking; `basicBlocks` finds these entries. -/
structure BlockWalk.Enlisted (w : BlockWalk) : Prop where
  nodes : w.func.nodes = w.visited.reverse
  mapped : ∀ b p, w.func.getBB b = some p ↔ p ∈ w.func.orderedBasicBlocks ∧ p.node = b

theorem BlockLists.nodes_newBB (f : BlockLists) (node : Nat) : (f.newBB node).nodes = f.nodes ++ [node] := by
  unfold nodes newBB
  rw [List.map_append]
  rfl

/-- The entry of a new block. -/
theorem BlockLists.getBB_newBB {f : BlockLists} {node : Nat} (h : f.getBB node = none) (b : Nat) :
    (f.newBB node).getBB b = if b = node then some ⟨f.allocated, node⟩ else f.getBB b := by
  unfold getBB at h
  unfold getBB newBB
  dsimp only
  rw [h, if_neg (by decide)]
  by_cases hb : b = node
  · rw [if_pos hb, hb, Function.update_self]
  · rw [if_neg hb, Function.update_of_ne hb]

namespace BlockGraph

variable {g : BlockGraph}

theorem enlist_visited (b : Nat) (w : BlockWalk) :
    Worklist.closeOver g.succs b w.visited = ((g.enlist b w).1.visited, (g.enlist b w).2) := by
  unfold Worklist.closeOver enlist
  split <;> rfl

theorem enlist_enlisted {b : Nat} {w : BlockWalk} (h : w.Enlisted) : (g.enlist b w).1.Enlisted := by
  unfold enlist
  by_cases hb : b ∈ w.visited
  · rw [if_pos hb]
    exact h
  · rw [if_neg hb]
    have hnone : ∀ p ∈ w.func.orderedBasicBlocks, p.node ≠ b := by
      rintro p hp rfl
      have : p.node ∈ w.func.nodes := List.mem_map_of_mem hp
      rw [h.nodes, List.mem_reverse] at this
      exact hb this
    have hnew : w.func.getBB b = none := by
      rw [Option.eq_none_iff_forall_ne_some]
      intro p hp
      obtain ⟨hmem, hnode⟩ := (h.mapped b p).mp hp
      exact hnone p hmem hnode
    refine ⟨?_, fun c p => ?_⟩
    · show (w.func.newBB b).nodes = (b :: w.visited).reverse
      rw [BlockLists.nodes_newBB, h.nodes, List.reverse_cons]
    · show (w.func.newBB b).getBB c = some p ↔ p ∈ w.func.orderedBasicBlocks ++ [⟨w.func.allocated, b⟩] ∧ p.node = c
      rw [BlockLists.getBB_newBB hnew, List.mem_append, List.mem_singleton]
      by_cases hc : c = b
      · subst hc
        rw [if_pos rfl, Option.some.injEq]
        constructor
        · rintro rfl
          exact ⟨Or.inr rfl, rfl⟩
        · rintro ⟨hp | hp, hnode⟩
          · exact absurd hnode (hnone p hp)
          · exact hp.symm
      · rw [if_neg hc, h.mapped]
        constructor
        · exact fun hp => ⟨Or.inl hp.1, hp.2⟩
        · rintro ⟨hp | rfl, hnode⟩
          · exact ⟨hp, hnode⟩
          · exact absurd hnode.symm hc

/-- The search ends, with the blocks in discovery order. -/
theorem enlist_terminates (g : BlockGraph) : ∃ fuel w,
    Worklist.run g.enlist fuel [g.startBlock] ⟨[], BlockLists.empty⟩ = some w ∧ w.Enlisted ∧
      g.DiscoveryOrder w.func.nodes := by
  have hroots : ∀ r ∈ [g.startBlock], r ∈ g.blocks := by
    intro r hr
    rw [List.mem_singleton.mp hr]
    exact g.start_mem
  obtain ⟨marked, hmarked, -⟩ := Worklist.closeOver_reachable hroots g.succs_mem (Nat.le_refl _)
  generalize Worklist.visitsLeft g.succs g.blocks [g.startBlock] [] = fuel at hmarked
  have hmap : Worklist.run (Worklist.closeOver g.succs) fuel [g.startBlock] [] =
      (Worklist.run g.enlist fuel [g.startBlock] ⟨[], BlockLists.empty⟩).map BlockWalk.visited :=
    Worklist.run_map enlist_visited fuel _ ⟨[], BlockLists.empty⟩
  rw [hmarked] at hmap
  obtain ⟨w, hrun, rfl⟩ := Option.map_eq_some_iff.mp hmap.symm
  have hstart : (⟨[], BlockLists.empty⟩ : BlockWalk).Enlisted := by
    refine ⟨rfl, fun b p => ⟨fun h => ?_, fun h => ?_⟩⟩
    · cases h
    · cases h.1
  have hw : w.Enlisted :=
    @Worklist.run_invariant _ _ g.enlist (fun _ w => w.Enlisted) (fun _ _ _ h => enlist_enlisted h) _ _ _ _ hstart hrun
  refine ⟨_, w, hrun, hw, ?_⟩
  rw [hw.nodes]
  exact Worklist.closeOver_breadthFirst hmarked

end BlockGraph

/-! ## The end block -/

/-- The first entry of the end block, if there is one, is the last one afterwards. -/
theorem moveEndBlock_eq (endBlock : Nat) (before bbs : List BlockPtr) :
    (∀ bb ∈ bbs, bb.node ≠ endBlock) ∧ moveEndBlock endBlock (before ++ bbs) before.length = before ++ bbs ∨
      ∃ front bb rest, bbs = front ++ bb :: rest ∧ bb.node = endBlock ∧
        moveEndBlock endBlock (before ++ bbs) before.length = before ++ front ++ rest ++ [bb] := by
  induction bbs generalizing before with
  | nil =>
    refine Or.inl ⟨List.forall_mem_nil _, ?_⟩
    unfold moveEndBlock
    rw [List.append_nil]
    split
    · rename_i bb h
      rw [List.getElem?_eq_none (Nat.le_refl _)] at h
      cases h
    · rfl
  | cons bb bbs ih =>
    have hat : (before ++ bb :: bbs)[before.length]? = some bb := by
      rw [List.getElem?_append_right (Nat.le_refl _), Nat.sub_self, List.getElem?_cons_zero]
    have hstep : moveEndBlock endBlock (before ++ bb :: bbs) before.length =
        if endBlock = bb.node then (before ++ bb :: bbs).eraseIdx before.length ++ [bb]
        else moveEndBlock endBlock (before ++ bb :: bbs) (before.length + 1) := by
      rw [moveEndBlock]
      split
      · rename_i bb' h
        rw [hat] at h
        obtain rfl := Option.some.inj h
        rfl
      · rename_i h
        rw [hat] at h
        cases h
    rw [hstep]
    by_cases hend : endBlock = bb.node
    · refine Or.inr ⟨[], bb, bbs, rfl, hend.symm, ?_⟩
      rw [if_pos hend, List.eraseIdx_append_of_length_le (Nat.le_refl _), Nat.sub_self, List.eraseIdx_cons_zero,
        List.append_nil]
    · rw [if_neg hend]
      have hshift : before ++ bb :: bbs = (before ++ [bb]) ++ bbs := by
        rw [List.append_assoc, List.singleton_append]
      have hlength : before.length + 1 = (before ++ [bb]).length := by
        rw [List.length_append, List.length_singleton]
      rw [hshift, hlength]
      rcases ih (before ++ [bb]) with ⟨hne, heq⟩ | ⟨front, last, rest, rfl, hlast, heq⟩
      · exact Or.inl ⟨List.forall_mem_cons.mpr ⟨fun h => hend h.symm, hne⟩, heq⟩
      · refine Or.inr ⟨bb :: front, last, rest, rfl, hlast, ?_⟩
        rw [heq]
        simp only [List.append_assoc, List.nil_append, List.cons_append]

/-- What the constructor makes of a graph. -/
structure BlockGraph.Layout (g : BlockGraph) (f : BlockLists) : Prop where
  nodup : f.nodes.Nodup
  covers : ∀ b, b ∈ f.nodes ↔ g.Reachable b
  first : f.nodes.head? = some g.startBlock
  last : g.Reachable g.endBlock → f.nodes.getLast? = some g.endBlock
  discovered : ∃ order, g.DiscoveryOrder order
  others : ∀ order, g.DiscoveryOrder order → f.nodes.filter (· ≠ g.endBlock) = order.filter (· ≠ g.endBlock)
  mapped : ∀ b p, f.getBB b = some p ↔ p ∈ f.orderedBasicBlocks ∧ p.node = b

/-- The end block is taken out of the discovery order and put to its end. -/
theorem BlockGraph.Layout.of_moved {g : BlockGraph} {f : BlockLists} {front rest : List Nat}
    (horder : g.DiscoveryOrder (front ++ g.endBlock :: rest)) (hnodes : f.nodes = front ++ rest ++ [g.endBlock])
    (hmapped : ∀ b p, f.getBB b = some p ↔ p ∈ f.orderedBasicBlocks ∧ p.node = b) : g.Layout f := by
  have hperm : f.nodes.Perm (front ++ g.endBlock :: rest) := by
    rw [hnodes, List.append_assoc]
    exact List.Perm.append_left front (List.perm_append_singleton g.endBlock rest)
  have hfilter : f.nodes.filter (· ≠ g.endBlock) = (front ++ g.endBlock :: rest).filter (· ≠ g.endBlock) := by
    rw [hnodes, List.filter_append, List.filter_append, List.filter_append, List.filter_cons_of_neg (by simp),
      List.filter_cons_of_neg (by simp), List.filter_nil, List.append_nil]
  refine ⟨?_, fun b => ?_, ?_, fun _ => ?_, ⟨_, horder⟩, fun order h => ?_, hmapped⟩
  · exact hperm.nodup_iff.mpr horder.nodup
  · rw [hperm.mem_iff]
    exact horder.mem_iff b
  · have hhead := horder.head_eq
    cases front with
    | nil => exact absurd (Option.some.inj hhead).symm g.start_ne_end
    | cons b front =>
      rw [hnodes]
      exact hhead
  · rw [hnodes, List.getLast?_append, List.getLast?_singleton]
    rfl
  · rw [hfilter, horder.unique h]

namespace BlockGraph

/-- The constructor ends, and lays every block out that can be reached. -/
theorem asmMethodPass_layout (g : BlockGraph) : ∃ fuel f, g.asmMethodPass fuel = some f ∧ g.Layout f := by
  obtain ⟨fuel, w, hrun, hw, horder⟩ := g.enlist_terminates
  refine ⟨fuel, _, by rw [asmMethodPass, hrun]; rfl, ?_⟩
  rcases moveEndBlock_eq g.endBlock [] w.func.orderedBasicBlocks with
    ⟨hne, hmove⟩ | ⟨front, bb, rest, hbbs, hend, hmove⟩
  · rw [List.nil_append, List.length_nil] at hmove
    have hunreached : ¬ g.Reachable g.endBlock := by
      intro h
      obtain ⟨bb, hbb, heq⟩ := List.mem_map.mp ((horder.mem_iff g.endBlock).mpr h)
      exact hne bb hbb heq
    rw [hmove]
    exact ⟨horder.nodup, horder.mem_iff, horder.head_eq, fun h => absurd h hunreached, ⟨_, horder⟩,
      fun order h => by rw [horder.unique h], hw.mapped⟩
  · rw [List.nil_append, List.length_nil, List.nil_append] at hmove
    have hnodes : w.func.nodes = front.map BlockPtr.node ++ g.endBlock :: rest.map BlockPtr.node := by
      unfold BlockLists.nodes
      rw [hbbs, List.map_append, List.map_cons, hend]
    rw [hnodes] at horder
    refine Layout.of_moved horder ?_ fun b p => ?_
    · unfold BlockLists.nodes
      rw [hmove, List.map_append, List.map_append, List.map_singleton, hend]
    · have hmem : p ∈ front ++ rest ++ [bb] ↔ p ∈ w.func.orderedBasicBlocks := by
        rw [hbbs, List.append_assoc]
        exact (List.Perm.append_left front (List.perm_append_singleton bb rest)).mem_iff
      rw [hmove, hmem]
      exact hw.mapped b p

/-- The `Function` at the end of the constructor, with blocks that have no instructions yet. -/
def Layout.function {g : BlockGraph} {f : BlockLists} (h : g.Layout f) (fnName : String) : Function where
  fnName := fnName
  arSize := 0
  orderedBasicBlocks := f.nodes.map fun node => ⟨node, [], [], [], [], []⟩
  nodup := by
    rw [List.map_map]
    exact (List.map_id f.nodes).symm ▸ h.nodup

end BlockGraph
end Mjc.Asm

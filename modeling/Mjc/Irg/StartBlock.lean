import Mjc.Irg.Certificate
import Mjc.Irg.Order

/-!
# The start block in the order of the walk

* `Walkable` : what the graphs that are built promise to the walk from the end;
* `WellFormed.start_closed` : what is in the start block depends on nothing else;
* `queued_initQueue` : in the queue, the operands of the start block come before their users, and its exits before the
  control flow behind them.
-/

namespace Mjc.Irg.FirmGraph

set_option autoImplicit false

variable {T : Type} {size : Nat} (g : FirmGraph T size)

/-- The nodes that a node depends on. -/
def DependsOn (m n : Fin size) : Prop := Relation.ReflTransGen (fun a b => b ∈ (g.node a).uses) m n

/-- The walk from the end comes to all nodes; where the start block leads to a loop, the way in is listed before the way
back. -/
structure Walkable : Prop where
  reachable : ∀ n, g.DependsOn g.endNode n
  entry_first : ∀ (b p : Fin size) (before after : List (Fin size)), (g.node b).isBlock = true →
    g.cfgpreds b = before ++ p :: after → g.isExit p = true → g.block p = g.startBlock →
      ∀ q ∈ before, ¬ g.DependsOn q b

/-- What the order of the queue is good for. -/
structure Queued (init : List (Fin size)) : Prop where
  mem : ∀ n, g.opcode n ≠ .Const → n ∈ init
  operand : ∀ n m, (g.node n).isBlock = false → g.block n = g.startBlock → m ∈ (g.node n).ins → g.opcode m ≠ .Const →
    IrGraph.Precedes init m n
  exit : ∀ n p, (g.node n).isBlock = false → g.isExit p = true → g.block p = g.startBlock →
    p ∈ g.cfgpreds (g.block n) → IrGraph.Precedes init p n

variable {g} {n : Fin size}

theorem mem_uses {m n : Fin size} (h : m ∈ (g.node n).ins) : m ∈ (g.node n).uses := by
  unfold IrNode.uses
  split
  · exact h
  · exact List.mem_cons_of_mem _ h

theorem block_mem_uses {n : Fin size} (h : (g.node n).isBlock = false) : g.block n ∈ (g.node n).uses := by
  unfold IrNode.uses
  rw [h]
  exact List.mem_cons_self

/-- What is in the start block depends on nothing else. -/
theorem WellFormed.start_closed (hg : g.WellFormed) (hn : (g.node n).isBlock = false ∧ g.block n = g.startBlock)
    {m : Fin size} (hm : m ∈ (g.node n).ins) : (g.node m).isBlock = false ∧ g.block m = g.startBlock := by
  obtain ⟨hblock, hdom⟩ := hg.operand_dom n hn.1 (fun h => hg.start_end n h hn.2) (fun h => hg.start_phi n h hn.2) m hm
  rw [hn.2] at hdom
  exact ⟨hblock, hdom.root_eq⟩

theorem WellFormed.start_dependsOn (hg : g.WellFormed) (hn : (g.node n).isBlock = false ∧ g.block n = g.startBlock)
    {m : Fin size} (h : g.DependsOn n m) :
    m = g.startBlock ∨ (g.node m).isBlock = false ∧ g.block m = g.startBlock := by
  induction h with
  | refl => exact Or.inr hn
  | @tail a c _ huse ih =>
    rcases ih with rfl | ha
    · unfold IrNode.uses at huse
      have hblock := hg.block_isBlock n hn.1
      rw [hn.2] at hblock
      rw [if_pos hblock, show (g.node g.startBlock).ins = [] from hg.start_ins] at huse
      cases huse
    · unfold IrNode.uses at huse
      rw [ha.1] at huse
      rcases List.mem_cons.mp huse with rfl | huse
      · exact Or.inl ha.2
      · exact Or.inr (hg.start_closed ha huse)

theorem isLoopBreaker_eq_false {n : Fin size} (hblock : (g.node n).isBlock = false) (hphi : g.opcode n ≠ .Phi) :
    (g.node n).isLoopBreaker = false := by
  unfold IrNode.isLoopBreaker
  rw [hblock, Bool.or_false]
  exact decide_eq_false hphi

theorem queued_initQueue (hg : g.WellFormed) (hwalk : g.Walkable) {rank : Fin size → Nat} {hrank : g.Ranked rank}
    {depth : Nat} {order : List (Fin size)} (h : (g.irGraph rank hrank).initOrder depth = some order) :
    g.Queued (g.initQueue order) := by
  have hkeep : ∀ n, g.opcode n ≠ .Const → decide (g.opcode n ≠ .Const) = true := fun n hn => decide_eq_true hn
  refine ⟨fun n hn => ?_, fun n m hblock hstart hm hconst => ?_, fun n p hblock hexit hstart hp => ?_⟩
  · exact List.mem_filter.mpr ⟨(IrGraph.mem_initOrder h n).mpr (hwalk.reachable n), hkeep n hn⟩
  · obtain ⟨hmblock, hmstart⟩ := hg.start_closed ⟨hblock, hstart⟩ hm
    refine IrGraph.Precedes.filter (IrGraph.operand_precedes h ?_ ?_ (mem_uses hm)) (hkeep m hconst)
    · exact isLoopBreaker_eq_false hblock fun hphi => hg.start_phi n hphi hstart
    · exact isLoopBreaker_eq_false hmblock fun hphi => hg.start_phi m hphi hmstart
  · have hop := isExit_opcode hexit
    have hpblock : (g.node p).isBlock = false := by
      rcases hop with hop | hop <;> exact isBlock_eq_false hop (by decide)
    have hphi : g.opcode p ≠ .Phi := by rcases hop with hop | hop <;> rw [hop] <;> decide
    have hconst : g.opcode p ≠ .Const := by rcases hop with hop | hop <;> rw [hop] <;> decide
    have hb := hg.block_isBlock n hblock
    obtain ⟨before, after, hins⟩ := List.append_of_mem hp
    refine IrGraph.Precedes.filter (IrGraph.cfgpred_precedes h hb hins ?_ ?_ ?_ (block_mem_uses hblock) ?_)
      (hkeep p hconst)
    · exact isLoopBreaker_eq_false hpblock hphi
    · intro hdep
      rcases hg.start_dependsOn ⟨hpblock, hstart⟩ hdep with hb' | hb'
      · rw [hb', hg.start_ins] at hp
        cases hp
      · rw [hb] at hb'
        cases hb'.1
    · exact hwalk.entry_first _ p before after hb hins hexit hstart
    · intro heq
      rw [← heq, hblock] at hb
      cases hb

end Mjc.Irg.FirmGraph

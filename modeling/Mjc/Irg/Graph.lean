import Mathlib.Data.Finset.Lattice.Fold
import Mathlib.Data.Fintype.Card
import Mathlib.Logic.Relation
import Mathlib.Order.Lattice.Nat

/-!
# Graphs and their topological walk

The graphs of libfirm as the passes see them, and `FunctionPass::init_topological` of `firm_pass.hpp`.

* `IrGraph` : nodes with their block and operands; every loop goes through a `Phi` or a `Block`;
* `initTopological` : the walk, which marks a loop breaker before its operands and any other node after them;
* `initTopological_terminates` : the recursion ends;
* `mem_initOrder` : the walk from the end node initialises the nodes that the end node depends on.
-/

namespace Mjc.Irg

set_option autoImplicit false

/-- `iro_*`, as far as `initNode` and `visitNode` know them. -/
inductive Opcode where
  | ASM | Add | Address | Align | Alloc | Anchor | And | Bad | Bitcast | Block | Builtin | Call (callee : String) | Cmp
  | Cond | Confirm | Const | Conv | CopyB | Deleted | Div | Dummy | End | Eor | Free | IJmp | Id | Jmp | Load | Member
  | Minus | Mod | Mul | Mulh | Mux | NoMem | Not | Offset | Or | Phi | Pin | Proj | Raise | Return | Sel | Shl | Shr
  | Shrs | Size | Start | Store | Sub | Switch | Sync | Tuple | Unknown
  deriving DecidableEq, Repr

/-- A node: its block (of no meaning for a block) and its operands. -/
structure IrNode (size : Nat) where
  opcode : Opcode
  block : Fin size
  ins : List (Fin size)

variable {size : Nat}

def IrNode.isBlock (n : IrNode size) : Bool := n.opcode = .Block

/-- `is_loop_breaker`. -/
def IrNode.isLoopBreaker (n : IrNode size) : Bool := n.opcode = .Phi || n.isBlock

/-- The nodes that the walk goes on to: the block, then the operands. -/
def IrNode.uses (n : IrNode size) : List (Fin size) := if n.isBlock then n.ins else n.block :: n.ins

/-- A graph. Nodes that are neither `Phi` nor `Block` depend on one another in the order of their rank. -/
structure IrGraph where
  name : String
  size : Nat
  node : Fin size → IrNode size
  endNode : Fin size
  rank : Fin size → Nat
  rank_lt : ∀ m n, (node m).isLoopBreaker = false → (node n).isLoopBreaker = false → n ∈ (node m).uses →
    rank n < rank m

/-- The nodes marked as visited, and the nodes initialised, in order. -/
structure Walk (size : Nat) where
  visited : List (Fin size)
  order : List (Fin size)

def Walk.mark (w : Walk size) (irn : Fin size) : Walk size := { w with visited := irn :: w.visited }

def Walk.initNode (w : Walk size) (irn : Fin size) : Walk size := { w with order := w.order ++ [irn] }

namespace IrGraph

variable (g : IrGraph)

/-- Before the operands: only break loops at phi and block nodes. -/
def enter (irn : Fin g.size) (w : Walk g.size) : Walk g.size := if (g.node irn).isLoopBreaker then w.mark irn else w

/-- After the operands. -/
def leave (irn : Fin g.size) (w : Walk g.size) : Walk g.size :=
  (if (g.node irn).isLoopBreaker || irn ∉ w.visited then w.initNode irn else w).mark irn

/-- `init_topological`, to a depth of calls. -/
def initTopological : Nat → Fin g.size → Walk g.size → Option (Walk g.size)
  | 0, _, _ => none
  | depth + 1, irn, w =>
    if irn ∈ w.visited then some w
    else ((g.node irn).uses.foldlM (fun w pred => initTopological depth pred w) (g.enter irn w)).map (g.leave irn)

/-- `initNodesTopological`: the nodes in the order in which they are initialised. -/
def initOrder (depth : Nat) : Option (List (Fin g.size)) :=
  (g.initTopological depth g.endNode ⟨[], []⟩).map Walk.order

/-- `m` depends on `n`. -/
def DependsOn (m n : Fin g.size) : Prop := Relation.ReflTransGen (fun a b => b ∈ (g.node a).uses) m n

/-! ## What the walk visits -/

variable {g}

/-- What a walk does that starts at some nodes. -/
structure Visits (roots : List (Fin g.size)) (w w' : Walk g.size) : Prop where
  visited : ∀ n ∈ w.visited, n ∈ w'.visited
  order : ∀ n ∈ w.order, n ∈ w'.order
  rooted : ∀ n ∈ roots, n ∈ w'.visited
  closed : ∀ m ∈ w'.order, m ∈ w.order ∨ ∀ n ∈ (g.node m).uses, n ∈ w'.visited
  new : ∀ n ∈ w'.visited, n ∈ w.visited ∨ n ∈ w'.order
  dependsOn : ∀ n ∈ w'.order, n ∈ w.order ∨ ∃ r ∈ roots, g.DependsOn r n

namespace Visits

variable {w w' w'' : Walk g.size}

theorem nil (w : Walk g.size) : Visits [] w w :=
  ⟨fun _ h => h, fun _ h => h, List.forall_mem_nil _, fun _ h => Or.inl h, fun _ h => Or.inl h, fun _ h => Or.inl h⟩

theorem cons {r : Fin g.size} {roots : List (Fin g.size)} (h : Visits [r] w w') (h' : Visits roots w' w'') :
    Visits (r :: roots) w w'' := by
  refine ⟨fun n hn => h'.visited n (h.visited n hn), fun n hn => h'.order n (h.order n hn), ?_, ?_, ?_, ?_⟩
  · intro n hn
    rcases List.mem_cons.mp hn with rfl | hn
    · exact h'.visited n (h.rooted n List.mem_cons_self)
    · exact h'.rooted n hn
  · intro m hm
    rcases h'.closed m hm with hm | hm
    · exact (h.closed m hm).imp_right fun huses n hn => h'.visited n (huses n hn)
    · exact Or.inr hm
  · intro n hn
    rcases h'.new n hn with hn | hn
    · exact (h.new n hn).imp_right fun hn => h'.order n hn
    · exact Or.inr hn
  · intro n hn
    rcases h'.dependsOn n hn with hn | ⟨r', hr', hpath⟩
    · refine (h.dependsOn n hn).imp_right ?_
      rintro ⟨r', hr', hpath⟩
      rw [List.mem_singleton] at hr'
      exact ⟨r, List.mem_cons_self, hr' ▸ hpath⟩
    · exact Or.inr ⟨r', List.mem_cons_of_mem r hr', hpath⟩

theorem foldlM {visit : Fin g.size → Walk g.size → Option (Walk g.size)} {roots : List (Fin g.size)}
    (hvisit : ∀ r ∈ roots, ∀ w w', visit r w = some w' → Visits [r] w w')
    (h : roots.foldlM (fun w r => visit r w) w = some w') : Visits roots w w' := by
  induction roots generalizing w with
  | nil =>
    obtain rfl := Option.some.inj h
    exact nil w
  | cons r roots ih =>
    rw [List.foldlM_cons] at h
    obtain ⟨w₁, hr, hrest⟩ := Option.bind_eq_some_iff.mp h
    exact (hvisit r List.mem_cons_self w w₁ hr).cons (ih (fun r hr => hvisit r (List.mem_cons_of_mem _ hr)) hrest)

/-- The operands were visited between `enter` and `leave`. -/
theorem leave {irn : Fin g.size} (hnew : irn ∉ w.visited) (h : Visits (g.node irn).uses (g.enter irn w) w') :
    Visits [irn] w (g.leave irn w') := by
  have henter : ∀ n, n ∈ (g.enter irn w).visited → n ∈ w.visited ∨ n = irn := by
    intro n hn
    unfold IrGraph.enter at hn
    split at hn
    · exact (List.mem_cons.mp hn).symm
    · exact Or.inl hn
  have horder : (g.enter irn w).order = w.order := by
    unfold IrGraph.enter
    split <;> rfl
  have hleave : ∀ n, n ∈ (g.leave irn w').order ↔ n ∈ w'.order ∨ n = irn := by
    intro n
    unfold IrGraph.leave
    split
    · rename_i hinit
      exact List.mem_append.trans (or_congr_right List.mem_singleton)
    · -- the walk came back to the node through a loop and has initialised it
      rename_i hinit
      rw [Bool.or_eq_true, decide_eq_true_eq, not_or, not_not] at hinit
      have hold : (g.enter irn w).visited = w.visited := by
        unfold IrGraph.enter
        rw [if_neg hinit.1]
      have hirn : irn ∈ w'.order := (h.new irn hinit.2).resolve_left (by rwa [hold])
      exact ⟨Or.inl, fun hn => hn.elim id fun heq => heq ▸ hirn⟩
  have hvisited : ∀ n, n ∈ (g.leave irn w').visited ↔ n = irn ∨ n ∈ w'.visited := by
    intro n
    unfold IrGraph.leave
    split <;> exact List.mem_cons
  refine ⟨fun n hn => ?_, fun n hn => ?_, fun n hn => ?_, fun m hm => ?_, fun n hn => ?_, fun n hn => ?_⟩
  · refine (hvisited n).mpr (Or.inr (h.visited n ?_))
    unfold IrGraph.enter
    split
    · exact List.mem_cons_of_mem irn hn
    · exact hn
  · exact (hleave n).mpr (Or.inl (h.order n (by rwa [horder])))
  · exact (hvisited n).mpr (Or.inl (List.mem_singleton.mp hn))
  · rcases (hleave m).mp hm with hm | rfl
    · rw [← horder]
      exact (h.closed m hm).imp_right fun huses n hn => (hvisited n).mpr (Or.inr (huses n hn))
    · exact Or.inr fun n hn => (hvisited n).mpr (Or.inr (h.rooted n hn))
  · rcases (hvisited n).mp hn with rfl | hn
    · exact Or.inr ((hleave n).mpr (Or.inr rfl))
    · rcases h.new n hn with hn | hn
      · exact (henter n hn).imp_right fun heq => (hleave n).mpr (Or.inr heq)
      · exact Or.inr ((hleave n).mpr (Or.inl hn))
  · rcases (hleave n).mp hn with hn | rfl
    · rw [← horder]
      refine (h.dependsOn n hn).imp_right ?_
      rintro ⟨r, hr, hpath⟩
      exact ⟨irn, List.mem_singleton_self irn, .head hr hpath⟩
    · exact Or.inr ⟨n, List.mem_singleton_self n, .refl⟩

end Visits

theorem visits_initTopological {depth : Nat} {irn : Fin g.size} {w w' : Walk g.size}
    (h : g.initTopological depth irn w = some w') : Visits [irn] w w' := by
  induction depth generalizing irn w w' with
  | zero => cases h
  | succ depth ih =>
    unfold initTopological at h
    by_cases hirn : irn ∈ w.visited
    · rw [if_pos hirn] at h
      obtain rfl := Option.some.inj h
      refine { Visits.nil w with rooted := fun n hn => ?_, dependsOn := fun n hn => Or.inl hn }
      rwa [List.mem_singleton.mp hn]
    · rw [if_neg hirn] at h
      obtain ⟨w₁, hfold, rfl⟩ := Option.map_eq_some_iff.mp h
      exact (Visits.foldlM (fun _ _ _ _ hr => ih hr) hfold).leave hirn

/-- The nodes that are initialised are those that the end node depends on. -/
theorem mem_initOrder {depth : Nat} {order : List (Fin g.size)} (h : g.initOrder depth = some order) (n : Fin g.size) :
    n ∈ order ↔ g.DependsOn g.endNode n := by
  obtain ⟨w, hw, rfl⟩ := Option.map_eq_some_iff.mp h
  have hvisits := visits_initTopological hw
  constructor
  · intro hn
    obtain ⟨r, hr, hpath⟩ := (hvisits.dependsOn n hn).resolve_left List.not_mem_nil
    rwa [List.mem_singleton.mp hr] at hpath
  · intro hpath
    have hvisited : ∀ n ∈ w.visited, n ∈ w.order := fun n hn => (hvisits.new n hn).resolve_left List.not_mem_nil
    induction hpath with
    | refl => exact hvisited _ (hvisits.rooted _ (List.mem_singleton_self _))
    | tail _ huse ih => exact hvisited _ ((hvisits.closed _ ih).resolve_left List.not_mem_nil _ huse)

/-! ## The walk ends -/

variable (g) in
/-- The loop breakers that are not visited yet. -/
def breakersLeft (w : Walk g.size) : Nat :=
  (Finset.univ.filter fun n => (g.node n).isLoopBreaker ∧ n ∉ w.visited).card

theorem breakersLeft_le {w w' : Walk g.size} (h : ∀ n ∈ w.visited, n ∈ w'.visited) :
    g.breakersLeft w' ≤ g.breakersLeft w := by
  refine Finset.card_le_card fun n hn => ?_
  rw [Finset.mem_filter] at hn ⊢
  exact ⟨hn.1, hn.2.1, fun hw => hn.2.2 (h n hw)⟩

theorem breakersLeft_mark {w : Walk g.size} {irn : Fin g.size} (hbreaks : (g.node irn).isLoopBreaker = true)
    (hnew : irn ∉ w.visited) : g.breakersLeft (w.mark irn) < g.breakersLeft w := by
  refine Finset.card_lt_card (Finset.ssubset_iff_of_subset ?_ |>.mpr ⟨irn, ?_, ?_⟩)
  · intro n hn
    rw [Finset.mem_filter] at hn ⊢
    exact ⟨hn.1, hn.2.1, fun hw => hn.2.2 (List.mem_cons_of_mem irn hw)⟩
  · exact Finset.mem_filter.mpr ⟨Finset.mem_univ _, hbreaks, hnew⟩
  · exact fun hn => (Finset.mem_filter.mp hn).2.2 List.mem_cons_self

variable (g) in
def maxRank : Nat := Finset.univ.sup g.rank

variable (g) in
/-- The depth of calls that a node may need: between two loop breakers the rank falls. -/
def depthNeeded (irn : Fin g.size) (w : Walk g.size) : Nat :=
  g.breakersLeft w * (g.maxRank + 2) + if (g.node irn).isLoopBreaker then 0 else g.rank irn + 1

theorem depthNeeded_lt {irn pred : Fin g.size} {w w' : Walk g.size} (hnew : irn ∉ w.visited)
    (huse : pred ∈ (g.node irn).uses) (h : ∀ n ∈ (g.enter irn w).visited, n ∈ w'.visited) :
    g.depthNeeded pred w' < g.depthNeeded irn w := by
  have hrank : g.rank pred ≤ g.maxRank := Finset.le_sup (Finset.mem_univ pred)
  have hle := breakersLeft_le h
  unfold depthNeeded
  unfold enter at hle
  by_cases hbreaks : (g.node irn).isLoopBreaker = true
  · rw [if_pos hbreaks] at hle ⊢
    -- one loop breaker less, and any rank
    have hless := breakersLeft_mark hbreaks hnew
    have hmul := Nat.mul_le_mul_right (g.maxRank + 2) (Nat.succ_le_of_lt (lt_of_le_of_lt hle hless))
    rw [Nat.succ_mul] at hmul
    split <;> omega
  · rw [if_neg hbreaks] at hle ⊢
    have hmul := Nat.mul_le_mul_right (g.maxRank + 2) hle
    by_cases hpred : (g.node pred).isLoopBreaker = true
    · rw [if_pos hpred]
      omega
    · rw [if_neg hpred]
      have := g.rank_lt irn pred (Bool.eq_false_of_not_eq_true hbreaks) (Bool.eq_false_of_not_eq_true hpred) huse
      omega

theorem foldlM_terminates {visit : Fin g.size → Walk g.size → Option (Walk g.size)} {roots : List (Fin g.size)}
    {w : Walk g.size} (hgrows : ∀ r w w', visit r w = some w' → ∀ n ∈ w.visited, n ∈ w'.visited)
    (hvisit : ∀ r ∈ roots, ∀ w', (∀ n ∈ w.visited, n ∈ w'.visited) → ∃ w'', visit r w' = some w'') :
    ∃ w', roots.foldlM (fun w r => visit r w) w = some w' := by
  induction roots generalizing w with
  | nil => exact ⟨w, rfl⟩
  | cons r roots ih =>
    obtain ⟨w₁, hr⟩ := hvisit r List.mem_cons_self w fun _ h => h
    have hw₁ := hgrows r w w₁ hr
    have hlater : ∀ r ∈ roots, ∀ w', (∀ n ∈ w₁.visited, n ∈ w'.visited) → ∃ w'', visit r w' = some w'' :=
      fun r hr w' hw' => hvisit r (List.mem_cons_of_mem _ hr) w' fun n hn => hw' n (hw₁ n hn)
    obtain ⟨w', hrest⟩ := ih hlater
    refine ⟨w', ?_⟩
    rw [List.foldlM_cons]
    exact Option.bind_eq_some_iff.mpr ⟨w₁, hr, hrest⟩

theorem initTopological_terminates {depth : Nat} {irn : Fin g.size} {w : Walk g.size}
    (hdepth : g.depthNeeded irn w < depth) : ∃ w', g.initTopological depth irn w = some w' := by
  induction depth generalizing irn w with
  | zero => exact absurd hdepth (Nat.not_lt_zero _)
  | succ depth ih =>
    unfold initTopological
    by_cases hirn : irn ∈ w.visited
    · exact ⟨w, if_pos hirn⟩
    · rw [if_neg hirn]
      have hpreds : ∀ pred ∈ (g.node irn).uses, ∀ w', (∀ n ∈ (g.enter irn w).visited, n ∈ w'.visited) →
          ∃ w'', g.initTopological depth pred w' = some w'' := by
        intro pred hpred w' hw'
        have := depthNeeded_lt hirn hpred hw'
        exact ih (by omega)
      obtain ⟨w', hw'⟩ := foldlM_terminates (fun _ _ _ hr => (visits_initTopological hr).visited) hpreds
      exact ⟨g.leave irn w', Option.map_eq_some_iff.mpr ⟨w', hw', rfl⟩⟩

variable (g) in
/-- Enough calls for the walk from the end node. -/
def walkDepth : Nat := g.depthNeeded g.endNode ⟨[], []⟩ + 1

theorem initOrder_terminates {depth : Nat} (h : g.walkDepth ≤ depth) : ∃ order, g.initOrder depth = some order := by
  have hdepth : g.depthNeeded g.endNode ⟨[], []⟩ < depth := h
  obtain ⟨w, hw⟩ := initTopological_terminates hdepth
  exact ⟨w.order, Option.map_eq_some_iff.mpr ⟨w, hw, rfl⟩⟩

end IrGraph

end Mjc.Irg

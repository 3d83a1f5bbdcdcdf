import Mathlib.Data.Fin.VecNotation
import Mjc.Irg.Graph
import Mjc.Worklist

/-!
# Removing unused functions

`unused_fn_remove_pass.hpp`: from `main`, the functions whose graphs are called.

* `FindReferencedFunctionsPass.run` : the names a graph calls; `mem_getReferencedFunctions`;
* `UnusedFnRmPass.run` : the closure over the call relation, and the graphs that are left;
* `UnusedFnRmPass.run_exact` : these are the graphs that `main` reaches.
-/

namespace Mjc.Irg

set_option autoImplicit false

namespace FindReferencedFunctionsPass

variable (g : IrGraph)

/-- `defaultInitOp` enqueues every node but the constants. -/
def worklist (order : List (Fin g.size)) : List (Fin g.size) := order.filter fun n => (g.node n).opcode ≠ .Const

/-- `visitNode`: calls are recorded, all other nodes are passed over. -/
def visitNode (n : Fin g.size) (referencedFunctions : List String) : List String × List (Fin g.size) :=
  match (g.node n).opcode with
  | .Call callee => (referencedFunctions ++ [callee], [])
  | _ => (referencedFunctions, [])

/-- `FunctionPass::run`. No visit enqueues a node. -/
def run : Option (List String) := do
  let order ← g.initOrder g.walkDepth
  Worklist.run (visitNode g) (worklist g order).length (worklist g order) []

def getReferencedFunctions : List String := (run g).getD []

variable {g}

theorem run_visitNode (queue : List (Fin g.size)) (names : List String) : ∃ names',
    Worklist.run (visitNode g) queue.length queue names = some names' ∧
      ∀ f, f ∈ names' ↔ f ∈ names ∨ ∃ n ∈ queue, (g.node n).opcode = .Call f := by
  induction queue generalizing names with
  | nil => exact ⟨names, rfl, fun f => by simp⟩
  | cons n queue ih =>
    show ∃ names', Worklist.run _ _ (queue ++ (visitNode g n names).2) (visitNode g n names).1 = _ ∧ _
    have hnone : (visitNode g n names).2 = [] := by
      unfold visitNode
      split <;> rfl
    have hmem : ∀ f, f ∈ (visitNode g n names).1 ↔ f ∈ names ∨ (g.node n).opcode = .Call f := by
      intro f
      unfold visitNode
      split
      · rename_i callee hcall
        rw [hcall, Opcode.Call.injEq, List.mem_append, List.mem_singleton, eq_comm]
      · rename_i hcall
        exact ⟨Or.inl, fun h => h.elim id fun h => absurd h (hcall f)⟩
    rw [hnone, List.append_nil]
    obtain ⟨names', hrun, hnames'⟩ := ih (visitNode g n names).1
    refine ⟨names', hrun, fun f => ?_⟩
    rw [hnames', hmem, or_assoc, List.exists_mem_cons_iff]

/-- The pass finds the names that the calls of the graph refer to. -/
theorem mem_getReferencedFunctions (f : String) :
    f ∈ getReferencedFunctions g ↔ ∃ n, g.DependsOn g.endNode n ∧ (g.node n).opcode = .Call f := by
  obtain ⟨order, horder⟩ := g.initOrder_terminates (Nat.le_refl _)
  obtain ⟨names, hrun, hnames⟩ := run_visitNode (worklist g order) []
  have hget : getReferencedFunctions g = names := by
    unfold getReferencedFunctions run
    rw [horder]
    exact congrArg (Option.getD · []) hrun
  rw [hget, hnames]
  constructor
  · intro h
    obtain ⟨n, hn, hcall⟩ := h.resolve_left List.not_mem_nil
    exact ⟨n, (g.mem_initOrder horder n).mp (List.mem_filter.mp hn).1, hcall⟩
  · rintro ⟨n, hn, hcall⟩
    refine Or.inr ⟨n, List.mem_filter.mpr ⟨(g.mem_initOrder horder n).mpr hn, ?_⟩, hcall⟩
    rw [hcall]
    rfl

end FindReferencedFunctionsPass

namespace UnusedFnRmPass

-- `ir_graph *`, and the graphs these point to
variable {G : Type} (graph : G → IrGraph)

def getGraphFnName (g : G) : String := (graph g).name

def getGraphForFnName (allGraphs : List G) (fnName : String) : Option G :=
  allGraphs.find? fun g => getGraphFnName graph g = fnName

/-- `initWorkList`: only one main function. -/
def initWorkList (allGraphs : List G) : List G := (allGraphs.find? fun g => getGraphFnName graph g = "main").toList

/-- The graphs of the referenced functions; will not find builtin functions. -/
def fnGraphs (allGraphs : List G) (g : G) : List G :=
  (FindReferencedFunctionsPass.getReferencedFunctions (graph g)).filterMap (getGraphForFnName graph allGraphs)

/-- A call node of `g` calls the function of `h`. -/
def Calls (g h : G) : Prop :=
  ∃ n, (graph g).DependsOn (graph g).endNode n ∧ ((graph g).node n).opcode = .Call (getGraphFnName graph h)

/-- Reachable from `main` through calls of functions that have a graph. -/
def ReachedFromMain (allGraphs : List G) (g : G) : Prop :=
  ∃ m ∈ allGraphs, getGraphFnName graph m = "main" ∧
    Relation.ReflTransGen (fun a b => b ∈ allGraphs ∧ Calls graph a b) m g

variable {graph}

theorem getGraphForFnName_eq_some {allGraphs : List G} (hnames : (allGraphs.map (getGraphFnName graph)).Nodup)
    (fnName : String) (g : G) :
    getGraphForFnName graph allGraphs fnName = some g ↔ g ∈ allGraphs ∧ getGraphFnName graph g = fnName := by
  unfold getGraphForFnName
  constructor
  · intro h
    have hname := List.find?_some h
    exact ⟨List.mem_of_find?_eq_some h, of_decide_eq_true hname⟩
  · rintro ⟨hg, hname⟩
    cases hfind : allGraphs.find? fun g => getGraphFnName graph g = fnName with
    | none => exact absurd (decide_eq_true hname) (List.find?_eq_none.mp hfind g hg)
    | some h =>
      have hfound := List.find?_some hfind
      have hh : getGraphFnName graph h = fnName := of_decide_eq_true hfound
      exact congrArg some (List.inj_on_of_nodup_map hnames (List.mem_of_find?_eq_some hfind) hg (hh.trans hname.symm))

theorem mem_fnGraphs {allGraphs : List G} (hnames : (allGraphs.map (getGraphFnName graph)).Nodup) (g h : G) :
    h ∈ fnGraphs graph allGraphs g ↔ h ∈ allGraphs ∧ Calls graph g h := by
  unfold fnGraphs
  rw [List.mem_filterMap]
  constructor
  · rintro ⟨f, hf, hgraph⟩
    obtain ⟨hh, rfl⟩ := (getGraphForFnName_eq_some hnames f h).mp hgraph
    exact ⟨hh, (FindReferencedFunctionsPass.mem_getReferencedFunctions _).mp hf⟩
  · rintro ⟨hh, hcalls⟩
    exact ⟨_, (FindReferencedFunctionsPass.mem_getReferencedFunctions _).mpr hcalls,
      (getGraphForFnName_eq_some hnames _ h).mpr ⟨hh, rfl⟩⟩

theorem reachedFromMain_iff {allGraphs : List G} (hnames : (allGraphs.map (getGraphFnName graph)).Nodup) {m : G}
    (hm : m ∈ allGraphs) (hmain : getGraphFnName graph m = "main") (g : G) :
    ReachedFromMain graph allGraphs g ↔ Worklist.Reaches (fnGraphs graph allGraphs) [m] g := by
  have hedge : (fun a b => b ∈ fnGraphs graph allGraphs a) = fun a b => b ∈ allGraphs ∧ Calls graph a b := by
    funext a b
    exact propext (mem_fnGraphs hnames a b)
  unfold ReachedFromMain Worklist.Reaches
  rw [hedge]
  constructor
  · rintro ⟨m', hm', hmain', hpath⟩
    have heq : m' = m := List.inj_on_of_nodup_map hnames hm' hm (hmain'.trans hmain.symm)
    exact ⟨m, List.mem_singleton_self m, heq ▸ hpath⟩
  · rintro ⟨r, hr, hpath⟩
    rw [List.mem_singleton.mp hr] at hpath
    exact ⟨m, hm, hmain, hpath⟩

/-! ## The pass -/

variable [DecidableEq G] (graph)

def visitMethod (allGraphs : List G) (g : G) (referencedFunctions : List G) : List G × List G :=
  if g ∈ referencedFunctions then (referencedFunctions, [])
  else (g :: referencedFunctions, fnGraphs graph allGraphs g)

def after (allGraphs referencedFunctions : List G) : List G := allGraphs.filter (· ∈ referencedFunctions)

/-- `ProgramPass::run`, within some number of visits. -/
def run (visits : Nat) (allGraphs : List G) : Option (List G) :=
  (Worklist.run (visitMethod graph allGraphs) visits (initWorkList graph allGraphs) []).map (after allGraphs)

/-- The pass ends, and keeps the graphs that are reached from `main`, in their order. -/
theorem run_exact (allGraphs : List G)
    (hnames : (allGraphs.map (getGraphFnName graph)).Nodup) (hmain : "main" ∈ allGraphs.map (getGraphFnName graph)) :
    ∃ enough, ∀ visits ≥ enough, ∃ kept, run graph visits allGraphs = some kept ∧ kept.Sublist allGraphs ∧
      (∀ g, g ∈ kept ↔ ReachedFromMain graph allGraphs g) ∧
      ∀ g ∈ kept, ∀ h ∈ allGraphs, Calls graph g h → h ∈ kept := by
  obtain ⟨m, hm, hname⟩ := List.mem_map.mp hmain
  have hinit : initWorkList graph allGraphs = [m] :=
    congrArg Option.toList ((getGraphForFnName_eq_some hnames "main" m).mpr ⟨hm, hname⟩)
  have hroots : ∀ r ∈ initWorkList graph allGraphs, r ∈ allGraphs := by
    intro r hr
    rw [hinit] at hr
    exact List.mem_singleton.mp hr ▸ hm
  have hclosed : ∀ g ∈ allGraphs, ∀ h ∈ fnGraphs graph allGraphs g, h ∈ allGraphs :=
    fun g _ h hh => ((mem_fnGraphs hnames g h).mp hh).1
  refine ⟨Worklist.visitsLeft (fnGraphs graph allGraphs) allGraphs (initWorkList graph allGraphs) [],
    fun visits hvisits => ?_⟩
  obtain ⟨referenced, hrun, hreferenced⟩ := Worklist.closeOver_reachable hroots hclosed hvisits
  have hkept : ∀ g, g ∈ after allGraphs referenced ↔ ReachedFromMain graph allGraphs g := by
    intro g
    unfold after
    rw [List.mem_filter, decide_eq_true_eq, hreferenced, hinit, ← reachedFromMain_iff hnames hm hname]
    refine and_iff_right_of_imp ?_
    rintro ⟨m', hm', -, hpath⟩
    rcases hpath.cases_tail with rfl | ⟨_, _, hg, _⟩
    · exact hm'
    · exact hg
  refine ⟨after allGraphs referenced, congrArg (Option.map _) hrun, List.filter_sublist, hkept, ?_⟩
  intro g hg h hh hcalls
  obtain ⟨m', hm', hname', hpath⟩ := (hkept g).mp hg
  exact (hkept h).mpr ⟨m', hm', hname', hpath.tail ⟨hh, hcalls⟩⟩

/-- A graph with one call. -/
def oneCall (name callee : String) : IrGraph where
  name := name
  size := 3
  node := ![⟨.Block, 0, []⟩, ⟨.End, 0, [2]⟩, ⟨.Call callee, 0, []⟩]
  endNode := 1
  rank := ![0, 1, 0]
  rank_lt := by
    simp [Fin.forall_fin_succ, IrNode.isLoopBreaker, IrNode.isBlock, IrNode.uses]

/-- `main` calls `g`, which calls itself; nothing calls `f`. -/
def sampleGraphs : Fin 3 → IrGraph := ![oneCall "f" "print_int", oneCall "main" "g", oneCall "g" "g"]

theorem run_exact_sampleGraphs : ∃ enough, ∀ visits ≥ enough, ∃ kept, run sampleGraphs visits [0, 1, 2] = some kept ∧
    kept.Sublist [0, 1, 2] ∧ (∀ g, g ∈ kept ↔ ReachedFromMain sampleGraphs [0, 1, 2] g) ∧
      ∀ g ∈ kept, ∀ h ∈ [0, 1, 2], Calls sampleGraphs g h → h ∈ kept :=
  run_exact sampleGraphs [0, 1, 2] (by decide) (by decide)

example : run sampleGraphs 3 [0, 1, 2] = some [1, 2] := by decide

end UnusedFnRmPass

end Mjc.Irg

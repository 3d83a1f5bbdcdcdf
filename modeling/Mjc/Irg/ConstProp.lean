import Mathlib.Logic.Function.Basic
import Mjc.Irg.Graph
import Mjc.Worklist

/-!
# Constant propagation

`ConstPropPass` of `const_prop_pass.hpp`: the worklist phase. The nodes are visited by `FunctionPass::run`.

* `Tarvals` : the arithmetic of `ir_tarval`; `Val` : what the link of a node holds;
* `FirmGraph` : a graph with what the pass reads of its nodes;
* `maybeMarkControlFlow`, `setNodeLink`, `visitAdd` … `visitCmp`, `visitNode` : the visits;
* `constProp` : `initNodesTopological`, then visits until the queue is empty.
-/

namespace Mjc.Irg

set_option autoImplicit false

/-- `ir_mode`, the modes of the nodes that are built. -/
inductive Mode where
  | M | X | T | BB | b | Is | Ls | Bu | P
  deriving DecidableEq, Repr

/-- `ir_relation`, as far as `visitCmp` knows it. -/
inductive IrRelation where
  | equal | less | greater | less_equal | greater_equal | less_greater | other
  deriving DecidableEq, Repr

/-- Whether the relation that is asked for holds of operands with this relation; `none`: the assertion fails. -/
def IrRelation.holds (asked relation : IrRelation) : Option Bool :=
  match asked with
  | .equal => some (relation = .equal)
  | .less_greater => some (relation = .less || relation = .greater)
  | .less => some (relation = .less)
  | .less_equal => some (relation = .less || relation = .equal)
  | .greater => some (relation = .greater)
  | .greater_equal => some (relation = .greater || relation = .equal)
  | .other => none

/-- `ir_tarval`: constants and their arithmetic; `none` is `tarval_bad`. -/
structure Tarvals (T : Type) where
  add : T → T → Option T
  sub : T → T → Option T
  mul : T → T → Option T
  div : T → T → Option T
  mod : T → T → Option T
  neg : T → Option T
  not : T → Option T
  convert_to : Mode → T → Option T
  cmp : T → T → IrRelation
  b_true : T
  b_false : T
  eq_of_cmp : ∀ a b, cmp a b = .equal → a = b
  b_true_ne : b_true ≠ b_false

/-- The link of a node: `tarval_unknown`, `tarval_bad` or a constant. -/
inductive Val (T : Type) where
  | unknown
  | bad
  | const (t : T)
  deriving DecidableEq, Repr

/-- The result of a tarval function. -/
def Val.ofTarval {T : Type} : Option T → Val T
  | none => .bad
  | some t => .const t

/-- The nodes of an `ir_graph`: `tarval` is of a `Const`, `relation` of a `Cmp`, `projNum` of a `Proj`. -/
structure FirmGraph (T : Type) (size : Nat) where
  node : Fin size → IrNode size
  mode : Fin size → Mode
  tarval : Fin size → T
  relation : Fin size → IrRelation
  projNum : Fin size → Nat
  startBlock : Fin size
  endNode : Fin size

def pn_Cond_true : Nat := 1

/-- The link of every node, and `controlFlowVisited`. -/
structure ConstPropState (T : Type) (size : Nat) where
  link : Fin size → Val T
  controlFlowVisited : Fin size → Option Bool

variable {T : Type} {size : Nat}

/-- A visit: the state after it, and what it enqueues. -/
abbrev Visit (T : Type) (size : Nat) : Type := ConstPropState T size → ConstPropState T size × List (Fin size)

namespace Visit

def nothing : Visit T size := fun s => (s, [])

def enqueue (nodes : List (Fin size)) : Visit T size := fun s => (s, nodes)

/-- One after the other. -/
def andThen (first second : Visit T size) : Visit T size := fun s =>
  ((second (first s).1).1, (first s).2 ++ (second (first s).1).2)

end Visit

namespace FirmGraph

variable (tv : Tarvals T) (g : FirmGraph T size)

def opcode (n : Fin size) : Opcode := (g.node n).opcode

/-- `get_irn_n`. -/
def operand (n : Fin size) (i : Nat) : Fin size := (g.node n).ins.getD i n

/-- `get_nodes_block`. -/
def block (n : Fin size) : Fin size := (g.node n).block

/-- `get_Block_cfgpred_arr`. -/
def cfgpreds (b : Fin size) : List (Fin size) := (g.node b).ins

variable [DecidableEq T] (outs : Fin size → List (Fin size))

def setNodeLink (n : Fin size) (val : Val T) : Visit T size := fun s =>
  if s.link n = val then (s, []) else ({ s with link := Function.update s.link n val }, outs n)

def setControlFlow (n : Fin size) (taken : Bool) (s : ConstPropState T size) : ConstPropState T size :=
  { s with controlFlowVisited := Function.update s.controlFlowVisited n (some taken) }

/-- The control flow and the `Phi` nodes of the blocks that control enters by `n`. -/
def followers (n : Fin size) : List (Fin size) :=
  (outs n).flatMap fun targetBlock => (outs targetBlock).filter fun irn => g.mode irn = .X || g.opcode irn = .Phi

def maybeMarkControlFlow (n : Fin size) (taken : Bool) : Visit T size := fun s =>
  if s.controlFlowVisited n = some taken then (s, [])
  else if taken = false then (setControlFlow n taken s, [])
  else if g.block n = g.startBlock then (setControlFlow n taken s, [])
  else
    -- the predecessors that the pass has been to
    let visited := (g.cfgpreds (g.block n)).filterMap s.controlFlowVisited
    if visited = [] then (s, [n])
    else
      let currentlyTaken := visited.any fun predTaken => taken && predTaken
      (setControlFlow n currentlyTaken s, if currentlyTaken then g.followers outs n else [])

def transfer (left right : Val T) (evalFn : T → T → Option T) : Val T :=
  match left, right with
  | .bad, _ | _, .bad => .bad
  | .unknown, _ | _, .unknown => .unknown
  | .const l, .const r => .ofTarval (evalFn l r)

/-- The operators with one operand: anything but a constant stays. -/
def transferUnary (op : Val T) (evalFn : T → Option T) : Val T :=
  match op with
  | .const t => .ofTarval (evalFn t)
  | val => val

/-- The constant that a `Cmp` of constants is. -/
def evalCmp (asked : IrRelation) (l r : T) : Option T :=
  (asked.holds (tv.cmp l r)).map fun holds => if holds then tv.b_true else tv.b_false

/-- The loop of `visitPhi` over the operands with the predecessors of the block. -/
def phiVal (s : ConstPropState T size) : List (Fin size × Fin size) → Val T → Val T
  | [], val => val
  | (pred, blockPred) :: preds, val =>
    if s.controlFlowVisited blockPred = some false then phiVal s preds val
    else
      match val, s.link pred with
      | .bad, _ | _, .bad => .bad
      | .unknown, predVal => phiVal s preds predVal
      | .const v, .unknown => phiVal s preds (.const v)
      | .const v, .const p => if tv.cmp v p ≠ .equal then .bad else phiVal s preds (.const v)

def visitAdd (add : Fin size) : Visit T size := fun s =>
  setNodeLink outs add (transfer (s.link (g.operand add 0)) (s.link (g.operand add 1)) tv.add) s

def visitSub (sub : Fin size) : Visit T size := fun s =>
  setNodeLink outs sub (transfer (s.link (g.operand sub 0)) (s.link (g.operand sub 1)) tv.sub) s

def visitMul (mul : Fin size) : Visit T size := fun s =>
  setNodeLink outs mul (transfer (s.link (g.operand mul 0)) (s.link (g.operand mul 1)) tv.mul) s

/-- The first operand of a `Div` or `Mod` is the memory. -/
def visitDiv (div : Fin size) : Visit T size := fun s =>
  setNodeLink outs div (transfer (s.link (g.operand div 1)) (s.link (g.operand div 2)) tv.div) s

def visitMod (mod : Fin size) : Visit T size := fun s =>
  setNodeLink outs mod (transfer (s.link (g.operand mod 1)) (s.link (g.operand mod 2)) tv.mod) s

def visitMinus (minus : Fin size) : Visit T size := fun s =>
  setNodeLink outs minus (transferUnary (s.link (g.operand minus 0)) tv.neg) s

def visitNot (not : Fin size) : Visit T size := fun s =>
  setNodeLink outs not (transferUnary (s.link (g.operand not 0)) tv.not) s

def visitConv (conv : Fin size) : Visit T size := fun s =>
  setNodeLink outs conv (transferUnary (s.link (g.operand conv 0)) (tv.convert_to (g.mode conv))) s

def visitCond (cond : Fin size) : Visit T size := Visit.enqueue (outs cond)

/-- The `Cmp` that a control-flow `Proj` depends on. -/
def selector (proj : Fin size) : Fin size := g.operand (g.operand proj 0) 0

/-- Whether the exit of a `Cond` is taken, as far as the selector is known. -/
def projTaken (proj : Fin size) (s : ConstPropState T size) : Bool :=
  match s.link (g.selector proj) with
  | .const t => decide (t = tv.b_true) == decide (g.projNum proj = pn_Cond_true)
  | _ => true

def visitProj (proj : Fin size) : Visit T size :=
  Visit.andThen
    (if g.mode proj = .X then fun s => g.maybeMarkControlFlow outs proj (projTaken tv g proj s) s else Visit.nothing)
    (if g.mode proj ≠ .M then fun s => setNodeLink outs proj (s.link (g.operand proj 0)) s else Visit.nothing)

def visitJmp (jmp : Fin size) : Visit T size := g.maybeMarkControlFlow outs jmp true

def visitBad (bad : Fin size) : Visit T size :=
  if g.mode bad = .X then g.maybeMarkControlFlow outs bad false else Visit.nothing

def visitPhi (phi : Fin size) : Visit T size := fun s =>
  setNodeLink outs phi (phiVal tv s ((g.node phi).ins.zip (g.cfgpreds (g.block phi))) .unknown) s

/-- Where the assertion fails, `val` is of no meaning. -/
def visitCmp (cmp : Fin size) : Visit T size := fun s =>
  setNodeLink outs cmp
    (transfer (s.link (g.operand cmp 0)) (s.link (g.operand cmp 1)) (evalCmp tv (g.relation cmp))) s

/-- `visitNode`; there is nothing to do for the nodes that have no visit method. -/
def visitNode (n : Fin size) : Visit T size :=
  match g.opcode n with
  | .Add => visitAdd tv g outs n
  | .Sub => visitSub tv g outs n
  | .Mul => visitMul tv g outs n
  | .Div => visitDiv tv g outs n
  | .Mod => visitMod tv g outs n
  | .Minus => visitMinus tv g outs n
  | .Not => visitNot tv g outs n
  | .Conv => visitConv tv g outs n
  | .Cond => visitCond outs n
  | .Proj => visitProj tv g outs n
  | .Jmp => visitJmp g outs n
  | .Bad => visitBad g outs n
  | .Phi => visitPhi tv g outs n
  | .Cmp => visitCmp tv g outs n
  | _ => Visit.nothing

/-- `initConst`, `initAdd` … `initPhi`, `defaultInitOp`: the link that a node starts with. -/
def initVal (n : Fin size) : Val T :=
  match g.opcode n with
  | .Const => .const (g.tarval n)
  | .Add | .Sub | .Mul | .Div | .Mod | .Phi => .unknown
  | _ => .bad

def initState : ConstPropState T size := ⟨g.initVal, fun _ => none⟩

/-- The nodes that are enqueued: all but the constants. -/
def initQueue (order : List (Fin size)) : List (Fin size) := order.filter fun n => g.opcode n ≠ .Const

/-- What depends on what between the loop breakers has an order. -/
def Ranked (rank : Fin size → Nat) : Prop :=
  ∀ m n, (g.node m).isLoopBreaker = false → (g.node n).isLoopBreaker = false → n ∈ (g.node m).uses → rank n < rank m

/-- The graph that `init_topological` walks over. -/
def irGraph (rank : Fin size → Nat) (h : g.Ranked rank) : IrGraph :=
  ⟨"", size, g.node, g.endNode, rank, h⟩

/-- `run`, up to `after`: a walk to a depth of calls, then a number of visits. -/
def constProp (rank : Fin size → Nat) (h : g.Ranked rank) (depth visits : Nat) : Option (ConstPropState T size) :=
  ((g.irGraph rank h).initOrder depth).bind fun order =>
    Worklist.run (visitNode tv g outs) visits (g.initQueue order) g.initState

end FirmGraph

end Mjc.Irg

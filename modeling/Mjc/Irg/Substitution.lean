import Mjc.Irg.ConstProp

/-!
# Substitution of constants

`substituteNodes` of `const_prop_pass.hpp`. `exchange` takes the users of a node to a new one; a node that is new here
takes the place of the old one instead, and with it its users.

* `toConst`, `toJmp`, `toBad`, `exchangeMem` : the exchanges;
* `substituteNode` : a constant, or the exit of a `Cond` whose selector is one;
* `substNodesWalk` : the walk from the end, over the graph as it has become.

The graph is left as it is after the walk: what `remove_bads` and `remove_unreachable_code` of libfirm then do is not part
of it.
-/

namespace Mjc.Irg

set_option autoImplicit false

variable {T : Type} {size : Nat}

/-- A graph and its links. -/
structure Linked (T : Type) (size : Nat) where
  graph : FirmGraph T size
  link : Fin size → Val T

/-- `is_memop`; the memory is the first operand. -/
def Opcode.isMemop (o : Opcode) : Bool :=
  match o with
  | .Alloc | .Builtin | .Call _ | .CopyB | .Div | .Free | .Load | .Mod | .Raise | .Return | .Store => true
  | _ => false

namespace FirmGraph

variable (g : FirmGraph T size)

def setNode (n : Fin size) (node : IrNode size) : FirmGraph T size :=
  { g with node := Function.update g.node n node }

/-- `new_r_Const`, in the place of `n`. -/
def toConst (n : Fin size) (val : T) : FirmGraph T size :=
  { g.setNode n ⟨.Const, g.startBlock, []⟩ with tarval := Function.update g.tarval n val }

/-- `new_r_Jmp`, in the place of `n`. -/
def toJmp (n : Fin size) : FirmGraph T size := g.setNode n ⟨.Jmp, g.block n, []⟩

/-- `new_r_Bad`, in the place of `n`. -/
def toBad (n : Fin size) : FirmGraph T size := g.setNode n ⟨.Bad, g.startBlock, []⟩

/-- `exchange` by a node of the graph: the users of `old` go to `new`. -/
def reroute (old new : Fin size) : FirmGraph T size :=
  { g with
    node := fun n =>
      if n = old then ⟨.Deleted, g.block old, []⟩
      else { g.node n with ins := (g.node n).ins.map fun m => if m = old then new else m } }

end FirmGraph

namespace Linked

/-- `exchangeWithLink` by a node of the graph. -/
def exchangeMem (st : Linked T size) (old new : Fin size) : Linked T size :=
  ⟨st.graph.reroute old new, Function.update st.link new (st.link old)⟩

variable [DecidableEq T] (tv : Tarvals T) (outs : FirmGraph T size → Fin size → List (Fin size))

/-- The memory that follows a constant becomes the memory before it. -/
def bypassMem (st : Linked T size) (n : Fin size) : Linked T size :=
  if (st.graph.opcode n).isMemop then
    match (outs st.graph n).find? fun succ => st.graph.opcode succ = .Proj && st.graph.mode succ = .M with
    | some succ => st.exchangeMem succ (st.graph.operand n 0)
    | none => st
  else st

def substituteNode (st : Linked T size) (n : Fin size) : Linked T size :=
  if st.graph.opcode n = .Const then st
  else
    match st.link n with
    | .const val => { st.bypassMem outs n with graph := (st.bypassMem outs n).graph.toConst n val }
    | _ =>
      if st.graph.opcode n = .Proj ∧ st.graph.mode n = .X then
        match st.link (st.graph.selector n) with
        | .const cmpVal =>
          if decide (cmpVal = tv.b_true) == decide (st.graph.projNum n = pn_Cond_true) then
            { st with graph := st.graph.toJmp n }
          else { st with graph := st.graph.toBad n }
        | _ => st
      else st

/-- The nodes marked as visited, and the graph. -/
structure Walk (T : Type) (size : Nat) where
  visited : List (Fin size)
  linked : Linked T size

def Walk.mark (w : Walk T size) (irn : Fin size) : Walk T size := { w with visited := irn :: w.visited }

/-- `substNodesWalk`, to a depth of calls. The operands are read one by one, as the graph changes. -/
def substNodesWalk : Nat → Fin size → Walk T size → Option (Walk T size)
  | 0, _, _ => none
  | depth + 1, irn, w =>
    if irn ∈ w.visited then some w
    else
      let node := w.linked.graph.node irn
      let enter := if node.isLoopBreaker then w.mark irn else w
      ((if node.isBlock then some enter else substNodesWalk depth node.block enter).bind fun w =>
          (List.range node.ins.length).foldlM (fun w i =>
            match (w.linked.graph.node irn).ins[i]? with
            | some pred => substNodesWalk depth pred w
            | none => some w) w).map fun w =>
        if node.isLoopBreaker || irn ∉ w.visited then
          Walk.mark { w with linked := w.linked.substituteNode tv outs irn } irn
        else w.mark irn

/-- `substituteNodes`, up to what libfirm then removes. -/
def substituteNodes (depth : Nat) (st : Linked T size) : Option (Linked T size) :=
  (substNodesWalk tv outs depth st.graph.endNode ⟨[], st⟩).map Walk.linked

end Linked

/-- `run`: the propagation and then `after`. -/
def constPropPass [DecidableEq T] (tv : Tarvals T) (outs : FirmGraph T size → Fin size → List (Fin size))
    (g : FirmGraph T size) (rank : Fin size → Nat) (h : g.Ranked rank) (depth visits : Nat) :
    Option (FirmGraph T size) :=
  (g.constProp tv (outs g) rank h depth visits).bind fun s =>
    (Linked.substituteNodes tv outs depth ⟨g, s.link⟩).map Linked.graph

end Mjc.Irg

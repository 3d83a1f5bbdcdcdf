import Mjc.Dominance
import Mjc.Irg.ConstProp

/-!
# Executions of a graph

What a graph computes: control goes from block to block, and the nodes of a block take their values when it is entered.

* `Value`, `Env` : the value of every node, memory included; what the other nodes compute is a parameter;
* `result` : the value of a node that is no `Phi`;
* `Leaves`, `Enters`, `Run` : an execution, with the values after every block;
* `FirmGraph.Edge`, `WellFormed` : operands dominate their users.
-/

namespace Mjc.Irg

set_option autoImplicit false

open Dominance

/-- A value at run time: a constant of the arithmetic, or anything else, such as memory. -/
inductive Value (T W : Type) where
  | tarval (t : T)
  | other (w : W)
  deriving DecidableEq

namespace Value

variable {T W : Type}

/-- An operation on constants; `fallback` is what it does to anything else. -/
def binary (evalFn : T → T → Option T) (v w fallback : Value T W) : Value T W :=
  match v, w with
  | .tarval l, .tarval r => (evalFn l r).elim fallback .tarval
  | _, _ => fallback

def unary (evalFn : T → Option T) (v fallback : Value T W) : Value T W :=
  match v with
  | .tarval t => (evalFn t).elim fallback .tarval
  | _ => fallback

/-- The component of a tuple; a `Div` or a `Mod` has its quotient or remainder for a value. -/
def project (v fallback : Value T W) : Value T W :=
  match v with
  | .tarval t => .tarval t
  | _ => fallback

end Value

/-- The values of the nodes, since they were last evaluated. -/
abbrev Env (T W : Type) (size : Nat) : Type := Fin size → Value T W

/-- `Div` and `Mod`, whose first operand is the memory that they leave alone. -/
def Opcode.isDivision (o : Opcode) : Bool := o = .Div || o = .Mod

/-- The operands that an operation reads by their index. -/
def Opcode.arity : Opcode → Nat
  | .Add | .Sub | .Mul | .Cmp => 2
  | .Div | .Mod => 3
  | .Minus | .Not | .Conv | .Cond | .Proj => 1
  | _ => 0

namespace FirmGraph

variable {T W : Type} {size : Nat} (tv : Tarvals T) (apply : Fin size → List (Value T W) → Value T W)
  (g : FirmGraph T size)

/-- The value of a node from those of its operands. Control flow has no value, nor have the end and what was deleted. -/
def result (env : Env T W size) (n : Fin size) : Value T W :=
  if g.mode n = .X then apply n []
  else
    match g.opcode n with
    | .Const => .tarval (g.tarval n)
    | .Add => Value.binary tv.add (env (g.operand n 0)) (env (g.operand n 1)) (apply n ((g.node n).ins.map env))
    | .Sub => Value.binary tv.sub (env (g.operand n 0)) (env (g.operand n 1)) (apply n ((g.node n).ins.map env))
    | .Mul => Value.binary tv.mul (env (g.operand n 0)) (env (g.operand n 1)) (apply n ((g.node n).ins.map env))
    | .Div => Value.binary tv.div (env (g.operand n 1)) (env (g.operand n 2)) (apply n ((g.node n).ins.map env))
    | .Mod => Value.binary tv.mod (env (g.operand n 1)) (env (g.operand n 2)) (apply n ((g.node n).ins.map env))
    | .Cmp =>
      Value.binary (evalCmp tv (g.relation n)) (env (g.operand n 0)) (env (g.operand n 1))
        (apply n ((g.node n).ins.map env))
    | .Minus => Value.unary tv.neg (env (g.operand n 0)) (apply n ((g.node n).ins.map env))
    | .Not => Value.unary tv.not (env (g.operand n 0)) (apply n ((g.node n).ins.map env))
    | .Conv => Value.unary (tv.convert_to (g.mode n)) (env (g.operand n 0)) (apply n ((g.node n).ins.map env))
    | .Proj =>
      if g.mode n = .M && (g.opcode (g.operand n 0)).isDivision then env (g.operand (g.operand n 0) 0)
      else Value.project (env (g.operand n 0)) (apply n ((g.node n).ins.map env))
    | .End | .Deleted => apply n []
    | _ => apply n ((g.node n).ins.map env)

/-- A node that control may leave its block by. -/
def isExit (x : Fin size) : Bool := g.opcode x = .Jmp || (g.opcode x = .Proj && g.mode x = .X)

/-- Control leaves block `a` by `x`. -/
structure Leaves (env : Env T W size) (a x : Fin size) : Prop where
  block : g.block x = a
  exit : g.isExit x = true
  proj : g.opcode x = .Proj → (env (g.selector x) = .tarval tv.b_true ↔ g.projNum x = pn_Cond_true)

/-- Control enters block `b` by its `i`-th predecessor: the `Phi` nodes take their values at once, and the other nodes
of the block follow. -/
structure Enters (b : Fin size) (i : Nat) (env env' : Env T W size) : Prop where
  frame : ∀ n, g.block n ≠ b → env' n = env n
  phi : ∀ n, (g.node n).isBlock = false → g.block n = b → g.opcode n = .Phi → env' n = env (g.operand n i)
  result : ∀ n, (g.node n).isBlock = false → g.block n = b → g.opcode n ≠ .Phi → env' n = g.result tv apply env' n

/-- An execution: the blocks, the last one first, with the values after each. -/
inductive Run : List (Fin size × Env T W size) → Prop where
  | start {env : Env T W size} :
    (∀ n, (g.node n).isBlock = false → g.block n = g.startBlock → env n = g.result tv apply env n) →
      Run [(g.startBlock, env)]
  | step {a b x : Fin size} {i : Nat} {env env' : Env T W size} {h : List (Fin size × Env T W size)} :
    Run ((a, env) :: h) → Leaves tv g env a x → (g.node b).isBlock = true → (g.cfgpreds b)[i]? = some x →
      Enters tv apply g b i env env' → Run ((b, env') :: (a, env) :: h)

/-- An edge of the control-flow graph. -/
def Edge (a b : Fin size) : Prop :=
  (g.node b).isBlock = true ∧ ∃ x ∈ g.cfgpreds b, g.isExit x = true ∧ g.block x = a

/-- `a` dominates `b`. -/
abbrev Dom (a b : Fin size) : Prop := Dominates g.Edge g.startBlock a b

/-- The graphs that are built. The values that the pass computes with are not memory; control flow is no value. -/
structure WellFormed : Prop where
  ranked : ∃ rank, g.Ranked rank
  arity : ∀ n, (g.opcode n).arity ≤ (g.node n).ins.length
  proj_length : ∀ n, g.opcode n = .Proj → (g.node n).ins.length = 1
  phi_length : ∀ n, g.opcode n = .Phi → (g.node n).ins.length = (g.cfgpreds (g.block n)).length
  block_isBlock : ∀ n, (g.node n).isBlock = false → (g.node (g.block n)).isBlock = true
  cfgpred_mode : ∀ b, (g.node b).isBlock = true → ∀ x ∈ g.cfgpreds b, g.mode x = .X
  start_isBlock : (g.node g.startBlock).isBlock = true
  start_ins : g.cfgpreds g.startBlock = []
  start_phi : ∀ n, g.opcode n = .Phi → g.block n ≠ g.startBlock
  start_end : ∀ n, g.opcode n = .End → g.block n ≠ g.startBlock
  operand_dom : ∀ n, (g.node n).isBlock = false → g.opcode n ≠ .End → g.opcode n ≠ .Phi →
    ∀ m ∈ (g.node n).ins, (g.node m).isBlock = false ∧ g.Dom (g.block m) (g.block n)
  phi_dom : ∀ (n m x : Fin size) (i : Nat), g.opcode n = .Phi → (g.node n).ins[i]? = some m →
    (g.cfgpreds (g.block n))[i]? = some x → g.isExit x = true →
      (g.node m).isBlock = false ∧ g.Dom (g.block m) (g.block x)
  phi_mode : ∀ n, g.opcode n = .Phi → g.mode n ≠ .X ∧ ∀ m ∈ (g.node n).ins, (g.mode m = .M ↔ g.mode n = .M)
  no_value : ∀ n, g.mode n = .M ∨ g.mode n = .X → g.opcode n ≠ .Const ∧ ((g.opcode n).arity = 0 ∨ g.opcode n = .Proj)
  operand_memory : ∀ n, ∀ i < (g.opcode n).arity,
    (g.mode (g.operand n i) = .M ↔ (g.opcode n).isDivision = true ∧ i = 0)
  jmp_mode : ∀ n, g.opcode n = .Jmp → g.mode n = .X
  proj_cond : ∀ n, g.opcode n = .Proj → g.mode n = .X → g.opcode (g.operand n 0) = .Cond
  memory_proj : ∀ n n', g.opcode n = .Proj → g.opcode n' = .Proj → g.mode n = .M → g.mode n' = .M →
    g.operand n 0 = g.operand n' 0 → (g.opcode (g.operand n 0)).isDivision = true → n = n'

end FirmGraph

end Mjc.Irg

import Mjc.Asm.Machine
import Mjc.Asm.SlotManager
import Mjc.Firm.Widths

/-!
# Code for straight-line nodes

The visit functions of `AsmMethodPass` for the nodes of a straight-line sequence, as `asm_pass.cpp` has them.
The instructions go to the end of the block's list, so a visit function returns those it adds.

* `getNodeOp` : the operand a node's value is read from: an immediate for a constant and for a `Conv` of one,
  the node's stack slot else;
* `lower` : the code of a sequence and the stack slots of its nodes.
-/

namespace Mjc.Asm
open Mjc.Firm StackSlotManager

set_option autoImplicit false

def getRegMode : Mode → RegMode
  | .Is => .E
  | .P => .R
  | .Bu => .L
  | .Ls => .R

/-- The conversion of a `long` to the `int` of an immediate. -/
def toImm (tarval : Int) : Int := (BitVec.ofInt 32 tarval).toInt

/-- The immediate that stands for a node, if there is one. -/
def immOf (nodes : List Node) (x : Nat) : Option Int :=
  match nodes[x]? with
  | some (.const _ v) => some (toImm v)
  | some (.conv _ c) =>
    match nodes[c]? with
    | some (.const _ v) => some (toImm v)
    | _ => none
  | _ => none

def getNodeOp (nodes : List Node) (x : Nat) : Gen Op :=
  match immOf nodes x with
  | some v => pure (.imm v)
  | none => do
    let offset ← getStackSlot x
    pure (.ind .bp .R offset)

def visitConv (nodes : List Node) (node pred : Nat) : Gen (List Instr) :=
  if isConst nodes pred then pure []
  else do
    copySlot pred node
    pure []

/-- Load the first operand into `%rbx`, combine it with the second one, store the result. -/
def binaryCode (mnemonic : Mnemonic) (firstOp secondOp nodeOp : Op) : List Instr :=
  [⟨.Mov, [firstOp, rbx]⟩, ⟨mnemonic, [secondOp, rbx]⟩, ⟨.Mov, [rbx, nodeOp]⟩]

def visitBinary (nodes : List Node) (node : Nat) (mnemonic : Mnemonic) (first second : Nat) :
    Gen (List Instr) := do
  let firstOp ← getNodeOp nodes first
  let secondOp ← getNodeOp nodes second
  let nodeOp ← getNodeOp nodes node
  pure (binaryCode mnemonic firstOp secondOp nodeOp)

/-- `visitAdd`: a constant is always the second operand. -/
def visitAdd (nodes : List Node) (node left right : Nat) : Gen (List Instr) :=
  if isConst nodes right then visitBinary nodes node .Add left right
  else visitBinary nodes node .Add right left

def visitSub (nodes : List Node) (node left right : Nat) : Gen (List Instr) :=
  visitBinary nodes node .Sub left right

def visitMul (nodes : List Node) (node left right : Nat) : Gen (List Instr) :=
  visitBinary nodes node .IMul right left

/-- Move an operand of a division, with the sign of its 32 bits, into a register. -/
def divOperand (op : Op) (reg : RegName) : List Instr :=
  match op with
  | .imm _ => [⟨.Mov, [op, .reg reg .R]⟩, ⟨.Movslq, [.reg reg .E, .reg reg .R]⟩]
  | _ => [⟨.Movslq, [op, .reg reg .R]⟩]

/-- A division, its result in the register `result`. -/
def divisionCode (result : RegName) (leftOp rightOp nodeOp : Op) : List Instr :=
  divOperand leftOp .ax ++ (divOperand rightOp .cx ++
    [⟨.Cqto, []⟩, ⟨.Div, [rcx]⟩, ⟨.Movq, [.reg result .R, nodeOp]⟩])

def visitDivision (nodes : List Node) (node : Nat) (result : RegName) (left right : Nat) : Gen (List Instr) := do
  let leftOp ← getNodeOp nodes left
  let rightOp ← getNodeOp nodes right
  let nodeOp ← getNodeOp nodes node
  pure (divisionCode result leftOp rightOp nodeOp)

def visitDiv (nodes : List Node) (node left right : Nat) : Gen (List Instr) :=
  visitDivision nodes node .ax left right

def visitMod (nodes : List Node) (node left right : Nat) : Gen (List Instr) :=
  visitDivision nodes node .dx left right

/-- The three moves of a `Load`. -/
def loadCode (mode : RegMode) (ptrOp nodeOp : Op) : List Instr :=
  [makeMov .R ptrOp rbx, makeMov mode (.ind .bx .R 0) (.reg .cx mode), ⟨.Movq, [rcx, nodeOp]⟩]

def visitLoad (nodes : List Node) (node : Nat) (mode : Mode) (ptr : Nat) : Gen (List Instr) := do
  let ptrOp ← getNodeOp nodes ptr
  let nodeOp ← getNodeOp nodes node
  pure (loadCode (getRegMode mode) ptrOp nodeOp)

/-- The moves of a `Store`. -/
def storeCode (mode : RegMode) (destOp sourceOp : Op) : List Instr :=
  match sourceOp with
  | .imm _ => [makeMov .R destOp rbx, makeMov mode sourceOp (.ind .bx .R 0)]
  | _ => [makeMov .R destOp rbx, makeMov .R sourceOp (.reg .cx .R), makeMov mode (.reg .cx mode) (.ind .bx .R 0)]

def visitStore (nodes : List Node) (mode : Mode) (value ptr : Nat) : Gen (List Instr) :=
  if modeAt nodes ptr ≠ some .P then failure
  else do
    let destOp ← getNodeOp nodes ptr
    let sourceOp ← getNodeOp nodes value
    pure (storeCode (getRegMode mode) destOp sourceOp)

/-- The moves of a `Minus`. -/
def minusCode (mode : RegMode) (sourceOp nodeOp : Op) : List Instr :=
  [⟨.Mov, [sourceOp, .reg .bx mode]⟩, ⟨.Neg, [.reg .bx mode]⟩, makeMov mode (.reg .bx mode) nodeOp]

def visitMinus (nodes : List Node) (node : Nat) (mode : Mode) (op : Nat) : Gen (List Instr) := do
  let sourceOp ← getNodeOp nodes op
  let nodeOp ← getNodeOp nodes node
  pure (minusCode (getRegMode mode) sourceOp nodeOp)

/-- The visit of a node. -/
def visitNode (nodes : List Node) (i : Nat) : Node → Gen (List Instr)
  | .const _ _ => pure []
  | .add _ l r => visitAdd nodes i l r
  | .sub _ l r => visitSub nodes i l r
  | .mul _ l r => visitMul nodes i l r
  | .minus m x => visitMinus nodes i m x
  | .div l r => visitDiv nodes i l r
  | .mod l r => visitMod nodes i l r
  | .conv _ x => visitConv nodes i x
  | .load m p => visitLoad nodes i m p
  | .store m v p => visitStore nodes m v p

/-- The code of the nodes from position `i` on. -/
def lowerFrom (nodes : List Node) : Nat → List Node → Gen (List Instr)
  | _, [] => pure []
  | i, n :: ns => do
    let is ← visitNode nodes i n
    let js ← lowerFrom nodes (i + 1) ns
    pure (is ++ js)

/-- The code of a sequence, and the slot manager after it. -/
def lower (nodes : List Node) : Option (List Instr × StackSlotManager) :=
  lowerFrom nodes 0 nodes StackSlotManager.init

end Mjc.Asm

import Mjc.Asm.Jumps
import Mjc.Asm.Lower

/-!
# The code of a block

What `AsmMethodPass` pushes into the lists of a block, with the operands of the nodes at hand.

* `NodeCode.code` : the visit functions of the nodes that push into `instrs`; `CallCode` is `visitCall`;
* `StartPhi.code`, `PhiMove.code` : `generateBoolPhi`, `generateSwapPhi` and `generateNormalPhi`, in the block of the
  `Phi` and in the blocks before it;
* `BlockCode.emit` : the lists of a block; `WellFormed` : what holds of the blocks of one function.
-/

namespace Mjc.Asm

set_option autoImplicit false

/-! ## Nodes -/

/-- A call: of `print_int` or `write_int`, of `allocate`, or of a method (as which `read_int` and `flush_int` count). -/
inductive CallCode where
  | print (funcName : String) (p : NodeOp)
  | allocate (n size : NodeOp) (nMode sizeMode : RegMode)
  | method (funcName : String) (params : List NodeOp)
  deriving DecidableEq, Repr

/-- Put a parameter at an offset of `%rsp`, through `%rcx` unless it is a constant. -/
def paramCode (offset : Int) : NodeOp → List Instr
  | .const value => [⟨.Movq, [.imm value, .ind .sp .R offset]⟩]
  | .slot slot => [⟨.Mov, [slotOp slot, rcx]⟩, ⟨.Movq, [rcx, .ind .sp .R offset]⟩]

def paramsCode : Int → List NodeOp → List Instr
  | _, [] => []
  | offset, p :: ps => paramCode offset p ++ paramsCode (offset + 8) ps

def CallCode.addSize : CallCode → Int
  | .method _ params => params.length * 8
  | _ => 0

def CallCode.before : CallCode → List Instr
  | .print _ p => [⟨.Mov, [p.op, .reg .di .R]⟩]
  | .allocate n size nMode sizeMode => [⟨.Mov, [n.op, .reg .di nMode]⟩, ⟨.Mov, [size.op, .reg .si sizeMode]⟩]
  | .method funcName params =>
    (if 0 < (CallCode.method funcName params).addSize then
      [⟨.Sub, [.imm (CallCode.method funcName params).addSize, rsp]⟩] else []) ++ paramsCode 0 params

def CallCode.callee : CallCode → String
  | .print funcName _ | .method funcName _ => funcName
  | .allocate _ _ _ _ => "calloc"

/-- The code behind the call, which gives the arguments' stack back and stores the result. -/
def CallCode.after (c : CallCode) (resultProj : Option Int) : List Instr :=
  (if 0 < c.addSize then [⟨.Add, [.imm c.addSize, rsp]⟩] else []) ++
    (resultProj.map fun slot => ⟨.Mov, [rax, slotOp slot]⟩).toList

def CallCode.code (c : CallCode) (resultProj : Option Int) : List Instr :=
  c.before ++ ⟨.Call, [.str c.callee]⟩ :: c.after resultProj

/-- A visited node that pushes into `instrs`, with the operands of its predecessors and its own slot. -/
inductive NodeCode where
  | add (firstOp secondOp : NodeOp) (slot : Int)
  | sub (leftOp rightOp : NodeOp) (slot : Int)
  | mul (rightOp leftOp : NodeOp) (slot : Int)
  | div (leftOp rightOp : NodeOp) (succ : Option Int)
  | mod (leftOp rightOp : NodeOp) (succ : Option Int)
  | minus (mode : RegMode) (sourceOp : NodeOp) (slot : Int)
  | load (mode : RegMode) (ptrOp : NodeOp) (slot : Int)
  | store (mode : RegMode) (destOp sourceOp : NodeOp)
  | call (c : CallCode) (resultProj : Option Int)
  | ret (op : Option NodeOp)
  deriving DecidableEq

/-- `visitDiv` and `visitMod`; nothing is stored if the result is not used. Built with assertions, `visitMod` does not come
that far: it asserts that there is a `Proj` before it asks. -/
def divModCode (result : RegName) (leftOp rightOp : Op) : Option Int → List Instr
  | some succ => divisionCode result leftOp rightOp (slotOp succ)
  | none => divOperand leftOp .ax ++ (divOperand rightOp .cx ++ [⟨.Cqto, []⟩, ⟨.Div, [rcx]⟩])

def NodeCode.code : NodeCode → List Instr
  | .add firstOp secondOp slot => binaryCode .Add firstOp.op secondOp.op (slotOp slot)
  | .sub leftOp rightOp slot => binaryCode .Sub leftOp.op rightOp.op (slotOp slot)
  | .mul rightOp leftOp slot => binaryCode .IMul rightOp.op leftOp.op (slotOp slot)
  | .div leftOp rightOp succ => divModCode .ax leftOp.op rightOp.op succ
  | .mod leftOp rightOp succ => divModCode .dx leftOp.op rightOp.op succ
  | .minus mode sourceOp slot => minusCode mode sourceOp.op (slotOp slot)
  | .load mode ptrOp slot => loadCode mode ptrOp.op (slotOp slot)
  | .store mode destOp sourceOp => storeCode mode destOp.op sourceOp.op
  | .call c resultProj => c.code resultProj
  | .ret op => (op.map fun op => ⟨.Mov, [op.op, rax]⟩).toList

/-! ## Phis -/

/-- Move an operand into a slot, through `%r15` unless it is a constant. -/
def phiMoveCode (src : NodeOp) (slot : Int) : List Instr :=
  match src with
  | .const value => [⟨.Movq, [.imm value, slotOp slot]⟩]
  | .slot offset => [⟨.Movq, [slotOp offset, .reg .r15 .R]⟩, ⟨.Movq, [.reg .r15 .R, slotOp slot]⟩]

/-- What a `Phi` pushes into the start of its own block. -/
inductive StartPhi where
  /-- `generateBoolPhi`: both values come from the block that ends with the comparison. -/
  | bool (node : Nat) (relation : IrRelation) (truePred falsePred : NodeOp) (slot : Int)
  /-- `generateSwapPhi` saves the old value in the tmp slot. -/
  | swap (slot tmpSlot : Int)
  /-- `generateNormalPhi` with `writeInTmpSlot`. -/
  | normal (slot tmpSlot : Int)
  deriving DecidableEq

def falseLabel (node : Nat) : String := "false_" ++ toString node
def phiLabel (node : Nat) : String := "phi_" ++ toString node

def StartPhi.code : StartPhi → Option (List Instr)
  | .bool node relation truePred falsePred slot => do
    let inverse ← getInverseRelation relation
    some (makeJump (falseLabel node) inverse :: phiMoveCode truePred slot ++ makeJump (phiLabel node) .true ::
      ⟨.Label, [.str (falseLabel node)]⟩ :: phiMoveCode falsePred slot ++ [⟨.Label, [.str (phiLabel node)]⟩])
  | .swap slot tmpSlot => some [⟨.Movq, [slotOp slot, .reg .r15 .R]⟩, ⟨.Movq, [.reg .r15 .R, slotOp tmpSlot]⟩]
  | .normal slot tmpSlot => some [⟨.Movq, [slotOp slot, rbx]⟩, ⟨.Movq, [rbx, slotOp tmpSlot]⟩]

/-- What a `Phi` pushes into a block before its own. -/
inductive PhiMove where
  /-- `generateNormalPhi`. -/
  | normal (src : NodeOp) (slot : Int)
  /-- `generateSwapPhi`, which takes constants through `%r15` too. -/
  | swap (src : NodeOp) (slot : Int)
  deriving DecidableEq

def PhiMove.code : PhiMove → List Instr
  | .normal src slot => phiMoveCode src slot
  | .swap src slot => [⟨.Movq, [src.op, .reg .r15 .R]⟩, ⟨.Movq, [.reg .r15 .R, slotOp slot]⟩]

/-! ## Blocks -/

structure BlockCode where
  node : Nat
  startPhis : List StartPhi
  body : List NodeCode
  phiMoves : List PhiMove
  exit : BlockExit

/-- The lists that the visits leave behind. -/
def BlockCode.emit (b : BlockCode) : Option BasicBlock := do
  let startPhiInstrs ← b.startPhis.mapM StartPhi.code
  let jumpInstrs ← b.exit.jumpInstrs
  some {
    node := b.node
    startPhiInstrs := startPhiInstrs.flatten
    instrs := b.body.flatMap NodeCode.code
    phiInstrs := b.phiMoves.flatMap PhiMove.code
    jumpInstrs := jumpInstrs
    flattenedInstrs := [] }

def StartPhi.isBool : StartPhi → Bool
  | .bool _ _ _ _ _ => true
  | _ => false

/-- The blocks of a function. The end block, if it can be reached, is the last one, and no other block lacks a jump. A
bool `Phi` has both its values from one block: the only one that goes to the block of the `Phi`, on both sides of a
comparison. -/
structure WellFormed (bs : List BlockCode) : Prop where
  nodup : (bs.map BlockCode.node).Nodup
  leave : ∀ i b, bs[i]? = some b → b.exit = .leave → i + 1 = bs.length
  bool : ∀ b ∈ bs, ∀ phi ∈ b.startPhis, phi.isBool = true → ∀ pred ∈ bs, b.node ∈ pred.exit.targets →
    ∃ mode leftOp rightOp relation, pred.exit = .cond mode leftOp rightOp relation b.node b.node

end Mjc.Asm

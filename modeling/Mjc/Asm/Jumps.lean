import Mjc.Asm.Function

/-!
# Jumps

How `AsmMethodPass` ends a block.

* `getInverseRelation`, `makeJump` : the relations of `Cmp` nodes and their jumps; `taken_inverse` : of the jumps on
  a relation and on its inverse, exactly one is taken;
* `NodeOp` : what `getNodeOp` returns;
* `BlockExit.jumpInstrs` : what `visitCmp`, `visitCond`, `visitJmp` and `visitReturn` push;
* `JumpShape` : the jump lists that come out of it.
-/

namespace Mjc.Asm

set_option autoImplicit false

/-- `ir_relation`, as far as a `Cmp` of this compiler or a jump has one. -/
inductive IrRelation where
  | equal | lessGreater | greater | less | lessEqual | greaterEqual | true
  deriving DecidableEq, Repr

/-- `getInverseRelation`; it asserts that the relation is one of the six. -/
def getInverseRelation : IrRelation → Option IrRelation
  | .equal => some .lessGreater
  | .lessGreater => some .equal
  | .greater => some .lessEqual
  | .less => some .greaterEqual
  | .lessEqual => some .greater
  | .greaterEqual => some .less
  | .true => none

/-- The mnemonic that `makeJump` chooses. -/
def IrRelation.jump : IrRelation → Mnemonic
  | .equal => .Je
  | .lessGreater => .Jne
  | .true => .Jmp
  | .greater => .Jg
  | .greaterEqual => .Jge
  | .less => .Jl
  | .lessEqual => .Jle

def makeJump (target : String) (relation : IrRelation) : Instr := ⟨relation.jump, [.str target]⟩

theorem taken_inverse {relation inverse : IrRelation} (h : getInverseRelation relation = some inverse) (f : Flags) :
    taken f inverse.jump = !taken f relation.jump := by
  obtain ⟨zf, sf, of⟩ := f
  cases relation <;> cases h <;> simp [IrRelation.jump, taken] <;> cases sf <;> cases of <;> rfl

theorem exec_makeJump (env : Env) (s : State) (target : String) (relation : IrRelation) :
    exec env (makeJump target relation) s = some (s, if taken s.flags relation.jump then some target else none) := by
  unfold makeJump exec
  cases relation <;> simp [oneMemory, IrRelation.jump] <;> rfl

theorem stepInstr_makeJump (env : Env) (s : State) (target : String) (relation : IrRelation) :
    stepInstr env (s, none) (makeJump target relation) =
      some (s, if taken s.flags relation.jump then some target else none) :=
  exec_makeJump env s target relation

theorem stepInstr_makeJump_pending (env : Env) (s : State) (label target : String) (relation : IrRelation) :
    stepInstr env (s, some label) (makeJump target relation) = some (s, some label) := by
  unfold stepInstr makeJump
  cases relation <;> simp [IrRelation.jump]

/-! ## The end of a block -/

/-- What `getNodeOp` returns: a constant, or the stack slot of the node. -/
inductive NodeOp where
  | const (value : Int)
  | slot (offset : Int)
  deriving DecidableEq, Repr

/-- The stack slot at an offset. -/
def slotOp (offset : Int) : Op := .ind .bp .R offset

def NodeOp.op : NodeOp → Op
  | .const value => .imm value
  | .slot offset => slotOp offset

/-- What `visitCmp` pushes. -/
def compareCode (leftRegMode : RegMode) (leftOp rightOp : Op) : List Instr :=
  [makeMov leftRegMode leftOp (.reg .bx leftRegMode), ⟨.Cmp, [rightOp, .reg .bx leftRegMode]⟩]

/-- What ends a block: nothing (the end block), a `Jmp` or `Return`, or a `Cond` with its `Cmp`. -/
inductive BlockExit where
  | leave
  | jmp (jumpTarget : Nat)
  | cond (leftRegMode : RegMode) (leftOp rightOp : NodeOp) (relation : IrRelation) (trueBlock falseBlock : Nat)
  deriving DecidableEq

/-- The jump list of a block. -/
def BlockExit.jumpInstrs : BlockExit → Option (List Instr)
  | .leave => some []
  | .jmp jumpTarget => some [makeJump (getBlockLabel jumpTarget) .true]
  | .cond leftRegMode leftOp rightOp relation trueBlock falseBlock =>
    if falseBlock = trueBlock then
      some (compareCode leftRegMode leftOp.op rightOp.op ++ [makeJump (getBlockLabel trueBlock) .true])
    else do
      let inverse ← getInverseRelation relation
      some (compareCode leftRegMode leftOp.op rightOp.op ++
        [makeJump (getBlockLabel trueBlock) relation, makeJump (getBlockLabel falseBlock) inverse])

/-- The blocks that control can go to. -/
def BlockExit.targets : BlockExit → List Nat
  | .leave => []
  | .jmp jumpTarget => [jumpTarget]
  | .cond _ _ _ _ trueBlock falseBlock => [trueBlock, falseBlock]

/-- The shapes of jump lists. -/
inductive JumpShape : List Instr → Prop where
  | empty : JumpShape []
  | jmp (target : Nat) : JumpShape [makeJump (getBlockLabel target) .true]
  | cond (mode : RegMode) (leftOp rightOp : Op) {relation inverse : IrRelation}
      (h : getInverseRelation relation = some inverse) (trueBlock falseBlock : Nat) :
      JumpShape (compareCode mode leftOp rightOp ++
        [makeJump (getBlockLabel trueBlock) relation, makeJump (getBlockLabel falseBlock) inverse])
  | boolean (mode : RegMode) (leftOp rightOp : Op) (target : Nat) :
      JumpShape (compareCode mode leftOp rightOp ++ [makeJump (getBlockLabel target) .true])

theorem BlockExit.jumpShape {e : BlockExit} {js : List Instr} (h : e.jumpInstrs = some js) : JumpShape js := by
  cases e with
  | leave =>
    cases h
    exact .empty
  | jmp target =>
    cases h
    exact .jmp target
  | cond mode leftOp rightOp relation trueBlock falseBlock =>
    simp only [BlockExit.jumpInstrs] at h
    by_cases heq : falseBlock = trueBlock
    · rw [if_pos heq] at h
      cases h
      exact .boolean mode leftOp.op rightOp.op trueBlock
    · rw [if_neg heq] at h
      obtain ⟨inverse, hinverse, hjs⟩ := Option.bind_eq_some_iff.1 h
      cases hjs
      exact .cond mode leftOp.op rightOp.op hinverse trueBlock falseBlock

end Mjc.Asm

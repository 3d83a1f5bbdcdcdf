import Mathlib.Data.List.Nodup
import Mjc.Asm.Machine
import Mjc.Lockstep

/-!
# Functions of basic blocks

`BasicBlock` and `Function` of `asm.hpp`, and how control moves in the text that is written for a function.

* `getBlockLabel_inj` : two blocks have two labels;
* `BasicBlock.lists` : the instruction lists of a block one after another, as `flattenInstrs` copies them;
* `stepBlock` : from the start of a block to the start of the next one. A block without a taken jump falls through;
  behind the last block is the epilog.
-/

namespace Mjc.Asm
open Mjc.Lockstep

set_option autoImplicit false

/-! ## Blocks -/

/-- `getBlockLabel`, of the block node with this number. -/
def getBlockLabel (node : Nat) : String := ".L" ++ toString node

theorem getBlockLabel_inj {m n : Nat} : getBlockLabel m = getBlockLabel n ↔ m = n := by
  constructor
  · intro h
    have hdigits : toString m = toString n := (String.append_right_inj ".L").1 h
    have := congrArg (fun s : String => Nat.ofDigitChars 10 s.toList 0) hdigits
    simpa [Nat.toString_eq_repr, Nat.toList_repr] using this
  · rintro rfl
    rfl

structure BasicBlock where
  node : Nat
  startPhiInstrs : List Instr
  phiInstrs : List Instr
  instrs : List Instr
  jumpInstrs : List Instr
  flattenedInstrs : List Instr
  deriving DecidableEq

def BasicBlock.getLabelStr (b : BasicBlock) : String := getBlockLabel b.node

/-- The instruction lists in the order in which `flattenInstrs` goes through them. -/
def BasicBlock.lists (b : BasicBlock) : List Instr := b.startPhiInstrs ++ b.instrs ++ b.phiInstrs ++ b.jumpInstrs

def BasicBlock.flattenInstrs (b : BasicBlock) : Option BasicBlock :=
  if b.flattenedInstrs = [] then some { b with flattenedInstrs := b.lists } else none

/-- `Function`: `newBB` runs once for a block node. -/
structure Function where
  fnName : String
  arSize : Int
  orderedBasicBlocks : List BasicBlock
  nodup : (orderedBasicBlocks.map BasicBlock.node).Nodup

/-- The text of some blocks: labels, each with the instructions up to the next label. -/
abbrev Text := List (String × List Instr)

/-- The text before `flattenInstrs`. -/
def textOf (bs : List BasicBlock) : Text := bs.map fun b => (b.getLabelStr, b.lists)

/-- The text that `Function::write` writes between prolog and epilog. -/
def flatTextOf (bs : List BasicBlock) : Text := bs.map fun b => (b.getLabelStr, b.flattenedInstrs)

/-! ## Control flow -/

/-- The lists before the jumps. -/
def BasicBlock.beforeJumps (b : BasicBlock) : List Instr := b.startPhiInstrs ++ b.instrs ++ b.phiInstrs

theorem runBlock_lists (env : Env) (b : BasicBlock) (c : State × Option String) :
    runBlock env b.lists c = (runBlock env b.beforeJumps c).bind (runBlock env b.jumpInstrs) :=
  runBlock_append env b.beforeJumps b.jumpInstrs c

/-- The position of a label; a label outside of the text is not jumped to. -/
def blockAt (text : Text) (label : String) : Option Nat := text.findIdx? (·.1 = label)

/-- Where control goes from the end of block `i`. -/
def exitTo (text : Text) (i : Nat) (c : State × Option String) : Option (Nat × State) :=
  match c.2 with
  | none => some (i + 1, c.1)
  | some label => (·, c.1) <$> blockAt text label

/-- From the start of a block to the start of the next one; the epilog is at position `text.length`. -/
def stepBlock (env : Env) (text : Text) (c : Nat × State) : Option (Nat × State) :=
  (text[c.1]?).bind fun block => (runBlock env block.2 (c.2, none)).bind (exitTo text c.1)

/-- The label of the block at a position; `none` is the epilog. -/
def labelAt (text : Text) (c : Nat × State) : Option String := (text[c.1]?).map Prod.fst

/-- The first `n` blocks that run, from the first one on. -/
def blocksRun (env : Env) (text : Text) (n : Nat) (s : State) : List (Option String) :=
  trace (stepBlock env text) (labelAt text) n (0, s)

theorem blockAt_textOf {bs : List BasicBlock} (hnodup : (bs.map BasicBlock.node).Nodup) {i : Nat} {b : BasicBlock}
    (hb : bs[i]? = some b) : blockAt (textOf bs) b.getLabelStr = some i := by
  obtain ⟨hi, rfl⟩ := List.getElem?_eq_some_iff.1 hb
  unfold blockAt textOf
  rw [List.findIdx?_map, List.findIdx?_eq_some_iff_getElem]
  refine ⟨hi, by simp, ?_⟩
  intro j hj
  have hne : bs[j].node ≠ bs[i].node := by
    intro heq
    have hj' : j < (bs.map BasicBlock.node).length := by
      rw [List.length_map]
      omega
    have hij : j = i := (List.getElem?_inj hj' hnodup).mp (by
      rw [List.getElem?_map, List.getElem?_map, List.getElem?_eq_getElem hi, List.getElem?_eq_getElem (by omega)]
      exact congrArg some heq)
    omega
  simpa [BasicBlock.getLabelStr, getBlockLabel_inj] using hne

end Mjc.Asm

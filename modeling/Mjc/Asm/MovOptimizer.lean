import Mathlib.Data.List.Basic
import Mjc.Asm.Instr

/-!
# Removing redundant moves

`AsmMovOptimizer` of `asm_optimizer.cpp`: six loops over the flattened instructions of a block. A loop changes
the list while it runs over its indices; the list never gets longer, so the indices below the length at the
start are all that can occur, and an index past the end does nothing.

`none` is undefined behaviour: a read of an instruction or an operand that is not there, or `at` with an index
out of range.

* `touchesReg`;
* `Loop`, `Loop.step`, `Loop.run` : the six loops, one iteration, a whole loop;
* `optimizeBlock`.
-/

namespace Mjc.Asm

set_option autoImplicit false

def touchesReg (instr : Instr) (reg : RegName) : Bool :=
  (match instr.ops[0]? with
    | some (Op.reg name _) => name = reg && instr.mnemonic ∈ [Mnemonic.Inc, .Dec, .Div, .Neg]
    | _ => false) ||
  (match instr.ops[1]? with
    | some (Op.reg name _) => instr.mnemonic ≠ .Cmp && name = reg
    | _ => false)

/-- `ops[n].reg.name` or `ops[n].ind.base`: the two share their place in the union. -/
def Op.name? : Op → Option RegName
  | .reg name _ => some name
  | .ind base _ _ => some base
  | _ => none

/-- `ops[n].ind.offset`. -/
def Op.offset? : Op → Option Int
  | .ind _ _ offset => some offset
  | _ => none

/-- The loops of `optimizeBlock`, in their order. -/
inductive Loop where
  | storeLoad | storeLoadOther | storeSkipLoad | loadLoad | copyBase | loadCopy
  deriving DecidableEq, Repr

/-- `mov reg, slot` before `mov slot, reg`: remove the second one. -/
def storeLoad (i : Nat) (l : List Instr) : List Instr :=
  match l[i]?, l[i + 1]? with
  | some mov1, some mov2 =>
    if mov1.isMov && mov2.isMov then
      match mov1.ops, mov2.ops with
      | [.reg name1 _, .ind base1 _ offset1], [.ind base2 _ offset2, .reg name2 _] =>
        if base1 = base2 ∧ offset1 = offset2 ∧ name1 = name2 then l.eraseIdx (i + 1) else l
      | _, _ => l
    else l
  | _, _ => l

/-- `mov reg1, slot` before `mov slot, reg2`: load from `reg1`. -/
def storeLoadOther (i : Nat) (l : List Instr) : List Instr :=
  match l[i]?, l[i + 1]? with
  | some mov1, some mov2 =>
    if mov1.isMov && mov2.isMov then
      match mov1.ops, mov2.ops with
      | [.reg name1 _, .ind base1 _ offset1], [.ind base2 _ offset2, .reg name2 mode2] =>
        if base1 = base2 ∧ offset1 = offset2 ∧ name1 ≠ name2 then
          l.set (i + 1) (makeMov mode2 (.reg name1 mode2) (.reg name2 mode2))
        else l
      | _, _ => l
    else l
  | _, _ => l

/-- The distance of the load that the third loop looks at. -/
def skipLength (i : Nat) (l : List Instr) (mov2 : Instr) (reg base : RegName) : Nat :=
  if (!mov2.isMov || !touchesReg mov2 reg && !touchesReg mov2 base) && i + 2 < l.length then 2 else 1

/-- `mov reg1, slot`, an instruction, `mov slot, reg2`: remove the load, or load from `reg1`. -/
def storeSkipLoad (i : Nat) (l : List Instr) : List Instr :=
  match l[i]?, l[i + 1]? with
  | some mov1, some next =>
    if mov1.isMov then
      match mov1.ops with
      | [.reg name1 mode1, .ind base1 _ offset1] =>
        let k := skipLength i l next name1 base1
        match l[i + k]? with
        | some mov2 =>
          if mov2.isMov then
            match mov2.ops with
            | [.ind base2 _ offset2, .reg name2 mode2] =>
              if base1 = base2 ∧ offset1 = offset2 then
                if name1 = name2 then l.eraseIdx (i + k)
                else l.set (i + k) ⟨mov2.mnemonic, [.reg name1 mode1, .reg name2 mode2]⟩
              else l
            | _ => l
          else l
        | none => l
      | _ => l
    else l
  | _, _ => l

/-- `sameMov` of the fourth loop. `instr1` is what stands at its index now. -/
def sameMov (instr1 : Option Instr) (instr2 : Instr) : Option Bool :=
  if instr2.isMov then
    match instr2.ops with
    | .ind base2 _ offset2 :: rest => do
      let op1 ← instr1.bind (·.ops[0]?)
      let base1 ← op1.name?
      if base2 ≠ base1 then some false else
      let offset1 ← op1.offset?
      if offset2 ≠ offset1 then some false else
      match rest with
      | [.reg name2 _] => do
        let name1 ← (instr1.bind (·.ops[1]?)).bind Op.name?
        some (name2 = name1)
      | _ => some false
    | _ => some false
  else some false

/-- What an iteration of the inner loop of the fourth one comes to. -/
inductive Look where
  | remove | stop | next
  deriving DecidableEq, Repr

/-- The body of the inner loop of the fourth one: look `l` instructions behind the index `i`. -/
def lookAt (i l : Nat) (instrs : List Instr) : Option Look :=
  if i < l then some .stop
  else do
    let instr2 ← instrs[i - l]?
    if ← sameMov instrs[i]? instr2 then some .remove
    else
      let name1 ← (instrs[i]?.bind (·.ops[1]?)).bind Op.name?
      if touchesReg instr2 name1 then some .stop
      else
        let base1 ← (instrs[i]?.bind (·.ops[0]?)).bind Op.name?
        some (if touchesReg instr2 base1 then .stop else .next)

/-- The inner loop of the fourth one, over the distances given. After a removal it goes on, with the next
instruction in the place of the one that was removed. -/
def lookBehind (i : Nat) : List Nat → List Instr → Option (List Instr)
  | [], instrs => some instrs
  | l :: ls, instrs =>
    match lookAt i l instrs with
    | some .remove => lookBehind i ls (instrs.eraseIdx i)
    | some .stop => some instrs
    | some .next => lookBehind i ls instrs
    | none => none

def MAX_LOOKBEHIND : Nat := 3

/-- `mov slot, reg` after the same move: remove it. -/
def loadLoad (i : Nat) (l : List Instr) : Option (List Instr) :=
  match l[i]? with
  | some instr1 =>
    if instr1.isMov then
      match instr1.ops with
      | [.ind base _ _, .reg name _] =>
        if base ≠ name then lookBehind i ((List.range MAX_LOOKBEHIND).map (· + 1)) l else some l
      | _ => some l
    else some l
  | none => some l

/-- `mov reg1, reg2` before `mov c(reg2), reg`: load from `c(reg1)`, remove the first move. -/
def copyBase (i : Nat) (l : List Instr) : List Instr :=
  match l[i]?, l[i + 1]? with
  | some mov1, some mov2 =>
    if mov1.isMov && mov2.isMov then
      match mov1.ops, mov2.ops with
      | [.reg name1 _, .reg name2 _], [.ind base mode offset, dest@(.reg _ _)] =>
        if base = name2 then (l.set (i + 1) ⟨mov2.mnemonic, [.ind name1 mode offset, dest]⟩).eraseIdx i else l
      | _, _ => l
    else l
  | _, _ => l

/-- `mov slot, reg1` before `mov reg1, reg2`: load to `reg2`, remove the second move. -/
def loadCopy (i : Nat) (l : List Instr) : List Instr :=
  match l[i]?, l[i + 1]? with
  | some mov1, some mov2 =>
    if mov1.isMov && mov2.isMov then
      match mov1.ops, mov2.ops with
      | [source@(.ind _ _ _), .reg name1 mode1], [.reg name1' _, .reg name2 _] =>
        if name1 = name1' then (l.set i ⟨mov1.mnemonic, [source, .reg name2 mode1]⟩).eraseIdx (i + 1) else l
      | _, _ => l
    else l
  | _, _ => l

def Loop.step : Loop → Nat → List Instr → Option (List Instr)
  | .storeLoad, i, l => some (Asm.storeLoad i l)
  | .storeLoadOther, i, l => some (Asm.storeLoadOther i l)
  | .storeSkipLoad, i, l => some (Asm.storeSkipLoad i l)
  | .loadLoad, i, l => Asm.loadLoad i l
  | .copyBase, i, l => some (Asm.copyBase i l)
  | .loadCopy, i, l => some (Asm.loadCopy i l)

/-- The indices of a loop over a list of the given length; the fourth loop runs down to 1. -/
def Loop.indices (n : Nat) : Loop → List Nat
  | .loadLoad => ((List.range n).drop 1).reverse
  | _ => List.range n

def Loop.run (l : List Instr) (loop : Loop) : Option (List Instr) :=
  (loop.indices l.length).foldlM (fun l i => loop.step i l) l

end Mjc.Asm

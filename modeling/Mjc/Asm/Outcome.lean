import Mjc.Asm.Effects

/-!
# Outcomes of blocks

* `Outcome`, `observe` : what counts at the end of a block: memory, `%rsp`, `%rbp`, `%rax`, the calls and the
  jump that leaves it;
* `seen` : the outcome of a list and of every jump that is executed in it;
* `Equiv` : the same is seen of two lists from every state.
-/

namespace Mjc.Asm

set_option autoImplicit false

/-- What is observed of a block. -/
structure Outcome where
  mem : Mem
  sp : BitVec 64
  bp : BitVec 64
  ax : BitVec 64
  calls : List CallEvent
  target : Option String

def observe (result : Option (State × Option String)) : Option Outcome :=
  result.map fun (s, target) => ⟨s.mem, s.regs .sp, s.regs .bp, s.regs .ax, s.calls, target⟩

/-- The branches that are taken in a list, and its outcome. -/
def seen (env : Env) (is : List Instr) (c : State × Option String) : List (Option String) × Option Outcome :=
  (branches env is c, observe (runBlock env is c))

section
variable {env : Env} {i : Instr} {is js pre : List Instr} {c c' : State × Option String}

theorem seen_cons_none (h : stepInstr env c i = none) : seen env (i :: is) c = ([], none) := by
  unfold seen
  rw [branches, runBlock_cons, h]
  rfl

theorem seen_cons_some (h : stepInstr env c i = some c') : seen env (i :: is) c =
    ((if c.2 = none ∧ i.isJmp then [c'.2] else []) ++ (seen env is c').1, (seen env is c').2) := by
  unfold seen
  rw [branches, runBlock_cons, h]
  rfl

theorem seen_append (h : runBlock env pre c = some c') :
    seen env (pre ++ is) c = (branches env pre c ++ (seen env is c').1, (seen env is c').2) := by
  unfold seen
  rw [branches_append, runBlock_append, h]
  rfl

theorem seen_append_none (h : runBlock env pre c = none) :
    seen env (pre ++ is) c = (branches env pre c, none) := by
  unfold seen
  rw [branches_append, runBlock_append, h, Option.elim_none, List.append_nil]
  rfl

end

/-- The same is seen of the two lists from every state. -/
def Equiv (is js : List Instr) : Prop := ∀ env s, seen env is (s, none) = seen env js (s, none)

theorem Equiv.refl (is : List Instr) : Equiv is is := fun _ _ => rfl

theorem Equiv.trans {is js ks : List Instr} (h : Equiv is js) (h' : Equiv js ks) : Equiv is ks :=
  fun env s => (h env s).trans (h' env s)

section
variable {l : List Instr}

theorem AllFit.eraseIdx (h : AllFit l) (j : Nat) : AllFit (l.eraseIdx j) :=
  fun i hi => h i (List.mem_of_mem_eraseIdx hi)

theorem AllFit.set (h : AllFit l) (j : Nat) {x : Instr} {a : Act} (hx : act x = some a) (ha : a.fits = true) :
    AllFit (l.set j x) := by
  intro i hi
  rcases List.mem_or_eq_of_mem_set hi with hi | rfl
  · exact h i hi
  · unfold Instr.Fits
    rw [hx]
    exact ha

end

end Mjc.Asm

import Mjc.Asm.Blocks
import Mjc.Asm.Effects

/-!
# Runs that differ in the flags

* `AgreeButFlags` : two states, with the jumps under way, that differ at most in the flags;
* `runBlock_agree`, `runBlock_guarded` : instructions that do not read the flags keep it, and so does a list that compares
  before it reads them;
* `branches_agree`, `branches_guarded` : such lists execute the same jumps, with the same outcomes.
-/

namespace Mjc.Asm

set_option autoImplicit false

def AgreeButFlags (c c' : State × Option String) : Prop := ∃ f, c' = ({ c.1 with flags := f }, c.2)

theorem AgreeButFlags.refl (c : State × Option String) : AgreeButFlags c c := ⟨c.1.flags, rfl⟩

theorem AgreeButFlags.symm {c c' : State × Option String} (h : AgreeButFlags c c') : AgreeButFlags c' c := by
  obtain ⟨f, rfl⟩ := h
  exact ⟨c.1.flags, rfl⟩

theorem AgreeButFlags.trans {c c' c'' : State × Option String} (h : AgreeButFlags c c') (h' : AgreeButFlags c' c'') :
    AgreeButFlags c c'' := by
  obtain ⟨f, rfl⟩ := h
  obtain ⟨f', rfl⟩ := h'
  exact ⟨f', rfl⟩

/-- Results of two runs, which stop together. -/
abbrev AgreeResults := Option.Rel AgreeButFlags

theorem AgreeResults.refl (r : Option (State × Option String)) : AgreeResults r r := by
  cases r with
  | none => exact .none
  | some c => exact .some (.refl c)

theorem AgreeResults.bind {r r' : Option (State × Option String)}
    {k k' : State × Option String → Option (State × Option String)} (h : AgreeResults r r')
    (hk : ∀ c c', AgreeButFlags c c' → AgreeResults (k c) (k' c')) : AgreeResults (r.bind k) (r'.bind k') := by
  cases h with
  | none => exact .none
  | some h => exact hk _ _ h

theorem AgreeResults.elim_eq {α : Type} {r r' : Option (State × Option String)} {a : α}
    {g g' : State × Option String → α} (h : AgreeResults r r') (hg : ∀ c c', AgreeButFlags c c' → g' c' = g c) :
    r'.elim a g' = r.elim a g := by
  cases h with
  | none => rfl
  | some h => exact hg _ _ h

theorem AgreeResults.trans {r r' r'' : Option (State × Option String)} (h : AgreeResults r r')
    (h' : AgreeResults r' r'') : AgreeResults r r'' := by
  cases h with
  | none => exact h'
  | some h =>
    cases h' with
    | some h' => exact .some (h.trans h')

variable {env : Env} {i : Instr} {is : List Instr} {c c' : State × Option String}

theorem stepInstr_agree (hi : i.readsFlags = false) (h : AgreeButFlags c c') :
    AgreeResults (stepInstr env c i) (stepInstr env c' i) := by
  obtain ⟨f, rfl⟩ := h
  obtain ⟨s, _ | label⟩ := c
  · show AgreeResults (exec env i s) (exec env i { s with flags := f })
    rcases exec_flags env hi s f with ⟨h₁, h₂⟩ | ⟨t, target, f', h₁, h₂, -⟩
    · rw [h₁, h₂]
      exact .none
    · rw [h₁, h₂]
      exact .some ⟨f', rfl⟩
  · show AgreeResults (if _ then _ else _) (if _ then _ else _)
    split
    · exact .some ⟨f, rfl⟩
    · exact .some ⟨f, rfl⟩

theorem runBlock_agree (his : ∀ i ∈ is, i.readsFlags = false) (h : AgreeButFlags c c') :
    AgreeResults (runBlock env is c) (runBlock env is c') := by
  induction is generalizing c c' with
  | nil => exact .some h
  | cons i is ih =>
    rw [runBlock_cons, runBlock_cons]
    exact (stepInstr_agree (his i (by simp)) h).bind fun _ _ h => ih (fun j hj => his j (by simp [hj])) h

/-! ## Compares -/

theorem readsFlags_makeMov (mode : RegMode) (source dest : Op) : (makeMov mode source dest).readsFlags = false := by
  cases mode <;> cases source <;> cases dest <;> rfl

theorem jumps_makeMov (mode : RegMode) (source dest : Op) : (makeMov mode source dest).jumps = false := by
  cases mode <;> cases source <;> cases dest <;> rfl

theorem exec_cmp_flags (source dest : Op) (s : State) (f : Flags) :
    exec env ⟨.Cmp, [source, dest]⟩ { s with flags := f } = exec env ⟨.Cmp, [source, dest]⟩ s := by
  unfold exec
  simp only [readOp_flags]

/-- A comparison sets the flags: what they were before does not matter. -/
theorem runBlock_compareCode (mode : RegMode) (leftOp rightOp : Op) (js : List Instr) (s : State) (f : Flags) :
    runBlock env (compareCode mode leftOp rightOp ++ js) ({ s with flags := f }, none) =
      runBlock env (compareCode mode leftOp rightOp ++ js) (s, none) := by
  have hmov : (makeMov mode leftOp (.reg .bx mode)).readsFlags = false := readsFlags_makeMov ..
  show (exec env _ { s with flags := f }).bind _ = (exec env _ s).bind _
  rcases exec_flags env hmov s f with ⟨h₁, h₂⟩ | ⟨t, target, f', h₁, h₂, -⟩
  · rw [h₁, h₂]
  · rw [h₁, h₂]
    have htarget : target = none := by
      cases target with
      | none => rfl
      | some target => cases (jumps_makeMov mode leftOp _).symm.trans (exec_target h₁)
    subst htarget
    show (exec env _ { t with flags := f' }).bind _ = (exec env _ t).bind _
    rw [exec_cmp_flags]

/-- The list does not read flags, or compares first. -/
def Guarded (is : List Instr) : Prop :=
  NoLabels is ∧ ((∀ i ∈ is, i.readsFlags = false) ∨
    ∃ mode leftOp rightOp js, is = compareCode mode leftOp rightOp ++ js)

theorem runBlock_guarded (his : Guarded is) (h : AgreeButFlags c c') :
    AgreeResults (runBlock env is c) (runBlock env is c') := by
  obtain ⟨hlabels, hreads | ⟨mode, leftOp, rightOp, js, rfl⟩⟩ := his
  · exact runBlock_agree hreads h
  · obtain ⟨f, rfl⟩ := h
    obtain ⟨s, _ | label⟩ := c
    · show AgreeResults _ (runBlock env _ ({ s with flags := f }, none))
      rw [runBlock_compareCode mode leftOp rightOp js s f]
      exact .refl _
    · rw [runBlock_pending hlabels, runBlock_pending hlabels]
      exact .some ⟨f, rfl⟩

/-! ## Branches -/

theorem branches_append_of_nil {js : List Instr} (hjs : ∀ c, branches env js c = []) :
    branches env (is ++ js) c = branches env is c := by
  rw [branches_append]
  cases runBlock env is c with
  | none => exact List.append_nil _
  | some c' =>
    show _ ++ branches env js c' = _
    rw [hjs, List.append_nil]

theorem branches_agree (his : ∀ i ∈ is, i.readsFlags = false) (h : AgreeButFlags c c') :
    branches env is c' = branches env is c := by
  induction is generalizing c c' with
  | nil => rfl
  | cons i is ih =>
    have hstep : AgreeResults (stepInstr env c i) (stepInstr env c' i) := stepInstr_agree (his i (by simp)) h
    have hpending : c'.2 = c.2 := by
      obtain ⟨f, rfl⟩ := h
      rfl
    rw [branches, branches, hpending]
    cases hstep' : stepInstr env c i with
    | none =>
      rw [hstep'] at hstep
      cases hstep'' : stepInstr env c' i with
      | none => rfl
      | some d =>
        rw [hstep''] at hstep
        cases hstep
    | some d =>
      rw [hstep'] at hstep
      cases hstep'' : stepInstr env c' i with
      | none =>
        rw [hstep''] at hstep
        cases hstep
      | some d' =>
        rw [hstep''] at hstep
        have hagree : AgreeButFlags d d' := by
          cases hstep
          assumption
        have htarget : d'.2 = d.2 := by
          obtain ⟨f, rfl⟩ := hagree
          rfl
        simp only [htarget, ih (fun j hj => his j (by simp [hj])) hagree]

theorem branches_guarded (his : Guarded is) (h : AgreeButFlags c c') : branches env is c' = branches env is c := by
  obtain ⟨hlabels, hreads | ⟨mode, leftOp, rightOp, js, rfl⟩⟩ := his
  · exact branches_agree hreads h
  · obtain ⟨f, rfl⟩ := h
    obtain ⟨s, _ | label⟩ := c
    · have hnil : ∀ c, branches env (compareCode mode leftOp rightOp) c = [] := fun c => branches_eq_nil (by
        intro i hi
        simp only [compareCode, List.mem_cons, List.not_mem_nil, or_false] at hi
        rcases hi with rfl | rfl
        · cases mode <;> rfl
        · rfl)
      rw [branches_append, branches_append, hnil, hnil]
      have hrun := @runBlock_compareCode env mode leftOp rightOp [] s f
      rw [List.append_nil] at hrun
      show [] ++ (runBlock env _ ({ s with flags := f }, none)).elim _ _ = _
      rw [hrun]
    · rw [branches_pending hlabels, branches_pending hlabels]

end Mjc.Asm

import Mjc.Irg.Certificate

/-!
# What a visit does

The visits of the constant propagation.

* `Marking` : `maybeMarkControlFlow`;
* `Visited`, `visited_visitNode` : all that a visit of a node can do.
-/

namespace Mjc.Irg.FirmGraph

set_option autoImplicit false

variable {T : Type} {size : Nat} (tv : Tarvals T) (g : FirmGraph T size) [DecidableEq T]
  (outs : Fin size → List (Fin size))

/-- A visit sets the link of these nodes. -/
def setsLink (n : Fin size) : Bool :=
  match g.opcode n with
  | .Add | .Sub | .Mul | .Div | .Mod | .Minus | .Not | .Conv | .Phi | .Cmp => true
  | .Proj => g.mode n ≠ .M
  | _ => false

/-- The link that a visit sets. -/
def setVal (s : ConstPropState T size) (n : Fin size) : Val T :=
  if g.opcode n = .Phi then phiVal tv s ((g.node n).ins.zip (g.cfgpreds (g.block n))) .unknown else newVal tv g s n

/-- What marking `n` does. -/
structure Marking (n : Fin size) (taken : Bool) (s s' : ConstPropState T size) (enqueued : List (Fin size)) : Prop where
  link : s'.link = s.link
  other : ∀ m, m ≠ n → s'.controlFlowVisited m = s.controlFlowVisited m
  known : s'.controlFlowVisited n = s.controlFlowVisited n ∨ s'.controlFlowVisited n ≠ none
  not_taken : taken = false → s'.controlFlowVisited n = some false
  followers : s'.controlFlowVisited n = some true → s.controlFlowVisited n ≠ some true → g.block n ≠ g.startBlock →
    ∀ m ∈ g.followers outs n, m ∈ enqueued
  reached : n ∈ enqueued ∨ (taken = true → g.Reached s' (g.block n) → s'.controlFlowVisited n = some true)
  start : g.block n = g.startBlock → s'.controlFlowVisited n = some taken

/-- What visiting `n` does. -/
structure Visited (n : Fin size) (s s' : ConstPropState T size) (enqueued : List (Fin size)) : Prop where
  link_other : ∀ m, m ≠ n → s'.link m = s.link m
  link_self : s'.link n = if g.setsLink n then setVal tv g s n else s.link n
  users : s'.link n ≠ s.link n → ∀ m ∈ outs n, m ∈ enqueued
  cond : g.opcode n = .Cond → ∀ m ∈ outs n, m ∈ enqueued
  mark_other : ∀ m, m ≠ n → s'.controlFlowVisited m = s.controlFlowVisited m
  mark_self : s'.controlFlowVisited n = s.controlFlowVisited n ∨ g.mode n = .X ∧ s'.controlFlowVisited n ≠ none
  mark_exit : g.isExit n = false → s'.controlFlowVisited n = some true → s.controlFlowVisited n = some true
  followers : s'.controlFlowVisited n = some true → s.controlFlowVisited n ≠ some true → g.block n ≠ g.startBlock →
    ∀ m ∈ g.followers outs n, m ∈ enqueued
  reached : g.isExit n = true → n ∈ enqueued ∨
    (exitTaken tv g s n = true → g.Reached s' (g.block n) → s'.controlFlowVisited n = some true)
  start : g.isExit n = true → g.block n = g.startBlock → s'.controlFlowVisited n = some (exitTaken tv g s n)

variable {tv g outs}

omit [DecidableEq T] in
theorem setControlFlow_other {n m : Fin size} {taken : Bool} {s : ConstPropState T size} (h : m ≠ n) :
    (setControlFlow n taken s).controlFlowVisited m = s.controlFlowVisited m := Function.update_of_ne h _ _

omit [DecidableEq T] in
theorem setControlFlow_self {n : Fin size} {taken : Bool} {s : ConstPropState T size} :
    (setControlFlow n taken s).controlFlowVisited n = some taken := Function.update_self _ _ _

variable (g outs) in
omit [DecidableEq T] in
theorem marking_maybeMarkControlFlow (n : Fin size) (taken : Bool) (s : ConstPropState T size) :
    Marking g outs n taken s (g.maybeMarkControlFlow outs n taken s).1 (g.maybeMarkControlFlow outs n taken s).2 := by
  unfold maybeMarkControlFlow
  by_cases hsame : s.controlFlowVisited n = some taken
  · rw [if_pos hsame]
    exact ⟨rfl, fun _ _ => rfl, Or.inl rfl, fun h => h ▸ hsame, fun h hn => absurd h hn, Or.inr fun h _ => h ▸ hsame,
      fun _ => hsame⟩
  rw [if_neg hsame]
  by_cases htaken : taken = false
  · rw [if_pos htaken]
    subst htaken
    refine ⟨rfl, fun _ h => setControlFlow_other h, Or.inr ?_, fun _ => setControlFlow_self, fun h => ?_,
      Or.inr fun h => absurd h Bool.false_ne_true, fun _ => setControlFlow_self⟩
    · rw [setControlFlow_self]
      exact Option.some_ne_none _
    · rw [setControlFlow_self] at h
      cases h
  rw [if_neg htaken]
  obtain rfl : taken = true := Bool.eq_true_of_not_eq_false htaken
  by_cases hstart : g.block n = g.startBlock
  · rw [if_pos hstart]
    refine ⟨rfl, fun _ h => setControlFlow_other h, Or.inr ?_, fun h => absurd h htaken,
      fun _ _ hn => absurd hstart hn, Or.inr fun _ _ => setControlFlow_self, fun _ => setControlFlow_self⟩
    rw [setControlFlow_self]
    exact Option.some_ne_none _
  rw [if_neg hstart]
  dsimp only
  generalize hvisited : (g.cfgpreds (g.block n)).filterMap s.controlFlowVisited = visited
  by_cases hnone : visited = []
  · rw [if_pos hnone]
    exact ⟨rfl, fun _ _ => rfl, Or.inl rfl, fun h => absurd h htaken, fun h hn => absurd h hn,
      Or.inl (List.mem_singleton_self n), fun h => absurd h hstart⟩
  rw [if_neg hnone]
  generalize hany : (visited.any fun predTaken => true && predTaken) = currentlyTaken
  refine ⟨rfl, fun _ h => setControlFlow_other h, Or.inr ?_, fun h => absurd h htaken, fun h _ _ m hm => ?_,
    Or.inr fun _ hreached => ?_, fun h => absurd h hstart⟩
  · rw [setControlFlow_self]
    exact Option.some_ne_none _
  · rw [setControlFlow_self] at h
    rwa [Option.some.inj h, if_pos rfl]
  · rw [setControlFlow_self]
    rcases hreached with hreached | ⟨p, hp, hpmark⟩
    · exact absurd hreached hstart
    · by_cases hpn : p = n
      · rw [hpn, setControlFlow_self] at hpmark
        exact hpmark
      · -- a predecessor was marked before
        rw [setControlFlow_other hpn] at hpmark
        rw [← hany, Option.some.injEq, List.any_eq_true]
        exact ⟨true, hvisited ▸ List.mem_filterMap.mpr ⟨p, hp, hpmark⟩, rfl⟩

/-- A visit that marks nothing. -/
theorem Visited.unmarked {n : Fin size} {s s' : ConstPropState T size} {enqueued : List (Fin size)}
    (hexit : g.isExit n = false) (hmarks : s'.controlFlowVisited = s.controlFlowVisited)
    (hother : ∀ m, m ≠ n → s'.link m = s.link m)
    (hself : s'.link n = if g.setsLink n then setVal tv g s n else s.link n)
    (husers : s'.link n ≠ s.link n → ∀ m ∈ outs n, m ∈ enqueued)
    (hcond : g.opcode n = .Cond → ∀ m ∈ outs n, m ∈ enqueued) : Visited tv g outs n s s' enqueued := by
  refine ⟨hother, hself, husers, hcond, fun m _ => congrFun hmarks m, Or.inl (congrFun hmarks n), fun _ h => ?_,
    fun h hn => ?_, fun h => ?_, fun h => ?_⟩
  · rwa [hmarks] at h
  · rw [hmarks] at h
    exact absurd h hn
  · rw [hexit] at h
    cases h
  · rw [hexit] at h
    cases h

theorem setNodeLink_fst (n : Fin size) (val : Val T) (s : ConstPropState T size) :
    (setNodeLink outs n val s).1 = { s with link := Function.update s.link n val } := by
  unfold setNodeLink
  split
  · rename_i hsame
    rw [← hsame, Function.update_eq_self]
  · rfl

theorem setNodeLink_snd {n : Fin size} {val : Val T} {s : ConstPropState T size} (h : val ≠ s.link n) :
    (setNodeLink outs n val s).2 = outs n := by
  unfold setNodeLink
  rw [if_neg (Ne.symm h)]

theorem visited_of_setNodeLink {n : Fin size} {s : ConstPropState T size} (hexit : g.isExit n = false)
    (hcond : g.opcode n ≠ .Cond) (hsets : g.setsLink n = true) :
    Visited tv g outs n s (setNodeLink outs n (setVal tv g s n) s).1 (setNodeLink outs n (setVal tv g s n) s).2 := by
  rw [setNodeLink_fst]
  refine .unmarked hexit rfl (fun m hm => Function.update_of_ne hm _ _) ?_ ?_ fun h => absurd h hcond
  · rw [if_pos hsets]
    exact Function.update_self _ _ _
  · intro hne m hm
    dsimp only at hne
    rw [Function.update_self] at hne
    rwa [setNodeLink_snd hne]

theorem visited_of_nothing {n : Fin size} {s : ConstPropState T size} {enqueued : List (Fin size)}
    (hexit : g.isExit n = false) (hsets : g.setsLink n = false) (hcond : g.opcode n = .Cond → enqueued = outs n) :
    Visited tv g outs n s s enqueued := by
  refine .unmarked hexit rfl (fun _ _ => rfl) ?_ (fun h => absurd rfl h) fun h m hm => hcond h ▸ hm
  rw [hsets]
  rfl

/-- A visit that marks the node and then may set its link. -/
theorem Marking.visited {n : Fin size} {taken : Bool} {s s₁ : ConstPropState T size} {enqueued : List (Fin size)}
    (h : Marking g outs n taken s s₁ enqueued) (hX : g.mode n = .X) (hcond : g.opcode n ≠ .Cond)
    (htaken : taken = if g.isExit n then exitTaken tv g s n else false) {s' : ConstPropState T size}
    {enqueued' : List (Fin size)} (hmarks : s'.controlFlowVisited = s₁.controlFlowVisited)
    (hother : ∀ m, m ≠ n → s'.link m = s₁.link m)
    (hself : s'.link n = if g.setsLink n then setVal tv g s n else s.link n)
    (husers : s'.link n ≠ s.link n → ∀ m ∈ outs n, m ∈ enqueued') :
    Visited tv g outs n s s' (enqueued ++ enqueued') := by
  have hreached : g.Reached s' (g.block n) → g.Reached s₁ (g.block n) := by
    unfold Reached
    rw [hmarks]
    exact id
  refine ⟨fun m hm => (hother m hm).trans (congrFun h.link m), hself, fun hne m hm => ?_, fun hc => absurd hc hcond,
    fun m hm => (congrFun hmarks m).trans (h.other m hm), ?_, fun hexit hmark => ?_, fun hmark hn hstart m hm => ?_,
    fun hexit => ?_, fun hexit hstart => ?_⟩
  · exact List.mem_append_right _ (husers hne m hm)
  · rw [hmarks]
    exact h.known.imp_right fun hne => ⟨hX, hne⟩
  · rw [hexit] at htaken
    rw [hmarks, h.not_taken htaken] at hmark
    cases hmark
  · rw [hmarks] at hmark
    exact List.mem_append_left _ (h.followers hmark hn hstart m hm)
  · rw [hexit, if_pos rfl] at htaken
    rw [hmarks]
    refine h.reached.imp (List.mem_append_left _) fun hr htk hreach => hr (htaken.trans htk) (hreached hreach)
  · rw [hexit, if_pos rfl] at htaken
    rw [hmarks, h.start hstart, htaken]

theorem visited_visitProj {n : Fin size} (hproj : g.opcode n = .Proj) (s : ConstPropState T size) :
    Visited tv g outs n s (visitProj tv g outs n s).1 (visitProj tv g outs n s).2 := by
  have hcond : g.opcode n ≠ .Cond := by
    rw [hproj]
    decide
  have hval : setVal tv g s n = if g.mode n ≠ .M then s.link (g.operand n 0) else .bad := by
    unfold setVal newVal
    rw [hproj]
    rfl
  have hsets : g.setsLink n = decide (g.mode n ≠ .M) := by
    unfold setsLink
    rw [hproj]
  unfold visitProj Visit.andThen
  by_cases hX : g.mode n = .X
  · have hexit : g.isExit n = true := by
      unfold isExit
      rw [hproj, hX]
      rfl
    have hM : g.mode n ≠ .M := by
      rw [hX]
      decide
    have htaken : projTaken tv g n s = if g.isExit n then exitTaken tv g s n else false := by
      unfold exitTaken
      rw [hexit, if_pos rfl, if_neg (by rw [hproj]; decide)]
    have hmarking := marking_maybeMarkControlFlow g outs n (projTaken tv g n s) s
    rw [if_pos hX, if_pos hM]
    dsimp only
    rw [setNodeLink_fst]
    refine hmarking.visited hX hcond htaken rfl (fun m hm => Function.update_of_ne hm _ _) ?_ ?_
    · dsimp only
      rw [Function.update_self, hsets, decide_eq_true hM, if_pos rfl, hval, if_pos hM, hmarking.link]
    · intro hne m hm
      dsimp only at hne
      rw [Function.update_self, ← congrFun hmarking.link n] at hne
      rwa [setNodeLink_snd hne]
  · have hexit : g.isExit n = false := by
      unfold isExit
      rw [hproj, decide_eq_false hX]
      rfl
    rw [if_neg hX]
    by_cases hM : g.mode n = .M
    · rw [if_neg (not_not.mpr hM)]
      refine visited_of_nothing hexit ?_ fun hc => absurd hc hcond
      rw [hsets]
      exact decide_eq_false (not_not.mpr hM)
    · rw [if_pos hM] at hval ⊢
      have hvisited : Visited tv g outs n s _ _ :=
        visited_of_setNodeLink hexit hcond (hsets.trans (decide_eq_true hM))
      rwa [hval] at hvisited

theorem visited_visitBad {n : Fin size} (hbad : g.opcode n = .Bad) (s : ConstPropState T size) :
    Visited tv g outs n s (visitBad g outs n s).1 (visitBad g outs n s).2 := by
  have hexit : g.isExit n = false := by
    unfold isExit
    rw [hbad]
    rfl
  have hsets : g.setsLink n = false := by
    unfold setsLink
    rw [hbad]
  unfold visitBad
  split
  · rename_i hX
    have hmarking := marking_maybeMarkControlFlow g outs n false s
    have hvisited : Visited tv g outs n s _ (_ ++ []) := hmarking.visited hX (by rw [hbad]; decide)
      (by rw [hexit]; rfl) rfl (fun _ _ => rfl) (by rw [hsets, hmarking.link]; rfl)
      (fun h => absurd (congrFun hmarking.link n) h)
    rwa [List.append_nil] at hvisited
  · exact visited_of_nothing hexit hsets fun h => absurd (hbad.symm.trans h) (by decide)

theorem visited_visitJmp {n : Fin size} (hjmp : g.opcode n = .Jmp) (hX : g.mode n = .X) (s : ConstPropState T size) :
    Visited tv g outs n s (visitJmp g outs n s).1 (visitJmp g outs n s).2 := by
  have hexit : g.isExit n = true := by
    unfold isExit
    rw [hjmp]
    rfl
  have hsets : g.setsLink n = false := by
    unfold setsLink
    rw [hjmp]
  have htaken : true = if g.isExit n then exitTaken tv g s n else false := by
    unfold exitTaken
    rw [hexit, if_pos rfl, if_pos hjmp]
  have hmarking := marking_maybeMarkControlFlow g outs n true s
  have hvisited : Visited tv g outs n s _ (_ ++ []) := hmarking.visited hX (by rw [hjmp]; decide) htaken rfl
    (fun _ _ => rfl) (by rw [hsets, hmarking.link]; rfl) (fun h => absurd (congrFun hmarking.link n) h)
  rwa [List.append_nil] at hvisited

theorem visited_visitNode (hjmp : ∀ n, g.opcode n = .Jmp → g.mode n = .X) (n : Fin size) (s : ConstPropState T size) :
    Visited tv g outs n s (visitNode tv g outs n s).1 (visitNode tv g outs n s).2 := by
  have hset : ∀ (o : Opcode) (v : Val T), g.opcode n = o → o ≠ .Jmp → o ≠ .Proj → o ≠ .Cond → g.setsLink n = true →
      setVal tv g s n = v → Visited tv g outs n s (setNodeLink outs n v s).1 (setNodeLink outs n v s).2 := by
    rintro o v rfl hjmp hproj hcond hsets rfl
    refine visited_of_setNodeLink ?_ hcond hsets
    unfold isExit
    rw [decide_eq_false hjmp, decide_eq_false hproj]
    rfl
  have hnothing : ∀ (o : Opcode) (enqueued : List (Fin size)), g.opcode n = o → o ≠ .Jmp → o ≠ .Proj →
      g.setsLink n = false → (o = .Cond → enqueued = outs n) → Visited tv g outs n s s enqueued := by
    rintro o enqueued rfl hjmp hproj hsets hcond
    refine visited_of_nothing ?_ hsets hcond
    unfold isExit
    rw [decide_eq_false hjmp, decide_eq_false hproj]
    rfl
  unfold visitNode
  cases hn : g.opcode n
  case Add | Sub | Mul | Div | Mod | Minus | Not | Conv | Cmp | Phi =>
    refine hset _ _ hn (by decide) (by decide) (by decide) ?_ ?_
    · unfold setsLink
      rw [hn]
    · unfold setVal
      rw [hn]
      first | rfl | (unfold newVal; rw [hn]; rfl)
  case Proj => exact visited_visitProj hn s
  case Bad => exact visited_visitBad hn s
  case Jmp => exact visited_visitJmp hn (hjmp n hn) s
  case Cond => exact hnothing .Cond _ hn (by decide) (by decide) (by unfold setsLink; rw [hn]) fun _ => rfl
  all_goals
    refine hnothing _ _ hn (by simp) (by simp) ?_ (by simp)
    unfold setsLink
    rw [hn]

end Mjc.Irg.FirmGraph

import Mjc.Irg.StartBlock
import Mjc.Irg.Visits

/-!
# When the worklist is empty

The run of the constant propagation.

* `Settled`, `Waiting` : a node whose link and mark are up to date, and one that will be visited;
* `Visited.settled_self`, `Visited.settled_other` : whatever a visit spoils is enqueued, except behind the start block;
* `Propagating` : the invariant of the run; what is in the start block is final from its first visit on;
* `constProp_certified` : when the queue is empty, the links and the marks are certified.
-/

namespace Mjc.Irg.FirmGraph

set_option autoImplicit false

variable {T W : Type} {size : Nat} {tv : Tarvals T} {g : FirmGraph T size} {s s' : ConstPropState T size}

/-! ## The `Phi` loop -/

/-- The loop starts from a link and goes up. -/
theorem covers_phiVal_start (preds : List (Fin size × Fin size)) (val : Val T) :
    val.Covers (phiVal tv s preds val) := by
  induction preds generalizing val with
  | nil => exact .refl val
  | cons p preds ih =>
    unfold phiVal
    split
    · exact ih val
    · cases val with
      | unknown => exact Or.inl rfl
      | bad => exact .refl _
      | const v =>
        cases hp : s.link p.1 with
        | unknown => exact ih _
        | bad => exact Or.inr (Or.inl rfl)
        | const t =>
          dsimp only
          split
          · exact Or.inr (Or.inl rfl)
          · exact ih _

/-- It covers every operand whose edge is not known to be dead. -/
theorem covers_phiVal {preds : List (Fin size × Fin size)} (val : Val T) {p : Fin size × Fin size} (hp : p ∈ preds)
    (hmark : s.controlFlowVisited p.2 ≠ some false) : (s.link p.1).Covers (phiVal tv s preds val) := by
  induction preds generalizing val with
  | nil => cases hp
  | cons q preds ih =>
    unfold phiVal
    rcases List.mem_cons.mp hp with rfl | hp
    · rw [if_neg hmark]
      cases val with
      | unknown =>
        cases hlink : s.link p.1 with
        | unknown => exact Or.inl rfl
        | bad => exact .refl _
        | const t => exact covers_phiVal_start _ _
      | bad => exact Or.inr (Or.inl rfl)
      | const v =>
        cases hlink : s.link p.1 with
        | unknown => exact Or.inl rfl
        | bad => exact .refl _
        | const t =>
          dsimp only
          split
          · exact Or.inr (Or.inl rfl)
          · rename_i hcmp
            obtain rfl := tv.eq_of_cmp v t (not_not.mp hcmp)
            exact covers_phiVal_start _ _
    · split
      · exact ih val hp
      · cases val with
        | unknown =>
          cases hlink : s.link q.1 with
          | unknown => exact ih _ hp
          | bad => exact Or.inr (Or.inl rfl)
          | const t => exact ih _ hp
        | bad => exact Or.inr (Or.inl rfl)
        | const v =>
          cases hlink : s.link q.1 with
          | unknown => exact ih _ hp
          | bad => exact Or.inr (Or.inl rfl)
          | const t =>
            dsimp only
            split
            · exact Or.inr (Or.inl rfl)
            · exact ih _ hp

/-- Operands that are no constants make none. -/
theorem phiVal_ne_const {preds : List (Fin size × Fin size)} {val : Val T} (hval : ∀ t, val ≠ .const t)
    (hpreds : ∀ p ∈ preds, ∀ t, s.link p.1 ≠ .const t) (t : T) : phiVal tv s preds val ≠ .const t := by
  induction preds generalizing val with
  | nil => exact hval t
  | cons p preds ih =>
    have hrest : ∀ p ∈ preds, ∀ t, s.link p.1 ≠ .const t := fun p hp => hpreds p (List.mem_cons_of_mem _ hp)
    have hp := hpreds p List.mem_cons_self
    unfold phiVal
    split
    · exact ih hval hrest
    · cases val with
      | unknown =>
        cases hlink : s.link p.1 with
        | unknown => exact ih hval hrest
        | bad => exact fun h => by cases h
        | const t' => exact absurd hlink (hp t')
      | bad => exact fun h => by cases h
      | const v => exact absurd rfl (hval v)

/-! ## Settled nodes -/

variable {x n : Fin size}

variable (g) in
/-- A node that will be visited: it is in the queue, or the `Cond` is whose visit enqueues it. -/
def Waiting (queue : List (Fin size)) (n : Fin size) : Prop :=
  n ∈ queue ∨ g.opcode n = .Proj ∧ g.mode n = .X ∧ g.operand n 0 ∈ queue

theorem Waiting.mono {queue queue' : List (Fin size)} (h : g.Waiting queue n) (hsub : ∀ m ∈ queue, m ∈ queue') :
    g.Waiting queue' n := h.imp (hsub n) fun ⟨hproj, hX, hcond⟩ => ⟨hproj, hX, hsub _ hcond⟩

theorem newVal_congr (hg : g.WellFormed) (h : ∀ m ∈ (g.node n).ins, s'.link m = s.link m) :
    newVal tv g s' n = newVal tv g s n :=
  newVal_eq rfl rfl rfl rfl fun _ hi _ => h _ (operand_mem (lt_of_lt_of_le hi (hg.arity n)))

theorem newVal_of_not_sets (h : g.setsLink n = false) : newVal tv g s' n = newVal tv g s n := by
  unfold setsLink at h
  unfold newVal
  cases hn : g.opcode n <;> rw [hn] at h
  case Proj =>
    dsimp only at h ⊢
    rw [if_neg (of_decide_eq_false h), if_neg (of_decide_eq_false h)]
  all_goals first | rfl | cases h

variable [DecidableEq T] {outs : Fin size → List (Fin size)} {enqueued : List (Fin size)}

variable (tv g) in
/-- The link and the mark of a node are what a visit makes them. -/
structure Settled (s : ConstPropState T size) (n : Fin size) : Prop where
  value : g.opcode n ≠ .Phi → s.link n = newVal tv g s n
  phi : g.opcode n = .Phi → g.PhiCovers s n
  control : g.isExit n = true → g.Reached s (g.block n) → exitTaken tv g s n = true →
    s.controlFlowVisited n = some true

theorem exitTaken_congr (h : g.opcode n ≠ .Jmp → s'.link (g.selector n) = s.link (g.selector n)) :
    exitTaken tv g s' n = exitTaken tv g s n := by
  unfold exitTaken projTaken
  by_cases hjmp : g.opcode n = .Jmp
  · rw [if_pos hjmp, if_pos hjmp]
  · rw [if_neg hjmp, if_neg hjmp, h hjmp]

namespace Visited

/-- A node that depends on what has changed is enqueued. -/
theorem ins_eq (hv : Visited tv g outs x s s' enqueued) (houts : ∀ m n, m ∈ outs n ↔ n ∈ (g.node m).uses)
    (n : Fin size) : n ∈ enqueued ∨ ∀ m ∈ (g.node n).ins, s'.link m = s.link m := by
  by_cases hsame : s'.link x = s.link x
  · right
    intro m _
    by_cases hm : m = x
    · rw [hm, hsame]
    · exact hv.link_other m hm
  · by_cases hx : x ∈ (g.node n).ins
    · exact Or.inl (hv.users hsame n ((houts n x).mpr (mem_uses hx)))
    · exact Or.inr fun m hm => hv.link_other m fun h => hx (h ▸ hm)

/-- The `Cond` of an exit whose selector has changed is enqueued. -/
theorem exitTaken_eq (hg : g.WellFormed) (hv : Visited tv g outs x s s' enqueued)
    (houts : ∀ m n, m ∈ outs n ↔ n ∈ (g.node m).uses) (hexit : g.isExit n = true) :
    g.Waiting enqueued n ∨ exitTaken tv g s' n = exitTaken tv g s n := by
  by_cases hjmp : g.opcode n = .Jmp
  · exact Or.inr (exitTaken_congr fun h => absurd hjmp h)
  · obtain ⟨hproj, hX⟩ := isExit_proj hexit hjmp
    rcases hv.ins_eq houts (g.operand n 0) with hcond | hsame
    · exact Or.inl (Or.inr ⟨hproj, hX, hcond⟩)
    · have harity := hg.arity (g.operand n 0)
      rw [hg.proj_cond n hproj hX] at harity
      exact Or.inr (exitTaken_congr fun _ => hsame _ (operand_mem (i := 0) harity))

theorem link_eq (hv : Visited tv g outs x s s' enqueued) (hphi : g.opcode x ≠ .Phi)
    (hunset : g.setsLink x = false → s.link x = newVal tv g s x) : s'.link x = newVal tv g s x := by
  rw [hv.link_self]
  cases hsets : g.setsLink x with
  | false => exact hunset hsets
  | true =>
    unfold setVal
    rw [if_pos rfl, if_neg hphi]

/-- The node itself is settled, or will be visited again. -/
theorem settled_self (hg : g.WellFormed) (hv : Visited tv g outs x s s' enqueued)
    (houts : ∀ m n, m ∈ outs n ↔ n ∈ (g.node m).uses) (hunset : g.setsLink x = false → s.link x = newVal tv g s x) :
    g.Waiting enqueued x ∨ Settled tv g s' x := by
  rcases hv.ins_eq houts x with hx | hins
  · exact Or.inl (Or.inl hx)
  by_cases hwaiting : g.Waiting enqueued x
  · exact Or.inl hwaiting
  refine Or.inr ⟨fun hphi => ?_, fun hphi i m blockPred hm hpred hmark => ?_, fun hexit hreached htaken => ?_⟩
  · rw [newVal_congr hg hins]
    exact hv.link_eq hphi hunset
  · have hX := (hg.phi_mode x hphi).1
    have hmarks : s'.controlFlowVisited blockPred = s.controlFlowVisited blockPred := by
      by_cases hb : blockPred = x
      · rw [hb]
        exact hv.mark_self.resolve_right fun h => hX h.1
      · exact hv.mark_other blockPred hb
    have hsets : g.setsLink x = true := by
      unfold setsLink
      rw [hphi]
    rw [hv.link_self, hsets, if_pos rfl, hins m (List.mem_of_getElem? hm)]
    unfold setVal
    rw [if_pos hphi]
    refine covers_phiVal _ (p := (m, blockPred)) ?_ (hmarks ▸ hmark)
    refine List.mem_of_getElem? (i := i) ?_
    rw [List.getElem?_zip_eq_some]
    exact ⟨hm, hpred⟩
  · have hsame := (hv.exitTaken_eq hg houts hexit).resolve_left hwaiting
    exact (hv.reached hexit).resolve_left (fun h => hwaiting (Or.inl h)) (hsame ▸ htaken) hreached

/-- Another node stays settled, or will be visited; `hstart`, as the visit of an exit of the start block enqueues
nothing. -/
theorem settled_other (hg : g.WellFormed) (hv : Visited tv g outs x s s' enqueued)
    (houts : ∀ m n, m ∈ outs n ↔ n ∈ (g.node m).uses) {queue : List (Fin size)}
    (hstart : g.block x = g.startBlock → s'.controlFlowVisited x = some true → s.controlFlowVisited x ≠ some true →
      s.controlFlowVisited x = none ∧
        ∀ m, (g.node m).isBlock = false → g.mode m = .X → x ∈ g.cfgpreds (g.block m) → m ∈ queue)
    (hne : n ≠ x) (hn : Settled tv g s n) : g.Waiting (queue ++ enqueued) n ∨ Settled tv g s' n := by
  by_cases hwaiting : g.Waiting (queue ++ enqueued) n
  · exact Or.inl hwaiting
  have henqueued : ¬ g.Waiting enqueued n :=
    fun h => hwaiting (h.mono fun m hm => List.mem_append_right _ hm)
  have hins := (hv.ins_eq houts n).resolve_left fun h => henqueued (Or.inl h)
  -- an edge into the block that is taken from now on
  have hfollows : ∀ m, (g.node m).isBlock = false → x ∈ g.cfgpreds (g.block m) → g.mode m = .X ∨ g.opcode m = .Phi →
      m ∈ g.followers outs x := by
    intro m hm hx hkind
    refine List.mem_flatMap.mpr ⟨g.block m, (houts _ _).mpr (mem_uses hx), List.mem_filter.mpr ⟨?_, ?_⟩⟩
    · exact (houts _ _).mpr (block_mem_uses hm)
    · simpa using hkind
  refine Or.inr ⟨fun hphi => ?_, fun hphi i m blockPred hm hpred hmark => ?_, fun hexit hreached htaken => ?_⟩
  · rw [hv.link_other n hne, newVal_congr hg hins]
    exact hn.value hphi
  · rw [hv.link_other n hne, hins m (List.mem_of_getElem? hm)]
    refine hn.phi hphi i m blockPred hm hpred fun hdead => ?_
    by_cases hb : blockPred = x
    · subst hb
      have hlive : s'.controlFlowVisited blockPred = some true := by
        cases hmark' : s'.controlFlowVisited blockPred with
        | none =>
          rcases hv.mark_self with h | h
          · rw [h, hdead] at hmark'
            cases hmark'
          · exact absurd hmark' h.2
        | some taken =>
          cases taken with
          | false => exact absurd hmark' hmark
          | true => rfl
      have hnew : s.controlFlowVisited blockPred ≠ some true := by
        rw [hdead]
        decide
      by_cases hblock : g.block blockPred = g.startBlock
      · have hnone := (hstart hblock hlive hnew).1
        rw [hdead] at hnone
        cases hnone
      · have hmem := hfollows n (isBlock_eq_false hphi (by decide)) (List.mem_of_getElem? hpred) (Or.inr hphi)
        exact henqueued (Or.inl (hv.followers hlive hnew hblock n hmem))
    · exact hmark ((hv.mark_other blockPred hb).trans hdead)
  · rw [hv.mark_other n hne]
    refine hn.control hexit ?_ ?_
    · refine hreached.imp_right fun ⟨p, hp, hlive⟩ => ⟨p, hp, ?_⟩
      by_cases hpx : p = x
      · subst hpx
        by_contra hnew
        have hX : g.mode n = .X := by
          by_cases hjmp : g.opcode n = .Jmp
          · exact hg.jmp_mode n hjmp
          · exact (isExit_proj hexit hjmp).2
        have hblock : (g.node n).isBlock = false := by
          by_cases hjmp : g.opcode n = .Jmp
          · exact isBlock_eq_false hjmp (by decide)
          · exact isBlock_eq_false (isExit_proj hexit hjmp).1 (by decide)
        by_cases hstartp : g.block p = g.startBlock
        · exact hwaiting (Or.inl (List.mem_append_left _ ((hstart hstartp hlive hnew).2 n hblock hX hp)))
        · exact henqueued (Or.inl (hv.followers hlive hnew hstartp n (hfollows n hblock hp (Or.inl hX))))
      · rwa [← hv.mark_other p hpx]
    · exact ((hv.exitTaken_eq hg houts hexit).resolve_left henqueued) ▸ htaken

end Visited

/-! ## The run -/

variable (tv g) in
/-- What holds of the start block, of the nodes that were visited. -/
structure Started (done : List (Fin size)) (s : ConstPropState T size) : Prop where
  fresh : ∀ n, n ∉ done → s.controlFlowVisited n = none
  value : ∀ n ∈ done, (g.node n).isBlock = false → g.block n = g.startBlock → s.link n = newVal tv g s n
  control : ∀ p ∈ done, g.block p = g.startBlock → g.isExit p = true →
    s.controlFlowVisited p = some (exitTaken tv g s p)

variable (tv g) in
/-- The invariant of the run. -/
structure Propagating (init queue : List (Fin size)) (s : ConstPropState T size) : Prop where
  waiting : ∀ n, g.Waiting queue n ∨ Settled tv g s n
  unset_value : ∀ n, g.setsLink n = false → s.link n = newVal tv g s n
  memory : ∀ n, g.mode n = .M → ∀ t, s.link n ≠ .const t
  started : ∃ done rest extra, init = done ++ rest ∧ queue = rest ++ extra ∧ Started tv g done s

/-- The start block is final: its operands come before their users. -/
theorem Started.step (hg : g.WellFormed) {done done' : List (Fin size)} (h : Started tv g done s)
    (hv : Visited tv g outs x s s' enqueued) (hunset : g.setsLink x = false → s.link x = newVal tv g s x)
    (hsub : ∀ n ∈ done, n ∈ done') (hnew : ∀ n ∈ done', n ∈ done ∨ n = x) (hx : x ∈ done' ∨ g.opcode x = .Const)
    (hops : ∀ n ∈ done', (g.node n).isBlock = false → g.block n = g.startBlock → ∀ m ∈ (g.node n).ins,
      g.opcode m = .Const ∨ m ∈ done) : Started tv g done' s' := by
  have hins : ∀ n ∈ done', (g.node n).isBlock = false → g.block n = g.startBlock → ∀ m ∈ (g.node n).ins,
      s'.link m = s.link m := by
    intro n hn hblock hstart m hm
    by_cases hmx : m = x
    · subst hmx
      obtain ⟨hmblock, hmstart⟩ := hg.start_closed ⟨hblock, hstart⟩ hm
      rcases hops n hn hblock hstart m hm with hconst | hdone
      · have hsets : g.setsLink m = false := by
          unfold setsLink
          rw [hconst]
        rw [hv.link_self, hsets]
        rfl
      · rw [hv.link_eq (fun hphi => hg.start_phi m hphi hmstart) hunset, h.value m hdone hmblock hmstart]
    · exact hv.link_other m hmx
  refine ⟨fun n hn => ?_, fun n hn hblock hstart => ?_, fun p hp hstart hexit => ?_⟩
  · have hfresh := h.fresh n fun hdone => hn (hsub n hdone)
    by_cases hnx : n = x
    · subst hnx
      rw [hv.mark_self.resolve_right, hfresh]
      exact fun hX => (hg.no_value n (Or.inr hX.1)).1 (hx.resolve_left hn)
    · rw [hv.mark_other n hnx, hfresh]
  · rw [newVal_congr hg (hins n hn hblock hstart)]
    by_cases hnx : n = x
    · subst hnx
      exact hv.link_eq (fun hphi => hg.start_phi n hphi hstart) hunset
    · rw [hv.link_other n hnx]
      exact h.value n ((hnew n hn).resolve_right hnx) hblock hstart
  · have hsame : exitTaken tv g s' p = exitTaken tv g s p := by
      refine exitTaken_congr fun hjmp => ?_
      obtain ⟨hproj, hX⟩ := isExit_proj hexit hjmp
      have hcond := hg.proj_cond p hproj hX
      have hpblock := isBlock_eq_false hproj (by decide)
      have harity := hg.arity p
      have harity' := hg.arity (g.operand p 0)
      rw [hproj] at harity
      rw [hcond] at harity'
      have hmem : g.operand p 0 ∈ (g.node p).ins := operand_mem (i := 0) harity
      obtain ⟨hcblock, hcstart⟩ := hg.start_closed ⟨hpblock, hstart⟩ hmem
      have hcdone := (hops p hp hpblock hstart _ hmem).resolve_left (by rw [hcond]; decide)
      exact hins _ (hsub _ hcdone) hcblock hcstart _ (operand_mem (i := 0) harity')
    rw [hsame]
    by_cases hpx : p = x
    · subst hpx
      exact hv.start hexit hstart
    · rw [hv.mark_other p hpx]
      exact h.control p ((hnew p hp).resolve_right hpx) hstart hexit

theorem Propagating.start (hg : g.WellFormed) {init : List (Fin size)} (hinit : g.Queued init) :
    Propagating tv g init init g.initState := by
  have hunset : ∀ n, g.setsLink n = false → g.initVal n = newVal tv g g.initState n := by
    intro n h
    unfold setsLink at h
    unfold newVal initVal
    cases hn : g.opcode n <;> rw [hn] at h
    case Proj =>
      dsimp only at h ⊢
      rw [if_neg (of_decide_eq_false h)]
    all_goals first | rfl | cases h
  refine ⟨fun n => ?_, hunset, fun n hM t h => ?_, [], init, [], rfl, (List.append_nil init).symm, ?_⟩
  · by_cases hconst : g.opcode n = .Const
    · refine Or.inr ⟨fun _ => hunset n ?_, fun hphi => ?_, fun hexit => ?_⟩
      · unfold setsLink
        rw [hconst]
      · rw [hconst] at hphi
        cases hphi
      · rcases isExit_opcode hexit with h | h <;> rw [hconst] at h <;> cases h
    · exact Or.inl (Or.inl (hinit.mem n hconst))
  · have hconst := (hg.no_value n (Or.inl hM)).1
    have hlink : g.initVal n = .const t := h
    unfold initVal at hlink
    cases hn : g.opcode n <;> rw [hn] at hconst hlink <;> first | exact hconst rfl | cases hlink
  · exact ⟨fun _ _ => rfl, fun _ hn => absurd hn List.not_mem_nil, fun _ hp => absurd hp List.not_mem_nil⟩

/-- The visit of an exit of the start block finds the control flow behind it in the queue. -/
theorem Started.exit_first (hg : g.WellFormed) {init done rest : List (Fin size)} (h : Started tv g done s)
    (hinit : g.Queued init) (hsplit : init = done ++ x :: rest) (hv : Visited tv g outs x s s' enqueued)
    (hstart : g.block x = g.startBlock) (hlive : s'.controlFlowVisited x = some true)
    (hnew : s.controlFlowVisited x ≠ some true) :
    s.controlFlowVisited x = none ∧
      ∀ m, (g.node m).isBlock = false → g.mode m = .X → x ∈ g.cfgpreds (g.block m) → m ∈ rest := by
  have hexit : g.isExit x = true := by
    by_contra hexit
    exact hnew (hv.mark_exit (Bool.eq_false_of_not_eq_true hexit) hlive)
  have hdone : x ∉ done := by
    intro hdone
    rw [h.control x hdone hstart hexit, ← hv.start hexit hstart] at hnew
    exact hnew hlive
  refine ⟨h.fresh x hdone, fun m hblock hX hm => ?_⟩
  have hmem := hinit.mem m (hg.no_value m (Or.inr hX)).1
  have hfirst := hinit.exit m x hblock hexit hstart hm
  rw [hsplit] at hmem hfirst
  rcases List.mem_append.mp hmem with hmdone | hmem
  · exact absurd (hfirst.mem_left hmdone) hdone
  · refine (List.mem_cons.mp hmem).resolve_left ?_
    rintro rfl
    rw [hstart, hg.start_ins] at hm
    cases hm

omit [DecidableEq T] in
theorem setVal_memory (hg : g.WellFormed) (hM : g.mode n = .M) (hsets : g.setsLink n = true)
    (hmemory : ∀ n, g.mode n = .M → ∀ t, s.link n ≠ .const t) (t : T) : setVal tv g s n ≠ .const t := by
  unfold setVal
  by_cases hphi : g.opcode n = .Phi
  · rw [if_pos hphi]
    refine phiVal_ne_const (fun t h => by cases h) (fun p hp t => ?_) t
    exact hmemory _ (((hg.phi_mode n hphi).2 _ (List.of_mem_zip hp).1).mpr hM) t
  · -- no other visit sets the link of memory
    exfalso
    obtain ⟨-, hkind⟩ := hg.no_value n (Or.inl hM)
    unfold setsLink at hsets
    cases hn : g.opcode n <;> rw [hn] at hsets hkind hphi
    case Phi => exact hphi rfl
    case Proj => exact of_decide_eq_true hsets hM
    all_goals first | exact absurd hkind (by decide) | cases hsets

/-- What one visit keeps. -/
theorem Propagating.step (hg : g.WellFormed) (houts : ∀ m n, m ∈ outs n ↔ n ∈ (g.node m).uses)
    {init queue : List (Fin size)} (hinit : g.Queued init) (h : Propagating tv g init (x :: queue) s) :
    Propagating tv g init (queue ++ (visitNode tv g outs x s).2) (visitNode tv g outs x s).1 := by
  have hv : Visited tv g outs x s _ _ := visited_visitNode hg.jmp_mode x s
  generalize (visitNode tv g outs x s).1 = s' at hv ⊢
  generalize (visitNode tv g outs x s).2 = enqueued at hv ⊢
  have hunset := h.unset_value x
  obtain ⟨done, rest, extra, hsplit, hqueue, hstarted⟩ := h.started
  -- the node is the next of the first round, or the first round is over
  have hround : ∃ done' rest' extra', init = done' ++ rest' ∧ queue = rest' ++ extra' ∧ (∀ n ∈ done, n ∈ done') ∧
      (∀ n ∈ done', n ∈ done ∨ n = x) ∧ (x ∈ done' ∨ g.opcode x = .Const) ∧
      (x ∈ done ∨ g.opcode x = .Const ∨ init = done ++ x :: rest') ∧
      (∀ p n, IrGraph.Precedes init p n → n ∈ done' → p ∈ done) := by
    cases rest with
    | nil =>
      have hdone : g.opcode x ≠ .Const → x ∈ done := by
        intro hconst
        rw [← List.append_nil done, ← hsplit]
        exact hinit.mem x hconst
      have hx : x ∈ done ∨ g.opcode x = .Const := by
        by_cases hconst : g.opcode x = .Const
        · exact Or.inr hconst
        · exact Or.inl (hdone hconst)
      refine ⟨done, [], queue, hsplit, rfl, fun _ hn => hn, fun _ hn => Or.inl hn, hx, hx.imp_right Or.inl, ?_⟩
      exact fun p n hpn hn => (hsplit ▸ hpn).mem_left hn
    | cons y rest =>
      obtain ⟨rfl, rfl⟩ := List.cons.inj hqueue
      refine ⟨done ++ [x], rest, extra, by rw [hsplit, List.append_assoc]; rfl, rfl,
        fun n hn => List.mem_append_left _ hn, fun n hn => ?_,
        Or.inl (List.mem_append_right _ (List.mem_singleton_self x)),
        Or.inr (Or.inr hsplit), fun p n hpn hn => ?_⟩
      · exact (List.mem_append.mp hn).imp_right List.mem_singleton.mp
      · rcases List.mem_append.mp hn with hn | hn
        · exact (hsplit ▸ hpn).mem_left hn
        · obtain rfl := List.mem_singleton.mp hn
          exact hpn done ⟨rest, by rw [hsplit, List.append_assoc]; rfl⟩
  obtain ⟨done', rest', extra', hsplit', rfl, hsub, hnew, hxdone, hfirst, hprec⟩ := hround
  refine ⟨fun n => ?_, fun n hsets => ?_, fun n hM t => ?_, done', rest', extra' ++ enqueued, hsplit',
    List.append_assoc _ _ _, ?_⟩
  · by_cases hnx : n = x
    · subst hnx
      exact (hv.settled_self hg houts hunset).imp_left fun hw => hw.mono fun m hm => List.mem_append_right _ hm
    · rcases h.waiting n with hw | hn
      · left
        rcases hw with hw | ⟨hproj, hX, hw⟩
        · exact Or.inl (List.mem_append_left _ ((List.mem_cons.mp hw).resolve_left hnx))
        · rcases List.mem_cons.mp hw with hcond | hw
          · -- the visit of the `Cond`
            have hopcond := hg.proj_cond n hproj hX
            have harity := hg.arity n
            rw [hproj] at harity
            have hmem := mem_uses (operand_mem (i := 0) harity)
            rw [hcond] at hopcond hmem
            exact Or.inl (List.mem_append_right _ (hv.cond hopcond n ((houts n x).mpr hmem)))
          · exact Or.inr ⟨hproj, hX, List.mem_append_left _ hw⟩
      · refine hv.settled_other hg houts (fun hstart hlive hmark => ?_) hnx hn
        rcases hfirst with hdone | hconst | hsplit
        · -- the exit was marked for good
          have hexit : g.isExit x = true := by
            by_contra hexit
            exact hmark (hv.mark_exit (Bool.eq_false_of_not_eq_true hexit) hlive)
          rw [hstarted.control x hdone hstart hexit, ← hv.start hexit hstart] at hmark
          exact absurd hlive hmark
        · have hX : g.mode x ≠ .X := fun hX => (hg.no_value x (Or.inr hX)).1 hconst
          rw [hv.mark_self.resolve_right fun h => hX h.1] at hlive
          exact absurd hlive hmark
        · obtain ⟨hnone, hmem⟩ := hstarted.exit_first hg hinit hsplit hv hstart hlive hmark
          exact ⟨hnone, fun m hb hX hm => List.mem_append_left _ (hmem m hb hX hm)⟩
  · rw [newVal_of_not_sets (s := s) hsets]
    by_cases hnx : n = x
    · subst hnx
      rw [hv.link_self, hsets]
      exact hunset hsets
    · rw [hv.link_other n hnx]
      exact h.unset_value n hsets
  · by_cases hnx : n = x
    · subst hnx
      rw [hv.link_self]
      split
      · rename_i hsets
        exact setVal_memory hg hM hsets h.memory t
      · exact h.memory n hM t
    · rw [hv.link_other n hnx]
      exact h.memory n hM t
  · refine hstarted.step hg hv hunset hsub hnew hxdone fun n hn hblock hstart m hm => ?_
    by_cases hconst : g.opcode m = .Const
    · exact Or.inl hconst
    · exact Or.inr (hprec m n (hinit.operand n m hblock hstart hm hconst) hn)

/-- When the queue is empty, the links are what the visits compute, and control goes no further than its marks. -/
theorem constProp_certified (hg : g.WellFormed) (hwalk : g.Walkable)
    (houts : ∀ m n, m ∈ outs n ↔ n ∈ (g.node m).uses) {rank : Fin size → Nat} {hrank : g.Ranked rank}
    {depth visits : Nat} (h : constProp tv g outs rank hrank depth visits = some s) : Certified tv g s := by
  obtain ⟨order, horder, hrun⟩ := Option.bind_eq_some_iff.mp h
  have hinit := queued_initQueue hg hwalk horder
  have hend : Propagating tv g (g.initQueue order) [] s :=
    Worklist.run_invariant (fun _ _ _ h => h.step hg houts hinit) (.start hg hinit) hrun
  have hsettled : ∀ n, Settled tv g s n := by
    intro n
    refine (hend.waiting n).resolve_left ?_
    rintro (hw | ⟨-, -, hw⟩) <;> cases hw
  exact ⟨fun n _ => (hsettled n).value, fun n _ => (hsettled n).phi, fun x => (hsettled x).control, hend.memory⟩

end Mjc.Irg.FirmGraph

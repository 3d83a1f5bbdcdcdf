import Mjc.Irg.Replaced

/-!
# What a substitution preserves

* `Preserves` : the executions of two graphs go through the same blocks, and every operation that is left has the same
  operands and the same value; calls, memory accesses and returns are left;
* `Replaces.preserves` : an exchange by a new node;
* `preserves_toConst`, `preserves_exit` : a node whose link is a constant, and an exit whose selector is one.
-/

namespace Mjc.Irg

set_option autoImplicit false

open Dominance

/-- What a program does to the world. -/
def Opcode.isEffect (o : Opcode) : Bool :=
  match o with
  | .Alloc | .ASM | .Builtin | .Call _ | .CopyB | .Free | .Load | .Raise | .Return | .Start | .Store => true
  | _ => false

/-- The operations; what is exchanged is none of them afterwards. -/
def Opcode.isOperation (o : Opcode) : Bool :=
  match o with
  | .Bad | .Block | .Const | .Deleted | .End | .Jmp | .Phi => false
  | _ => true

namespace FirmGraph

variable {T W : Type} {size : Nat} {tv : Tarvals T} {apply : Fin size → List (Value T W) → Value T W}
  {g g' g'' : FirmGraph T size}

/-- Control enters the same block, and the operations that are left in it read and compute the same values. -/
structure SameStep (g g' : FirmGraph T size) (p p' : Fin size × Env T W size) : Prop where
  block : p'.1 = p.1
  operation : ∀ n, (g'.opcode n).isOperation = true → g'.block n = p.1 →
    g.opcode n = g'.opcode n ∧ g.block n = p.1 ∧ p'.2 n = p.2 n ∧
      (g'.node n).ins.map p'.2 = (g.node n).ins.map p.2

variable (tv apply) in
/-- The graphs compute the same. -/
structure Preserves (g g' : FirmGraph T size) : Prop where
  effect : ∀ n, (g.opcode n).isEffect = true → g'.opcode n = g.opcode n ∧ g'.block n = g.block n
  forward : ∀ h, Run tv apply g h → ∃ h', Run tv apply g' h' ∧ List.Forall₂ (SameStep g g') h h'
  backward : ∀ h', Run tv apply g' h' → ∃ h, Run tv apply g h ∧ List.Forall₂ (SameStep g g') h h'

theorem SameStep.trans {p p' p'' : Fin size × Env T W size} (h : SameStep g g' p p') (h' : SameStep g' g'' p' p'') :
    SameStep g g'' p p'' := by
  refine ⟨h'.block.trans h.block, fun n hn hb => ?_⟩
  obtain ⟨hop', hb', hval', hins'⟩ := h'.operation n hn (hb.trans h.block.symm)
  rw [h.block] at hb'
  obtain ⟨hop, hb, hval, hins⟩ := h.operation n (hop' ▸ hn) hb'
  exact ⟨hop.trans hop', hb, hval'.trans hval, hins'.trans hins⟩

theorem forall₂_trans {α : Type} {R R' R'' : α → α → Prop} (hR : ∀ a b c, R a b → R' b c → R'' a c) {l l' l'' : List α}
    (h : List.Forall₂ R l l') (h' : List.Forall₂ R' l' l'') : List.Forall₂ R'' l l'' := by
  induction h generalizing l'' with
  | nil =>
    cases h'
    exact .nil
  | cons hab _ ih =>
    cases h' with
    | cons hbc h' => exact .cons (hR _ _ _ hab hbc) (ih h')

namespace Preserves

theorem refl (g : FirmGraph T size) : Preserves tv apply g g := by
  have hsame : ∀ h : List (Fin size × Env T W size), List.Forall₂ (SameStep g g) h h := by
    intro h
    exact List.forall₂_same.mpr fun p _ => ⟨rfl, fun n _ hb => ⟨rfl, hb, rfl, rfl⟩⟩
  exact ⟨fun _ _ => ⟨rfl, rfl⟩, fun h hrun => ⟨h, hrun, hsame h⟩, fun h hrun => ⟨h, hrun, hsame h⟩⟩

theorem trans (h : Preserves tv apply g g') (h' : Preserves tv apply g' g'') : Preserves tv apply g g'' := by
  refine ⟨fun n hn => ?_, fun h₁ hrun => ?_, fun h₃ hrun => ?_⟩
  · obtain ⟨hop, hb⟩ := h.effect n hn
    obtain ⟨hop', hb'⟩ := h'.effect n (hop ▸ hn)
    exact ⟨hop'.trans hop, hb'.trans hb⟩
  · obtain ⟨h₂, hrun₂, hsame⟩ := h.forward h₁ hrun
    obtain ⟨h₃, hrun₃, hsame'⟩ := h'.forward h₂ hrun₂
    exact ⟨h₃, hrun₃, forall₂_trans (fun _ _ _ => SameStep.trans) hsame hsame'⟩
  · obtain ⟨h₂, hrun₂, hsame'⟩ := h'.backward h₃ hrun
    obtain ⟨h₁, hrun₁, hsame⟩ := h.backward h₂ hrun₂
    exact ⟨h₁, hrun₁, forall₂_trans (fun _ _ _ => SameStep.trans) hsame hsame'⟩

end Preserves

/-- What holds of the state after each step of an execution. -/
theorem Run.forall₂_map {R : Fin size × Env T W size → Fin size × Env T W size → Prop}
    {f : Fin size × Env T W size → Fin size × Env T W size}
    (hR : ∀ b env h, Run tv apply g ((b, env) :: h) → R (b, env) (f (b, env))) {h : List (Fin size × Env T W size)}
    (hrun : Run tv apply g h) : List.Forall₂ R h (h.map f) := by
  induction hrun with
  | start hvalues => exact .cons (hR _ _ _ (.start hvalues)) .nil
  | step hrun hleaves hb hx henters ih => exact .cons (hR _ _ _ (hrun.step hleaves hb hx henters)) ih

namespace Replaces

variable {old : Fin size} {v : Value T W}

/-- The operands of an operation have the same values in both graphs. -/
theorem map_ins (hr : Replaces g g' old) (hg : g.WellFormed) (hval : HasValue tv apply g old v) {b : Fin size}
    {env : Env T W size} {h : List (Fin size × Env T W size)} (hrun : Run tv apply g ((b, env) :: h)) {n : Fin size}
    (hn : n ≠ old) (hop : (g.opcode n).isOperation = true) (hb : g.block n = b) :
    (g'.node n).ins.map (Function.update env old v) = (g.node n).ins.map env := by
  have hne : ∀ o : Opcode, o.isOperation = false → g.opcode n ≠ o := by
    rintro o ho rfl
    rw [hop] at ho
    cases ho
  rw [hr.node n hn]
  refine List.map_congr_left fun m hm => hval.update_eq hrun fun _ => ?_
  have hdom := hg.operand_dom n (decide_eq_false (hne .Block rfl)) (hne .End rfl) (hne .Phi rfl) m hm
  exact hrun.evaluated (hb ▸ hdom)

/-- An exit that stays is taken as before. -/
theorem leaves (hr : Replaces g g' old) (hg : g.WellFormed) (hcond : g.opcode old ≠ .Cond)
    (hval : HasValue tv apply g old v) {a x : Fin size} {env : Env T W size} {h : List (Fin size × Env T W size)}
    (hrun : Run tv apply g ((a, env) :: h)) (hleaves : Leaves tv g env a x) (hx : x ≠ old) :
    Leaves tv g' (Function.update env old v) a x := by
  refine ⟨(hr.block hx).trans hleaves.block, (hr.isExit_eq hx).trans hleaves.exit, fun hproj => ?_⟩
  rw [hr.opcode hx] at hproj
  have hX := (isExit_proj hleaves.exit (by rw [hproj]; decide)).2
  have hco : g.operand x 0 ≠ old := fun h => hcond (h ▸ hg.proj_cond x hproj hX)
  have hsel : g'.selector x = g.selector x := by
    unfold selector
    rw [hr.operand hx, hr.operand hco]
  rw [hsel, hr.projNum, hval.update_eq hrun fun _ => ?_]
  · exact hleaves.proj hproj
  · exact hrun.evaluated (hleaves.block ▸ (hg.selector_dom hproj hX).2)

theorem preserves (hr : Replaces g g' old) (hf : Fresh g g' old) (hg : g.WellFormed) (hg' : g'.WellFormed)
    (heffect : (g.opcode old).isEffect = false) (hval : HasValue tv apply g old v) (hval' : HasValue tv apply g' old v)
    (hforward : ∀ h, Run tv apply g h → Run tv apply g' (h.map (withValue old v)))
    (hbackward : ∀ h, Run tv apply g' h → Run tv apply g (h.map (withValue old v))) : Preserves tv apply g g' := by
  have hne : ∀ n, (g'.opcode n).isOperation = true → n ≠ old := by
    rintro n hop rfl
    rcases hf.opcode with h | h | h <;> rw [h] at hop <;> cases hop
  refine ⟨fun n hn => ?_, fun h hrun => ⟨_, hforward h hrun, ?_⟩, fun h hrun => ⟨_, hbackward h hrun, ?_⟩⟩
  · have hno : n ≠ old := by
      rintro rfl
      rw [heffect] at hn
      cases hn
    exact ⟨hr.opcode hno, hr.block hno⟩
  · refine Run.forall₂_map (fun b env h hrun => ⟨rfl, fun n hop hb => ?_⟩) hrun
    have hno := hne n hop
    rw [hr.opcode hno] at hop ⊢
    rw [hr.block hno] at hb
    exact ⟨rfl, hb, Function.update_of_ne hno _ _, hr.map_ins hg hval hrun hno hop hb⟩
  · refine List.Forall₂.flip (Run.forall₂_map (fun b env h hrun => ⟨rfl, fun n hop hb => ?_⟩) hrun)
    have hno := hne n hop
    exact ⟨(hr.opcode hno).symm, (hr.block hno).symm.trans hb, (Function.update_of_ne hno _ _).symm,
      (hr.symm.map_ins hg' hval' hrun hno hop hb).symm⟩

end Replaces

/-! ## A constant -/

section Const

variable [DecidableEq T] {s : ConstPropState T size} {n : Fin size} {c : T}

theorem Certified.operands (hs : Certified tv g s) (hlink : s.link n = .const c) (hconst : g.opcode n ≠ .Const) :
    g.mode n ≠ .M ∧ (g.opcode n ≠ .Phi → (g.opcode n).arity ≠ 0 ∧ g.opcode n ≠ .Cond) := by
  have hM : g.mode n ≠ .M := fun h => hs.memory n h c hlink
  refine ⟨hM, fun hphi => ⟨fun harity => ?_, fun hcond => ?_⟩⟩
  · rw [hs.bad_of_unset hM hphi hconst (Or.inl harity)] at hlink
    cases hlink
  · rw [hs.bad_of_unset hM hphi hconst (Or.inr hcond)] at hlink
    cases hlink

theorem Certified.link_opcode (hs : Certified tv g s) (hlink : s.link n = .const c) (hconst : g.opcode n ≠ .Const)
    {o : Opcode} (ho : o ≠ .Phi ∧ (o.arity = 0 ∨ o = .Cond)) : g.opcode n ≠ o := by
  rintro rfl
  obtain ⟨harity, hcond⟩ := (hs.operands hlink hconst).2 ho.1
  exact ho.2.elim harity hcond

theorem replaces_toConst (hs : Certified tv g s) (hlink : s.link n = .const c) (hconst : g.opcode n ≠ .Const) :
    Replaces g (g.toConst n c) n := by
  refine ⟨fun m hm => Function.update_of_ne hm _ _, fun m hm => Function.update_of_ne hm _ _, rfl, rfl, rfl, rfl, ?_, ?_⟩
  · exact decide_eq_false (hs.link_opcode hlink hconst ⟨by decide, by decide⟩)
  · unfold toConst setNode
    dsimp only
    rw [Function.update_self]
    rfl

omit [DecidableEq T] in
theorem opcode_toConst : (g.toConst n c).opcode n = .Const := by
  unfold opcode toConst setNode
  dsimp only
  rw [Function.update_self]

theorem fresh_toConst (hg : g.WellFormed) (hs : Certified tv g s) (hlink : s.link n = .const c)
    (hconst : g.opcode n ≠ .Const) : Replaces.Fresh g (g.toConst n c) n := by
  have hop := opcode_toConst (g := g) (n := n) (c := c)
  refine ⟨?_, Or.inl hop, hs.link_opcode hlink hconst ⟨by decide, by decide⟩, Or.inl ?_, fun hexit => ?_, fun _ => ?_,
    fun hjmp => ?_⟩
  · unfold toConst setNode
    dsimp only
    rw [Function.update_self]
  · unfold block toConst setNode
    dsimp only
    rw [Function.update_self]
  · rcases isExit_opcode hexit with h | h <;> rw [hop] at h <;> cases h
  · refine ⟨(hs.operands hlink hconst).1, fun hX => ?_⟩
    rw [hs.bad_of_mode_X hg hX] at hlink
    cases hlink
  · rw [hop] at hjmp
    cases hjmp

theorem Certified.toConst (hg : g.WellFormed) (hs : Certified tv g s) (hlink : s.link n = .const c)
    (hconst : g.opcode n ≠ .Const) : (g.toConst n c).WellFormed ∧ Certified tv (g.toConst n c) s := by
  have hr := replaces_toConst hs hlink hconst
  have hf := fresh_toConst hg hs hlink hconst
  refine ⟨hr.wellFormed hf hg, hr.certified hf hg hs ?_ fun hjmp => ?_⟩
  · unfold newVal
    rw [opcode_toConst, hlink]
    dsimp only [FirmGraph.toConst]
    rw [Function.update_self]
  · rw [opcode_toConst] at hjmp
    cases hjmp

/-- A node that is right about its value has it in every execution. -/
theorem Certified.hasValue (hg : g.WellFormed) (hs : Certified tv g s) (hlink : s.link n = .const c) :
    HasValue tv apply g n (.tarval c) := by
  intro b env h hrun hn
  have hholds := (hs.explains hg hrun).holds n (fun hM => hs.memory n hM c hlink) hn
  rwa [hlink] at hholds

/-- Replacing a node by the constant of its link; the memory after a division was bypassed before. -/
theorem preserves_toConst (hg : g.WellFormed) (hs : Certified tv g s) (hlink : s.link n = .const c)
    (hconst : g.opcode n ≠ .Const)
    (hmem : ∀ p, g.opcode p = .Proj → g.mode p = .M → g.operand p 0 = n → (g.opcode n).isDivision = false) :
    Preserves tv apply g (g.toConst n c) := by
  have hr := replaces_toConst hs hlink hconst
  have hf := fresh_toConst hg hs hlink hconst
  obtain ⟨hg', hs'⟩ := hs.toConst hg hlink hconst
  have hval : HasValue tv apply g n (.tarval c) := hs.hasValue hg hlink
  have hval' : HasValue tv apply (g.toConst n c) n (.tarval c) := hs'.hasValue hg' hlink
  have hop := opcode_toConst (g := g) (n := n) (c := c)
  have hM := (hs.operands hlink hconst).1
  have hX := (hf.const hop).2
  have hexit : g.isExit n = false := by
    by_contra hexit
    rcases isExit_opcode (Bool.eq_true_of_not_eq_false hexit) with h | h
    · exact hX (hg.jmp_mode n h)
    · unfold isExit at hexit
      rw [h, decide_eq_false hX] at hexit
      exact hexit rfl
  have hresult' : ∀ env : Env T W size, (g.toConst n c).result tv apply env n = .tarval c := by
    intro env
    unfold result
    rw [hop, if_neg (by rwa [hr.mode])]
    dsimp only [FirmGraph.toConst]
    rw [Function.update_self]
  refine hr.preserves hf hg hg' ?_ hval hval' (fun h hrun => ?_) fun h hrun => ?_
  · cases hn : g.opcode n <;> first | rfl | exact absurd hn (hs.link_opcode hlink hconst ⟨by simp, Or.inl rfl⟩)
  · refine hr.run hg hg' hval (fun p _ hproj hpM hp => ⟨?_, hmem p hproj hpM hp⟩) (fun a env h x hrun hleaves => ?_)
      (fun _ _ _ _ _ _ _ _ hphi => ?_) (fun _ env _ _ _ _ => hresult' _) hrun
    · rw [hop]
      rfl
    · refine hr.leaves hg (hs.link_opcode hlink hconst ⟨by decide, by decide⟩) hval hrun hleaves ?_
      rintro rfl
      rw [hleaves.exit] at hexit
      cases hexit
    · rw [hop] at hphi
      cases hphi
  · refine hr.symm.run hg' hg hval' (fun p hp hproj hpM hops => ?_) (fun a env h x hrun hleaves => ?_)
      (fun a env h x i hrun hleaves hx hphi => ?_) (fun b env h hrun hb hphi => ?_) hrun
    · rw [hr.opcode hp] at hproj
      rw [hr.mode] at hpM
      rw [hr.operand hp] at hops
      rw [hop]
      exact ⟨hmem p hproj hpM hops, rfl⟩
    · refine hr.symm.leaves hg' (by rw [hop]; decide) hval' hrun hleaves ?_
      rintro rfl
      rcases isExit_opcode hleaves.exit with h | h <;> rw [hop] at h <;> cases h
    · -- the operand of a constant `Phi`, on an edge that control takes
      have hb := hg.block_isBlock n (isBlock_eq_false hphi (by decide))
      rw [hr.cfgpreds hb] at hx
      have hi : i < (g.node n).ins.length := by
        rw [hg.phi_length n hphi]
        exact (List.getElem?_eq_some_iff.mp hx).1
      have hex := hs'.explains hg' hrun
      have hmarked := hs'.marked hg' hrun hex hleaves
      obtain ⟨hexit', hblock⟩ := hr.exit_of_exit hf hleaves.exit
      obtain ⟨hmb, hdom⟩ := hg.phi_dom n _ x i hphi (getElem?_operand hi) hx hexit'
      have hcovers := hs.phi n hM hphi i _ x (getElem?_operand hi) hx (by rw [hmarked]; decide)
      rw [hlink] at hcovers
      have hmode : (g.toConst n c).mode (g.operand n i) ≠ .M := by
        rw [hr.mode]
        exact fun h => hM (((hg.phi_mode n hphi).2 _ (operand_mem hi)).mp h)
      by_cases hself : g.operand n i = n
      · rw [hself, Function.update_self]
      · rw [Function.update_of_ne hself]
        refine hcovers.holds (hex.holds _ hmode (hrun.evaluated ⟨(hr.isBlock_eq _).trans hmb, ?_⟩))
        rw [← hleaves.block, hblock]
        exact hr.dom_block hf hdom
    · have hex := hs'.explains hg' hrun
      have hend : g.opcode n ≠ .End := hs.link_opcode hlink hconst ⟨by decide, by decide⟩
      suffices hholds : (newVal tv g s n).Holds (g.result tv apply (Function.update env n (.tarval c)) n) by
        rw [← hs.value n hM hphi, hlink] at hholds
        exact hholds
      refine hg.holds_newVal hM hX fun m hm hmM => ?_
      by_cases hmn : m = n
      · rw [hmn, hlink, Function.update_self]
        rfl
      · rw [Function.update_of_ne hmn]
        obtain ⟨hmb, hdom⟩ := hg.operand_dom n hr.isBlock hend hphi m hm
        refine hex.holds m (by rwa [hr.mode]) (hrun.evaluated ⟨(hr.isBlock_eq m).trans hmb, ?_⟩)
        rw [← hb]
        exact hr.dom_block hf hdom

end Const

/-! ## An exit -/

section Exit

variable [DecidableEq T] {s : ConstPropState T size} {x : Fin size} {c : T}

variable (tv g) in
/-- What an exit becomes when the selector is the constant `c`. -/
def substExit (x : Fin size) (c : T) : FirmGraph T size :=
  if decide (c = tv.b_true) == decide (g.projNum x = pn_Cond_true) then g.toJmp x else g.toBad x

theorem substExit_node :
    (substExit tv g x c).node = Function.update g.node x
      (if decide (c = tv.b_true) == decide (g.projNum x = pn_Cond_true) then ⟨.Jmp, g.block x, []⟩
        else ⟨.Bad, g.startBlock, []⟩) := by
  unfold substExit
  split <;> rfl

variable (tv) in
theorem replaces_substExit (hproj : g.opcode x = .Proj) : Replaces g (substExit tv g x c) x := by
  have hrest : (substExit tv g x c).tarval = g.tarval ∧ (substExit tv g x c).mode = g.mode ∧
      (substExit tv g x c).relation = g.relation ∧ (substExit tv g x c).projNum = g.projNum ∧
        (substExit tv g x c).startBlock = g.startBlock := by
    unfold substExit
    split <;> exact ⟨rfl, rfl, rfl, rfl, rfl⟩
  refine ⟨fun n hn => ?_, fun n _ => congrFun hrest.1 n, hrest.2.1, hrest.2.2.1, hrest.2.2.2.1, hrest.2.2.2.2,
    isBlock_eq_false hproj (by decide), ?_⟩
  · rw [substExit_node, Function.update_of_ne hn]
  · rw [substExit_node, Function.update_self]
    split <;> rfl

variable (tv) in
/-- The exit is a jump where it is taken, and bad where not. -/
theorem opcode_substExit (hlink : s.link (g.selector x) = .const c) (hproj : g.opcode x = .Proj) :
    exitTaken tv g s x = true ∧ (substExit tv g x c).node x = ⟨.Jmp, g.block x, []⟩ ∨
      exitTaken tv g s x = false ∧ (substExit tv g x c).node x = ⟨.Bad, g.startBlock, []⟩ := by
  have htaken : exitTaken tv g s x = (decide (c = tv.b_true) == decide (g.projNum x = pn_Cond_true)) := by
    unfold exitTaken projTaken
    rw [if_neg (by rw [hproj]; decide), hlink]
  rw [substExit_node, Function.update_self, htaken]
  cases decide (c = tv.b_true) == decide (g.projNum x = pn_Cond_true)
  · exact Or.inr ⟨rfl, rfl⟩
  · exact Or.inl ⟨rfl, rfl⟩

variable (tv) in
theorem fresh_substExit (hlink : s.link (g.selector x) = .const c) (hproj : g.opcode x = .Proj) (hX : g.mode x = .X) :
    Replaces.Fresh g (substExit tv g x c) x := by
  have hexit : g.isExit x = true := by
    unfold isExit
    rw [hproj, hX]
    rfl
  rcases opcode_substExit tv hlink hproj with ⟨-, hnode⟩ | ⟨-, hnode⟩
  · have hop : (substExit tv g x c).opcode x = .Jmp := congrArg IrNode.opcode hnode
    have hb : (substExit tv g x c).block x = g.block x := by
      unfold block
      rw [hnode]
      rfl
    exact ⟨congrArg IrNode.ins hnode, Or.inr (Or.inl hop), by rw [hproj]; decide, Or.inr hb, fun _ => ⟨hexit, hb⟩,
      fun hconst => absurd (hop.symm.trans hconst) (by decide), fun _ => hX⟩
  · have hop : (substExit tv g x c).opcode x = .Bad := congrArg IrNode.opcode hnode
    refine ⟨congrArg IrNode.ins hnode, Or.inr (Or.inr hop), by rw [hproj]; decide, Or.inl (congrArg IrNode.block hnode),
      fun hexit' => ?_, fun hconst => absurd (hop.symm.trans hconst) (by decide), fun _ => hX⟩
    rcases isExit_opcode hexit' with h | h <;> rw [hop] at h <;> cases h

theorem Certified.substExit (hg : g.WellFormed) (hs : Certified tv g s) (hlink : s.link (g.selector x) = .const c)
    (hproj : g.opcode x = .Proj) (hX : g.mode x = .X) :
    (substExit tv g x c).WellFormed ∧ Certified tv (substExit tv g x c) s := by
  have hr := replaces_substExit (c := c) tv hproj
  have hf := fresh_substExit tv hlink hproj hX
  refine ⟨hr.wellFormed hf hg, hr.certified hf hg hs ?_ fun hjmp => ?_⟩
  · rw [hs.bad_of_mode_X hg hX]
    unfold newVal
    rcases hf.opcode with h | h | h
    · exact absurd hX (hf.const h).2
    · rw [h]
    · rw [h]
  · rcases opcode_substExit tv hlink hproj with ⟨htaken, -⟩ | ⟨-, hnode⟩
    · exact htaken
    · have hop : (FirmGraph.substExit tv g x c).opcode x = .Bad := congrArg IrNode.opcode hnode
      exact absurd (hop.symm.trans hjmp) (by decide)

/-- Control goes where it went. -/
theorem preserves_substExit (hg : g.WellFormed) (hs : Certified tv g s) (hlink : s.link (g.selector x) = .const c)
    (hproj : g.opcode x = .Proj) (hX : g.mode x = .X) : Preserves tv apply g (FirmGraph.substExit tv g x c) := by
  have hr := replaces_substExit (c := c) tv hproj
  have hf := fresh_substExit tv hlink hproj hX
  obtain ⟨hg', hs'⟩ := hs.substExit hg hlink hproj hX
  have hphi : g.opcode x ≠ .Phi := by
    rw [hproj]
    decide
  have hresult : ∀ env : Env T W size, g.result tv apply env x = apply x [] := by
    intro env
    unfold result
    rw [if_pos hX]
  have hresult' : ∀ env : Env T W size, (FirmGraph.substExit tv g x c).result tv apply env x = apply x [] := by
    intro env
    unfold result
    rw [if_pos (by rwa [hr.mode])]
  have hval := hasValue_of_result hphi hresult
  have hval' := hasValue_of_result (hf.opcode_ne (by decide)) hresult'
  have hdom := hg.selector_dom hproj hX
  have hself : g.selector x ≠ x := by
    intro h
    rw [h, hs.bad_of_mode_X hg hX] at hlink
    cases hlink
  have hdiv : (g.opcode x).isDivision = false := by
    rw [hproj]
    rfl
  have hdiv' : ((FirmGraph.substExit tv g x c).opcode x).isDivision = false := by
    rcases hf.opcode with h | h | h <;> rw [h] <;> rfl
  refine hr.preserves hf hg hg' (by rw [hproj]; rfl) hval hval' (fun h hrun => ?_) fun h hrun => ?_
  · refine hr.run hg hg' hval (fun _ _ _ _ _ => ⟨hdiv', hdiv⟩) (fun a env h y hrun hleaves => ?_)
      (fun _ _ _ _ _ _ _ _ h => absurd h (hf.opcode_ne (by decide))) (fun _ env _ _ _ _ => hresult' _) hrun
    by_cases hy : y = x
    · -- the selector has the value of its link
      subst hy
      have hex := hs.explains hg hrun
      have hsel := hex.holds _ hdom.1 (hrun.evaluated (hleaves.block ▸ hdom.2))
      rw [hlink] at hsel
      have hiff := hleaves.proj hproj
      rw [show env (g.selector y) = .tarval c from hsel, Value.tarval.injEq] at hiff
      rcases opcode_substExit tv hlink hproj with ⟨-, hnode⟩ | ⟨htaken, -⟩
      · have hop : (FirmGraph.substExit tv g y c).opcode y = .Jmp := congrArg IrNode.opcode hnode
        refine ⟨?_, ?_, fun h => absurd (hop.symm.trans h) (by decide)⟩
        · unfold block
          rw [hnode]
          exact hleaves.block
        · unfold isExit
          rw [hop]
          rfl
      · unfold exitTaken projTaken at htaken
        rw [if_neg (by rw [hproj]; decide), hlink] at htaken
        dsimp only at htaken
        rw [decide_eq_decide.mpr hiff, beq_self_eq_true] at htaken
        cases htaken
    · exact hr.leaves hg (by rw [hproj]; decide) hval hrun hleaves hy
  · refine hr.symm.run hg' hg hval' (fun _ _ _ _ _ => ⟨hdiv, hdiv'⟩) (fun a env h y hrun hleaves => ?_)
      (fun _ _ _ _ _ _ _ _ h => absurd h hphi) (fun _ env _ _ _ _ => hresult _) hrun
    by_cases hy : y = x
    · subst hy
      obtain ⟨hexit, hblock⟩ := hr.exit_of_exit hf hleaves.exit
      have hex := hs'.explains hg' hrun
      have hsel := hex.holds (g.selector y) (by rw [hr.mode]; exact hdom.1) (hrun.evaluated
        ⟨(hr.isBlock_eq _).trans hdom.2.1, hleaves.block ▸ hblock ▸ hr.dom_block hf hdom.2.2⟩)
      rw [hlink] at hsel
      refine ⟨hblock ▸ hleaves.block, hexit, fun _ => ?_⟩
      rw [Function.update_of_ne hself, show env (g.selector y) = .tarval c from hsel, Value.tarval.injEq]
      rcases opcode_substExit tv hlink hproj with ⟨htaken, -⟩ | ⟨-, hnode⟩
      · unfold exitTaken projTaken at htaken
        rw [if_neg (by rw [hproj]; decide), hlink] at htaken
        exact decide_eq_decide.mp (beq_iff_eq.mp htaken)
      · have hop : (FirmGraph.substExit tv g y c).opcode y = .Bad := congrArg IrNode.opcode hnode
        rcases isExit_opcode hleaves.exit with h | h <;> rw [hop] at h <;> cases h
    · exact hr.symm.leaves hg' (hf.opcode_ne (by decide)) hval' hrun hleaves hy

end Exit

end FirmGraph

end Mjc.Irg

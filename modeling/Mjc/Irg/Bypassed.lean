import Mjc.Irg.Preserved
import Mjc.Irg.StartBlock

/-!
# The memory after a division

The users of the memory `Proj` of a division go to the memory before it.

* `Bypasses` : the `Proj` of a division; `reroute_wellFormed`, `Bypasses.certified` : what the exchange keeps;
* `Unchanged` : the memory is the same as long as neither is evaluated again; `Unchanged.eq_of_dom` : which it is not, on
  the way to a user;
* `Bypasses.preserves` : the executions are the same.
-/

namespace Mjc.Irg.FirmGraph

set_option autoImplicit false

open Dominance

variable {T W : Type} {size : Nat} {tv : Tarvals T} {apply : Fin size → List (Value T W) → Value T W}
  {g : FirmGraph T size} {p : Fin size}

/-- The memory `Proj` of a division. -/
structure Bypasses (g : FirmGraph T size) (p : Fin size) : Prop where
  proj : g.opcode p = .Proj
  memory : g.mode p = .M
  division : (g.opcode (g.operand p 0)).isDivision = true

variable (g) in
/-- The memory before the division. -/
def memBefore (p : Fin size) : Fin size := g.operand (g.operand p 0) 0

variable (g) in
/-- The graph without the `Proj`. -/
def bypass (p : Fin size) : FirmGraph T size := g.reroute p (g.memBefore p)

variable (g) in
/-- What a user of `m` uses now. -/
def bypassed (p m : Fin size) : Fin size := if m = p then g.memBefore p else m

theorem isDivision_cases {o : Opcode} (h : o.isDivision = true) : o = .Div ∨ o = .Mod := by
  unfold Opcode.isDivision at h
  rwa [Bool.or_eq_true, decide_eq_true_eq, decide_eq_true_eq] at h

theorem bypass_node {n : Fin size} (hn : n ≠ p) :
    (g.bypass p).node n = ⟨g.opcode n, g.block n, (g.node n).ins.map (g.bypassed p)⟩ := by
  unfold bypass reroute
  dsimp only
  rw [if_neg hn]
  rfl

theorem bypass_node_self : (g.bypass p).node p = ⟨.Deleted, g.block p, []⟩ := by
  unfold bypass reroute
  dsimp only
  rw [if_pos rfl]

theorem bypass_opcode {n : Fin size} (hn : n ≠ p) : (g.bypass p).opcode n = g.opcode n := by
  unfold opcode
  rw [bypass_node hn]
  rfl

theorem bypass_opcode_self : (g.bypass p).opcode p = .Deleted := congrArg IrNode.opcode bypass_node_self

theorem bypass_ne {n : Fin size} {o : Opcode} (h : (g.bypass p).opcode n = o) (ho : o ≠ .Deleted) : n ≠ p := by
  rintro rfl
  exact ho (h.symm.trans bypass_opcode_self)

theorem bypass_block (n : Fin size) : (g.bypass p).block n = g.block n := by
  unfold block
  by_cases hn : n = p
  · rw [hn, bypass_node_self]
    rfl
  · rw [bypass_node hn]
    rfl

theorem bypass_ins {n : Fin size} (hn : n ≠ p) : ((g.bypass p).node n).ins = (g.node n).ins.map (g.bypassed p) :=
  congrArg IrNode.ins (bypass_node hn)

theorem bypass_operand {n : Fin size} (hn : n ≠ p) {i : Nat} (hi : i < (g.node n).ins.length) :
    (g.bypass p).operand n i = g.bypassed p (g.operand n i) := by
  have hget := getElem?_operand (g := g.bypass p) (n := n) (i := i) (by rwa [bypass_ins hn, List.length_map])
  rw [bypass_ins hn, List.getElem?_map, getElem?_operand hi] at hget
  exact (Option.some.inj hget).symm

theorem bypassed_of_ne {m : Fin size} (hm : m ≠ p) : g.bypassed p m = m := if_neg hm

theorem bypassed_self : g.bypassed p p = g.memBefore p := if_pos rfl

namespace Bypasses

theorem division_ins (hp : Bypasses g p) (hg : g.WellFormed) : 0 < (g.node (g.operand p 0)).ins.length := by
  have harity := hg.arity (g.operand p 0)
  rcases isDivision_cases hp.division with h | h <;> rw [h] at harity <;> exact lt_of_lt_of_le (by decide) harity

theorem proj_ins (hp : Bypasses g p) (hg : g.WellFormed) : 0 < (g.node p).ins.length := by
  have harity := hg.arity p
  rw [hp.proj] at harity
  exact harity

theorem isBlock (hp : Bypasses g p) : (g.node p).isBlock = false := isBlock_eq_false hp.proj (by decide)

theorem division_dom (hp : Bypasses g p) (hg : g.WellFormed) :
    (g.node (g.operand p 0)).isBlock = false ∧ g.Dom (g.block (g.operand p 0)) (g.block p) :=
  hg.operand_dom p hp.isBlock (by rw [hp.proj]; decide) (by rw [hp.proj]; decide) _ (operand_mem (hp.proj_ins hg))

theorem memBefore_dom (hp : Bypasses g p) (hg : g.WellFormed) :
    (g.node (g.memBefore p)).isBlock = false ∧ g.Dom (g.block (g.memBefore p)) (g.block p) := by
  obtain ⟨hb, hdom⟩ := hp.division_dom hg
  have hdiv := isDivision_cases hp.division
  obtain ⟨hmb, hmdom⟩ := hg.operand_dom _ hb (by rcases hdiv with h | h <;> rw [h] <;> decide)
    (by rcases hdiv with h | h <;> rw [h] <;> decide) _ (operand_mem (hp.division_ins hg))
  exact ⟨hmb, hmdom.trans hdom⟩

theorem memBefore_mode (hp : Bypasses g p) (hg : g.WellFormed) : g.mode (g.memBefore p) = .M := by
  refine (hg.operand_memory (g.operand p 0) 0 ?_).mpr ⟨hp.division, rfl⟩
  rcases isDivision_cases hp.division with h | h <;> rw [h] <;> decide

/-- The memory before the division has a lower rank, or is a `Phi`. -/
theorem memBefore_rank (hp : Bypasses g p) (hg : g.WellFormed) {rank : Fin size → Nat} (hrank : g.Ranked rank)
    (hm : (g.node (g.memBefore p)).isLoopBreaker = false) : rank (g.memBefore p) < rank p := by
  have hdiv := isDivision_cases hp.division
  have hpb := isLoopBreaker_eq_false hp.isBlock (by rw [hp.proj]; decide)
  have hdb := isLoopBreaker_eq_false (hp.division_dom hg).1 (by rcases hdiv with h | h <;> rw [h] <;> decide)
  have h₁ := hrank p _ hpb hdb (mem_uses (operand_mem (hp.proj_ins hg)))
  have h₂ := hrank _ _ hdb hm (mem_uses (operand_mem (hp.division_ins hg)))
  exact lt_trans h₂ h₁

theorem memBefore_ne (hp : Bypasses g p) (hg : g.WellFormed) : g.memBefore p ≠ p := by
  intro h
  obtain ⟨rank, hrank⟩ := hg.ranked
  have hless := hp.memBefore_rank hg hrank
  rw [h] at hless
  replace hless := hless (isLoopBreaker_eq_false hp.isBlock (by rw [hp.proj]; decide))
  exact lt_irrefl _ hless

theorem isBlock_eq (hp : Bypasses g p) (n : Fin size) : ((g.bypass p).node n).isBlock = (g.node n).isBlock := by
  by_cases hn : n = p
  · rw [hn, hp.isBlock, bypass_node_self]
    rfl
  · rw [bypass_node hn]
    rfl

/-- The blocks have the predecessors that they had. -/
theorem cfgpreds (hp : Bypasses g p) (hg : g.WellFormed) {b : Fin size} (hb : (g.node b).isBlock = true) :
    (g.bypass p).cfgpreds b = g.cfgpreds b := by
  have hbp : b ≠ p := by
    rintro rfl
    rw [hp.isBlock] at hb
    cases hb
  unfold FirmGraph.cfgpreds
  rw [bypass_ins hbp]
  conv_rhs => rw [← List.map_id (g.node b).ins]
  refine List.map_congr_left fun x hx => bypassed_of_ne ?_
  rintro rfl
  have hX := hg.cfgpred_mode b hb x hx
  rw [hp.memory] at hX
  cases hX

theorem isExit_eq (hp : Bypasses g p) (x : Fin size) : (g.bypass p).isExit x = g.isExit x := by
  unfold isExit
  by_cases hx : x = p
  · rw [hx, bypass_opcode_self, hp.proj, hp.memory]
    rfl
  · rw [bypass_opcode hx]
    rfl

theorem edge_iff (hp : Bypasses g p) (hg : g.WellFormed) (a b : Fin size) : (g.bypass p).Edge a b ↔ g.Edge a b := by
  unfold Edge
  rw [hp.isBlock_eq]
  refine and_congr_right fun hb => ?_
  rw [hp.cfgpreds hg hb]
  refine exists_congr fun x => and_congr_right fun _ => ?_
  rw [hp.isExit_eq, bypass_block]

theorem dom (hp : Bypasses g p) (hg : g.WellFormed) {a b : Fin size} (h : g.Dom a b) : (g.bypass p).Dom a b :=
  Dominates.mono (fun a b h => (hp.edge_iff hg a b).mp h) h

/-- What dominated the `Proj` dominates its users. -/
theorem bypassed_dom (hp : Bypasses g p) (hg : g.WellFormed) {m b : Fin size}
    (h : (g.node m).isBlock = false ∧ g.Dom (g.block m) b) :
    (g.node (g.bypassed p m)).isBlock = false ∧ g.Dom (g.block (g.bypassed p m)) b := by
  by_cases hm : m = p
  · rw [hm, bypassed_self]
    obtain ⟨hb, hdom⟩ := hp.memBefore_dom hg
    exact ⟨hb, hdom.trans (hm ▸ h.2)⟩
  · rwa [bypassed_of_ne hm]

theorem bypassed_mode (hp : Bypasses g p) (hg : g.WellFormed) (m : Fin size) :
    g.mode (g.bypassed p m) = g.mode m := by
  by_cases hm : m = p
  · rw [hm, bypassed_self, hp.memory, hp.memBefore_mode hg]
  · rw [bypassed_of_ne hm]

theorem operand_mode (hp : Bypasses g p) (hg : g.WellFormed) {n : Fin size} (hn : n ≠ p) {i : Nat}
    (hi : i < (g.node n).ins.length) : g.mode ((g.bypass p).operand n i) = g.mode (g.operand n i) := by
  rw [bypass_operand hn hi, hp.bypassed_mode hg]

/-- An operand that is no memory is left. -/
theorem operand_eq (hp : Bypasses g p) {n : Fin size} (hn : n ≠ p) {i : Nat} (hi : i < (g.node n).ins.length)
    (hM : g.mode (g.operand n i) ≠ .M) : (g.bypass p).operand n i = g.operand n i := by
  rw [bypass_operand hn hi, bypassed_of_ne]
  intro h
  rw [h] at hM
  exact hM hp.memory

theorem wellFormed (hp : Bypasses g p) (hg : g.WellFormed) : (g.bypass p).WellFormed := by
  have hbreaks : ∀ n, n ≠ p → ((g.bypass p).node n).isLoopBreaker = (g.node n).isLoopBreaker := by
    intro n hn
    rw [bypass_node hn]
    rfl
  have hpbreaks := isLoopBreaker_eq_false hp.isBlock (by rw [hp.proj]; decide)
  have hbreaks' : ∀ n, ((g.bypass p).node n).isLoopBreaker = false → (g.node n).isLoopBreaker = false := by
    intro n h
    by_cases hn : n = p
    · rw [hn]
      exact hpbreaks
    · rwa [hbreaks n hn] at h
  have hproj : ∀ n, g.opcode n = .Proj → 0 < (g.node n).ins.length := by
    intro n hn
    have harity := hg.arity n
    rw [hn] at harity
    exact harity
  refine ⟨?_, fun n => ?_, fun n hn => ?_, fun n hn => ?_, fun n hn => ?_, fun b hb x hx => ?_, ?_, ?_, fun n hn => ?_,
    fun n hn => ?_, fun n hb hend hphi m hm => ?_, fun n m x i hn hm hx hexit => ?_, fun n hn => ?_, fun n hn => ?_,
    fun n i hi => ?_, fun n hn => ?_, fun n hn hX => ?_, fun n n' hn hn' hM hM' hops hdiv => ?_⟩
  · obtain ⟨rank, hrank⟩ := hg.ranked
    refine ⟨rank, fun m n hm hn huse => ?_⟩
    by_cases hmp : m = p
    · subst hmp
      unfold IrNode.uses at huse
      rw [hp.isBlock_eq, hp.isBlock, bypass_node_self] at huse
      exact hrank m n hpbreaks (hbreaks' n hn) (List.mem_singleton.mp huse ▸ block_mem_uses hp.isBlock)
    · rw [hbreaks m hmp] at hm
      have hmb : (g.node m).isBlock = false := by
        unfold IrNode.isLoopBreaker at hm
        exact (Bool.or_eq_false_iff.mp hm).2
      unfold IrNode.uses at huse
      rw [hp.isBlock_eq, hmb, bypass_node hmp] at huse
      rcases List.mem_cons.mp huse with rfl | huse
      · exact hrank m _ hm (hbreaks' _ hn) (block_mem_uses hmb)
      · obtain ⟨a, ha, rfl⟩ := List.mem_map.mp huse
        by_cases hap : a = p
        · subst hap
          rw [bypassed_self] at hn ⊢
          have hless := hrank m a hm hpbreaks (mem_uses ha)
          exact lt_trans (hp.memBefore_rank hg hrank (hbreaks' _ hn)) hless
        · rw [bypassed_of_ne hap] at hn ⊢
          exact hrank m a hm (hbreaks' a hn) (mem_uses ha)
  · by_cases hn : n = p
    · rw [hn, bypass_opcode_self]
      exact Nat.zero_le _
    · rw [bypass_opcode hn, bypass_ins hn, List.length_map]
      exact hg.arity n
  · have hnp := bypass_ne hn (by decide)
    rw [bypass_opcode hnp] at hn
    rw [bypass_ins hnp, List.length_map]
    exact hg.proj_length n hn
  · have hnp := bypass_ne hn (by decide)
    rw [bypass_opcode hnp] at hn
    rw [bypass_ins hnp, List.length_map, bypass_block,
      hp.cfgpreds hg (hg.block_isBlock n (isBlock_eq_false hn (by decide)))]
    exact hg.phi_length n hn
  · rw [hp.isBlock_eq] at hn ⊢
    rw [bypass_block]
    exact hg.block_isBlock n hn
  · rw [hp.isBlock_eq] at hb
    rw [hp.cfgpreds hg hb] at hx
    exact hg.cfgpred_mode b hb x hx
  · rw [hp.isBlock_eq]
    exact hg.start_isBlock
  · rw [hp.cfgpreds hg]
    · exact hg.start_ins
    · exact hg.start_isBlock
  · have hnp := bypass_ne hn (by decide)
    rw [bypass_opcode hnp] at hn
    rw [bypass_block]
    exact hg.start_phi n hn
  · have hnp := bypass_ne hn (by decide)
    rw [bypass_opcode hnp] at hn
    rw [bypass_block]
    exact hg.start_end n hn
  · by_cases hnp : n = p
    · rw [hnp, bypass_node_self] at hm
      cases hm
    · rw [hp.isBlock_eq] at hb ⊢
      rw [bypass_opcode hnp] at hend hphi
      rw [bypass_ins hnp] at hm
      obtain ⟨a, ha, rfl⟩ := List.mem_map.mp hm
      obtain ⟨hmb, hdom⟩ := hp.bypassed_dom hg (hg.operand_dom n hb hend hphi a ha)
      rw [bypass_block, bypass_block]
      exact ⟨hmb, hp.dom hg hdom⟩
  · have hnp := bypass_ne hn (by decide)
    rw [bypass_opcode hnp] at hn
    rw [bypass_ins hnp, List.getElem?_map] at hm
    obtain ⟨a, ha, rfl⟩ := Option.map_eq_some_iff.mp hm
    rw [bypass_block, hp.cfgpreds hg (hg.block_isBlock n (isBlock_eq_false hn (by decide)))] at hx
    rw [hp.isExit_eq] at hexit
    obtain ⟨hmb, hdom⟩ := hp.bypassed_dom hg (hg.phi_dom n a x i hn ha hx hexit)
    rw [hp.isBlock_eq, bypass_block, bypass_block]
    exact ⟨hmb, hp.dom hg hdom⟩
  · have hnp := bypass_ne hn (by decide)
    rw [bypass_opcode hnp] at hn
    obtain ⟨hX, hM⟩ := hg.phi_mode n hn
    refine ⟨hX, fun m hm => ?_⟩
    rw [bypass_ins hnp] at hm
    obtain ⟨a, ha, rfl⟩ := List.mem_map.mp hm
    have hmode := hp.bypassed_mode hg a
    exact (hmode ▸ hM a ha : g.mode (g.bypassed p a) = .M ↔ g.mode n = .M)
  · by_cases hnp : n = p
    · rw [hnp, bypass_opcode_self]
      exact ⟨by decide, Or.inl rfl⟩
    · rw [bypass_opcode hnp]
      exact hg.no_value n hn
  · by_cases hnp : n = p
    · rw [hnp, bypass_opcode_self] at hi
      cases hi
    · rw [bypass_opcode hnp] at hi ⊢
      have hmode := hp.operand_mode hg hnp (lt_of_lt_of_le hi (hg.arity n))
      exact (hmode ▸ hg.operand_memory n i hi :)
  · have hnp := bypass_ne hn (by decide)
    rw [bypass_opcode hnp] at hn
    exact hg.jmp_mode n hn
  · have hnp := bypass_ne hn (by decide)
    rw [bypass_opcode hnp] at hn
    have hcond := hg.proj_cond n hn hX
    have hne : g.operand n 0 ≠ p := by
      intro h
      rw [h, hp.proj] at hcond
      cases hcond
    rw [bypass_operand hnp (hproj n hn), bypassed_of_ne hne, bypass_opcode hne]
    exact hcond
  · have hnp := bypass_ne hn (by decide)
    have hnp' := bypass_ne hn' (by decide)
    rw [bypass_opcode hnp] at hn
    rw [bypass_opcode hnp'] at hn'
    have hmode : ∀ k, g.opcode k = .Proj → g.mode (g.operand k 0) ≠ .M := by
      intro k hk hkM
      have hkd := ((hg.operand_memory k 0 (by rw [hk]; decide)).mp hkM).1
      rw [hk] at hkd
      cases hkd
    rw [hp.operand_eq hnp (hproj n hn) (hmode n hn)] at hops hdiv
    rw [hp.operand_eq hnp' (hproj n' hn') (hmode n' hn')] at hops
    have hne : g.operand n 0 ≠ p := by
      intro h
      have := hmode n hn
      rw [h] at this
      exact this hp.memory
    rw [bypass_opcode hne] at hdiv
    exact hg.memory_proj n n' hn hn' hM hM' hops hdiv

theorem certified [DecidableEq T] {s : ConstPropState T size} (hp : Bypasses g p) (hg : g.WellFormed)
    (hs : Certified tv g s) :
    Certified tv (g.bypass p) { s with link := Function.update s.link (g.memBefore p) (s.link p) } := by
  have hlink : ∀ n, g.mode n ≠ .M → Function.update s.link (g.memBefore p) (s.link p) n = s.link n := by
    intro n hM
    refine Function.update_of_ne ?_ _ _
    rintro rfl
    exact hM (hp.memBefore_mode hg)
  have hne : ∀ n, g.mode n ≠ .M → n ≠ p := by
    rintro n hM rfl
    exact hM hp.memory
  refine ⟨fun n hM hphi => ?_, fun n hM hphi i m x hm hx hmark => ?_, fun x hexit hreached htaken => ?_,
    fun n hM t => ?_⟩
  · have hnp := hne n hM
    rw [bypass_opcode hnp] at hphi
    dsimp only
    rw [hlink n hM, hs.value n hM hphi]
    refine (newVal_eq (bypass_opcode hnp) rfl rfl rfl fun i hi hdiv => ?_).symm
    have hop : g.mode (g.operand n i) ≠ .M := by
      intro h
      obtain ⟨hdivision, hzero⟩ := (hg.operand_memory n i hi).mp h
      exact hdiv hdivision hzero
    rw [hp.operand_eq hnp (lt_of_lt_of_le hi (hg.arity n)) hop]
    exact hlink _ hop
  · have hnp := hne n hM
    rw [bypass_opcode hnp] at hphi
    rw [bypass_ins hnp, List.getElem?_map] at hm
    obtain ⟨a, ha, rfl⟩ := Option.map_eq_some_iff.mp hm
    rw [bypass_block, hp.cfgpreds hg (hg.block_isBlock n (isBlock_eq_false hphi (by decide)))] at hx
    have haM : g.mode a ≠ .M := fun h => hM (((hg.phi_mode n hphi).2 a (List.mem_of_getElem? ha)).mp h)
    rw [bypassed_of_ne (hne a haM)]
    dsimp only
    rw [hlink n hM, hlink a haM]
    exact hs.phi n hM hphi i a x ha hx hmark
  · rw [hp.isExit_eq] at hexit
    rw [bypass_block] at hreached
    have hxb : (g.node x).isBlock = false := by
      rcases isExit_opcode hexit with h | h <;> exact isBlock_eq_false h (by decide)
    have hxp : x ≠ p := by
      rintro rfl
      unfold isExit at hexit
      rw [hp.proj, hp.memory] at hexit
      cases hexit
    refine hs.control x hexit ?_ ?_
    · unfold Reached at hreached ⊢
      rw [hp.cfgpreds hg (hg.block_isBlock x hxb)] at hreached
      exact hreached
    · unfold exitTaken projTaken at htaken ⊢
      rw [bypass_opcode hxp] at htaken
      by_cases hjmp : g.opcode x = .Jmp
      · rw [if_pos hjmp]
      · obtain ⟨hproj, hX⟩ := isExit_proj hexit hjmp
        have hcond := hg.proj_cond x hproj hX
        have hsel := (hg.selector_dom hproj hX).1
        have hx := hg.arity x
        have hc := hg.arity (g.operand x 0)
        rw [hproj] at hx
        rw [hcond] at hc
        have hcp : g.operand x 0 ≠ p := by
          intro h
          rw [h, hp.proj] at hcond
          cases hcond
        have heq : (g.bypass p).selector x = g.selector x := by
          unfold selector
          rw [bypass_operand hxp hx, bypassed_of_ne hcp]
          exact hp.operand_eq hcp hc hsel
        rw [heq] at htaken
        dsimp only at htaken
        rw [hlink _ hsel] at htaken
        exact htaken
  · dsimp only
    by_cases hn : n = g.memBefore p
    · rw [hn, Function.update_self]
      exact hs.memory p hp.memory t
    · rw [Function.update_of_ne hn]
      exact hs.memory n hM t

end Bypasses

/-! ## Executions -/

variable (g p) in
/-- The memory after the division is the memory before it, when neither was evaluated since. -/
def Unchanged (path : List (Fin size)) (env : Env T W size) : Prop :=
  ∀ recent older, path = recent ++ g.block p :: older → g.block p ∉ recent → g.block (g.memBefore p) ∉ recent →
    env p = env (g.memBefore p)

/-- On the way to a user the memory before the division is not evaluated again. -/
theorem Unchanged.eq_of_dom {b : Fin size} {l : List (Fin size)} {env : Env T W size} (h : Unchanged g p (b :: l) env)
    (hpath : Path g.Edge g.startBlock (b :: l)) (hp : Bypasses g p) (hg : g.WellFormed)
    (hdom : g.Dom (g.block p) b) : env p = env (g.memBefore p) := by
  obtain ⟨recent, older, hsplit, hlast⟩ := List.eq_append_cons_of_mem (hdom l hpath)
  refine h recent older hsplit hlast ?_
  by_cases hsame : g.block (g.memBefore p) = g.block p
  · rwa [hsame]
  · exact Dominates.not_after (hp.memBefore_dom hg).2 hdom hsame hpath hsplit hlast

/-- The next block: either the `Proj` is evaluated, or nothing changes unless the memory does. -/
theorem Unchanged.cons {b : Fin size} {l : List (Fin size)} {env env' : Env T W size}
    (h : Unchanged g p l env) (hself : g.block p = b → env' p = env' (g.memBefore p))
    (hframe : ∀ n, n = p ∨ n = g.memBefore p → g.block n ≠ b → env' n = env n) : Unchanged g p (b :: l) env' := by
  intro recent older hsplit hlast hmem
  cases recent with
  | nil =>
    obtain ⟨rfl, -⟩ := List.cons.inj hsplit
    exact hself rfl
  | cons c recent =>
    obtain ⟨rfl, rfl⟩ := List.cons.inj hsplit
    obtain ⟨hpb, hlast⟩ := not_or.mp (mt List.mem_cons.mpr hlast)
    obtain ⟨hmb, hmem⟩ := not_or.mp (mt List.mem_cons.mpr hmem)
    rw [hframe p (Or.inl rfl) hpb, hframe _ (Or.inr rfl) hmb]
    exact h recent older rfl hlast hmem

namespace Bypasses

theorem result_eq (hp : Bypasses g p) (env : Env T W size) :
    g.result tv apply env p = env (g.memBefore p) := by
  unfold result
  rw [if_neg (by rw [hp.memory]; decide), hp.proj]
  dsimp only
  rw [if_pos (by rw [hp.memory, hp.division]; rfl)]
  rfl

theorem result_bypass_self (env : Env T W size) (hp : Bypasses g p) :
    (g.bypass p).result tv apply env p = apply p [] := by
  unfold result
  rw [if_neg (by show g.mode p ≠ .X; rw [hp.memory]; decide), bypass_opcode_self]

theorem unchanged (hp : Bypasses g p) {b : Fin size} {env : Env T W size} {h : List (Fin size × Env T W size)}
    (hrun : Run tv apply g ((b, env) :: h)) : Unchanged g p (b :: h.map Prod.fst) env := by
  generalize hl : (b, env) :: h = l at hrun
  induction hrun generalizing b env h with
  | start hvalues =>
    obtain ⟨hb, rfl⟩ := List.cons.inj hl
    obtain ⟨rfl, rfl⟩ := Prod.mk.inj hb
    intro recent older hsplit hlast _
    cases recent with
    | nil =>
      obtain ⟨hpb, -⟩ := List.cons.inj hsplit
      rw [hvalues p hp.isBlock hpb.symm, hp.result_eq]
    | cons c recent =>
      have hlength := congrArg List.length hsplit
      rw [List.map_nil, List.length_singleton, List.length_append, List.length_cons, List.length_cons] at hlength
      omega
  | @step a b' x i env₀ env' h' hrun _ _ _ henters ih =>
    obtain ⟨hb, rfl⟩ := List.cons.inj hl
    obtain ⟨rfl, rfl⟩ := Prod.mk.inj hb
    refine (ih rfl).cons (fun hpb => ?_) fun n _ hn => henters.frame n hn
    rw [henters.result p hp.isBlock hpb (by rw [hp.proj]; decide), hp.result_eq]

theorem eq_memBefore (hp : Bypasses g p) (hg : g.WellFormed) {b : Fin size} {env : Env T W size}
    {h : List (Fin size × Env T W size)} (hrun : Run tv apply g ((b, env) :: h)) (hdom : g.Dom (g.block p) b) :
    env p = env (g.memBefore p) := (hp.unchanged hrun).eq_of_dom hrun.path hp hg hdom

section Values

variable {b : Fin size} {env env' : Env T W size}

/-- What is used instead has the same value. -/
theorem bypassed_value (hp : Bypasses g p) (hg : g.WellFormed)
    (heq : g.Dom (g.block p) b → env p = env (g.memBefore p)) (hagree : ∀ n, n ≠ p → env' n = env n) {a : Fin size}
    (ha : g.Dom (g.block a) b) : env' (g.bypassed p a) = env a := by
  by_cases hap : a = p
  · rw [hap, bypassed_self, hagree _ (hp.memBefore_ne hg), heq (hap ▸ ha)]
  · rw [bypassed_of_ne hap, hagree a hap]

theorem map_ins (hp : Bypasses g p) (hg : g.WellFormed)
    (heq : g.Dom (g.block p) b → env p = env (g.memBefore p)) (hagree : ∀ n, n ≠ p → env' n = env n) {n : Fin size}
    (hn : n ≠ p) (hnb : (g.node n).isBlock = false) (hb : g.block n = b) (hend : g.opcode n ≠ .End)
    (hphi : g.opcode n ≠ .Phi) : ((g.bypass p).node n).ins.map env' = (g.node n).ins.map env := by
  rw [bypass_ins hn, List.map_map]
  refine List.map_congr_left fun a ha => hp.bypassed_value hg heq hagree ?_
  rw [← hb]
  exact (hg.operand_dom n hnb hend hphi a ha).2

theorem result_bypass (hp : Bypasses g p) (hg : g.WellFormed)
    (heq : g.Dom (g.block p) b → env p = env (g.memBefore p)) (hagree : ∀ n, n ≠ p → env' n = env n) {n : Fin size}
    (hn : n ≠ p) (hnb : (g.node n).isBlock = false) (hb : g.block n = b) (hphi : g.opcode n ≠ .Phi) :
    (g.bypass p).result tv apply env' n = g.result tv apply env n := by
  refine result_congr (bypass_opcode hn) rfl rfl rfl (hg.arity n)
    (fun hend => hp.map_ins hg heq hagree hn hnb hb hend hphi) fun hproj _ => ?_
  have harity := hg.arity n
  rw [hproj] at harity
  have hM : g.mode (g.operand n 0) ≠ .M := by
    intro h
    have hdiv := ((hg.operand_memory n 0 (by rw [hproj]; decide)).mp h).1
    rw [hproj] at hdiv
    cases hdiv
  have hne : g.operand n 0 ≠ p := by
    intro h
    rw [h] at hM
    exact hM hp.memory
  rw [hp.operand_eq hn harity hM, bypass_opcode hne]
  refine ⟨rfl, fun hdiv => ?_⟩
  have hdivision := isDivision_cases hdiv
  have harity' := hg.arity (g.operand n 0)
  have hlength : 0 < (g.node (g.operand n 0)).ins.length := by
    rcases hdivision with h | h <;> rw [h] at harity' <;> exact lt_of_lt_of_le (by decide) harity'
  rw [bypass_operand hne hlength]
  have hdom := hg.operand_dom n hnb (by rw [hproj]; decide) hphi _ (operand_mem (i := 0) harity)
  have hdom' := hg.operand_dom _ hdom.1 (by rcases hdivision with h | h <;> rw [h] <;> decide)
    (by rcases hdivision with h | h <;> rw [h] <;> decide) _ (operand_mem hlength)
  exact hp.bypassed_value hg heq hagree (hb ▸ hdom'.2.trans hdom.2)

theorem leaves_iff (hp : Bypasses g p) (hg : g.WellFormed) (hagree : ∀ n, n ≠ p → env' n = env n) (a x : Fin size) :
    Leaves tv (g.bypass p) env' a x ↔ Leaves tv g env a x := by
  have hsel : g.opcode x = .Proj → g.isExit x = true →
      env' ((g.bypass p).selector x) = env (g.selector x) ∧ x ≠ p := by
    intro hproj hexit
    have hX := (isExit_proj hexit (by rw [hproj]; decide)).2
    have hxp : x ≠ p := by
      rintro rfl
      rw [hp.memory] at hX
      cases hX
    have hcond := hg.proj_cond x hproj hX
    have hM := (hg.selector_dom hproj hX).1
    have hx := hg.arity x
    have hc := hg.arity (g.operand x 0)
    rw [hproj] at hx
    rw [hcond] at hc
    have hcp : g.operand x 0 ≠ p := by
      intro h
      rw [h, hp.proj] at hcond
      cases hcond
    have heq : (g.bypass p).selector x = g.selector x := by
      unfold selector
      rw [bypass_operand hxp hx, bypassed_of_ne hcp]
      exact hp.operand_eq hcp hc hM
    rw [heq]
    refine ⟨hagree _ ?_, hxp⟩
    rintro h
    rw [h] at hM
    exact hM hp.memory
  constructor
  · rintro ⟨hb, hexit, hproj⟩
    rw [bypass_block] at hb
    rw [hp.isExit_eq] at hexit
    refine ⟨hb, hexit, fun h => ?_⟩
    obtain ⟨hval, hxp⟩ := hsel h hexit
    rw [← hval]
    exact hproj (by rwa [bypass_opcode hxp])
  · rintro ⟨hb, hexit, hproj⟩
    refine ⟨(bypass_block x).trans hb, (hp.isExit_eq x).trans hexit, fun h => ?_⟩
    rw [bypass_opcode (bypass_ne h (by decide))] at h
    rw [(hsel h hexit).1]
    exact hproj h

end Values

/-- The executions agree about all but the `Proj`. -/
def Agree (p : Fin size) (q q' : Fin size × Env T W size) : Prop := q'.1 = q.1 ∧ ∀ n, n ≠ p → q'.2 n = q.2 n

theorem sameSteps (hp : Bypasses g p) (hg : g.WellFormed) {h h' : List (Fin size × Env T W size)}
    (hrun : Run tv apply g h) (hagree : List.Forall₂ (Agree p) h h') : List.Forall₂ (SameStep g (g.bypass p)) h h' := by
  have hsame : ∀ {b env h q'}, Run tv apply g ((b, env) :: h) → Agree p (b, env) q' →
      SameStep g (g.bypass p) (b, env) q' := by
    intro b env h q' hrun hq
    refine ⟨hq.1, fun n hop hb => ?_⟩
    have hnp : n ≠ p := by
      rintro rfl
      rw [bypass_opcode_self] at hop
      cases hop
    rw [bypass_opcode hnp] at hop ⊢
    rw [bypass_block] at hb
    have hne : ∀ o : Opcode, o.isOperation = false → g.opcode n ≠ o := by
      rintro o ho rfl
      rw [hop] at ho
      cases ho
    exact ⟨rfl, hb, hq.2 n hnp, hp.map_ins hg (hp.eq_memBefore hg hrun) hq.2 hnp (decide_eq_false (hne .Block rfl)) hb
      (hne .End rfl) (hne .Phi rfl)⟩
  induction hrun generalizing h' with
  | start hvalues =>
    obtain ⟨q', rest, hq, hrest, rfl⟩ := List.forall₂_cons_left_iff.mp hagree
    cases hrest
    exact .cons (hsame (.start hvalues) hq) .nil
  | step hrun hleaves hb hx henters ih =>
    obtain ⟨q', rest, hq, hrest, rfl⟩ := List.forall₂_cons_left_iff.mp hagree
    exact .cons (hsame (hrun.step hleaves hb hx henters) hq) (ih hrest)

/-- An execution of the graph is one of the graph without the `Proj`, which has no value there. -/
theorem run_bypass (hp : Bypasses g p) (hg : g.WellFormed) {h : List (Fin size × Env T W size)}
    (hrun : Run tv apply g h) : Run tv apply (g.bypass p) (h.map (withValue p (apply p []))) := by
  have hagree : ∀ env : Env T W size, ∀ n, n ≠ p → Function.update env p (apply p []) n = env n :=
    fun env n hn => Function.update_of_ne hn _ _
  have hblock : ∀ {b env h}, Run tv apply g ((b, env) :: h) →
      (∀ n, (g.node n).isBlock = false → g.block n = b → g.opcode n ≠ .Phi → env n = g.result tv apply env n) →
      ∀ n, ((g.bypass p).node n).isBlock = false → (g.bypass p).block n = b → (g.bypass p).opcode n ≠ .Phi →
        Function.update env p (apply p []) n =
          (g.bypass p).result tv apply (Function.update env p (apply p [])) n := by
    intro b env h hrun hvalues n hnb hb hop
    by_cases hn : n = p
    · subst hn
      rw [Function.update_self, result_bypass_self _ hp]
    · rw [hp.isBlock_eq] at hnb
      rw [bypass_block] at hb
      rw [bypass_opcode hn] at hop
      rw [hagree env n hn, hvalues n hnb hb hop]
      exact (hp.result_bypass hg (hp.eq_memBefore hg hrun) (hagree env) hn hnb hb hop).symm
  induction hrun with
  | @start env hvalues =>
    refine Run.start fun n hnb hb => ?_
    have hop : (g.bypass p).opcode n ≠ .Phi := fun hphi => (hp.wellFormed hg).start_phi n hphi hb
    exact hblock (.start hvalues) (fun n hnb hb _ => hvalues n hnb hb) n hnb hb hop
  | @step a b x i env env' h hrun hleaves hb hx henters ih =>
    refine ih.step ((hp.leaves_iff hg (hagree env) a x).mpr hleaves) ((hp.isBlock_eq b).trans hb)
      (hp.cfgpreds hg hb ▸ hx) ⟨fun n hnb => ?_, fun n hnb hbn hop => ?_, ?_⟩
    · rw [bypass_block] at hnb
      by_cases hn : n = p
      · rw [hn]
        dsimp only
        rw [Function.update_self, Function.update_self]
      · dsimp only
        rw [hagree _ n hn, hagree _ n hn]
        exact henters.frame n hnb
    · have hnp := bypass_ne hop (by decide)
      rw [bypass_opcode hnp] at hop
      rw [bypass_block] at hbn
      rw [hp.isBlock_eq] at hnb
      have hi : i < (g.node n).ins.length := by
        rw [hg.phi_length n hop, hbn]
        exact (List.getElem?_eq_some_iff.mp hx).1
      have hdom := (hg.phi_dom n _ x i hop (getElem?_operand hi) (hbn ▸ hx) hleaves.exit).2
      dsimp only
      rw [hagree _ n hnp, henters.phi n hnb hbn hop, bypass_operand hnp hi]
      exact (hp.bypassed_value hg (hp.eq_memBefore hg hrun) (hagree env) (hleaves.block ▸ hdom)).symm
    · exact hblock (hrun.step hleaves hb hx henters) henters.result

/-- An execution of the graph without the `Proj` is one of the graph: the `Proj` has the value of the memory before. -/
theorem run_of_bypass (hp : Bypasses g p) (hg : g.WellFormed) {b : Fin size} {env' : Env T W size}
    {h' : List (Fin size × Env T W size)} (hrun : Run tv apply (g.bypass p) ((b, env') :: h')) :
    ∃ env h, Run tv apply g ((b, env) :: h) ∧ List.Forall₂ (Agree p) ((b, env) :: h) ((b, env') :: h') := by
  generalize hl : (b, env') :: h' = l at hrun
  have hmp := hp.memBefore_ne hg
  induction hrun generalizing b env' h' with
  | start hvalues =>
    obtain ⟨hb, rfl⟩ := List.cons.inj hl
    obtain ⟨rfl, rfl⟩ := Prod.mk.inj hb
    have hagree : ∀ n, n ≠ p → env' n = Function.update env' p (env' (g.memBefore p)) n :=
      fun n hn => (Function.update_of_ne hn _ _).symm
    have heq : Function.update env' p (env' (g.memBefore p)) p =
        Function.update env' p (env' (g.memBefore p)) (g.memBefore p) := by
      rw [Function.update_self, Function.update_of_ne hmp]
    refine ⟨Function.update env' p (env' (g.memBefore p)), [], Run.start fun n hnb hb => ?_, .cons ⟨rfl, hagree⟩ .nil⟩
    by_cases hn : n = p
    · rw [hn, hp.result_eq]
      exact heq
    · have hop : g.opcode n ≠ .Phi := fun hphi => hg.start_phi n hphi hb
      rw [← hagree n hn, hvalues n ((hp.isBlock_eq n).trans hnb) ((bypass_block n).trans hb)]
      exact hp.result_bypass hg (fun _ => heq) hagree hn hnb hb hop
  | @step a b' x i env₀ env₁ h₀ hrun hleaves hb hx henters ih =>
    obtain ⟨hb', rfl⟩ := List.cons.inj hl
    obtain ⟨rfl, rfl⟩ := Prod.mk.inj hb'
    obtain ⟨env, h, hrung, hagrees⟩ := ih rfl
    obtain ⟨hhead, -⟩ := List.forall₂_cons.mp hagrees
    have hagree₀ := hhead.2
    dsimp only at hagree₀
    rw [hp.isBlock_eq] at hb
    rw [hp.cfgpreds hg hb] at hx
    have hleavesg := (hp.leaves_iff hg hagree₀ a x).mp hleaves
    -- the `Proj` is evaluated with its block
    generalize hv : (if g.block p = b then env' (g.memBefore p) else env p) = v
    have hagree : ∀ n, n ≠ p → env' n = Function.update env' p v n := fun n hn => (Function.update_of_ne hn _ _).symm
    have hframe : ∀ n, g.block n ≠ b → Function.update env' p v n = env n := by
      intro n hnb
      by_cases hn : n = p
      · subst hn
        rw [Function.update_self, ← hv, if_neg hnb]
      · rw [← hagree n hn, henters.frame n (by rwa [bypass_block]), hagree₀ n hn]
    have hself : g.block p = b → Function.update env' p v p = Function.update env' p v (g.memBefore p) := by
      intro hpb
      rw [Function.update_self, Function.update_of_ne hmp, ← hv, if_pos hpb]
    have hunchanged := (hp.unchanged hrung).cons hself fun n _ hn => hframe n hn
    have hpath := hrung.path.step ⟨hb, x, List.mem_of_getElem? hx, hleavesg.exit, hleavesg.block⟩
    have heq := hunchanged.eq_of_dom hpath hp hg
    refine ⟨Function.update env' p v, (a, env) :: h, hrung.step hleavesg hb hx ⟨hframe, fun n hnb hbn hop => ?_,
      fun n hnb hbn hop => ?_⟩, .cons ⟨rfl, hagree⟩ hagrees⟩
    · have hnp : n ≠ p := by
        rintro rfl
        rw [hp.proj] at hop
        cases hop
      have hi : i < (g.node n).ins.length := by
        rw [hg.phi_length n hop, hbn]
        exact (List.getElem?_eq_some_iff.mp hx).1
      have hdom := (hg.phi_dom n _ x i hop (getElem?_operand hi) (hbn ▸ hx) hleavesg.exit).2
      rw [← hagree n hnp, henters.phi n ((hp.isBlock_eq n).trans hnb) ((bypass_block n).trans hbn)
        ((bypass_opcode hnp).trans hop), bypass_operand hnp hi]
      exact hp.bypassed_value hg (hp.eq_memBefore hg hrung) hagree₀ (hleavesg.block ▸ hdom)
    · by_cases hn : n = p
      · subst hn
        rw [hp.result_eq]
        exact hself hbn
      · rw [← hagree n hn, henters.result n ((hp.isBlock_eq n).trans hnb) ((bypass_block n).trans hbn)
          (by rwa [bypass_opcode hn])]
        exact hp.result_bypass hg heq hagree hn hnb hbn hop

theorem preserves (hp : Bypasses g p) (hg : g.WellFormed) : Preserves tv apply g (g.bypass p) := by
  refine ⟨fun n hn => ?_, fun h hrun => ⟨_, hp.run_bypass hg hrun, hp.sameSteps hg hrun ?_⟩, fun h' hrun => ?_⟩
  · refine ⟨bypass_opcode ?_, bypass_block n⟩
    rintro rfl
    rw [hp.proj] at hn
    cases hn
  · refine List.forall₂_map_right_iff.mpr (List.forall₂_same.mpr fun q _ => ⟨rfl, fun n hn => ?_⟩)
    exact Function.update_of_ne hn _ _
  · cases h' with
    | nil => cases hrun
    | cons q h' =>
      obtain ⟨env, h, hrung, hagree⟩ := hp.run_of_bypass hg hrun
      exact ⟨_, hrung, hp.sameSteps hg hrung hagree⟩

end Bypasses

end Mjc.Irg.FirmGraph

import Mjc.Irg.Execution

/-!
# What the links say of an execution

* `Val.Holds` : a link is right about a value; `newVal` : the link that a visit computes; `holds_newVal` : it is right if
  the links of the operands are;
* `Certified` : every link is what a visit computes, and control goes no further than its marks say;
* `Certified.explains` : in every execution the links are right about all that was evaluated.
-/

namespace Mjc.Irg

set_option autoImplicit false

open Dominance

variable {T W : Type} {size : Nat}

namespace Val

/-- What a link says of a value: nothing has the value `unknown`. -/
def Holds (val : Val T) (v : Value T W) : Prop :=
  match val with
  | .unknown => False
  | .bad => True
  | .const t => v = .tarval t

/-- `val` says no more than `pred`. -/
def Covers (pred val : Val T) : Prop := pred = .unknown ∨ val = .bad ∨ pred = val

theorem Covers.refl (val : Val T) : Covers val val := Or.inr (Or.inr rfl)

theorem Covers.trans {a b c : Val T} (h : Covers a b) (h' : Covers b c) : Covers a c := by
  rcases h with h | rfl | rfl
  · exact Or.inl h
  · rcases h' with h' | h' | h'
    · cases h'
    · exact Or.inr (Or.inl h')
    · exact Or.inr (Or.inl h'.symm)
  · exact h'

theorem Covers.holds {pred val : Val T} {v : Value T W} (h : Covers pred val) (hpred : pred.Holds v) :
    val.Holds v := by
  rcases h with rfl | rfl | rfl
  · cases hpred
  · trivial
  · exact hpred

theorem holds_ofTarval {t : Option T} {fallback : Value T W} : (ofTarval t).Holds (t.elim fallback .tarval) := by
  cases t with
  | none => trivial
  | some t => rfl

end Val

namespace FirmGraph

theorem holds_transfer {left right : Val T} {v w fallback : Value T W} {evalFn : T → T → Option T}
    (hleft : left.Holds v) (hright : right.Holds w) :
    (transfer left right evalFn).Holds (Value.binary evalFn v w fallback) := by
  cases left with
  | unknown => cases hleft
  | bad => trivial
  | const l =>
    cases right with
    | unknown => cases hright
    | bad => trivial
    | const r =>
      obtain rfl : v = .tarval l := hleft
      obtain rfl : w = .tarval r := hright
      exact Val.holds_ofTarval

theorem holds_transferUnary {op : Val T} {v fallback : Value T W} {evalFn : T → Option T} (hop : op.Holds v) :
    (transferUnary op evalFn).Holds (Value.unary evalFn v fallback) := by
  cases op with
  | unknown => cases hop
  | bad => trivial
  | const t =>
    obtain rfl : v = .tarval t := hop
    exact Val.holds_ofTarval

theorem holds_project {val : Val T} {v fallback : Value T W} (h : val.Holds v) :
    val.Holds (Value.project v fallback) := by
  cases val with
  | unknown => cases h
  | bad => trivial
  | const t =>
    obtain rfl : v = .tarval t := h
    rfl

variable (tv : Tarvals T) (apply : Fin size → List (Value T W) → Value T W) (g : FirmGraph T size)

/-- The link of a node that is no `Phi`, after a visit. -/
def newVal (s : ConstPropState T size) (n : Fin size) : Val T :=
  match g.opcode n with
  | .Const => .const (g.tarval n)
  | .Add => transfer (s.link (g.operand n 0)) (s.link (g.operand n 1)) tv.add
  | .Sub => transfer (s.link (g.operand n 0)) (s.link (g.operand n 1)) tv.sub
  | .Mul => transfer (s.link (g.operand n 0)) (s.link (g.operand n 1)) tv.mul
  | .Div => transfer (s.link (g.operand n 1)) (s.link (g.operand n 2)) tv.div
  | .Mod => transfer (s.link (g.operand n 1)) (s.link (g.operand n 2)) tv.mod
  | .Cmp => transfer (s.link (g.operand n 0)) (s.link (g.operand n 1)) (evalCmp tv (g.relation n))
  | .Minus => transferUnary (s.link (g.operand n 0)) tv.neg
  | .Not => transferUnary (s.link (g.operand n 0)) tv.not
  | .Conv => transferUnary (s.link (g.operand n 0)) (tv.convert_to (g.mode n))
  | .Proj => if g.mode n ≠ .M then s.link (g.operand n 0) else .bad
  | _ => .bad

/-- Control may come to block `b`, by the marks. -/
def Reached (s : ConstPropState T size) (b : Fin size) : Prop :=
  b = g.startBlock ∨ ∃ p ∈ g.cfgpreds b, s.controlFlowVisited p = some true

/-- Whether an exit is taken, as far as the selector is known. -/
def exitTaken [DecidableEq T] (s : ConstPropState T size) (x : Fin size) : Bool :=
  if g.opcode x = .Jmp then true else projTaken tv g x s

/-- The links of a `Phi` and of its operands, but for the edges that are not taken. -/
def PhiCovers (s : ConstPropState T size) (n : Fin size) : Prop :=
  ∀ (i : Nat) (m x : Fin size), (g.node n).ins[i]? = some m → (g.cfgpreds (g.block n))[i]? = some x →
    s.controlFlowVisited x ≠ some false → Val.Covers (s.link m) (s.link n)

/-- The links, except those of the memory, are what the visits compute, and the marks what control does. -/
structure Certified [DecidableEq T] (s : ConstPropState T size) : Prop where
  value : ∀ n, g.mode n ≠ .M → g.opcode n ≠ .Phi → s.link n = newVal tv g s n
  phi : ∀ n, g.mode n ≠ .M → g.opcode n = .Phi → g.PhiCovers s n
  control : ∀ x, g.isExit x = true → g.Reached s (g.block x) → exitTaken tv g s x = true →
    s.controlFlowVisited x = some true
  memory : ∀ n, g.mode n = .M → ∀ t, s.link n ≠ .const t

variable {tv apply g}

theorem getElem?_operand {n : Fin size} {i : Nat} (h : i < (g.node n).ins.length) :
    (g.node n).ins[i]? = some (g.operand n i) := by
  unfold operand
  rw [List.getD_eq_getElem?_getD, List.getElem?_eq_getElem h, Option.getD_some]

theorem isBlock_eq_false {n : Fin size} {o : Opcode} (h : g.opcode n = o) (ho : o ≠ .Block) :
    (g.node n).isBlock = false := decide_eq_false fun hblock => ho (h.symm.trans hblock)

theorem operand_mem {n : Fin size} {i : Nat} (h : i < (g.node n).ins.length) : g.operand n i ∈ (g.node n).ins :=
  List.mem_of_getElem? (getElem?_operand h)

/-- What a visit computes from links that are right is right. -/
theorem WellFormed.holds_newVal (hg : g.WellFormed) {s : ConstPropState T size} {env : Env T W size} {n : Fin size}
    (hM : g.mode n ≠ .M) (hX : g.mode n ≠ .X)
    (hins : ∀ m ∈ (g.node n).ins, g.mode m ≠ .M → (s.link m).Holds (env m)) :
    (newVal tv g s n).Holds (g.result tv apply env n) := by
  have hop : ∀ (o : Opcode) (i : Nat), g.opcode n = o → i < o.arity → (o.isDivision = true → i ≠ 0) →
      (s.link (g.operand n i)).Holds (env (g.operand n i)) := by
    rintro o i rfl hi hdiv
    refine hins _ (operand_mem (lt_of_lt_of_le hi (hg.arity n))) fun hm => ?_
    obtain ⟨hdivision, hzero⟩ := (hg.operand_memory n i hi).mp hm
    exact hdiv hdivision hzero
  unfold result newVal
  rw [if_neg hX]
  cases hn : g.opcode n
  case Const => exact rfl
  case Add => exact holds_transfer (hop .Add 0 hn (by decide) (by decide)) (hop .Add 1 hn (by decide) (by decide))
  case Sub => exact holds_transfer (hop .Sub 0 hn (by decide) (by decide)) (hop .Sub 1 hn (by decide) (by decide))
  case Mul => exact holds_transfer (hop .Mul 0 hn (by decide) (by decide)) (hop .Mul 1 hn (by decide) (by decide))
  case Cmp => exact holds_transfer (hop .Cmp 0 hn (by decide) (by decide)) (hop .Cmp 1 hn (by decide) (by decide))
  case Div => exact holds_transfer (hop .Div 1 hn (by decide) (by decide)) (hop .Div 2 hn (by decide) (by decide))
  case Mod => exact holds_transfer (hop .Mod 1 hn (by decide) (by decide)) (hop .Mod 2 hn (by decide) (by decide))
  case Minus => exact holds_transferUnary (hop .Minus 0 hn (by decide) (by decide))
  case Not => exact holds_transferUnary (hop .Not 0 hn (by decide) (by decide))
  case Conv => exact holds_transferUnary (hop .Conv 0 hn (by decide) (by decide))
  case Proj =>
    dsimp only
    rw [if_pos hM, if_neg (by simp [hM])]
    exact holds_project (hop .Proj 0 hn (by decide) (by decide))
  all_goals trivial

/-- The link depends on the operands alone, and on no memory. -/
theorem newVal_eq {g' : FirmGraph T size} {s s' : ConstPropState T size} {n : Fin size}
    (hop : g'.opcode n = g.opcode n) (hmode : g'.mode n = g.mode n) (hrelation : g'.relation n = g.relation n)
    (htarval : g'.tarval n = g.tarval n)
    (h : ∀ i < (g.opcode n).arity, ((g.opcode n).isDivision = true → i ≠ 0) →
      s'.link (g'.operand n i) = s.link (g.operand n i)) :
    newVal tv g' s' n = newVal tv g s n := by
  have hget : ∀ (o : Opcode) (i : Nat), g.opcode n = o → i < o.arity → (o.isDivision = true → i ≠ 0) →
      s'.link (g'.operand n i) = s.link (g.operand n i) := by
    rintro o i rfl hi hdiv
    exact h i hi hdiv
  unfold newVal
  rw [hop]
  cases hn : g.opcode n
  case Const =>
    dsimp only
    rw [htarval]
  case Add | Sub | Mul =>
    dsimp only
    rw [hget _ 0 hn (by decide) (by decide), hget _ 1 hn (by decide) (by decide)]
  case Cmp =>
    dsimp only
    rw [hget _ 0 hn (by decide) (by decide), hget _ 1 hn (by decide) (by decide), hrelation]
  case Div | Mod =>
    dsimp only
    rw [hget _ 1 hn (by decide) (by decide), hget _ 2 hn (by decide) (by decide)]
  case Minus | Not =>
    dsimp only
    rw [hget _ 0 hn (by decide) (by decide)]
  case Conv | Proj =>
    dsimp only
    rw [hget _ 0 hn (by decide) (by decide), hmode]
  all_goals rfl

/-! ## Executions -/

/-- The blocks of an execution are a path. -/
theorem Run.path {h : List (Fin size × Env T W size)} (hrun : Run tv apply g h) :
    Path g.Edge g.startBlock (h.map Prod.fst) := by
  induction hrun with
  | start _ => exact .root
  | step _ hleaves hb hx _ ih => exact ih.step ⟨hb, _, List.mem_of_getElem? hx, hleaves.exit, hleaves.block⟩

/-- What was evaluated after `h`, when control was in block `b` last: all of a block that control came to. -/
def Evaluated (g : FirmGraph T size) (h : List (Fin size × Env T W size)) (n : Fin size) : Prop :=
  (g.node n).isBlock = false ∧ g.block n ∈ h.map Prod.fst

/-- A node that dominates the last block was evaluated. -/
theorem Run.evaluated {b : Fin size} {env : Env T W size} {h : List (Fin size × Env T W size)} {m : Fin size}
    (hrun : Run tv apply g ((b, env) :: h)) (hm : (g.node m).isBlock = false ∧ g.Dom (g.block m) b) :
    Evaluated g ((b, env) :: h) m := ⟨hm.1, hm.2 _ hrun.path⟩

theorem isExit_proj {x : Fin size} (hx : g.isExit x = true) (hjmp : g.opcode x ≠ .Jmp) :
    g.opcode x = .Proj ∧ g.mode x = .X := by
  unfold isExit at hx
  rwa [decide_eq_false hjmp, Bool.false_or, Bool.and_eq_true, decide_eq_true_eq, decide_eq_true_eq] at hx

theorem isExit_opcode {x : Fin size} (hx : g.isExit x = true) : g.opcode x = .Jmp ∨ g.opcode x = .Proj := by
  by_cases hjmp : g.opcode x = .Jmp
  · exact Or.inl hjmp
  · exact Or.inr (isExit_proj hx hjmp).1

/-- The selector of an exit is evaluated before the exit. -/
theorem WellFormed.selector_dom (hg : g.WellFormed) {x : Fin size} (hproj : g.opcode x = .Proj) (hX : g.mode x = .X) :
    g.mode (g.selector x) ≠ .M ∧ (g.node (g.selector x)).isBlock = false ∧
      g.Dom (g.block (g.selector x)) (g.block x) := by
  have hcond := hg.proj_cond x hproj hX
  have hx := hg.arity x
  have hc := hg.arity (g.operand x 0)
  rw [hproj] at hx
  rw [hcond] at hc
  obtain ⟨hblock, hdom⟩ := hg.operand_dom x (isBlock_eq_false hproj (by decide)) (by rw [hproj]; decide)
    (by rw [hproj]; decide) _ (operand_mem (i := 0) hx)
  obtain ⟨hblock', hdom'⟩ := hg.operand_dom (g.operand x 0) hblock (by rw [hcond]; decide) (by rw [hcond]; decide)
    (g.selector x) (operand_mem (i := 0) hc)
  refine ⟨fun hM => ?_, hblock', hdom'.trans hdom⟩
  have hdiv := ((hg.operand_memory (g.operand x 0) 0 (by rw [hcond]; decide)).mp hM).1
  rw [hcond] at hdiv
  cases hdiv

variable [DecidableEq T] {s : ConstPropState T size}

/-- The links are right about what was evaluated, and the marks about where control came. -/
structure Explained (g : FirmGraph T size) (s : ConstPropState T size) (b : Fin size) (env : Env T W size)
    (h : List (Fin size × Env T W size)) : Prop where
  reached : g.Reached s b
  holds : ∀ n, g.mode n ≠ .M → Evaluated g ((b, env) :: h) n → (s.link n).Holds (env n)

namespace Certified

theorem bad_of_unset (hs : Certified tv g s) {n : Fin size} (hM : g.mode n ≠ .M) (hphi : g.opcode n ≠ .Phi)
    (hconst : g.opcode n ≠ .Const) (harity : (g.opcode n).arity = 0 ∨ g.opcode n = .Cond) : s.link n = .bad := by
  rw [hs.value n hM hphi]
  unfold newVal
  cases hn : g.opcode n <;> rw [hn] at hphi hconst harity
  all_goals first | rfl | simp [Opcode.arity] at hphi hconst harity

/-- Control flow has no value. -/
theorem bad_of_mode_X (hg : g.WellFormed) (hs : Certified tv g s) {n : Fin size} (hX : g.mode n = .X) :
    s.link n = .bad := by
  have hM : g.mode n ≠ .M := by
    rw [hX]
    decide
  have hphi : g.opcode n ≠ .Phi := fun h => (hg.phi_mode n h).1 hX
  obtain ⟨hconst, harity | hproj⟩ := hg.no_value n (Or.inr hX)
  · exact hs.bad_of_unset hM hphi hconst (Or.inl harity)
  · have hcond := hg.proj_cond n hproj hX
    have hmem : g.mode (g.operand n 0) ≠ .M := by
      intro h
      have := ((hg.operand_memory n 0 (by rw [hproj]; decide)).mp h).1
      rw [hproj] at this
      cases this
    rw [hs.value n hM hphi]
    unfold newVal
    rw [hproj]
    dsimp only
    rw [if_pos hM]
    exact hs.bad_of_unset hmem (by rw [hcond]; decide) (by rw [hcond]; decide) (Or.inr hcond)

/-- The links are right about a block, if they are right about the `Phi` nodes and about what was evaluated before. -/
theorem holds_block (hg : g.WellFormed) (hs : Certified tv g s) {b : Fin size} {env : Env T W size}
    {h : List (Fin size × Env T W size)} (hrun : Run tv apply g ((b, env) :: h))
    (hresult : ∀ n, (g.node n).isBlock = false → g.block n = b → g.opcode n ≠ .Phi → env n = g.result tv apply env n)
    (hphi : ∀ n, g.mode n ≠ .M → (g.node n).isBlock = false → g.block n = b → g.opcode n = .Phi →
      (s.link n).Holds (env n))
    (hold : ∀ n, g.mode n ≠ .M → Evaluated g ((b, env) :: h) n → g.block n ≠ b → (s.link n).Holds (env n)) (n : Fin size)
    (hM : g.mode n ≠ .M) (hn : Evaluated g ((b, env) :: h) n) : (s.link n).Holds (env n) := by
  obtain ⟨rank, hrank⟩ := hg.ranked
  -- the operands of a node of the block are before it, or were evaluated earlier
  induction hr : rank n using Nat.strong_induction_on generalizing n with
  | _ r ih =>
    subst hr
    by_cases hb : g.block n = b
    · by_cases hop : g.opcode n = .Phi
      · exact hphi n hM hn.1 hb hop
      · rw [hresult n hn.1 hb hop]
        by_cases hX : g.mode n = .X
        · rw [hs.bad_of_mode_X hg hX]
          trivial
        · rw [hs.value n hM hop]
          by_cases hend : g.opcode n = .End
          · unfold newVal
            rw [hend]
            trivial
          · refine hg.holds_newVal hM hX fun m hm hmM => ?_
            obtain ⟨hblock, hdom⟩ := hg.operand_dom n hn.1 hend hop m hm
            have heval := hrun.evaluated ⟨hblock, hb ▸ hdom⟩
            by_cases hmphi : g.opcode m = .Phi
            · by_cases hmb : g.block m = b
              · exact hphi m hmM hblock hmb hmphi
              · exact hold m hmM heval hmb
            · refine ih (rank m) (hrank n m ?_ ?_ ?_) m hmM heval rfl
              · unfold IrNode.isLoopBreaker
                rw [hn.1, Bool.or_false]
                exact decide_eq_false hop
              · unfold IrNode.isLoopBreaker
                rw [hblock, Bool.or_false]
                exact decide_eq_false hmphi
              · unfold IrNode.uses
                rw [hn.1]
                exact List.mem_cons_of_mem _ hm
    · exact hold n hM hn hb

/-- Where control leaves a block, the exit is marked. -/
theorem marked (hg : g.WellFormed) (hs : Certified tv g s) {a x : Fin size} {env : Env T W size}
    {h : List (Fin size × Env T W size)} (hrun : Run tv apply g ((a, env) :: h)) (hex : Explained g s a env h)
    (hx : Leaves tv g env a x) : s.controlFlowVisited x = some true := by
  refine hs.control x hx.exit (hx.block ▸ hex.reached) ?_
  unfold exitTaken
  by_cases hjmp : g.opcode x = .Jmp
  · rw [if_pos hjmp]
  · rw [if_neg hjmp]
    obtain ⟨hproj, hX⟩ := isExit_proj hx.exit hjmp
    obtain ⟨hM, hdom⟩ := hg.selector_dom hproj hX
    have hsel := hex.holds (g.selector x) hM (hrun.evaluated (hx.block ▸ hdom))
    unfold projTaken
    cases hlink : s.link (g.selector x) with
    | unknown => rfl
    | bad => rfl
    | const t =>
      rw [hlink] at hsel
      have hiff := hx.proj hproj
      rw [show env (g.selector x) = .tarval t from hsel, Value.tarval.injEq] at hiff
      dsimp only
      rw [decide_eq_decide.mpr hiff, beq_self_eq_true]

theorem explains (hg : g.WellFormed) (hs : Certified tv g s) {b : Fin size} {env : Env T W size}
    {h : List (Fin size × Env T W size)} (hrun : Run tv apply g ((b, env) :: h)) : Explained g s b env h := by
  generalize hl : (b, env) :: h = l at hrun
  induction hrun generalizing b env h with
  | start hresult =>
    obtain ⟨hb, rfl⟩ := List.cons.inj hl
    obtain ⟨rfl, rfl⟩ := Prod.mk.inj hb
    refine ⟨Or.inl rfl, hs.holds_block hg (.start hresult) (fun n hn hb _ => hresult n hn hb) ?_ ?_⟩
    · exact fun n _ _ hb hphi => absurd hb (hg.start_phi n hphi)
    · exact fun n _ hn hb => absurd (List.mem_singleton.mp hn.2) hb
  | @step a b' x i env₀ env' h' hrun hleaves hb hx henters ih =>
    obtain ⟨hb', rfl⟩ := List.cons.inj hl
    obtain ⟨rfl, rfl⟩ := Prod.mk.inj hb'
    have hex := ih rfl
    have hmarked := hs.marked hg hrun hex hleaves
    refine ⟨Or.inr ⟨x, List.mem_of_getElem? hx, hmarked⟩,
      hs.holds_block hg (hrun.step hleaves hb hx henters) henters.result ?_ ?_⟩
    · intro n hM hn hnb hphi
      -- the operand was evaluated when control left the block before
      rw [henters.phi n hn hnb hphi]
      have hi : i < (g.node n).ins.length := by
        rw [hg.phi_length n hphi, hnb]
        exact (List.getElem?_eq_some_iff.mp hx).1
      have hins := getElem?_operand hi
      have hdom := hg.phi_dom n _ x i hphi hins (hnb ▸ hx) hleaves.exit
      have hmM : g.mode (g.operand n i) ≠ .M :=
        fun h => hM (((hg.phi_mode n hphi).2 _ (operand_mem hi)).mp h)
      have hcovers := hs.phi n hM hphi i _ x hins (hnb ▸ hx) (by rw [hmarked]; decide)
      exact hcovers.holds (hex.holds _ hmM (hrun.evaluated (hleaves.block ▸ hdom)))
    · intro n hM hn hnb
      rw [henters.frame n hnb]
      exact hex.holds n hM ⟨hn.1, (List.mem_cons.mp hn.2).resolve_left hnb⟩

end Certified

end FirmGraph

end Mjc.Irg

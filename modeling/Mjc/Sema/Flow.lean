import Mathlib.Data.List.Perm.Basic
import Mathlib.Logic.Relation
import Mjc.Sema.Accepted

/-!
# Return analysis and dead code

An execution semantics of method bodies, for any meaning of the expressions, and the proof that `cfb` and the erased
statements of `visitBlock` say the truth about it.

* `Evaluator` : the meaning of expressions over an arbitrary store;
* `Conf`, `Step` : a configuration is the list of what is left to execute. A statement of the list carries the mark
  `erased` when it comes from the part of a block that `visitBlock` erases;
* `FlowOk` : what the visitor guarantees of an annotated statement;
* `Live` : no erased statement is the next one, whatever the statements before it do;
* `Conf.prune` : the configuration of the pruned body;
* `sound_flow` : the result for every method body of an accepted program.
-/

namespace Mjc.Sema
open Mjc.Ast Relation

set_option autoImplicit false

/-! ## Execution -/

/-- The meaning of expressions, over a store `σ` and with values `V`. An evaluation need not end. -/
structure Evaluator (σ V : Type) where
  eval : TExpr → σ → V → σ → Prop
  test : TExpr → σ → Bool → σ → Prop
  /-- the declaration of the local variable of an index, with its initial value -/
  declare : Nat → Option V → σ → σ → Prop

/-- A statement that is left to execute. -/
structure Item where
  stmt : TStmt
  erased : Bool

/-- The state of an execution. -/
inductive Conf (σ V : Type) where
  | running (todo : List Item) (s : σ)
  | returned (value : Option V) (s : σ)

section Semantics

variable {σ V : Type}

/-- A branch or the body of a loop, which may be missing. -/
def optItem (o : Option TStmt) (erased : Bool) : List Item := o.toList.map (⟨·, erased⟩)

/-- One step of a statement: what it leaves to execute. The body is the parsed one, the erased statements of a block
come after the others. -/
inductive Exec (ev : Evaluator σ V) : Item → σ → List Item → σ → Prop
  | block {ss es : List TStmt} {lonely : Bool} {cfb : ControlFlowBehavior} {d : Bool} {s : σ} :
      Exec ev ⟨.block ss es lonely cfb, d⟩ s (ss.map (⟨·, d⟩) ++ es.map (⟨·, true⟩)) s
  | varDecl {type : Ty} {name : String} {idx : Nat} {d : Bool} {s s' : σ} (h : ev.declare idx none s s') :
      Exec ev ⟨.varDecl type name idx none, d⟩ s [] s'
  | varInit {type : Ty} {name : String} {idx : Nat} {e : TExpr} {d : Bool} {v : V} {s s' s'' : σ}
      (he : ev.eval e s v s') (h : ev.declare idx (some v) s' s'') :
      Exec ev ⟨.varDecl type name idx (some e), d⟩ s [] s''
  | exprStmt {e : TExpr} {d : Bool} {v : V} {s s' : σ} (he : ev.eval e s v s') :
      Exec ev ⟨.exprStmt e, d⟩ s [] s'
  | ifTrue {c : TExpr} {t₁ t₂ : Option TStmt} {cfb : ControlFlowBehavior} {d : Bool} {s s' : σ}
      (hc : ev.test c s true s') : Exec ev ⟨.ifStmt c t₁ t₂ cfb, d⟩ s (optItem t₁ d) s'
  | ifFalse {c : TExpr} {t₁ t₂ : Option TStmt} {cfb : ControlFlowBehavior} {d : Bool} {s s' : σ}
      (hc : ev.test c s false s') : Exec ev ⟨.ifStmt c t₁ t₂ cfb, d⟩ s (optItem t₂ d) s'
  | whileTrue {c : TExpr} {t : Option TStmt} {d : Bool} {s s' : σ} (hc : ev.test c s true s') :
      Exec ev ⟨.whileStmt c t, d⟩ s (optItem t d ++ [⟨.whileStmt c t, d⟩]) s'
  | whileFalse {c : TExpr} {t : Option TStmt} {d : Bool} {s s' : σ} (hc : ev.test c s false s') :
      Exec ev ⟨.whileStmt c t, d⟩ s [] s'

/-- The execution of a return statement. -/
inductive Returns (ev : Evaluator σ V) : Item → σ → Option V → σ → Prop
  | nothing {d : Bool} {s : σ} : Returns ev ⟨.returnStmt none, d⟩ s none s
  | value {e : TExpr} {d : Bool} {v : V} {s s' : σ} (he : ev.eval e s v s') :
      Returns ev ⟨.returnStmt (some e), d⟩ s (some v) s'

/-- One step of an execution. -/
inductive Step (ev : Evaluator σ V) : Conf σ V → Conf σ V → Prop
  | exec {i : Item} {s s' : σ} {new l : List Item} (h : Exec ev i s new s') :
      Step ev (.running (i :: l) s) (.running (new ++ l) s')
  | ret {i : Item} {s s' : σ} {r : Option V} {l : List Item} (h : Returns ev i s r s') :
      Step ev (.running (i :: l) s) (.returned r s')

/-- An execution. -/
abbrev Steps (ev : Evaluator σ V) : Conf σ V → Conf σ V → Prop := ReflTransGen (Step ev)

/-- The start of the execution of a method body. -/
def start (body : TStmt) (s : σ) : Conf σ V := .running [⟨body, false⟩] s

end Semantics

/-! ## What the visitor guarantees -/

/-- The annotations of a statement are right; `rt` is the return type of the method. -/
inductive FlowOk (rt : SemType) : TStmt → Prop
  | block {ss es : List TStmt} {lonely : Bool} {cfb : ControlFlowBehavior} (hss : ∀ s ∈ ss, FlowOk rt s)
      (hes : ∀ s ∈ es, FlowOk rt s) (hreturn : cfb = .return → ∃ s ∈ ss, s.cfb = .return)
      (herased : cfb = .mayContinue → es = []) : FlowOk rt (.block ss es lonely cfb)
  | varDecl (type : Ty) (name : String) (idx : Nat) (o : Option TExpr) : FlowOk rt (.varDecl type name idx o)
  | exprStmt (e : TExpr) : FlowOk rt (.exprStmt e)
  | ifStmt {c : TExpr} {t₁ t₂ : Option TStmt} {cfb : ControlFlowBehavior} (h₁ : ∀ s ∈ t₁, FlowOk rt s)
      (h₂ : ∀ s ∈ t₂, FlowOk rt s) (hreturn : cfb = .return → branchCFB t₁ = .return ∧ branchCFB t₂ = .return) :
      FlowOk rt (.ifStmt c t₁ t₂ cfb)
  | whileStmt {c : TExpr} {t : Option TStmt} (h : ∀ s ∈ t, FlowOk rt s) : FlowOk rt (.whileStmt c t)
  | returnStmt {o : Option TExpr} (h : checkReturn rt o = .ok ()) : FlowOk rt (.returnStmt o)

/-- The statement that returns stays. -/
theorem exists_return_cutDeadCode {l : List TStmt} (h : ∃ s ∈ l, s.cfb = .return) :
    ∃ s ∈ (cutDeadCode l).1, s.cfb = .return := by
  induction l with
  | nil => obtain ⟨s, hs, -⟩ := h; cases hs
  | cons a l ih =>
    unfold cutDeadCode
    by_cases ha : a.cfb = .return
    · rw [if_pos ha]; exact ⟨a, List.mem_singleton_self a, ha⟩
    · rw [if_neg ha]
      obtain ⟨s, hs, hret⟩ := h
      rcases List.mem_cons.mp hs with rfl | hs
      · exact absurd hret ha
      · obtain ⟨s', hs', hret'⟩ := ih ⟨s, hs, hret⟩
        exact ⟨s', List.mem_cons_of_mem _ hs', hret'⟩

theorem cutDeadCode_of_forall {l : List TStmt} (h : ∀ s ∈ l, s.cfb ≠ .return) : (cutDeadCode l).2 = [] := by
  induction l with
  | nil => rfl
  | cons a l ih =>
    unfold cutDeadCode
    rw [if_neg (h a List.mem_cons_self)]
    exact ih fun s hs => h s (List.mem_cons_of_mem _ hs)

theorem finishBlock_flowOk {rt : SemType} {ts : List TStmt} (h : ∀ t ∈ ts, FlowOk rt t) (lonely : Bool) :
    FlowOk rt (finishBlock ts lonely) := by
  have happ := cutDeadCode_append ts
  unfold finishBlock
  refine .block ?_ ?_ ?_ ?_
  · intro s hs
    exact h s (happ ▸ List.mem_append_left _ hs)
  · intro s hs
    exact h s (happ ▸ List.mem_append_right _ hs)
  · intro hcfb
    by_cases hany : (ts.any fun s => s.cfb = .return) = true
    · obtain ⟨s, hs, hret⟩ := List.any_eq_true.mp hany
      exact exists_return_cutDeadCode ⟨s, hs, of_decide_eq_true hret⟩
    · rw [if_neg hany] at hcfb; cases hcfb
  · intro hcfb
    by_cases hany : (ts.any fun s => s.cfb = .return) = true
    · rw [if_pos hany] at hcfb; cases hcfb
    · exact cutDeadCode_of_forall fun s hs hret => hany (List.any_eq_true.mpr ⟨s, hs, decide_eq_true hret⟩)

theorem combineCFB_eq_return {c₁ c₂ : ControlFlowBehavior} (h : combineCFB c₁ c₂ = .return) :
    c₁ = .return ∧ c₂ = .return := by
  cases c₁ <;> cases c₂ <;> first | exact ⟨rfl, rfl⟩ | cases h

section Visits

variable {cx : Context}

/-- What holds of each visited statement of a list holds of all the annotated ones. -/
theorem visitStmts_forall {P : TStmt → Prop} {l : List Stmt}
    (ih : ∀ s ∈ l, ∀ st t st', visitStmt cx st s = .ok (t, st') → P t) {st st' : St} {ts : List TStmt}
    (h : visitStmts cx st l = .ok (ts, st')) : ∀ t ∈ ts, P t := by
  induction l generalizing st ts with
  | nil => rw [visitStmts] at h; cases h; intro t ht; cases ht
  | cons s l ihl =>
    obtain ⟨t, st₁, ts', h₁, h₂, rfl⟩ := visitStmts_cons_eq_ok.mp h
    intro t' ht'
    rcases List.mem_cons.mp ht' with rfl | ht'
    · exact ih s List.mem_cons_self _ _ _ h₁
    · exact ihl (fun s hs => ih s (List.mem_cons_of_mem _ hs)) h₂ t' ht'

theorem visitOptStmt_forall {P : TStmt → Prop} {o : Option Stmt}
    (ih : ∀ s ∈ o, ∀ st t st', visitStmt cx st s = .ok (t, st') → P t) {st st' : St} {o' : Option TStmt}
    (h : visitOptStmt cx st o = .ok (o', st')) : ∀ t ∈ o', P t := by
  cases o with
  | none => rw [visitOptStmt] at h; cases h; intro t ht; cases ht
  | some s =>
    obtain ⟨t, h', rfl⟩ := visitOptStmt_some_eq_ok.mp h
    intro t' ht'
    cases ht'
    exact ih s rfl _ _ _ h'

theorem visitStmt_flowOk {st st' : St} {s : Stmt} {t : TStmt} (h : visitStmt cx st s = .ok (t, st')) :
    FlowOk cx.currentMethod.returnType t := by
  induction s using Stmt.induct generalizing st t st' with
  | block l lonely ih =>
    obtain ⟨ts, tbl, n, h₁, rfl, -⟩ := visitStmt_block_visits.mp h
    exact finishBlock_flowOk (visitStmts_forall (fun s hs _ _ _ => ih s hs) h₁) lonely
  | varDecl type name o =>
    obtain ⟨o', -, -, -, -, rfl⟩ := visitStmt_varDecl_eq_ok.mp h
    exact .varDecl _ _ _ _
  | exprStmt e =>
    obtain ⟨e', -, rfl, -⟩ := visitStmt_exprStmt_eq_ok.mp h
    exact .exprStmt _
  | ifStmt c s₁ s₂ ih₁ ih₂ =>
    obtain ⟨c', t₁, st₁, t₂, -, h₁, h₂, -, rfl⟩ := visitStmt_ifStmt_eq_ok.mp h
    exact .ifStmt (visitOptStmt_forall (fun s hs _ _ _ => ih₁ s hs) h₁)
      (visitOptStmt_forall (fun s hs _ _ _ => ih₂ s hs) h₂) combineCFB_eq_return
  | whileStmt c s ih =>
    obtain ⟨c', t₁, -, h₁, -, rfl⟩ := visitStmt_whileStmt_eq_ok.mp h
    exact .whileStmt (visitOptStmt_forall (fun s hs _ _ _ => ih s hs) h₁)
  | returnStmt o =>
    obtain ⟨o', -, h', rfl, -⟩ := visitStmt_returnStmt_eq_ok.mp h
    exact .returnStmt h'

end Visits

/-! ## Executions -/

/-- Some statement of the list has `cfb` set to `return`. -/
def HasReturn (l : List Item) : Prop := ∃ i ∈ l, i.stmt.cfb = .return

/-- The next statement is not an erased one, and neither is the one after it, unless the first one returns. -/
def Live : List Item → Prop
  | [] => True
  | i :: l => i.erased = false ∧ (i.stmt.cfb = .return ∨ Live l)

theorem Live.append {l l' : List Item} (h : Live l) (h' : HasReturn l ∨ Live l') : Live (l ++ l') := by
  induction l with
  | nil =>
    rcases h' with ⟨i, hi, -⟩ | h'
    · cases hi
    · exact h'
  | cons i l ih =>
    obtain ⟨hi, hrest⟩ := h
    refine ⟨hi, ?_⟩
    rcases hrest with hret | hl
    · exact .inl hret
    · rcases h' with ⟨j, hj, hjret⟩ | h'
      · rcases List.mem_cons.mp hj with rfl | hj
        · exact .inl hjret
        · exact .inr (ih hl (.inl ⟨j, hj, hjret⟩))
      · exact .inr (ih hl (.inr h'))

theorem live_of_forall {l : List Item} (h : ∀ i ∈ l, i.erased = false) : Live l := by
  induction l with
  | nil => trivial
  | cons i l ih => exact ⟨h i List.mem_cons_self, .inr (ih fun j hj => h j (List.mem_cons_of_mem _ hj))⟩

theorem mem_optItem {o : Option TStmt} {d : Bool} {i : Item} (h : i ∈ optItem o d) : i.stmt ∈ o ∧ i.erased = d := by
  cases o with
  | none => cases h
  | some s =>
    rw [optItem, Option.toList_some, List.map_singleton, List.mem_singleton] at h
    subst h
    exact ⟨rfl, rfl⟩

section Runs

variable {σ V : Type} {ev : Evaluator σ V} {rt : SemType}

/-- A step leaves only statements whose annotations are right. -/
theorem Exec.flowOk {i : Item} {new : List Item} {s s' : σ} (h : Exec ev i s new s') (hi : FlowOk rt i.stmt) :
    ∀ j ∈ new, FlowOk rt j.stmt := by
  intro j hj
  cases h with
  | block =>
    cases hi with
    | block hss hes =>
      rcases List.mem_append.mp hj with hj | hj
      · obtain ⟨s, hs, rfl⟩ := List.mem_map.mp hj; exact hss s hs
      · obtain ⟨s, hs, rfl⟩ := List.mem_map.mp hj; exact hes s hs
  | varDecl | varInit | exprStmt | whileFalse => cases hj
  | ifTrue =>
    cases hi with
    | ifStmt h₁ _ _ => exact h₁ _ (mem_optItem hj).1
  | ifFalse =>
    cases hi with
    | ifStmt _ h₂ _ => exact h₂ _ (mem_optItem hj).1
  | whileTrue =>
    rcases List.mem_append.mp hj with hj | hj
    · cases hi with
      | whileStmt h => exact h _ (mem_optItem hj).1
    · rw [List.mem_singleton.mp hj]; exact hi

theorem hasReturn_optItem {o : Option TStmt} {d : Bool} (h : branchCFB o = .return) : HasReturn (optItem o d) := by
  cases o with
  | none => cases h
  | some s => exact ⟨⟨s, d⟩, List.mem_singleton_self _, h⟩

/-- A statement that returns leaves a statement that returns. -/
theorem Exec.hasReturn {i : Item} {new : List Item} {s s' : σ} (h : Exec ev i s new s') (hi : FlowOk rt i.stmt)
    (hret : i.stmt.cfb = .return) : HasReturn new := by
  cases h with
  | @block ss es lonely cfb d _ =>
    cases hi with
    | block _ _ hreturn _ =>
      obtain ⟨t, ht, htret⟩ := hreturn hret
      exact ⟨⟨t, d⟩, List.mem_append_left _ (List.mem_map_of_mem ht), htret⟩
  | varDecl | varInit | exprStmt | whileTrue | whileFalse => cases hret
  | ifTrue =>
    cases hi with
    | ifStmt _ _ hreturn => exact hasReturn_optItem (hreturn hret).1
  | ifFalse =>
    cases hi with
    | ifStmt _ _ hreturn => exact hasReturn_optItem (hreturn hret).2

theorem Exec.live {i : Item} {new : List Item} {s s' : σ} (h : Exec ev i s new s') (hi : FlowOk rt i.stmt)
    (hlive : i.erased = false) : Live new := by
  cases h with
  | @block ss es lonely cfb d _ =>
    have hd : d = false := hlive
    subst hd
    cases hi with
    | block _ _ hreturn herased =>
      refine (live_of_forall ?_).append ?_
      · intro j hj; obtain ⟨t, -, rfl⟩ := List.mem_map.mp hj; rfl
      · cases cfb with
        | «return» =>
          obtain ⟨t, ht, htret⟩ := hreturn rfl
          exact .inl ⟨⟨t, false⟩, List.mem_map_of_mem ht, htret⟩
        | mayContinue => rw [herased rfl]; exact .inr trivial
  | varDecl | varInit | exprStmt | whileFalse => trivial
  | ifTrue | ifFalse => exact live_of_forall fun j hj => (mem_optItem hj).2.trans hlive
  | whileTrue =>
    refine live_of_forall fun j hj => ?_
    rcases List.mem_append.mp hj with hj | hj
    · exact (mem_optItem hj).2.trans hlive
    · rw [List.mem_singleton.mp hj]; exact hlive

/-- What is returned fits the return type: nothing from a `void` method, and the value of an expression of an assignable
type from another one. -/
def ReturnOk (ev : Evaluator σ V) (rt : SemType) : Option V → Prop
  | none => rt.isVoid = true
  | some v => rt.isVoid = false ∧ ∃ e s s', ev.eval e s v s' ∧ rt.accepts e.targetType = true

theorem Returns.ok {i : Item} {s s' : σ} {r : Option V} (h : Returns ev i s r s') (hi : FlowOk rt i.stmt) :
    ReturnOk ev rt r := by
  cases h with
  | nothing =>
    cases hi with
    | returnStmt h => exact check_eq_ok.mp h
  | value he =>
    cases hi with
    | returnStmt h =>
      obtain ⟨⟨⟩, hvoid, h⟩ := bind_eq_ok.mp h
      exact ⟨Bool.not_eq_true' _ ▸ check_eq_ok.mp hvoid, _, _, _, he, check_eq_ok.mp h⟩

/-- The invariant of an execution. -/
def Conf.Ok (ev : Evaluator σ V) (rt : SemType) : Conf σ V → Prop
  | .running l _ => (∀ i ∈ l, FlowOk rt i.stmt) ∧ Live l
  | .returned r _ => ReturnOk ev rt r

theorem Step.ok {c c' : Conf σ V} (h : Step ev c c') (hc : c.Ok ev rt) : c'.Ok ev rt := by
  cases h with
  | @exec i s s' new l h =>
    obtain ⟨hflow, hi, hrest⟩ := hc
    have hiok := hflow i List.mem_cons_self
    refine ⟨?_, (h.live hiok hi).append ?_⟩
    · intro j hj
      rcases List.mem_append.mp hj with hj | hj
      · exact h.flowOk hiok j hj
      · exact hflow j (List.mem_cons_of_mem _ hj)
    · rcases hrest with hret | hl
      · exact .inl (h.hasReturn hiok hret)
      · exact .inr hl
  | ret h => exact h.ok (hc.1 _ List.mem_cons_self)

theorem Steps.ok {c c' : Conf σ V} (h : Steps ev c c') (hc : c.Ok ev rt) : c'.Ok ev rt := by
  induction h with
  | refl => exact hc
  | tail _ hstep ih => exact hstep.ok ih

theorem start_ok {body : TStmt} (h : FlowOk rt body) (s : σ) : (start body s : Conf σ V).Ok ev rt := by
  refine ⟨?_, rfl, .inr trivial⟩
  intro i hi
  rw [List.mem_singleton.mp hi]
  exact h

/-- As long as a statement is left that returns, the statements after it are not reached. -/
theorem Steps.hasReturn {l k : List Item} {s : σ} (hl : ∀ i ∈ l, FlowOk rt i.stmt) (hret : HasReturn l) {c : Conf σ V}
    (h : Steps ev (.running (l ++ k) s) c) :
    (∃ r s', c = .returned r s') ∨
      ∃ l' s', c = .running (l' ++ k) s' ∧ (∀ i ∈ l', FlowOk rt i.stmt) ∧ HasReturn l' := by
  induction h with
  | refl => exact .inr ⟨l, s, rfl, hl, hret⟩
  | tail _ hstep ih =>
    rcases ih with ⟨r, s', rfl⟩ | ⟨l', s', rfl, hl', i, hi, hiret⟩
    · cases hstep
    · cases l' with
      | nil => cases hi
      | cons j l' =>
        cases hstep with
        | ret h => exact .inl ⟨_, _, rfl⟩
        | @exec _ _ s'' new _ h =>
          have hj := hl' j List.mem_cons_self
          refine .inr ⟨new ++ l', s'', by rw [List.append_assoc]; rfl, ?_, ?_⟩
          · intro i hi
            rcases List.mem_append.mp hi with hi | hi
            · exact h.flowOk hj i hi
            · exact hl' i (List.mem_cons_of_mem _ hi)
          · rcases List.mem_cons.mp hi with rfl | hi
            · obtain ⟨k, hk, hkret⟩ := h.hasReturn hj hiret
              exact ⟨k, List.mem_append_left _ hk, hkret⟩
            · exact ⟨i, List.mem_append_right _ hi, hiret⟩

/-- A statement that returns never gives way to the statements after it. -/
theorem never_completes {t : TStmt} (ht : FlowOk rt t) (hret : t.cfb = .return) {d : Bool} {k l : List Item} {s s' : σ}
    (h : Steps ev (.running (⟨t, d⟩ :: k) s) (.running l s')) : ∃ l', l' ≠ [] ∧ l = l' ++ k := by
  have hall : ∀ i ∈ [(⟨t, d⟩ : Item)], FlowOk rt i.stmt := by
    intro i hi
    rw [List.mem_singleton.mp hi]
    exact ht
  rcases Steps.hasReturn hall ⟨_, List.mem_singleton_self _, hret⟩ h with ⟨r, s₁, hr⟩ | ⟨l', s₁, hr, -, i, hi, -⟩
  · cases hr
  · cases hr
    refine ⟨l', ?_, rfl⟩
    rintro rfl
    cases hi

end Runs

/-! ## The pruned body -/

/-- An item of the execution of the pruned body. -/
def Item.prune (i : Item) : Item := ⟨i.stmt.pruned, false⟩

/-- What is left to execute, without the erased statements. -/
def pruneItems (l : List Item) : List Item := (l.filter fun i => !i.erased).map Item.prune

/-- The configuration of the pruned body that corresponds to one of the parsed body. -/
def Conf.prune {σ V : Type} : Conf σ V → Conf σ V
  | .running l s => .running (pruneItems l) s
  | .returned r s => .returned r s

theorem Conf.prune_running {σ V : Type} (l : List Item) (s : σ) :
    (Conf.running l s : Conf σ V).prune = .running (pruneItems l) s := rfl

theorem pruneItems_append (l l' : List Item) : pruneItems (l ++ l') = pruneItems l ++ pruneItems l' := by
  unfold pruneItems
  rw [List.filter_append, List.map_append]

theorem pruneItems_cons {i : Item} (h : i.erased = false) (l : List Item) :
    pruneItems (i :: l) = i.prune :: pruneItems l := by
  unfold pruneItems
  rw [List.filter_cons_of_pos (by rw [h]; rfl), List.map_cons]

theorem pruneItems_live (ss : List TStmt) : pruneItems (ss.map (⟨·, false⟩)) = (TStmt.pruneds ss).map (⟨·, false⟩) := by
  induction ss with
  | nil => rfl
  | cons s ss ih => rw [List.map_cons, pruneItems_cons rfl, ih]; rfl

theorem pruneItems_erased (es : List TStmt) : pruneItems (es.map (⟨·, true⟩)) = [] := by
  unfold pruneItems
  rw [List.filter_eq_nil_iff.mpr, List.map_nil]
  intro i hi
  obtain ⟨t, -, rfl⟩ := List.mem_map.mp hi
  exact Bool.false_ne_true

theorem pruneItems_block (ss es : List TStmt) :
    pruneItems (ss.map (⟨·, false⟩) ++ es.map (⟨·, true⟩)) =
      (TStmt.pruneds ss).map (⟨·, false⟩) ++ ([] : List TStmt).map (⟨·, true⟩) := by
  rw [pruneItems_append, pruneItems_live, pruneItems_erased]
  rfl

theorem pruneItems_optItem (o : Option TStmt) : pruneItems (optItem o false) = optItem (TStmt.optPruned o) false := by
  cases o <;> rfl

section Bisimulation

variable {σ V : Type} {ev : Evaluator σ V}

theorem Exec.prune {i : Item} {new : List Item} {s s' : σ} (h : Exec ev i s new s') (hi : i.erased = false) :
    Exec ev i.prune s (pruneItems new) s' := by
  cases h with
  | block =>
    obtain rfl : _ = false := hi
    rw [pruneItems_block]
    exact .block
  | varDecl h => exact .varDecl h
  | varInit he h => exact .varInit he h
  | exprStmt he => exact .exprStmt he
  | ifTrue hc =>
    obtain rfl : _ = false := hi
    rw [pruneItems_optItem]
    exact .ifTrue hc
  | ifFalse hc =>
    obtain rfl : _ = false := hi
    rw [pruneItems_optItem]
    exact .ifFalse hc
  | whileTrue hc =>
    obtain rfl : _ = false := hi
    rw [pruneItems_append, pruneItems_optItem]
    exact .whileTrue hc
  | whileFalse hc => exact .whileFalse hc

/-- Every step of the pruned body is the image of a step of the parsed one. -/
theorem Exec.of_prune {i : Item} {new : List Item} {s s' : σ} (h : Exec ev i.prune s new s') (hi : i.erased = false) :
    ∃ new', Exec ev i s new' s' ∧ pruneItems new' = new := by
  obtain ⟨t, d⟩ := i
  obtain rfl : d = false := hi
  cases t with
  | block ss es lonely cfb =>
    cases h
    exact ⟨_, .block, pruneItems_block ss es⟩
  | varDecl type name idx o =>
    cases h with
    | varDecl h => exact ⟨_, .varDecl h, rfl⟩
    | varInit he h => exact ⟨_, .varInit he h, rfl⟩
  | exprStmt e =>
    cases h with
    | exprStmt he => exact ⟨_, .exprStmt he, rfl⟩
  | ifStmt c t₁ t₂ cfb =>
    cases h with
    | ifTrue hc => exact ⟨_, .ifTrue hc, pruneItems_optItem t₁⟩
    | ifFalse hc => exact ⟨_, .ifFalse hc, pruneItems_optItem t₂⟩
  | whileStmt c t =>
    cases h with
    | whileTrue hc =>
      refine ⟨_, .whileTrue hc, ?_⟩
      rw [pruneItems_append, pruneItems_optItem]
      rfl
    | whileFalse hc => exact ⟨_, .whileFalse hc, rfl⟩
  | returnStmt o => cases h

theorem returns_prune {i : Item} {s s' : σ} {r : Option V} : Returns ev i.prune s r s' ↔ Returns ev i s r s' := by
  obtain ⟨t, d⟩ := i
  constructor
  · intro h
    cases t with
    | returnStmt o =>
      cases h with
      | nothing => exact .nothing
      | value he => exact .value he
    | _ => cases h
  · intro h
    cases h with
    | nothing => exact .nothing
    | value he => exact .value he

variable {rt : SemType}

theorem Step.prune {c c' : Conf σ V} (h : Step ev c c') (hc : c.Ok ev rt) : Step ev c.prune c'.prune := by
  cases h with
  | exec h =>
    have hi := hc.2.1
    rw [Conf.prune_running, Conf.prune_running, pruneItems_cons hi, pruneItems_append]
    exact .exec (h.prune hi)
  | ret h =>
    rw [Conf.prune_running, pruneItems_cons hc.2.1]
    exact .ret (returns_prune.mpr h)

theorem Step.of_prune {c d : Conf σ V} (h : Step ev c.prune d) (hc : c.Ok ev rt) :
    ∃ c', Step ev c c' ∧ c'.prune = d := by
  cases c with
  | returned r s => cases h
  | running l s =>
    cases l with
    | nil => cases h
    | cons i l =>
      have hi := hc.2.1
      rw [Conf.prune_running, pruneItems_cons hi] at h
      cases h with
      | exec h =>
        obtain ⟨new, hnew, rfl⟩ := h.of_prune hi
        refine ⟨_, .exec hnew, ?_⟩
        rw [Conf.prune_running, pruneItems_append]
      | ret h => exact ⟨_, .ret (returns_prune.mp h), rfl⟩

theorem Steps.prune {c c' : Conf σ V} (h : Steps ev c c') (hc : c.Ok ev rt) : Steps ev c.prune c'.prune := by
  induction h with
  | refl => exact .refl
  | tail hsteps hstep ih => exact ih.tail (hstep.prune (Steps.ok hsteps hc))

theorem Steps.of_prune {c d : Conf σ V} (h : Steps ev c.prune d) (hc : c.Ok ev rt) :
    ∃ c', Steps ev c c' ∧ c'.prune = d := by
  induction h with
  | refl => exact ⟨c, .refl, rfl⟩
  | tail _ hstep ih =>
    obtain ⟨c₁, hc₁, rfl⟩ := ih
    obtain ⟨c₂, hc₂, rfl⟩ := hstep.of_prune (Steps.ok hc₁ hc)
    exact ⟨c₂, hc₁.tail hc₂, rfl⟩

end Bisimulation

/-! ## Method bodies -/

mutual

/-- The statements of a statement, itself and the erased ones included. -/
def TStmt.parts : TStmt → List TStmt
  | .block ss es lonely cfb => .block ss es lonely cfb :: (TStmt.allParts ss ++ TStmt.allParts es)
  | .varDecl type name idx o => [.varDecl type name idx o]
  | .exprStmt e => [.exprStmt e]
  | .ifStmt c t₁ t₂ cfb => .ifStmt c t₁ t₂ cfb :: (TStmt.optParts t₁ ++ TStmt.optParts t₂)
  | .whileStmt c t => .whileStmt c t :: TStmt.optParts t
  | .returnStmt o => [.returnStmt o]

/-- The statements of a list of statements. -/
def TStmt.allParts : List TStmt → List TStmt
  | [] => []
  | s :: l => s.parts ++ TStmt.allParts l

/-- The statements of a statement that may be missing. -/
def TStmt.optParts : Option TStmt → List TStmt
  | none => []
  | some s => s.parts

end

theorem TStmt.mem_allParts {l : List TStmt} {p : TStmt} (h : p ∈ TStmt.allParts l) : ∃ s ∈ l, p ∈ s.parts := by
  induction l with
  | nil => cases h
  | cons s l ih =>
    rcases List.mem_append.mp h with h | h
    · exact ⟨s, List.mem_cons_self, h⟩
    · obtain ⟨s', hs', hp⟩ := ih h
      exact ⟨s', List.mem_cons_of_mem _ hs', hp⟩

theorem TStmt.mem_optParts {o : Option TStmt} {p : TStmt} (h : p ∈ TStmt.optParts o) : ∃ s ∈ o, p ∈ s.parts := by
  cases o with
  | none => cases h
  | some s => exact ⟨s, rfl, h⟩

theorem FlowOk.parts {rt : SemType} {t : TStmt} (h : FlowOk rt t) : ∀ p ∈ t.parts, FlowOk rt p := by
  induction t using TStmt.induct with
  | block ss es lonely cfb ihs ihe =>
    intro p hp
    rcases List.mem_cons.mp hp with rfl | hp
    · exact h
    · cases h with
      | block hss hes =>
        rcases List.mem_append.mp hp with hp | hp
        · obtain ⟨s, hs, hp⟩ := TStmt.mem_allParts hp; exact ihs s hs (hss s hs) p hp
        · obtain ⟨s, hs, hp⟩ := TStmt.mem_allParts hp; exact ihe s hs (hes s hs) p hp
  | varDecl | exprStmt | returnStmt =>
    intro p hp
    rw [List.mem_singleton.mp hp]
    exact h
  | ifStmt c t₁ t₂ cfb ih₁ ih₂ =>
    intro p hp
    rcases List.mem_cons.mp hp with rfl | hp
    · exact h
    · cases h with
      | ifStmt h₁ h₂ =>
        rcases List.mem_append.mp hp with hp | hp
        · obtain ⟨s, hs, hp⟩ := TStmt.mem_optParts hp; exact ih₁ s hs (h₁ s hs) p hp
        · obtain ⟨s, hs, hp⟩ := TStmt.mem_optParts hp; exact ih₂ s hs (h₂ s hs) p hp
  | whileStmt c t ih =>
    intro p hp
    rcases List.mem_cons.mp hp with rfl | hp
    · exact h
    · cases h with
      | whileStmt h =>
        obtain ⟨s, hs, hp⟩ := TStmt.mem_optParts hp
        exact ih s hs (h s hs) p hp

section Sources

variable {cx : Context}

theorem visitOptExpr_source {tbl : Table} {o : Option Expr} {o' : Option TExpr}
    (h : visitOptExpr cx tbl o = .ok o') : o'.map TExpr.source = o := by
  rcases visitOptExpr_eq_ok.mp h with ⟨rfl, rfl⟩ | ⟨e, e', rfl, rfl, he⟩
  · rfl
  · rw [Option.map_some, visitExpr_source he]

theorem visitStmts_source_of {l : List Stmt}
    (ih : ∀ s ∈ l, ∀ st t st', visitStmt cx st s = .ok (t, st') → t.source = s) {st st' : St} {ts : List TStmt}
    (h : visitStmts cx st l = .ok (ts, st')) : ts.map TStmt.source = l := by
  induction l generalizing st ts with
  | nil => rw [visitStmts] at h; cases h; rfl
  | cons s l ihl =>
    obtain ⟨t, st₁, ts', h₁, h₂, rfl⟩ := visitStmts_cons_eq_ok.mp h
    rw [List.map_cons, ih s List.mem_cons_self _ _ _ h₁, ihl (fun s hs => ih s (List.mem_cons_of_mem _ hs)) h₂]

theorem visitOptStmt_source_of {o : Option Stmt}
    (ih : ∀ s ∈ o, ∀ st t st', visitStmt cx st s = .ok (t, st') → t.source = s) {st st' : St} {o' : Option TStmt}
    (h : visitOptStmt cx st o = .ok (o', st')) : TStmt.optSource o' = o := by
  cases o with
  | none => rw [visitOptStmt] at h; cases h; rfl
  | some s =>
    obtain ⟨t, ht, rfl⟩ := visitOptStmt_some_eq_ok.mp h
    rw [TStmt.optSource, ih s rfl _ _ _ ht]

/-- The visit of a statement only adds annotations, and marks statements as erased. -/
theorem visitStmt_source {st st' : St} {s : Stmt} {t : TStmt} (h : visitStmt cx st s = .ok (t, st')) :
    t.source = s := by
  induction s using Stmt.induct generalizing st t st' with
  | block l lonely ih =>
    obtain ⟨ts, tbl, n, h₁, rfl, -⟩ := visitStmt_block_visits.mp h
    have hts := visitStmts_source_of (fun s hs _ _ _ => ih s hs) h₁
    unfold finishBlock
    rw [TStmt.source, TStmt.sources_eq, TStmt.sources_eq, ← List.map_append, cutDeadCode_append, hts]
  | varDecl type name o =>
    obtain ⟨o', -, -, h', -, rfl⟩ := visitStmt_varDecl_eq_ok.mp h
    rw [TStmt.source, visitOptExpr_source h']
  | exprStmt e =>
    obtain ⟨e', he, rfl, -⟩ := visitStmt_exprStmt_eq_ok.mp h
    rw [TStmt.source, visitExpr_source he]
  | ifStmt c s₁ s₂ ih₁ ih₂ =>
    obtain ⟨c', t₁, st₁, t₂, hc, h₁, h₂, -, rfl⟩ := visitStmt_ifStmt_eq_ok.mp h
    rw [TStmt.source, visitExpr_source hc, visitOptStmt_source_of (fun s hs _ _ _ => ih₁ s hs) h₁,
      visitOptStmt_source_of (fun s hs _ _ _ => ih₂ s hs) h₂]
  | whileStmt c s ih =>
    obtain ⟨c', t₁, hc, h₁, -, rfl⟩ := visitStmt_whileStmt_eq_ok.mp h
    rw [TStmt.source, visitExpr_source hc, visitOptStmt_source_of (fun s hs _ _ _ => ih s hs) h₁]
  | returnStmt o =>
    obtain ⟨o', h', -, rfl, -⟩ := visitStmt_returnStmt_eq_ok.mp h
    rw [TStmt.source, visitOptExpr_source h']

end Sources

/-- The bodies of the methods of a class, each with the return type of its method. -/
def classBodies (c : Ast.Class) : List (SemType × Stmt) :=
  c.methods.map (fun m => (semaType m.returnType, Block.stmt m.block)) ++
    c.mainMethods.map fun m => (.void, Block.stmt m.block)

/-- The annotated bodies of the methods of a class. -/
def TClass.bodies (c : TClass) : List (SemType × TStmt) :=
  c.methods.map (fun m => (semaType m.returnType, m.body)) ++ c.mainMethods.map fun m => (.void, m.body)

/-- The bodies of the methods of a program. -/
def programBodies (p : Program) : List (SemType × Stmt) := p.classes.flatMap classBodies

/-- The annotated bodies of the methods of a program. -/
def TProgram.bodies (t : TProgram) : List (SemType × TStmt) := t.classes.flatMap TClass.bodies

/-- What the analysis of a method body promises, for every meaning of the expressions. -/
structure SoundFlow (rt : SemType) (body : TStmt) : Prop where
  /-- a statement with `cfb` set to `return` never gives way to what stands after it -/
  never_completes : ∀ t ∈ body.parts, t.cfb = .return → ∀ (σ V : Type) (ev : Evaluator σ V) (d : Bool)
    (k l : List Item) (s s' : σ), Steps ev (.running (⟨t, d⟩ :: k) s) (.running l s') → ∃ l', l' ≠ [] ∧ l = l' ++ k
  /-- a method with a result does not reach its end -/
  never_falls_off : rt.isVoid = false → ∀ (σ V : Type) (ev : Evaluator σ V) (s s' : σ),
    ¬ Steps ev (start body s) (.running [] s')
  /-- an erased statement is never the next one -/
  erased_not_executed : ∀ (σ V : Type) (ev : Evaluator σ V) (s s' : σ) (i : Item) (l : List Item),
    Steps ev (start body s) (.running (i :: l) s') → i.erased = false
  /-- every step of the parsed body is one of the pruned body -/
  pruned_step : ∀ (σ V : Type) (ev : Evaluator σ V) (s : σ) (c c' : Conf σ V), Steps ev (start body s) c →
    Step ev c c' → Step ev c.prune c'.prune
  /-- every step of the pruned body is one of the parsed body -/
  parsed_step : ∀ (σ V : Type) (ev : Evaluator σ V) (s : σ) (c d : Conf σ V), Steps ev (start body s) c →
    Step ev c.prune d → ∃ c', Step ev c c' ∧ c'.prune = d
  /-- so that both bodies return the same -/
  same_results : ∀ (σ V : Type) (ev : Evaluator σ V) (s s' : σ) (r : Option V),
    Steps ev (start body s) (.returned r s') ↔ Steps ev (start body.pruned s) (.returned r s')
  /-- and what they return fits the return type -/
  returns : ∀ (σ V : Type) (ev : Evaluator σ V) (s s' : σ) (r : Option V),
    Steps ev (start body s) (.returned r s') → ReturnOk ev rt r

theorem soundFlow_of_flowOk {rt : SemType} {body : TStmt} (h : FlowOk rt body)
    (hret : rt.isVoid = true ∨ body.cfb = .return) : SoundFlow rt body where
  never_completes t ht htret σ V ev d k l s s' hsteps := Sema.never_completes (h.parts t ht) htret hsteps
  never_falls_off hvoid σ V ev s s' hsteps := by
    rcases hret with hret | hret
    · rw [hvoid] at hret; cases hret
    · obtain ⟨l', hne, hl'⟩ := Sema.never_completes h hret hsteps
      exact hne (List.append_eq_nil_iff.mp hl'.symm).1
  erased_not_executed σ V ev s s' i l hsteps := by
    have hok : (Conf.running (i :: l) s').Ok ev rt := Steps.ok hsteps (start_ok h s)
    exact hok.2.1
  pruned_step σ V ev s c c' hsteps hstep := hstep.prune (Steps.ok hsteps (start_ok h s))
  parsed_step σ V ev s c d hsteps hstep := hstep.of_prune (Steps.ok hsteps (start_ok h s))
  same_results σ V ev s s' r := by
    constructor
    · intro hsteps
      exact Steps.prune hsteps (start_ok h s)
    · intro hsteps
      obtain ⟨c, hc, hprune⟩ := Steps.of_prune (c := start body s) hsteps (start_ok h s)
      cases c with
      | running l s₁ => cases hprune
      | returned r₁ s₁ => cases hprune; exact hc
  returns σ V ev s s' r hsteps := Steps.ok hsteps (start_ok h s)

theorem ClassVisited.bodies {classes : List Ast.Class} {tbl : Table} {c : Ast.Class} {t : TClass}
    (h : ClassVisited classes tbl c t) :
    (∀ b ∈ t.bodies, SoundFlow b.1 b.2) ∧
      (t.bodies.map fun b => (b.1, b.2.source)).Perm (classBodies c) := by
  constructor
  · intro b hb
    rcases List.mem_append.mp hb with hb | hb
    · obtain ⟨tm, htm, rfl⟩ := List.mem_map.mp hb
      obtain ⟨m, -, ptbl, n, hm⟩ := exists_left_of_mem h.methods htm
      have hrt : tm.returnType = m.returnType := by rw [hm.result]
      rw [hrt]
      exact soundFlow_of_flowOk (visitStmt_flowOk hm.body) hm.returns
    · obtain ⟨tm, htm, rfl⟩ := List.mem_map.mp hb
      obtain ⟨m, -, n, hm, -⟩ := exists_left_of_mem h.mainMethods htm
      exact soundFlow_of_flowOk (visitStmt_flowOk hm) (.inl rfl)
  · have hmethods : t.methods.map (fun m => (semaType m.returnType, m.body.source)) =
        (sortByName RegularMethod.name c.methods).map fun m => (semaType m.returnType, Block.stmt m.block) := by
      rw [← List.forall₂_eq_eq_eq, List.forall₂_map_left_iff, List.forall₂_map_right_iff]
      refine List.Forall₂.flip (h.methods.imp ?_)
      rintro m tm ⟨ptbl, n, hm⟩
      show (_, _) = (_, _)
      rw [visitStmt_source hm.body, hm.result]
      rfl
    have hmains : t.mainMethods.map (fun m => (SemType.void, m.body.source)) =
        c.mainMethods.map fun m => (SemType.void, Block.stmt m.block) := by
      rw [← List.forall₂_eq_eq_eq, List.forall₂_map_left_iff, List.forall₂_map_right_iff]
      refine List.Forall₂.flip (h.mainMethods.imp ?_)
      rintro m tm ⟨n, hm, -⟩
      show (_, _) = (_, _)
      rw [visitStmt_source hm]
      rfl
    unfold TClass.bodies classBodies
    rw [List.map_append, List.map_map, List.map_map]
    show (t.methods.map (fun m => (semaType m.returnType, m.body.source)) ++
      t.mainMethods.map fun m => (SemType.void, m.body.source)).Perm _
    rw [hmethods, hmains]
    exact ((sortByName_perm _ _).map _).append_right _

/-- For every method body of every accepted program, and every execution of it: a statement whose `cfb` is `return` does
not complete, so that a method with a result does not reach its end; the erased statements are not executed, and the
pruned body has the same executions as the parsed one; and what is returned fits the return type. The annotated bodies are
those that were parsed. -/
theorem sound_flow {p : Program} {t : TProgram} (h : visitProgram p = .ok t) :
    (∀ b ∈ t.bodies, SoundFlow b.1 b.2) ∧
      (t.bodies.map fun b => (b.1, b.2.source)).Perm (programBodies p) := by
  have hv := visitProgram_visited h
  constructor
  · intro b hb
    obtain ⟨tc, htc, hb⟩ := List.mem_flatMap.mp hb
    obtain ⟨c, -, hc⟩ := exists_left_of_mem hv.classes htc
    exact hc.bodies.1 b hb
  · have hsorted : (t.bodies.map fun b => (b.1, b.2.source)).Perm ((sortedClasses p).flatMap classBodies) := by
      unfold TProgram.bodies
      rw [List.map_flatMap]
      have hall : List.Forall₂ (fun c t => ((TClass.bodies t).map fun b => (b.1, b.2.source)).Perm (classBodies c))
        (sortedClasses p) t.classes := hv.classes.imp fun _ _ hc => hc.bodies.2
      generalize t.classes = ts at hall ⊢
      generalize sortedClasses p = cls at hall ⊢
      induction hall with
      | nil => exact .nil
      | cons hc _ ih => rw [List.flatMap_cons, List.flatMap_cons]; exact hc.append ih
    refine hsorted.trans ?_
    unfold sortedClasses programBodies
    rw [List.flatMap_map]
    refine (List.Perm.flatMap_left _ fun c _ => ?_).trans ((sortByName_perm _ _).flatMap_right _)
    exact ((sortByName_perm _ _).map _).append_right _

/-- A method whose last statement is dead, since both branches before it return. -/
def unreachableCode : Program :=
  ⟨[⟨"A", [], [⟨.basic (.primitive .int), "f", [⟨.basic (.primitive .boolean), "b", 1⟩],
      ⟨[.ifStmt (.varRef "b") (some (.returnStmt (some (.intLiteral 1))))
          (some (.block [.returnStmt (some (.intLiteral 2)), .exprStmt (.intLiteral 3)] false)),
        .returnStmt (some (.intLiteral 4))], false⟩⟩],
    [⟨"main", "args", ⟨[], false⟩⟩]⟩]⟩

theorem sound_flow_unreachableCode :
    ∃ t, visitProgram unreachableCode = .ok t ∧
      (t.bodies.map fun b => (b.2.parts.length, b.2.pruned.parts.length)) = [(7, 5), (1, 1)] ∧
      ∀ b ∈ t.bodies, SoundFlow b.1 b.2 := by
  have h : ∃ t, visitProgram unreachableCode = .ok t ∧
      (t.bodies.map fun b => (b.2.parts.length, b.2.pruned.parts.length)) = [(7, 5), (1, 1)] := ⟨_, rfl, rfl⟩
  obtain ⟨t, ht, hlen⟩ := h
  exact ⟨t, ht, hlen, (sound_flow ht).1⟩

end Mjc.Sema

import Mjc.Sema.Accepted
import Mjc.Sema.Lexical

/-!
# Name resolution

The symbol table implements lexical scoping.

* `Rel` : the table holds what is visible at a point;
* `visitExpr_ok`, `visitStmt_ok` : an accepted statement is annotated as lexical scoping asks;
* `Clean`, `visitStmt_clash` : the visitor complains about the name of a variable only where it is taken;
* `lexical_scoping` : both results for whole programs.
-/

namespace Mjc.Sema
open Mjc.Ast SymbolTable

set_option autoImplicit false

/-! ## The table and the visible variables -/

/-- The definition that is visible under a name. -/
inductive Sees (fr : Frame) (ls : Locals) (x : String) : Option Definition → Prop
  | «local» {idx : Nat} {type : Ty} (h : ls.lookup x = some (idx, type)) :
      Sees fr ls x (some (.variable idx type))
  | param {p : Parameter} (hl : ls.lookup x = none) (hp : p ∈ fr.params) (hx : p.name = x) :
      Sees fr ls x (some (.parameter p.idx p.type))
  | mainArg (hl : ls.lookup x = none) (hp : ∀ p ∈ fr.params, p.name ≠ x) (hs : fr.mainArg = some x) :
      Sees fr ls x (some .mainArg)
  | field {f : Ast.Field} (hl : ls.lookup x = none) (hp : ∀ p ∈ fr.params, p.name ≠ x) (hs : fr.mainArg ≠ some x)
      (hf : f ∈ fr.fields) (hx : f.name = x) : Sees fr ls x (some (.field f.type))
  | nothing (hl : ls.lookup x = none) (hp : ∀ p ∈ fr.params, p.name ≠ x) (hs : fr.mainArg ≠ some x)
      (hf : ∀ f ∈ fr.fields, f.name ≠ x) : Sees fr ls x none

theorem Sees.taken_iff {fr : Frame} {ls : Locals} {x : String} {o : Option Definition} (h : Sees fr ls x o) :
    Taken fr ls x ↔ mayHide o = false := by
  cases h with
  | «local» h => exact ⟨fun _ => rfl, fun _ => .inl (by rw [h]; rfl)⟩
  | param hl hp hx => exact ⟨fun _ => rfl, fun _ => .inr (.inl ⟨_, hp, hx⟩)⟩
  | mainArg hl hp hs => exact ⟨fun _ => rfl, fun _ => .inr (.inr hs)⟩
  | field hl hp hs =>
    constructor
    · rintro (h | ⟨p, hp', hx⟩ | h)
      · rw [hl] at h; cases h
      · exact absurd hx (hp p hp')
      · exact absurd h hs
    · intro h; cases h
  | nothing hl hp hs =>
    constructor
    · rintro (h | ⟨p, hp', hx⟩ | h)
      · rw [hl] at h; cases h
      · exact absurd hx (hp p hp')
      · exact absurd h hs
    · intro h; cases h

/-- A local variable hides what was visible under its name, and nothing else. -/
theorem Sees.declare {fr : Frame} {ls : Locals} {x y : String} {o : Option Definition} (h : Sees fr ls y o) (n : Nat)
    (type : Ty) : Sees fr ((x, n, type) :: ls) y (if y = x then some (.variable n type) else o) := by
  by_cases hyx : y = x
  · rw [if_pos hyx]
    subst hyx
    exact .local List.lookup_cons_self
  · rw [if_neg hyx]
    have hlookup : List.lookup y ((x, n, type) :: ls) = List.lookup y ls := by
      rw [List.lookup_cons, beq_false_of_ne hyx]
    cases h with
    | «local» h => exact .local (hlookup.trans h)
    | param hl hp hx => exact .param (hlookup.trans hl) hp hx
    | mainArg hl hp hs => exact .mainArg (hlookup.trans hl) hp hs
    | field hl hp hs hf hx => exact .field (hlookup.trans hl) hp hs hf hx
    | nothing hl hp hs hf => exact .nothing (hlookup.trans hl) hp hs hf

/-- The table holds what is visible, and every definition was made in a scope that is still open. -/
structure Rel (fr : Frame) (ls : Locals) (tbl : Table) : Prop where
  sees : ∀ x, Sees fr ls x (tbl.lookup x)
  depth : ∀ x k, (tbl.symbols x).currentScope = some k → k < tbl.scopes.length

/-- The innermost scope is one of a method or of a block: it defines no field. -/
def Inner (tbl : Table) : Prop := ∀ x, tbl.isDefinedInCurrentScope x = true → mayHide (tbl.lookup x) = false

theorem lookup_insert (tbl : Table) (x y : String) (d : Definition) :
    (tbl.insert x d).lookup y = if y = x then some d else tbl.lookup y := by
  unfold SymbolTable.insert SymbolTable.lookup
  by_cases h : y = x
  · subst h
    rw [if_pos rfl]
    show (Function.update tbl.symbols y _ y).currentDef = _
    rw [Function.update_self]
  · rw [if_neg h]
    show (Function.update tbl.symbols x _ y).currentDef = _
    rw [Function.update_of_ne h]

theorem symbols_insert_of_ne (tbl : Table) {x y : String} (h : y ≠ x) (d : Definition) :
    (tbl.insert x d).symbols y = tbl.symbols y :=
  Function.update_of_ne h _ _

theorem currentScope_insert (tbl : Table) (x : String) (d : Definition) :
    ((tbl.insert x d).symbols x).currentScope = tbl.currentScope := by
  show (Function.update tbl.symbols x _ x).currentScope = _
  rw [Function.update_self]

theorem currentScope_lt {tbl : Table} {k : Nat} (h : tbl.currentScope = some k) : k < tbl.scopes.length := by
  unfold SymbolTable.currentScope at h
  split at h
  · cases h
  next hs =>
    cases h
    rw [hs]
    exact Nat.lt_succ_self _

/-- In a scope that was just entered nothing is defined. -/
theorem isDefinedInCurrentScope_enterScope {tbl : Table}
    (h : ∀ x k, (tbl.symbols x).currentScope = some k → k < tbl.scopes.length) (x : String) :
    tbl.enterScope.isDefinedInCurrentScope x = false := by
  unfold SymbolTable.isDefinedInCurrentScope
  rw [decide_eq_false_iff_not]
  intro heq
  exact absurd (h x _ heq) (Nat.lt_irrefl _)

theorem depth_enterScope {tbl : Table} (h : ∀ x k, (tbl.symbols x).currentScope = some k → k < tbl.scopes.length) :
    ∀ x k, (tbl.enterScope.symbols x).currentScope = some k → k < tbl.enterScope.scopes.length :=
  fun x k hk => Nat.lt_succ_of_lt (h x k hk)

theorem depth_insert {tbl : Table} (h : ∀ x k, (tbl.symbols x).currentScope = some k → k < tbl.scopes.length)
    (y : String) (d : Definition) :
    ∀ x k, ((tbl.insert y d).symbols x).currentScope = some k → k < (tbl.insert y d).scopes.length := by
  intro x k hk
  by_cases hxy : x = y
  · subst hxy
    rw [currentScope_insert] at hk
    exact currentScope_lt hk
  · rw [symbols_insert_of_ne tbl hxy] at hk
    exact h x k hk

theorem isDefinedInCurrentScope_insert (tbl : Table) (x y : String) (d : Definition) :
    (tbl.insert x d).isDefinedInCurrentScope y = if y = x then true else tbl.isDefinedInCurrentScope y := by
  unfold SymbolTable.isDefinedInCurrentScope
  by_cases h : y = x
  · subst h
    rw [if_pos rfl, currentScope_insert]
    exact decide_eq_true rfl
  · rw [if_neg h, symbols_insert_of_ne tbl h]
    rfl

theorem Rel.enterScope {fr : Frame} {ls : Locals} {tbl : Table} (h : Rel fr ls tbl) : Rel fr ls tbl.enterScope where
  sees := h.sees
  depth := depth_enterScope h.depth

theorem Rel.inner {fr : Frame} {ls : Locals} {tbl : Table} (h : Rel fr ls tbl) : Inner tbl.enterScope := by
  intro x hx
  rw [isDefinedInCurrentScope_enterScope h.depth] at hx
  cases hx

theorem Rel.declare {fr : Frame} {ls : Locals} {tbl : Table} (h : Rel fr ls tbl) (x : String) (n : Nat) (type : Ty) :
    Rel fr ((x, n, type) :: ls) (tbl.insert x (.variable n type)) where
  sees y := by rw [lookup_insert]; exact (h.sees y).declare n type
  depth := depth_insert h.depth x _

theorem Inner.insert {tbl : Table} (h : Inner tbl) {d : Definition} (hd : mayHide (some d) = false) (x : String) :
    Inner (tbl.insert x d) := by
  intro y hy
  rw [isDefinedInCurrentScope_insert] at hy
  rw [lookup_insert]
  by_cases hyx : y = x
  · rw [if_pos hyx]; exact hd
  · rw [if_neg hyx] at hy ⊢
    exact h y hy

/-! ## Accepted bodies -/

section Accepted

variable {cx : Context} {fr : Frame}

theorem usesAt_append (ls : Locals) (l l' : List String) : usesAt ls (l ++ l') = usesAt ls l ++ usesAt ls l' :=
  List.map_append

/-- The class part of the frame: a method has a dummy parameter exactly when it is static. -/
def Frame.Fits (fr : Frame) (cx : Context) : Prop := cx.currentMethod = .main ↔ fr.mainArg ≠ none

theorem Sees.resolves {ls : Locals} {x : String} {d : Definition} {type : Ty} (h : Sees fr ls x (some d))
    (htype : d.type = some type) (hfield : fr.mainArg ≠ none → ∀ type, d ≠ .field type) :
    Resolves fr ls x (.definition d) := by
  cases h with
  | «local» h => exact .local h
  | param hl hp hx => exact .param hl hp hx
  | mainArg => cases htype
  | @field f hl hp hs hf hx =>
    by_cases hmain : fr.mainArg = none
    · exact .field hl hp hmain hf hx
    · exact absurd rfl (hfield hmain f.type)

theorem visitExprs_ok_of {ls : Locals} {tbl : Table} {l : List Expr} {ts : List TExpr}
    (ih : ∀ e ∈ l, ∀ t, visitExpr cx tbl e = .ok t →
      List.Forall₂ (Occurrence.Ok fr) (usesAt ls (exprUses e)) t.bindings)
    (h : List.Forall₂ (fun e t => visitExpr cx tbl e = .ok t) l ts) :
    List.Forall₂ (Occurrence.Ok fr) (usesAt ls (exprsUses l)) (TExpr.bindingsAll ts) := by
  induction h with
  | nil => exact .nil
  | cons he _ ihl =>
    rw [exprsUses, usesAt_append, TExpr.bindingsAll]
    exact List.rel_append (ih _ List.mem_cons_self _ he) (ihl fun e he => ih e (List.mem_cons_of_mem _ he))

theorem visitExpr_ok {ls : Locals} {tbl : Table} (hr : Rel fr ls tbl) (hfit : fr.Fits cx) {e : Expr} {t : TExpr}
    (h : visitExpr cx tbl e = .ok t) : List.Forall₂ (Occurrence.Ok fr) (usesAt ls (exprUses e)) t.bindings := by
  induction e using Expr.induct generalizing t with
  | intLiteral | boolLiteral | nullLiteral => rw [visitExpr] at h; cases h; exact .nil
  | thisLiteral =>
    rw [visitExpr] at h
    obtain ⟨-, rfl⟩ := visitThisLiteral_eq_ok h
    exact .nil
  | varRef name =>
    rw [visitExpr] at h
    have hsees := hr.sees name
    rcases visitVarRef_eq_ok h with ⟨hl, hname, rfl⟩ | ⟨d, type, hl, htype, hfield, rfl⟩
    · rw [hl] at hsees
      cases hsees with
      | nothing hl hp hs hf => exact .cons ⟨rfl, .system hl hp hs hf hname⟩ .nil
    · rw [hl] at hsees
      exact .cons ⟨rfl, hsees.resolves htype fun hmain => hfield (hfit.mpr hmain)⟩ .nil
  | methodInvocation left name args ihl iha =>
    rw [visitExpr] at h
    obtain ⟨left', hl, h⟩ := bind_eq_ok.mp h
    obtain ⟨args', ha, h⟩ := bind_eq_ok.mp h
    have hargs := visitExprs_ok_of (fun e he _ => iha e he) (visitExprs_eq_ok.mp ha)
    rw [exprUses, usesAt_append]
    rcases visitMethodInvocation_eq_ok h with ⟨_, _, _, _, _, -, -, rfl⟩ | ⟨_, _, -, -, -, -, rfl⟩
    · exact List.rel_append (ihl hl) hargs
    · exact List.rel_append (ihl hl) hargs
  | fieldAccess left name ih =>
    rw [visitExpr] at h
    obtain ⟨left', hl, h⟩ := bind_eq_ok.mp h
    rw [exprUses]
    rcases visitFieldAccess_eq_ok h with ⟨_, _, _, -, -, rfl⟩ | ⟨_, _, -, -, -, rfl⟩
    · rw [TExpr.bindings]; exact ih hl
    · rw [TExpr.bindings]; exact ih hl
  | arrayAccess array index iha ihi =>
    rw [visitExpr] at h
    obtain ⟨array', ha, h⟩ := bind_eq_ok.mp h
    obtain ⟨index', hi, h⟩ := bind_eq_ok.mp h
    obtain ⟨-, -, rfl⟩ := visitArrayAccess_eq_ok h
    rw [exprUses, usesAt_append]
    exact List.rel_append (iha ha) (ihi hi)
  | newObject name =>
    rw [visitExpr] at h
    obtain ⟨-, rfl⟩ := visitNewObject_eq_ok h
    exact .nil
  | newArray elementType dimension size ih =>
    rw [visitExpr] at h
    obtain ⟨⟨⟩, -, h⟩ := bind_eq_ok.mp h
    obtain ⟨size', hs, h⟩ := bind_eq_ok.mp h
    obtain ⟨-, -, rfl⟩ := visitNewArray_eq_ok h
    rw [exprUses, TExpr.bindings]
    exact ih hs
  | binary op left right ihl ihr =>
    rw [visitExpr] at h
    obtain ⟨left', hl, h⟩ := bind_eq_ok.mp h
    obtain ⟨right', hr, h⟩ := bind_eq_ok.mp h
    obtain ⟨type, -, rfl⟩ := visitBinary_eq_ok h
    rw [exprUses, usesAt_append]
    exact List.rel_append (ihl hl) (ihr hr)
  | unary op e ih =>
    rw [visitExpr] at h
    obtain ⟨e', he, h⟩ := bind_eq_ok.mp h
    rw [exprUses]
    rcases visitUnary_eq_ok h with ⟨-, -, rfl⟩ | ⟨-, -, rfl⟩
    · rw [TExpr.bindings]; exact ih he
    · rw [TExpr.bindings]; exact ih he

theorem visitOptExpr_ok {ls : Locals} {tbl : Table} (hr : Rel fr ls tbl) (hfit : fr.Fits cx) {o : Option Expr}
    {t : Option TExpr} (h : visitOptExpr cx tbl o = .ok t) :
    List.Forall₂ (Occurrence.Ok fr) (usesAt ls (optUses o)) (TExpr.bindingsOpt t) := by
  rcases visitOptExpr_eq_ok.mp h with ⟨rfl, rfl⟩ | ⟨e, e', rfl, rfl, he⟩
  · exact .nil
  · exact visitExpr_ok hr hfit he

/-- What the visit of a statement does: `ls` is visible before it, and `n` variables are declared before it. -/
structure StmtOk (fr : Frame) (ls : Locals) (n : Nat) (tbl : Table) (s : Stmt) (t : TStmt) (st' : St) : Prop where
  rel : Rel fr (declared n s ++ ls) st'.symTbl
  inner : Inner tbl → Inner st'.symTbl
  count : st'.currentLocalVarDeclNr = n + varCount s
  names : List.Forall₂ (Occurrence.Ok fr) (occurrences ls n s) t.bindings

theorem TStmt.bindingsAll_append (l l' : List TStmt) :
    TStmt.bindingsAll (l ++ l') = TStmt.bindingsAll l ++ TStmt.bindingsAll l' := by
  induction l with
  | nil => rfl
  | cons s l ih =>
    show s.bindings ++ TStmt.bindingsAll (l ++ l') = s.bindings ++ TStmt.bindingsAll l ++ TStmt.bindingsAll l'
    rw [ih, List.append_assoc]

/-- The names of the statements of a block, if each of them is visited as it should be. -/
theorem visitStmts_ok_of {l : List Stmt}
    (ih : ∀ s ∈ l, ∀ ls n tbl t st', Rel fr ls tbl → visitStmt cx ⟨tbl, n⟩ s = .ok (t, st') →
      StmtOk fr ls n tbl s t st') {ls : Locals} {n : Nat} {tbl : Table} {ts : List TStmt} {st' : St}
    (hr : Rel fr ls tbl) (h : visitStmts cx ⟨tbl, n⟩ l = .ok (ts, st')) :
    st'.currentLocalVarDeclNr = n + varsCount l ∧
      List.Forall₂ (Occurrence.Ok fr) (occurrencesAll ls n l) (TStmt.bindingsAll ts) := by
  induction l generalizing ls n tbl ts with
  | nil => rw [visitStmts] at h; cases h; exact ⟨rfl, .nil⟩
  | cons s l ihl =>
    obtain ⟨t, ⟨tbl₁, n₁⟩, ts', h₁, h₂, rfl⟩ := visitStmts_cons_eq_ok.mp h
    obtain ⟨hrel, -, hcount, hnames⟩ := ih s List.mem_cons_self _ _ _ _ _ hr h₁
    simp only at hcount hrel
    subst hcount
    obtain ⟨hcount', hnames'⟩ := ihl (fun s hs => ih s (List.mem_cons_of_mem _ hs)) hrel h₂
    refine ⟨?_, List.rel_append hnames hnames'⟩
    rw [hcount', varsCount, Nat.add_assoc]

theorem visitOptStmt_ok_of {o : Option Stmt}
    (ih : ∀ s ∈ o, ∀ ls n tbl t st', Rel fr ls tbl → visitStmt cx ⟨tbl, n⟩ s = .ok (t, st') →
      StmtOk fr ls n tbl s t st') {ls : Locals} {n : Nat} {tbl : Table} {t : Option TStmt} {st' : St}
    (hr : Rel fr ls tbl) (h : visitOptStmt cx ⟨tbl, n⟩ o = .ok (t, st')) :
    Rel fr (optDeclared n o ++ ls) st'.symTbl ∧ (Inner tbl → Inner st'.symTbl) ∧ st'.currentLocalVarDeclNr = n + optVarCount o ∧
      List.Forall₂ (Occurrence.Ok fr) (occurrencesOpt ls n o) (TStmt.bindingsOpt t) := by
  cases o with
  | none => rw [visitOptStmt] at h; cases h; exact ⟨hr, id, rfl, .nil⟩
  | some s =>
    obtain ⟨t', h', rfl⟩ := visitOptStmt_some_eq_ok.mp h
    obtain ⟨hrel, hinner, hcount, hnames⟩ := ih s rfl _ _ _ _ _ hr h'
    exact ⟨hrel, hinner, hcount, hnames⟩

theorem visitStmt_ok (hfit : fr.Fits cx) {ls : Locals} {n : Nat} {tbl : Table} {s : Stmt} {t : TStmt} {st' : St}
    (hr : Rel fr ls tbl) (h : visitStmt cx ⟨tbl, n⟩ s = .ok (t, st')) : StmtOk fr ls n tbl s t st' := by
  induction s using Stmt.induct generalizing ls n tbl t st' with
  | block l lonely ih =>
    obtain ⟨ts, tbl', n', h₁, rfl, rfl⟩ := visitStmt_block_visits.mp h
    obtain ⟨hcount, hnames⟩ := visitStmts_ok_of (fun s hs _ _ _ _ _ => ih s hs) hr.enterScope h₁
    refine ⟨hr, id, hcount, ?_⟩
    unfold finishBlock
    rw [TStmt.bindings, ← TStmt.bindingsAll_append, cutDeadCode_append]
    exact hnames
  | varDecl type name o =>
    obtain ⟨o', h₁, -, h₂, -, rfl⟩ := visitStmt_varDecl_eq_ok.mp h
    obtain ⟨-, hhide, rfl⟩ := declare_eq_ok.mp h₁
    have hr' := hr.declare name n type
    refine ⟨hr', fun h => h.insert rfl name, rfl, .cons ⟨rfl, rfl, ?_⟩ (visitOptExpr_ok hr' hfit h₂)⟩
    intro htaken
    rw [(hr.sees name).taken_iff] at htaken
    have hhide' : mayHide (tbl.lookup name) = true := hhide
    rw [htaken] at hhide'
    cases hhide'
  | exprStmt e =>
    obtain ⟨e', he, rfl, rfl⟩ := visitStmt_exprStmt_eq_ok.mp h
    exact ⟨hr, id, rfl, visitExpr_ok hr hfit he⟩
  | ifStmt c s₁ s₂ ih₁ ih₂ =>
    obtain ⟨c', t₁, ⟨tbl₁, n₁⟩, t₂, hc, h₁, h₂, -, rfl⟩ := visitStmt_ifStmt_eq_ok.mp h
    obtain ⟨hr₁, hi₁, hn₁, hnames₁⟩ := visitOptStmt_ok_of (fun s hs _ _ _ _ _ => ih₁ s hs) hr h₁
    simp only at hn₁ hr₁
    subst hn₁
    obtain ⟨hr₂, hi₂, hn₂, hnames₂⟩ := visitOptStmt_ok_of (fun s hs _ _ _ _ _ => ih₂ s hs) hr₁ h₂
    refine ⟨?_, hi₂ ∘ hi₁, ?_, List.rel_append (visitExpr_ok hr hfit hc) (List.rel_append hnames₁ hnames₂)⟩
    · rw [declared, List.append_assoc]
      exact hr₂
    · rw [hn₂, varCount, Nat.add_assoc]
  | whileStmt c s ih =>
    obtain ⟨c', t₁, hc, h₁, -, rfl⟩ := visitStmt_whileStmt_eq_ok.mp h
    obtain ⟨hr₁, hi₁, hn₁, hnames₁⟩ := visitOptStmt_ok_of (fun s hs _ _ _ _ _ => ih s hs) hr h₁
    exact ⟨hr₁, hi₁, hn₁, List.rel_append (visitExpr_ok hr hfit hc) hnames₁⟩
  | returnStmt o =>
    obtain ⟨o', ho, -, rfl, rfl⟩ := visitStmt_returnStmt_eq_ok.mp h
    exact ⟨hr, id, rfl, visitOptExpr_ok hr hfit ho⟩

end Accepted

/-! ## Fields and parameters -/

section Frames

theorem Sees.congr {fr fr' : Frame} (hf : ∀ f, f ∈ fr.fields ↔ f ∈ fr'.fields) (hm : fr.mainArg = fr'.mainArg)
    (hp : ∀ p, p ∈ fr.params ↔ p ∈ fr'.params) {ls : Locals} {x : String} {o : Option Definition}
    (h : Sees fr ls x o) : Sees fr' ls x o := by
  cases h with
  | «local» h => exact .local h
  | param hl hp' hx => exact .param hl ((hp _).mp hp') hx
  | mainArg hl hp' hs => exact .mainArg hl (fun p hmem => hp' p ((hp p).mpr hmem)) (hm ▸ hs)
  | field hl hp' hs hf' hx =>
    exact .field hl (fun p hmem => hp' p ((hp p).mpr hmem)) (hm ▸ hs) ((hf _).mp hf') hx
  | nothing hl hp' hs hf' =>
    exact .nothing hl (fun p hmem => hp' p ((hp p).mpr hmem)) (hm ▸ hs) fun f hmem => hf' f ((hf f).mpr hmem)

theorem Rel.congr {fr fr' : Frame} (hf : ∀ f, f ∈ fr.fields ↔ f ∈ fr'.fields) (hm : fr.mainArg = fr'.mainArg)
    (hp : ∀ p, p ∈ fr.params ↔ p ∈ fr'.params) {ls : Locals} {tbl : Table} (h : Rel fr ls tbl) : Rel fr' ls tbl :=
  ⟨fun x => (h.sees x).congr hf hm hp, h.depth⟩

theorem insertFields_rel {done : List Ast.Field} {tbl : Table} (h : Rel ⟨done, none, []⟩ [] tbl)
    (fields : List Ast.Field) :
    Rel ⟨fields.reverse ++ done, none, []⟩ [] (fields.foldl (fun tbl f => tbl.insert f.name (.field f.type)) tbl) := by
  induction fields generalizing done tbl with
  | nil => exact h
  | cons f l ih =>
    rw [List.reverse_cons, List.append_assoc]
    refine ih ⟨fun x => ?_, depth_insert h.depth _ _⟩
    rw [lookup_insert]
    by_cases hx : x = f.name
    · rw [if_pos hx]
      exact .field rfl (fun p hp => nomatch hp) (fun h => nomatch h) List.mem_cons_self hx.symm
    · rw [if_neg hx]
      have hsees := h.sees x
      generalize tbl.lookup x = o at hsees ⊢
      cases hsees with
      | «local» h => cases h
      | param _ hp _ => cases hp
      | mainArg _ _ hs => cases hs
      | field hl hp hs hf hx' => exact .field hl hp hs (List.mem_cons_of_mem _ hf) hx'
      | nothing hl hp hs hf =>
        refine .nothing hl hp hs fun g hg => ?_
        rcases List.mem_cons.mp hg with rfl | hg
        · exact fun h => hx h.symm
        · exact hf g hg

/-- The table of a class binds its fields. -/
theorem fieldTable_rel (fields : List Ast.Field) : Rel ⟨fields, none, []⟩ [] (fieldTable .empty fields) := by
  have hempty : Rel ⟨[], none, []⟩ [] (SymbolTable.enterScope .empty : Table) :=
    ⟨fun x => .nothing rfl (fun p hp => nomatch hp) (fun h => nomatch h) fun f hf => (nomatch hf),
      fun x k hk => nomatch hk⟩
  refine Rel.congr ?_ ?_ ?_ (insertFields_rel hempty fields)
  · intro f
    show f ∈ fields.reverse ++ [] ↔ f ∈ fields
    rw [List.append_nil, List.mem_reverse]
  · rfl
  · exact fun _ => Iff.rfl

/-- The parameter of a static method hides a field. -/
theorem Rel.insertMainArg {fields : List Ast.Field} {tbl : Table} (h : Rel ⟨fields, none, []⟩ [] tbl) (arg : String) :
    Rel ⟨fields, some arg, []⟩ [] (tbl.insert arg .mainArg) := by
  refine ⟨fun x => ?_, depth_insert h.depth _ _⟩
  rw [lookup_insert]
  by_cases hx : x = arg
  · rw [if_pos hx]
    exact .mainArg rfl (fun p hp => nomatch hp) (congrArg some hx.symm)
  · rw [if_neg hx]
    have hne : (some arg : Option String) ≠ some x := fun h => hx (Option.some.inj h).symm
    have hsees := h.sees x
    generalize tbl.lookup x = o at hsees ⊢
    cases hsees with
    | «local» h => cases h
    | param _ hp _ => cases hp
    | mainArg _ _ hs => cases hs
    | field hl hp hs hf hx' => exact .field hl hp hne hf hx'
    | nothing hl hp hs hf => exact .nothing hl hp hne hf

/-- The table while the parameters are visited: `done` are visible, and the innermost scope defines only them. -/
structure ParamRel (fields : List Ast.Field) (done : List Parameter) (tbl : Table) : Prop where
  rel : Rel ⟨fields, none, done⟩ [] tbl
  defined : ∀ x, tbl.isDefinedInCurrentScope x = true ↔ ∃ p ∈ done, p.name = x

theorem ParamRel.enterScope {fields : List Ast.Field} {tbl : Table} (h : Rel ⟨fields, none, []⟩ [] tbl) :
    ParamRel fields [] tbl.enterScope := by
  refine ⟨h.enterScope, fun x => ?_⟩
  rw [isDefinedInCurrentScope_enterScope h.depth]
  constructor
  · intro h; cases h
  · rintro ⟨p, hp, -⟩; cases hp

theorem ParamRel.insert {fields : List Ast.Field} {done : List Parameter} {tbl : Table} (h : ParamRel fields done tbl)
    (p : Parameter) : ParamRel fields (p :: done) (tbl.insert p.name (.parameter p.idx p.type)) := by
  refine ⟨⟨fun x => ?_, depth_insert h.rel.depth _ _⟩, fun x => ?_⟩
  · rw [lookup_insert]
    by_cases hx : x = p.name
    · rw [if_pos hx]
      exact .param rfl List.mem_cons_self hx.symm
    · rw [if_neg hx]
      have hp' (hp : ∀ q ∈ done, q.name ≠ x) : ∀ q ∈ p :: done, q.name ≠ x := by
        intro q hq
        rcases List.mem_cons.mp hq with rfl | hq
        · exact fun h => hx h.symm
        · exact hp q hq
      have hsees := h.rel.sees x
      generalize tbl.lookup x = o at hsees ⊢
      cases hsees with
      | «local» h => cases h
      | param hl hp hx' => exact .param hl (List.mem_cons_of_mem _ hp) hx'
      | mainArg _ _ hs => cases hs
      | field hl hp hs hf hx' => exact .field hl (hp' hp) hs hf hx'
      | nothing hl hp hs hf => exact .nothing hl (hp' hp) hs hf
  · rw [isDefinedInCurrentScope_insert]
    by_cases hx : x = p.name
    · rw [if_pos hx]
      exact ⟨fun _ => ⟨p, List.mem_cons_self, hx.symm⟩, fun _ => rfl⟩
    · rw [if_neg hx, h.defined]
      constructor
      · rintro ⟨q, hq, hqx⟩; exact ⟨q, List.mem_cons_of_mem _ hq, hqx⟩
      · rintro ⟨q, hq, hqx⟩
        rcases List.mem_cons.mp hq with rfl | hq
        · exact absurd hqx.symm hx
        · exact ⟨q, hq, hqx⟩

theorem ParamRel.inner {fields : List Ast.Field} {done : List Parameter} {tbl : Table} (h : ParamRel fields done tbl) :
    Inner tbl := by
  intro x hx
  obtain ⟨p, hp, hpx⟩ := (h.defined x).mp hx
  exact (h.rel.sees x).taken_iff.mp (.inr (.inl ⟨p, hp, hpx⟩))

theorem visitParameter_eq_ok {cx : Context} {tbl tbl' : Table} {p : Parameter}
    (h : visitParameter cx tbl p = .ok tbl') :
    tbl.isDefinedInCurrentScope p.name = false ∧ tbl' = tbl.insert p.name (.parameter p.idx p.type) := by
  unfold visitParameter at h
  obtain ⟨⟨⟩, -, h⟩ := bind_eq_ok.mp h
  obtain ⟨⟨⟩, hdef, h⟩ := bind_eq_ok.mp h
  obtain ⟨⟨⟩, -, h⟩ := bind_eq_ok.mp h
  cases h
  exact ⟨Bool.not_eq_true' _ ▸ check_eq_ok.mp hdef, rfl⟩

/-- The parameters of an accepted method are visible in its body, and have different names. -/
theorem visitParameters_ok {cx : Context} {fields : List Ast.Field} {done params : List Parameter} {tbl tbl' : Table}
    (hr : ParamRel fields done tbl) (hd : (done.map Parameter.name).Nodup)
    (h : visitParameters cx tbl params = .ok tbl') :
    ParamRel fields (params.reverse ++ done) tbl' ∧ ((params.reverse ++ done).map Parameter.name).Nodup := by
  induction params generalizing done tbl with
  | nil => rw [visitParameters] at h; cases h; exact ⟨hr, hd⟩
  | cons p params ih =>
    rw [visitParameters] at h
    obtain ⟨tbl₁, h₁, h₂⟩ := bind_eq_ok.mp h
    obtain ⟨hdef, rfl⟩ := visitParameter_eq_ok h₁
    have hnew : (p.name :: done.map Parameter.name).Nodup := by
      refine List.nodup_cons.mpr ⟨fun hmem => ?_, hd⟩
      obtain ⟨q, hq, hqp⟩ := List.mem_map.mp hmem
      rw [(hr.defined p.name).mpr ⟨q, hq, hqp⟩] at hdef
      cases hdef
    rw [List.reverse_cons, List.append_assoc]
    exact ih (hr.insert p) hnew h₂

end Frames

/-! ## Errors -/

theorem bind_eq_error {ε α β : Type} {x : Except ε α} {f : α → Except ε β} {e : ε} :
    (x >>= f) = .error e ↔ x = .error e ∨ ∃ a, x = .ok a ∧ f a = .error e := by
  cases x with
  | error e' =>
    constructor
    · intro h; cases h; exact .inl rfl
    · rintro (h | ⟨a, h, -⟩)
      · cases h; rfl
      · cases h
  | ok a =>
    constructor
    · intro h; exact .inr ⟨a, rfl, h⟩
    · rintro (h | ⟨a', h, h'⟩)
      · cases h
      · cases h; exact h'

/-- The messages about the name of a variable. -/
def Message.clash : Message → Bool
  | .variableDefined _ | .parameterDefined _ => true
  | _ => false

/-- A visit that never complains about the name of a variable. -/
def Clean {α : Type} (x : Except Stop α) : Prop := ∀ m, x = .error (.semanticError m) → m.clash = false

section Clean

variable {α β : Type}

theorem clean_ok (a : α) : Clean (.ok a : Except Stop α) := by
  intro m h
  cases h

theorem clean_error {m : Message} (hm : m.clash = false) : Clean (error m : Except Stop α) := by
  intro m' h
  cases h
  exact hm

theorem clean_crash : Clean (.error .crash : Except Stop α) := by
  intro m h
  cases h

theorem clean_check {b : Bool} {m : Message} (hm : m.clash = false) : Clean (check b m) := by
  unfold check
  cases b
  · exact clean_error hm
  · exact clean_ok _

theorem Clean.bind {x : Except Stop α} {f : α → Except Stop β} (hx : Clean x) (hf : ∀ a, Clean (f a)) :
    Clean (x >>= f) := by
  intro m h
  rcases bind_eq_error.mp h with h | ⟨a, -, h⟩
  · exact hx m h
  · exact hf a m h

variable {cx : Context} {tbl : Table}

theorem visitBasicType_clean (type : BasicType) : Clean (visitBasicType cx type) := by
  cases type with
  | primitive => exact clean_ok _
  | classType => exact clean_check rfl

theorem visitType_clean (type : Ty) : Clean (visitType cx type) := by
  cases type with
  | basic type => exact visitBasicType_clean type
  | array elementType => exact visitBasicType_clean elementType

theorem visitVarRef_clean (name : String) : Clean (visitVarRef cx tbl name) := by
  unfold visitVarRef
  split
  · split
    · exact clean_ok _
    · exact clean_error rfl
  · exact clean_error rfl
  · split
    · exact clean_error rfl
    · exact clean_ok _
  · exact clean_ok _
  · exact clean_ok _

theorem visitThisLiteral_clean : Clean (visitThisLiteral cx) := by
  unfold visitThisLiteral
  split
  · exact clean_ok _
  · exact clean_error rfl

theorem visitMember_clean (left : TExpr) (name : String) : Clean (visitMember cx left name) := by
  unfold visitMember
  refine (clean_check rfl).bind fun _ => ?_
  split
  · exact clean_crash
  · split
    · exact clean_error rfl
    · exact clean_ok _

theorem visitFieldAccess_clean (left : TExpr) (name : String) : Clean (visitFieldAccess cx left name) := by
  unfold visitFieldAccess
  split
  · split
    · exact clean_ok _
    · split
      · exact clean_ok _
      · exact clean_error rfl
  · exact clean_error rfl
  · exact clean_error rfl
  · exact visitMember_clean _ _

theorem checkArguments_clean (params : List Parameter) (args : List TExpr) : Clean (checkArguments params args) := by
  induction params generalizing args with
  | nil => exact clean_ok _
  | cons p params ih =>
    cases args with
    | nil => exact clean_ok _
    | cons a args =>
      rw [checkArguments]
      exact (clean_check rfl).bind fun _ => ih args

theorem visitCall_clean (left : TExpr) (name : String) (args : List TExpr) : Clean (visitCall cx left name args) := by
  unfold visitCall
  refine (clean_check rfl).bind fun _ => ?_
  split
  · exact clean_crash
  · split
    · exact clean_error rfl
    · exact (clean_check rfl).bind fun _ => (checkArguments_clean _ _).bind fun _ => clean_ok _

theorem visitReceiver_clean (d : Definition) (name : String) : Clean (visitReceiver cx d name) := by
  unfold visitReceiver
  split
  · exact clean_crash
  · split
    · split
      · exact clean_crash
      · exact clean_check rfl
    · exact clean_error rfl

theorem visitSysoutArgument_clean (left : TExpr) (name : String) (args : List TExpr) :
    Clean (visitSysoutArgument left name args) := by
  unfold visitSysoutArgument
  split
  · split
    · exact clean_ok _
    · exact clean_error rfl
  · exact clean_error rfl

theorem visitMethodInvocation_clean (left : TExpr) (name : String) (args : List TExpr) :
    Clean (visitMethodInvocation cx left name args) := by
  unfold visitMethodInvocation
  split
  · exact clean_error rfl
  · exact (visitReceiver_clean _ _).bind fun _ => visitCall_clean _ _ _
  · split
    · exact visitSysoutArgument_clean _ _ _
    · split
      · exact (clean_check rfl).bind fun _ => clean_ok _
      · exact clean_error rfl
  · split
    · exact (clean_check rfl).bind fun _ => clean_ok _
    · exact clean_error rfl
  · exact visitCall_clean _ _ _

theorem visitBinary_clean (op : BinaryOp) (l r : TExpr) : Clean (visitBinary op l r) := by
  unfold visitBinary
  cases op
  case assign => exact (clean_check rfl).bind fun _ => (clean_check rfl).bind fun _ => clean_ok _
  all_goals exact (clean_check rfl).bind fun _ => clean_ok _

theorem visitUnary_clean (op : UnaryOp) (e : TExpr) : Clean (visitUnary op e) := by
  unfold visitUnary
  cases op
  all_goals exact (clean_check rfl).bind fun _ => clean_ok _

theorem visitExprs_clean_of {l : List Expr} (ih : ∀ e ∈ l, Clean (visitExpr cx tbl e)) :
    Clean (visitExprs cx tbl l) := by
  induction l with
  | nil => rw [visitExprs]; exact clean_ok _
  | cons e l ihl =>
    rw [visitExprs]
    exact (ih e List.mem_cons_self).bind fun _ =>
      (ihl fun e he => ih e (List.mem_cons_of_mem _ he)).bind fun _ => clean_ok _

theorem visitExpr_clean (e : Expr) : Clean (visitExpr cx tbl e) := by
  induction e using Expr.induct with
  | intLiteral | boolLiteral | nullLiteral => rw [visitExpr]; exact clean_ok _
  | thisLiteral => rw [visitExpr]; exact visitThisLiteral_clean
  | varRef name => rw [visitExpr]; exact visitVarRef_clean name
  | methodInvocation left name args ihl iha =>
    rw [visitExpr]
    exact ihl.bind fun _ => (visitExprs_clean_of iha).bind fun _ => visitMethodInvocation_clean _ _ _
  | fieldAccess left name ih => rw [visitExpr]; exact ih.bind fun _ => visitFieldAccess_clean _ _
  | arrayAccess array index iha ihi =>
    rw [visitExpr]
    refine iha.bind fun _ => ihi.bind fun _ => ?_
    exact (clean_check rfl).bind fun _ => (clean_check rfl).bind fun _ => clean_ok _
  | newObject name => rw [visitExpr]; exact (clean_check rfl).bind fun _ => clean_ok _
  | newArray elementType dimension size ih =>
    rw [visitExpr]
    refine (visitBasicType_clean _).bind fun _ => ih.bind fun _ => ?_
    exact (clean_check rfl).bind fun _ => (clean_check rfl).bind fun _ => clean_ok _
  | binary op left right ihl ihr => rw [visitExpr]; exact ihl.bind fun _ => ihr.bind fun _ => visitBinary_clean _ _ _
  | unary op e ih => rw [visitExpr]; exact ih.bind fun _ => visitUnary_clean _ _

theorem visitOptExpr_clean (o : Option Expr) : Clean (visitOptExpr cx tbl o) := by
  cases o with
  | none => exact clean_ok _
  | some e => exact (visitExpr_clean e).bind fun _ => clean_ok _

theorem checkDeclaration_clean (type : SemType) (o : Option TExpr) : Clean (checkDeclaration type o) := by
  unfold checkDeclaration
  cases o with
  | none =>
    show Clean (check _ (.voidVariable type))
    exact clean_check rfl
  | some e => exact (clean_check rfl).bind fun _ => clean_check rfl

theorem checkReturn_clean (rt : SemType) (o : Option TExpr) : Clean (checkReturn rt o) := by
  cases o with
  | none => exact clean_check rfl
  | some e => exact (clean_check rfl).bind fun _ => clean_check rfl

theorem leave_clean (tbl : Table) : Clean (leave tbl) := by
  unfold leave
  split
  · exact clean_crash
  · exact clean_ok _

theorem checkForDuplicates_clean (name : α → String) (what : String) (l : List α) :
    Clean (checkForDuplicates name what l) := by
  unfold checkForDuplicates
  split
  · exact clean_error rfl
  · exact clean_ok _

end Clean

/-- Some variable is declared where its name is taken, and the message is about it. -/
def Clashes (fr : Frame) (l : List Occurrence) (m : Message) : Prop :=
  ∃ o ∈ l, ∃ x idx, o.mention = .decl x idx ∧ Taken fr o.locals x ∧ m = .variableDefined x

theorem Clashes.mono {fr : Frame} {l l' : List Occurrence} {m : Message} (h : Clashes fr l m) (hl : l ⊆ l') :
    Clashes fr l' m := by
  obtain ⟨o, ho, h⟩ := h
  exact ⟨o, hl ho, h⟩

section Clashing

variable {cx : Context} {fr : Frame} {m : Message}

/-- A clean visit does not fail with this message. -/
theorem Clean.absurd {α : Type} {x : Except Stop α} {p : Prop} (hx : Clean x) (h : x = .error (.semanticError m))
    (hm : m.clash = true) : p := by
  rw [hx m h] at hm
  cases hm

theorem declare_clash {ls : Locals} {n : Nat} {tbl : Table} {type : Ty} {name : String} (hr : Rel fr ls tbl)
    (hi : Inner tbl) (h : declare ⟨tbl, n⟩ type name = .error (.semanticError m)) :
    Taken fr ls name ∧ m = .variableDefined name := by
  unfold declare at h
  have htaken := (hr.sees name).taken_iff
  rcases bind_eq_error.mp h with h | ⟨_, -, h⟩
  · unfold check at h
    split at h
    · cases h
    next hdef =>
      cases h
      rw [Bool.not_eq_true', Bool.not_eq_false] at hdef
      exact ⟨htaken.mpr (hi name hdef), rfl⟩
  · rcases bind_eq_error.mp h with h | ⟨_, -, h⟩
    · unfold check at h
      split at h
      · cases h
      next hhide =>
        cases h
        exact ⟨htaken.mpr (Bool.not_eq_true _ ▸ hhide), rfl⟩
    · cases h

theorem visitStmts_clash_of (hfit : fr.Fits cx) {l : List Stmt}
    (ih : ∀ s ∈ l, ∀ ls n tbl, Rel fr ls tbl → Inner tbl → visitStmt cx ⟨tbl, n⟩ s = .error (.semanticError m) →
      Clashes fr (occurrences ls n s) m) {ls : Locals} {n : Nat} {tbl : Table} (hr : Rel fr ls tbl) (hi : Inner tbl)
    (h : visitStmts cx ⟨tbl, n⟩ l = .error (.semanticError m)) : Clashes fr (occurrencesAll ls n l) m := by
  induction l generalizing ls n tbl with
  | nil => rw [visitStmts] at h; cases h
  | cons s l ihl =>
    rw [visitStmts] at h
    rcases bind_eq_error.mp h with h | ⟨⟨t, tbl₁, n₁⟩, h₁, h⟩
    · exact (ih s List.mem_cons_self _ _ _ hr hi h).mono (List.subset_append_left _ _)
    · obtain ⟨hr₁, hi₁, hn₁, -⟩ := visitStmt_ok hfit hr h₁
      simp only at hr₁ hi₁ hn₁
      subst hn₁
      rcases bind_eq_error.mp h with h | ⟨_, -, h⟩
      · exact (ihl (fun s hs => ih s (List.mem_cons_of_mem _ hs)) hr₁ (hi₁ hi) h).mono (List.subset_append_right _ _)
      · cases h

theorem visitOptStmt_clash_of {o : Option Stmt}
    (ih : ∀ s ∈ o, ∀ ls n tbl, Rel fr ls tbl → Inner tbl → visitStmt cx ⟨tbl, n⟩ s = .error (.semanticError m) →
      Clashes fr (occurrences ls n s) m) {ls : Locals} {n : Nat} {tbl : Table} (hr : Rel fr ls tbl) (hi : Inner tbl)
    (h : visitOptStmt cx ⟨tbl, n⟩ o = .error (.semanticError m)) : Clashes fr (occurrencesOpt ls n o) m := by
  cases o with
  | none => rw [visitOptStmt] at h; cases h
  | some s =>
    rw [visitOptStmt] at h
    rcases bind_eq_error.mp h with h | ⟨_, -, h⟩
    · exact ih s rfl _ _ _ hr hi h
    · cases h

theorem visitBlock_clash_of (hfit : fr.Fits cx) (hm : m.clash = true) {l : List Stmt} {lonely : Bool}
    (ih : ∀ s ∈ l, ∀ ls n tbl, Rel fr ls tbl → Inner tbl → visitStmt cx ⟨tbl, n⟩ s = .error (.semanticError m) →
      Clashes fr (occurrences ls n s) m) {ls : Locals} {n : Nat} {tbl : Table} (hr : Rel fr ls tbl)
    (h : visitStmt cx ⟨tbl, n⟩ (.block l lonely) = .error (.semanticError m)) :
    Clashes fr (occurrences ls n (.block l lonely)) m := by
  rw [visitStmt] at h
  rcases bind_eq_error.mp h with h | ⟨⟨ts, tbl₁, n₁⟩, -, h⟩
  · exact visitStmts_clash_of hfit ih hr.enterScope hr.inner h
  · rcases bind_eq_error.mp h with h | ⟨_, -, h⟩
    · exact (leave_clean _).absurd h hm
    · cases h

/-- The visitor complains about the name of a local variable only where that name is taken. -/
theorem visitStmt_clash (hfit : fr.Fits cx) (hm : m.clash = true) {s : Stmt} {ls : Locals} {n : Nat} {tbl : Table}
    (hr : Rel fr ls tbl) (hi : Inner tbl) (h : visitStmt cx ⟨tbl, n⟩ s = .error (.semanticError m)) :
    Clashes fr (occurrences ls n s) m := by
  induction s using Stmt.induct generalizing ls n tbl with
  | block l lonely ih => exact visitBlock_clash_of hfit hm (fun s hs _ _ _ => ih s hs) hr h
  | varDecl type name o =>
    rw [visitStmt] at h
    rcases bind_eq_error.mp h with h | ⟨st₁, -, h⟩
    · obtain ⟨htaken, rfl⟩ := declare_clash hr hi h
      exact ⟨_, List.mem_cons_self, name, n, rfl, htaken, rfl⟩
    · rcases bind_eq_error.mp h with h | ⟨_, -, h⟩
      · exact (visitType_clean _).absurd h hm
      · rcases bind_eq_error.mp h with h | ⟨o', -, h⟩
        · exact (visitOptExpr_clean _).absurd h hm
        · rcases bind_eq_error.mp h with h | ⟨_, -, h⟩
          · exact (checkDeclaration_clean _ _).absurd h hm
          · cases h
  | exprStmt e =>
    rw [visitStmt] at h
    rcases bind_eq_error.mp h with h | ⟨_, -, h⟩
    · exact (visitExpr_clean _).absurd h hm
    · cases h
  | ifStmt c s₁ s₂ ih₁ ih₂ =>
    rw [visitStmt] at h
    rcases bind_eq_error.mp h with h | ⟨c', -, h⟩
    · exact (visitExpr_clean _).absurd h hm
    · rcases bind_eq_error.mp h with h | ⟨⟨t₁, tbl₁, n₁⟩, h₁, h⟩
      · refine (visitOptStmt_clash_of (fun s hs _ _ _ => ih₁ s hs) hr hi h).mono ?_
        exact fun o ho => List.mem_append_right _ (List.mem_append_left _ ho)
      · obtain ⟨hr₁, hi₁, hn₁, -⟩ := visitOptStmt_ok_of (fun _ _ _ _ _ _ _ => visitStmt_ok hfit) hr h₁
        simp only at hr₁ hi₁ hn₁
        subst hn₁
        rcases bind_eq_error.mp h with h | ⟨⟨t₂, st₂⟩, -, h⟩
        · refine (visitOptStmt_clash_of (fun s hs _ _ _ => ih₂ s hs) hr₁ (hi₁ hi) h).mono ?_
          exact fun o ho => List.mem_append_right _ (List.mem_append_right _ ho)
        · rcases bind_eq_error.mp h with h | ⟨_, -, h⟩
          · exact (clean_check rfl).absurd h hm
          · cases h
  | whileStmt c s ih =>
    rw [visitStmt] at h
    rcases bind_eq_error.mp h with h | ⟨c', -, h⟩
    · exact (visitExpr_clean _).absurd h hm
    · rcases bind_eq_error.mp h with h | ⟨⟨t₁, st₁⟩, -, h⟩
      · exact (visitOptStmt_clash_of (fun s hs _ _ _ => ih s hs) hr hi h).mono (List.subset_append_right _ _)
      · rcases bind_eq_error.mp h with h | ⟨_, -, h⟩
        · exact (clean_check rfl).absurd h hm
        · cases h
  | returnStmt o =>
    rw [visitStmt] at h
    rcases bind_eq_error.mp h with h | ⟨o', -, h⟩
    · exact (visitOptExpr_clean _).absurd h hm
    · rcases bind_eq_error.mp h with h | ⟨_, -, h⟩
      · exact (checkReturn_clean _ _).absurd h hm
      · cases h

theorem visitBlock_clash (hfit : fr.Fits cx) (hm : m.clash = true) {b : Block} {tbl : Table} (hr : Rel fr [] tbl)
    (h : visitBlock cx ⟨tbl, 0⟩ b = .error (.semanticError m)) : Clashes fr (occurrences [] 0 (Block.stmt b)) m :=
  visitBlock_clash_of hfit hm (fun _ _ _ _ _ => visitStmt_clash hfit hm) hr h

end Clashing

/-! ## Methods, classes and programs -/

/-- What is visible in a method. -/
def regularFrame (fields : List Ast.Field) (m : RegularMethod) : Frame := ⟨fields, none, m.parameters⟩

/-- What is visible in a static method. -/
def mainFrame (fields : List Ast.Field) (mm : MainMethod) : Frame := ⟨fields, some mm.argName, []⟩

theorem regularFrame_fits (fields : List Ast.Field) (m : RegularMethod) (cx : Context) :
    (regularFrame fields m).Fits (cx.inMethod (.regular m.returnType)) := by
  constructor
  · intro h; cases h
  · intro h; exact absurd rfl h

theorem mainFrame_fits (fields : List Ast.Field) (mm : MainMethod) (cx : Context) :
    (mainFrame fields mm).Fits (cx.inMethod .main) := by
  constructor
  · intro _ h; cases h
  · intro _; rfl

/-- The names of a body that are used or declared against the rules: a use without a binding, or a declaration of a
name that is taken. -/
def Occurrence.Bad (fr : Frame) (o : Occurrence) : Prop :=
  match o.mention with
  | .use x => ∀ d, ¬ Resolves fr o.locals x d
  | .decl x _ => Taken fr o.locals x

/-- A body that is annotated as lexical scoping asks has no name against the rules. -/
theorem ScopedBody.not_bad {fr : Frame} {s : Stmt} {t : TStmt} (h : ScopedBody fr s t) {o : Occurrence}
    (ho : o ∈ occurrences [] 0 s) : ¬ o.Bad fr := by
  obtain ⟨b, -, hok⟩ := exists_right_of_mem h ho
  obtain ⟨ls, mention⟩ := o
  intro hbad
  cases mention with
  | use x =>
    cases b with
    | use y d => exact hbad d hok.2
    | decl => cases hok
  | decl x n =>
    cases b with
    | use => cases hok
    | decl y idx => exact hok.2.2 hbad

/-- The visitor has a reason for a complaint about a name: a local variable is declared where its name is taken, or two
parameters have one name. -/
def NameClash (fr : Frame) (b : Block) (m : Message) : Prop :=
  Clashes fr (occurrences [] 0 (Block.stmt b)) m ∨
    ∃ x, m = .parameterDefined x ∧ 2 ≤ (fr.params.map Parameter.name).count x

section Methods

variable {cx : Context} {fields : List Ast.Field} {tbl : Table} {msg : Message}

/-- The table after the parameters is the one of the frame. -/
theorem ParamRel.rel_regularFrame {m : RegularMethod} (h : ParamRel fields m.parameters.reverse tbl) :
    Rel (regularFrame fields m) [] tbl := by
  refine Rel.congr ?_ ?_ ?_ h.rel
  · exact fun _ => Iff.rfl
  · rfl
  · exact fun _ => List.mem_reverse

theorem RegularVisited.scoped {m : RegularMethod} {tm : TRegularMethod} (h : RegularVisited cx tbl m tm)
    (hr : Rel ⟨fields, none, []⟩ [] tbl) :
    (m.parameters.map Parameter.name).Nodup ∧ tm.name = m.name ∧
      ScopedBody (regularFrame fields m) (Block.stmt m.block) tm.body := by
  obtain ⟨ptbl, n, h⟩ := h
  obtain ⟨hparams, hnodup⟩ := visitParameters_ok (.enterScope hr) List.nodup_nil h.parameters
  rw [List.append_nil] at hparams hnodup
  have hrel : Rel (regularFrame fields m) [] ptbl := hparams.rel_regularFrame
  have hfit := regularFrame_fits fields m cx
  rw [List.map_reverse, List.nodup_reverse] at hnodup
  exact ⟨hnodup, by rw [h.result], (visitStmt_ok hfit hrel h.body).names⟩

theorem MainVisited.scoped {mm : MainMethod} {tm : TMainMethod} (h : MainVisited cx tbl mm tm)
    (hr : Rel ⟨fields, none, []⟩ [] tbl) :
    tm.name = mm.name ∧ ScopedBody (mainFrame fields mm) (Block.stmt mm.block) tm.body := by
  obtain ⟨n, h, hresult⟩ := h
  exact ⟨by rw [hresult], (visitStmt_ok (mainFrame_fits fields mm cx) (hr.insertMainArg mm.argName) h).names⟩

theorem visitParameters_clash {done params : List Parameter} (hr : ParamRel fields done tbl) (hm : msg.clash = true)
    (h : visitParameters cx tbl params = .error (.semanticError msg)) :
    ∃ x, msg = .parameterDefined x ∧ 2 ≤ ((params ++ done).map Parameter.name).count x := by
  induction params generalizing done tbl with
  | nil => rw [visitParameters] at h; cases h
  | cons p params ih =>
    rw [visitParameters] at h
    rcases bind_eq_error.mp h with h | ⟨tbl₁, h₁, h⟩
    · unfold visitParameter at h
      rcases bind_eq_error.mp h with h | ⟨_, -, h⟩
      · exact (visitType_clean _).absurd h hm
      · rcases bind_eq_error.mp h with h | ⟨_, -, h⟩
        · unfold check at h
          split at h
          · cases h
          next hdef =>
            cases h
            rw [Bool.not_eq_true', Bool.not_eq_false] at hdef
            obtain ⟨q, hq, hqp⟩ := (hr.defined p.name).mp hdef
            refine ⟨p.name, rfl, ?_⟩
            have hpos : 0 < ((params ++ done).map Parameter.name).count p.name :=
              List.count_pos_iff.mpr (hqp ▸ List.mem_map_of_mem (List.mem_append_right _ hq))
            rw [List.cons_append, List.map_cons, List.count_cons_self]
            omega
        · rcases bind_eq_error.mp h with h | ⟨_, -, h⟩
          · exact (clean_check rfl).absurd h hm
          · cases h
    · obtain ⟨-, rfl⟩ := visitParameter_eq_ok h₁
      obtain ⟨x, hx, hcount⟩ := ih (hr.insert p) h
      refine ⟨x, hx, ?_⟩
      have hperm : ((params ++ p :: done).map Parameter.name).Perm ((p :: params ++ done).map Parameter.name) :=
        List.Perm.map _ List.perm_middle
      rwa [hperm.count_eq] at hcount

theorem visitRegularMethod_clash {m : RegularMethod} (hr : Rel ⟨fields, none, []⟩ [] tbl) (hm : msg.clash = true)
    (h : visitRegularMethod cx tbl m = .error (.semanticError msg)) :
    NameClash (regularFrame fields m) m.block msg := by
  unfold visitRegularMethod at h
  rcases bind_eq_error.mp h with h | ⟨_, -, h⟩
  · exact (visitType_clean _).absurd h hm
  rcases bind_eq_error.mp h with h | ⟨ptbl, hparams, h⟩
  · obtain ⟨x, hx, hcount⟩ := visitParameters_clash (.enterScope hr) hm h
    rw [List.append_nil] at hcount
    exact .inr ⟨x, hx, hcount⟩
  obtain ⟨hprel, -⟩ := visitParameters_ok (.enterScope hr) List.nodup_nil hparams
  rw [List.append_nil] at hprel
  rcases bind_eq_error.mp h with h | ⟨⟨body, st⟩, -, h⟩
  · have hrel : Rel (regularFrame fields m) [] ptbl := hprel.rel_regularFrame
    have hfit := regularFrame_fits fields m cx
    exact .inl (visitBlock_clash hfit hm hrel h)
  rcases bind_eq_error.mp h with h | ⟨_, -, h⟩
  · exact (leave_clean _).absurd h hm
  rcases bind_eq_error.mp h with h | ⟨_, -, h⟩
  · exact (clean_check rfl).absurd h hm
  rcases bind_eq_error.mp h with h | ⟨_, -, h⟩
  · exact (clean_check rfl).absurd h hm
  · cases h

theorem visitMethods_clash {l : List RegularMethod} (hr : Rel ⟨fields, none, []⟩ [] tbl) (hm : msg.clash = true)
    (h : visitMethods cx tbl l = .error (.semanticError msg)) :
    ∃ m ∈ l, NameClash (regularFrame fields m) m.block msg := by
  induction l with
  | nil => rw [visitMethods] at h; cases h
  | cons m l ih =>
    rw [visitMethods] at h
    rcases bind_eq_error.mp h with h₁ | ⟨⟨tm, tbl₁⟩, h₁, h₂⟩
    · exact ⟨m, List.mem_cons_self, visitRegularMethod_clash hr hm h₁⟩
    · obtain ⟨-, rfl⟩ := visitRegularMethod_visited h₁
      rcases bind_eq_error.mp h₂ with h | ⟨_, -, h⟩
      · obtain ⟨m', hm', hclash⟩ := ih h
        exact ⟨m', List.mem_cons_of_mem _ hm', hclash⟩
      · cases h

theorem visitMainMethodList_clash {n : Nat} {l : List MainMethod} (hr : Rel ⟨fields, none, []⟩ [] tbl)
    (hm : msg.clash = true) (h : visitMainMethodList cx tbl n l = .error (.semanticError msg)) :
    ∃ mm ∈ l, NameClash (mainFrame fields mm) mm.block msg := by
  unfold visitMainMethodList at h
  rcases bind_eq_error.mp h with h | ⟨_, hlen, h⟩
  · exact (clean_check rfl).absurd h hm
  have hlen := of_decide_eq_true (check_eq_ok.mp hlen)
  cases l with
  | nil => cases h
  | cons mm rest =>
    obtain rfl : rest = [] := List.eq_nil_of_length_eq_zero (by rw [List.length_cons] at hlen; omega)
    have hs : sortByName MainMethod.name [mm] = [mm] := rfl
    rw [hs, visitMainMethods] at h
    rcases bind_eq_error.mp h with h | ⟨_, -, h⟩
    · unfold visitMainMethod at h
      rcases bind_eq_error.mp h with h | ⟨_, -, h⟩
      · exact ⟨mm, List.mem_singleton_self mm,
          .inl (visitBlock_clash (mainFrame_fits fields mm cx) hm (hr.insertMainArg mm.argName) h)⟩
      · cases h
    · cases h

end Methods

/-- The members of a class whose names are against the rules. -/
def ClassClash (c : Ast.Class) (msg : Message) : Prop :=
  (∃ m ∈ c.methods, NameClash (regularFrame c.fields m) m.block msg) ∨
    ∃ mm ∈ c.mainMethods, NameClash (mainFrame c.fields mm) mm.block msg

/-- The frame of the fields can be taken from the class as it was parsed. -/
theorem fieldTable_rel_sorted (fields : List Ast.Field) :
    Rel ⟨fields, none, []⟩ [] (fieldTable .empty (sortByName Ast.Field.name fields)) := by
  refine Rel.congr ?_ ?_ ?_ (fieldTable_rel (sortByName Ast.Field.name fields))
  · exact fun _ => (sortByName_perm _ _).mem_iff
  · rfl
  · exact fun _ => Iff.rfl

theorem visitField_clean {cx : Context} (f : Ast.Field) : Clean (visitField cx f) := by
  unfold visitField
  exact (visitType_clean _).bind fun _ => clean_check rfl

theorem visitFields_clean {cx : Context} (l : List Ast.Field) : Clean (visitFields cx l) := by
  induction l with
  | nil => exact clean_ok _
  | cons f l ih => rw [visitFields]; exact (visitField_clean f).bind fun _ => ih

theorem checkOverload_clean (c : Ast.Class) : Clean (checkOverload c) := by
  unfold checkOverload
  split
  · exact clean_ok _
  · exact clean_check rfl

theorem visitClass_clash {classes : List Ast.Class} {n : Nat} {c : Ast.Class} {msg : Message} (hm : msg.clash = true)
    (h : visitClass classes .empty n c = .error (.semanticError msg)) : ClassClash c msg := by
  unfold visitClass at h
  rcases bind_eq_error.mp h with h | ⟨⟨fields, tbl₁⟩, hfields, h⟩
  · refine Clean.absurd ?_ h hm
    exact (checkForDuplicates_clean _ _ _).bind fun _ => (visitFields_clean _).bind fun _ => clean_ok _
  unfold visitFieldList at hfields
  simp only [bind_eq_ok, pure_eq_ok, Prod.mk.injEq, checkForDuplicates_eq_ok] at hfields
  obtain ⟨_, ⟨-, rfl⟩, -, -, rfl, rfl⟩ := hfields
  have hr := fieldTable_rel_sorted c.fields
  rcases bind_eq_error.mp h with h | ⟨⟨methods, tbl₂⟩, hmethods, h⟩
  · rcases bind_eq_error.mp h with h | ⟨sorted, hsorted, h⟩
    · exact (checkForDuplicates_clean _ _ _).absurd h hm
    · obtain ⟨-, rfl⟩ := checkForDuplicates_eq_ok.mp hsorted
      obtain ⟨m, hmem, hclash⟩ := visitMethods_clash hr hm h
      exact .inl ⟨m, (sortByName_perm _ _).mem_iff.mp hmem, hclash⟩
  obtain ⟨sorted, -, hmethods⟩ := bind_eq_ok.mp hmethods
  obtain ⟨-, rfl⟩ := visitMethods_visited hmethods
  rcases bind_eq_error.mp h with h | ⟨⟨mains, tbl₃, n'⟩, -, h⟩
  · exact .inr (visitMainMethodList_clash hr hm h)
  rcases bind_eq_error.mp h with h | ⟨_, -, h⟩
  · exact (leave_clean _).absurd h hm
  rcases bind_eq_error.mp h with h | ⟨_, -, h⟩
  · exact (checkOverload_clean _).absurd h hm
  · cases h

theorem visitClasses_clash {classes l : List Ast.Class} {n : Nat} {msg : Message} (hm : msg.clash = true)
    (h : visitClasses classes .empty n l = .error (.semanticError msg)) : ∃ c ∈ l, ClassClash c msg := by
  induction l generalizing n with
  | nil => rw [visitClasses] at h; cases h
  | cons c l ih =>
    rw [visitClasses] at h
    rcases bind_eq_error.mp h with h₁ | ⟨⟨tc, tbl₁, n₁⟩, h₁, h₂⟩
    · exact ⟨c, List.mem_cons_self, visitClass_clash hm h₁⟩
    · obtain ⟨-, rfl, -⟩ := visitClass_visited h₁
      rcases bind_eq_error.mp h₂ with h | ⟨_, -, h⟩
      · obtain ⟨c', hc', hclash⟩ := ih h
        exact ⟨c', List.mem_cons_of_mem _ hc', hclash⟩
      · cases h

theorem ClassClash.of_sortMembers {c : Ast.Class} {msg : Message} (h : ClassClash (sortMembers c) msg) :
    ClassClash c msg := by
  rcases h with ⟨m, hmem, hclash⟩ | ⟨mm, hmem, hclash⟩
  · exact .inl ⟨m, (sortByName_perm _ _).mem_iff.mp hmem, hclash⟩
  · exact .inr ⟨mm, hmem, hclash⟩

theorem visitProgram_clash {p : Program} {msg : Message} (hm : msg.clash = true)
    (h : visitProgram p = .error (.semanticError msg)) : ∃ c ∈ p.classes, ClassClash c msg := by
  unfold visitProgram at h
  rcases bind_eq_error.mp h with h | ⟨classes, hclasses, h⟩
  · exact (checkForDuplicates_clean _ _ _).absurd h hm
  obtain ⟨-, rfl⟩ := checkForDuplicates_eq_ok.mp hclasses
  rcases bind_eq_error.mp h with h | ⟨⟨visited, tbl, n⟩, -, h⟩
  · obtain ⟨c, hc, hclash⟩ := visitClasses_clash hm h
    obtain ⟨c₀, hc₀, rfl⟩ := List.mem_map.mp hc
    exact ⟨c₀, (sortByName_perm _ _).mem_iff.mp hc₀, hclash.of_sortMembers⟩
  rcases bind_eq_error.mp h with h | ⟨_, -, h⟩
  · exact (clean_check rfl).absurd h hm
  rcases bind_eq_error.mp h with h | ⟨_, -, h⟩
  · exact (clean_check rfl).absurd h hm
  · cases h

/-- The bindings of a class are those of lexical scoping, and its parameters have different names. -/
structure ScopedClass (c : Ast.Class) (tc : TClass) : Prop where
  name : tc.name = c.name
  methods : ∀ m ∈ c.methods, (m.parameters.map Parameter.name).Nodup ∧
    ∃ tm ∈ tc.methods, tm.name = m.name ∧ ScopedBody (regularFrame c.fields m) (Block.stmt m.block) tm.body
  mainMethods : ∀ mm ∈ c.mainMethods,
    ∃ tm ∈ tc.mainMethods, tm.name = mm.name ∧ ScopedBody (mainFrame c.fields mm) (Block.stmt mm.block) tm.body

theorem ProgramVisited.scoped {p : Program} {t : TProgram} (h : ProgramVisited p t) {c : Ast.Class}
    (hc : c ∈ p.classes) : ∃ tc ∈ t.classes, ScopedClass c tc := by
  obtain ⟨tc, htc, hv⟩ := exists_right_of_mem h.classes
    (List.mem_map_of_mem ((sortByName_perm _ _).mem_iff.mpr hc))
  have hr : Rel ⟨c.fields, none, []⟩ [] (fieldTable .empty tc.fields) := by
    refine Rel.congr ?_ ?_ ?_ (fieldTable_rel tc.fields)
    · intro f
      rw [hv.fields]
      exact (sortByName_perm _ _).mem_iff.trans (sortByName_perm _ _).mem_iff
    · rfl
    · exact fun _ => Iff.rfl
  refine ⟨tc, htc, hv.name, ?_, ?_⟩
  · intro m hm
    obtain ⟨tm, htm, hmv⟩ := exists_right_of_mem hv.methods
      ((sortByName_perm _ _).mem_iff.mpr ((sortByName_perm _ _).mem_iff.mpr hm))
    obtain ⟨hnodup, hname, hscoped⟩ := hmv.scoped hr
    exact ⟨hnodup, tm, htm, hname, hscoped⟩
  · intro mm hmm
    obtain ⟨tm, htm, hmv⟩ := exists_right_of_mem hv.mainMethods hmm
    exact ⟨tm, htm, hmv.scoped hr⟩

/-- A program with a name against the rules: a use that has no binding, which includes the parameter of a static method
and a field in one, a local variable whose name is taken, or two parameters of one name. -/
def BadNames (p : Program) : Prop :=
  ∃ c ∈ p.classes,
    (∃ m ∈ c.methods, ¬ (m.parameters.map Parameter.name).Nodup ∨
      ∃ o ∈ occurrences [] 0 (Block.stmt m.block), o.Bad (regularFrame c.fields m)) ∨
    ∃ mm ∈ c.mainMethods, ∃ o ∈ occurrences [] 0 (Block.stmt mm.block), o.Bad (mainFrame c.fields mm)

/-- Name resolution is lexical scoping. In an accepted program every reference is bound as `Resolves` says; a program
with a name against the rules is rejected; and the visitor complains about the name of a local variable or of a parameter
only where it is taken by another local variable or parameter. -/
theorem lexical_scoping (p : Program) :
    (∀ t, visitProgram p = .ok t → ∀ c ∈ p.classes, ∃ tc ∈ t.classes, ScopedClass c tc) ∧
      (BadNames p → ∀ t, visitProgram p ≠ .ok t) ∧
      ∀ msg, msg.clash = true → visitProgram p = .error (.semanticError msg) → ∃ c ∈ p.classes, ClassClash c msg := by
  refine ⟨fun t h c hc => (visitProgram_visited h).scoped hc, ?_, fun msg hm h => visitProgram_clash hm h⟩
  rintro ⟨c, hc, hbad⟩ t h
  obtain ⟨tc, -, -, hmethods, hmains⟩ := (visitProgram_visited h).scoped hc
  rcases hbad with ⟨m, hm, hdup | ⟨o, ho, hbad⟩⟩ | ⟨mm, hmm, o, ho, hbad⟩
  · exact hdup (hmethods m hm).1
  · obtain ⟨tm, -, -, hscoped⟩ := (hmethods m hm).2
    exact hscoped.not_bad ho hbad
  · obtain ⟨tm, -, -, hscoped⟩ := hmains mm hmm
    exact hscoped.not_bad ho hbad

/-- A field that is hidden by a local variable of two blocks, and a parameter that has its name in another method. -/
def hiddenField : Program :=
  ⟨[⟨"A", [⟨.basic (.primitive .int), "x"⟩],
      [⟨.basic (.primitive .void), "f", [],
          ⟨[.exprStmt (.varRef "x"), .block [.varDecl (.basic (.primitive .int)) "x" (some (.varRef "x"))] false,
            .block [.varDecl (.basic (.primitive .int)) "x" none, .exprStmt (.varRef "x")] false], false⟩⟩,
        ⟨.basic (.primitive .int), "g", [⟨.basic (.primitive .int), "x", 1⟩],
          ⟨[.returnStmt (some (.varRef "x"))], false⟩⟩],
      [⟨"main", "x", ⟨[.exprStmt (.methodInvocation (.fieldAccess (.varRef "System") "out") "flush" [])], false⟩⟩]⟩]⟩

/-- The bindings of a program, method by method. -/
def TProgram.bindings (t : TProgram) : List (List Binding) :=
  t.classes.flatMap fun c => c.methods.map (fun m => m.body.bindings) ++ c.mainMethods.map fun m => m.body.bindings

theorem lexical_scoping_hiddenField :
    (visitProgram hiddenField).toOption.map TProgram.bindings = some
        [[.use "x" (.definition (.field (.basic (.primitive .int)))),
          .decl "x" 0, .use "x" (.definition (.variable 0 (.basic (.primitive .int)))),
          .decl "x" 1, .use "x" (.definition (.variable 1 (.basic (.primitive .int))))],
        [.use "x" (.definition (.parameter 1 (.basic (.primitive .int))))], [.use "System" .system]] ∧
      ∀ t, visitProgram hiddenField = .ok t → ∀ c ∈ hiddenField.classes, ∃ tc ∈ t.classes, ScopedClass c tc :=
  ⟨by decide +kernel, (lexical_scoping hiddenField).1⟩

end Mjc.Sema

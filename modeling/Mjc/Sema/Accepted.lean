import Mathlib.Algebra.GroupWithZero.Nat
import Mjc.Sema.Named

/-!
# Accepted programs

What `visitProgram` has found out about a program that it accepts, class by class and method by method. Every class is
visited with an empty symbol table, and every method with the table that binds the fields of its class.

* `RegularVisited`, `MainVisited` : the visit of a method;
* `ClassVisited` : the visit of a class;
* `ProgramVisited`, `visitProgram_visited` : the visit of a program.
-/

namespace Mjc.Sema
open Mjc.Ast SymbolTable

set_option autoImplicit false

/-! ## Methods -/

/-- The body of a method as a statement. -/
def Block.stmt (b : Block) : Stmt := .block b.statements b.lonely

/-- The context of a method. -/
def Context.inMethod (cx : Context) (method : Method) : Context := { cx with currentMethod := method }

/-- `visitRegularMethod` has turned `m` into `t`; `ptbl` is the table with the parameters, `n` the number of local
variables. -/
structure RegularVisit (cx : Context) (tbl : Table) (m : RegularMethod) (t : TRegularMethod) (ptbl : Table)
    (n : Nat) : Prop where
  returnType : visitType (cx.inMethod (.regular m.returnType)) m.returnType = .ok ()
  parameters : visitParameters (cx.inMethod (.regular m.returnType)) tbl.enterScope m.parameters = .ok ptbl
  body : visitBlock (cx.inMethod (.regular m.returnType)) ⟨ptbl, 0⟩ m.block = .ok (t.body, ⟨ptbl, n⟩)
  notVoidArray : (semaType m.returnType).isVoidArray = false
  returns : (semaType m.returnType).isVoid = true ∨ t.body.cfb = .return
  result : t = ⟨m.returnType, m.name, m.parameters, t.body, n,
    createMangledName cx.currentClass.name m.name m.parameters⟩

/-- `visitRegularMethod` turns `m` into `t`. -/
def RegularVisited (cx : Context) (tbl : Table) (m : RegularMethod) (t : TRegularMethod) : Prop :=
  ∃ ptbl n, RegularVisit cx tbl m t ptbl n

/-- `visitMainMethod` turns `mm` into `t`. -/
def MainVisited (cx : Context) (tbl : Table) (mm : MainMethod) (t : TMainMethod) : Prop :=
  ∃ n, visitBlock (cx.inMethod .main) ⟨tbl.insert mm.argName .mainArg, 0⟩ mm.block =
      .ok (t.body, ⟨tbl.insert mm.argName .mainArg, n⟩) ∧
    t = ⟨mm.name, mm.argName, t.body, n⟩

theorem visitBlock_symTbl {cx : Context} {st st' : St} {b : Block} {t : TStmt}
    (h : visitBlock cx st b = .ok (t, st')) : st'.symTbl = st.symTbl := by
  obtain ⟨ts, tbl, n, -, -, rfl⟩ := visitStmt_block_visits.mp h
  rfl

theorem visitParameters_extends {cx : Context} {tbl tbl' : Table} {params : List Parameter}
    (h : visitParameters cx tbl params = .ok tbl') : Extends tbl tbl' := by
  induction params generalizing tbl with
  | nil => rw [visitParameters] at h; cases h; exact .refl _
  | cons param params ih =>
    rw [visitParameters] at h
    obtain ⟨tbl₁, h₁, h₂⟩ := bind_eq_ok.mp h
    unfold visitParameter at h₁
    simp only [bind_eq_ok, pure_eq_ok] at h₁
    obtain ⟨-, -, -, -, -, -, rfl⟩ := h₁
    exact (Extends.insert _ _ _).trans (ih h₂)

theorem visitRegularMethod_visited {cx : Context} {tbl tbl' : Table} {m : RegularMethod} {t : TRegularMethod}
    (h : visitRegularMethod cx tbl m = .ok (t, tbl')) : RegularVisited cx tbl m t ∧ tbl' = tbl := by
  unfold visitRegularMethod at h
  simp only [bind_eq_ok, pure_eq_ok, check_eq_ok, Prod.exists, Prod.mk.injEq, Bool.or_eq_true, decide_eq_true_eq,
    Bool.not_eq_true'] at h
  obtain ⟨⟨⟩, hret, ptbl, hparams, body, ⟨tbl₁, n⟩, hbody, tbl₂, hleave, ⟨⟩, hvoid, ⟨⟩, hreturns, rfl, rfl⟩ := h
  have htbl : tbl₁ = ptbl := visitBlock_symTbl hbody
  subst htbl
  rw [leave_of_extends (visitParameters_extends hparams)] at hleave
  cases hleave
  exact ⟨⟨_, n, hret, hparams, hbody, hvoid, hreturns, rfl⟩, rfl⟩

theorem visitMethods_visited {cx : Context} {tbl tbl' : Table} {l : List RegularMethod} {ts : List TRegularMethod}
    (h : visitMethods cx tbl l = .ok (ts, tbl')) : List.Forall₂ (RegularVisited cx tbl) l ts ∧ tbl' = tbl := by
  induction l generalizing ts tbl' with
  | nil => rw [visitMethods] at h; cases h; exact ⟨.nil, rfl⟩
  | cons m l ih =>
    rw [visitMethods] at h
    simp only [bind_eq_ok, pure_eq_ok, Prod.exists, Prod.mk.injEq] at h
    obtain ⟨t, tbl₁, h₁, ts', tbl₂, h₂, rfl, rfl⟩ := h
    obtain ⟨hm, rfl⟩ := visitRegularMethod_visited h₁
    obtain ⟨hl, rfl⟩ := ih h₂
    exact ⟨.cons hm hl, rfl⟩

theorem visitMainMethod_visited {cx : Context} {tbl tbl' : Table} {n n' : Nat} {mm : MainMethod} {t : TMainMethod}
    (h : visitMainMethod cx tbl n mm = .ok (t, tbl', n')) :
    MainVisited cx tbl mm t ∧ Extends tbl tbl' ∧ n' = n + if mm.name = "main" then 1 else 0 := by
  unfold visitMainMethod at h
  simp only [bind_eq_ok, pure_eq_ok, Prod.exists, Prod.mk.injEq] at h
  obtain ⟨body, ⟨tbl₁, k⟩, hbody, rfl, rfl, rfl⟩ := h
  have htbl : tbl₁ = tbl.insert mm.argName .mainArg := visitBlock_symTbl hbody
  subst htbl
  refine ⟨⟨k, hbody, rfl⟩, .insert _ _ _, ?_⟩
  by_cases hname : mm.name = "main"
  · rw [if_pos hname, if_pos hname]
  · rw [if_neg hname, if_neg hname]
    rfl

/-- How many static methods of a list are called `main`. -/
def countMains (l : List MainMethod) : Nat := l.countP fun mm => mm.name = "main"

theorem visitMainMethodList_visited {cx : Context} {tbl tbl' : Table} {n n' : Nat} {l : List MainMethod}
    {ts : List TMainMethod} (h : visitMainMethodList cx tbl n l = .ok (ts, tbl', n')) :
    l.length ≤ 1 ∧ List.Forall₂ (MainVisited cx tbl) l ts ∧ Extends tbl tbl' ∧ n' = n + countMains l := by
  unfold visitMainMethodList at h
  simp only [bind_eq_ok, check_eq_ok, decide_eq_true_eq] at h
  obtain ⟨⟨⟩, hlen, h⟩ := h
  match l, hlen with
  | [], _ =>
    cases h
    exact ⟨Nat.zero_le _, .nil, .refl _, rfl⟩
  | [mm], _ =>
    have hs : sortByName MainMethod.name [mm] = [mm] := rfl
    rw [hs, visitMainMethods] at h
    simp only [bind_eq_ok, pure_eq_ok, Prod.exists, Prod.mk.injEq] at h
    obtain ⟨t, tbl₁, n₁, h₁, ts', tbl₂, n₂, h₂, rfl, rfl, rfl⟩ := h
    obtain ⟨hm, hext, rfl⟩ := visitMainMethod_visited h₁
    cases h₂
    refine ⟨Nat.le_refl _, .cons hm .nil, hext, ?_⟩
    unfold countMains
    rw [List.countP_singleton]
    simp only [decide_eq_true_eq]

/-! ## Classes -/

/-- The table that binds the fields of a class. -/
def fieldTable (tbl : Table) (fields : List Ast.Field) : Table :=
  fields.foldl (fun tbl f => tbl.insert f.name (.field f.type)) tbl.enterScope

/-- `visitClass` turns `c` into `t`. -/
structure ClassVisited (classes : List Ast.Class) (tbl : Table) (c : Ast.Class) (t : TClass) : Prop where
  name : t.name = c.name
  fieldNames : (c.fields.map Ast.Field.name).Nodup
  fields : t.fields = sortByName Ast.Field.name c.fields
  fieldTypes : visitFields ⟨classes, c, .main⟩ t.fields = .ok ()
  methodNames : (c.methods.map RegularMethod.name).Nodup
  methods : List.Forall₂ (RegularVisited ⟨classes, c, .main⟩ (fieldTable tbl t.fields))
    (sortByName RegularMethod.name c.methods) t.methods
  atMostOneMain : c.mainMethods.length ≤ 1
  mainMethods : List.Forall₂ (MainVisited ⟨classes, c, .main⟩ (fieldTable tbl t.fields)) c.mainMethods t.mainMethods
  overload : checkOverload c = .ok ()

theorem visitClass_visited {classes : List Ast.Class} {tbl tbl' : Table} {n n' : Nat} {c : Ast.Class} {t : TClass}
    (h : visitClass classes tbl n c = .ok (t, tbl', n')) :
    ClassVisited classes tbl c t ∧ tbl' = tbl ∧ n' = n + countMains c.mainMethods := by
  unfold visitClass visitFieldList visitMethodList at h
  simp only [bind_eq_ok, pure_eq_ok, Prod.exists, Prod.mk.injEq, checkForDuplicates_eq_ok] at h
  obtain ⟨fields, tbl₁, ⟨_, ⟨hfn, rfl⟩, ⟨⟩, hft, rfl, rfl⟩, methods, tbl₂, ⟨_, ⟨hmn, rfl⟩, hm⟩, mains, tbl₃, k, hmm,
    tbl₄, hleave, ⟨⟩, hover, rfl, rfl, rfl⟩ := h
  obtain ⟨hms, rfl⟩ := visitMethods_visited hm
  obtain ⟨hlen, hmains, hext, rfl⟩ := visitMainMethodList_visited hmm
  rw [leave_of_extends ((Extends.foldl_insert _ _ _ _).trans hext)] at hleave
  cases hleave
  exact ⟨⟨rfl, hfn, rfl, hft, hmn, hms, hlen, hmains, hover⟩, rfl, rfl⟩

theorem visitClasses_visited {classes : List Ast.Class} {tbl tbl' : Table} {n n' : Nat} {l : List Ast.Class}
    {ts : List TClass} (h : visitClasses classes tbl n l = .ok (ts, tbl', n')) :
    List.Forall₂ (ClassVisited classes tbl) l ts ∧ n' = n + (l.map fun c => countMains c.mainMethods).sum := by
  induction l generalizing ts tbl' n with
  | nil => rw [visitClasses] at h; cases h; exact ⟨.nil, rfl⟩
  | cons c l ih =>
    rw [visitClasses] at h
    simp only [bind_eq_ok, pure_eq_ok, Prod.exists, Prod.mk.injEq] at h
    obtain ⟨t, tbl₁, n₁, h₁, ts', tbl₂, n₂, h₂, rfl, rfl, rfl⟩ := h
    obtain ⟨hc, rfl, rfl⟩ := visitClass_visited h₁
    obtain ⟨hl, rfl⟩ := ih h₂
    refine ⟨.cons hc hl, ?_⟩
    rw [List.map_cons, List.sum_cons, Nat.add_assoc]

/-! ## Programs -/

/-- The classes of a program as the visitor sees them. -/
def sortedClasses (p : Program) : List Ast.Class := (sortByName Ast.Class.name p.classes).map sortMembers

/-- `visitProgram` turns `p` into `t`. -/
structure ProgramVisited (p : Program) (t : TProgram) : Prop where
  classNames : (p.classes.map Ast.Class.name).Nodup
  classes : List.Forall₂ (ClassVisited (sortedClasses p) .empty) (sortedClasses p) t.classes
  oneMain : ((sortedClasses p).map fun c => countMains c.mainMethods).sum = 1

theorem visitProgram_visited {p : Program} {t : TProgram} (h : visitProgram p = .ok t) : ProgramVisited p t := by
  unfold visitProgram at h
  simp only [bind_eq_ok, pure_eq_ok, check_eq_ok, Prod.exists, checkForDuplicates_eq_ok, decide_eq_true_eq] at h
  obtain ⟨_, ⟨hnames, rfl⟩, visited, tbl, n, hvisit, ⟨⟩, hne, ⟨⟩, hle, rfl⟩ := h
  obtain ⟨hclasses, rfl⟩ := visitClasses_visited hvisit
  refine ⟨hnames, hclasses, ?_⟩
  unfold sortedClasses
  omega

end Mjc.Sema

import Mjc.Printer.Basic
import Mjc.Sema.ExprChecks

/-!
# Where the visitor stops

The visits make the checks of `Checks` one after the other, and come to a null pointer exactly where the class of a
receiver is not declared.

* `visitStmt_meets`, `visitRegularMethod_meets`, `visitClass_meets`, `visitProgram_meets` : the visits make their checks
  in order;
* `Ends` : the visit of a program gives a tree or raises an error;
* `ends_iff` : the programs of which this holds.
-/

namespace Mjc.Sema
open Mjc.Ast Mjc.Checklist SymbolTable

set_option autoImplicit false

/-! ## Statements -/

section Statements

variable {cx : Context} {Γ : Env} {ls : Locals} {tbl : Table}

theorem declare_meets (hr : Rel Γ.frame ls tbl) (hi : Inner tbl) (n : Nat) (type : Ty) (name : String) :
    Meets Stop.breach [must (¬ Taken Γ.frame ls name)] (· = ⟨tbl.insert name (.variable n type), n + 1⟩)
      (declare ⟨tbl, n⟩ type name) := by
  by_cases h : Taken Γ.frame ls name
  · have hhide : mayHide (tbl.lookup name) = false := (hr.sees name).taken_iff.mp h
    unfold declare check
    cases hdef : tbl.isDefinedInCurrentScope name with
    | true => exact error_meets (not_not.mpr h) _
    | false =>
      simp only [hhide]
      exact error_meets (not_not.mpr h) _
  · rw [declare_complete hr hi h]
    exact ok_meets h rfl

theorem visitType_meets (hc : ∀ name, Γ.HasClass name ↔ (cx.findClassByName name).isSome = true) (type : Ty) :
    Meets Stop.breach [must (Γ.DeclaresBasic (baseType type))] (fun _ => True) (visitType cx type) := by
  cases type with
  | basic type => exact visitBasicType_meets hc type
  | array elementType _ => exact visitBasicType_meets hc elementType

theorem notVoid_iff {type : Ty} : (!(semaType type).isVoidOrVoidArray) = true ↔ baseType type ≠ .primitive .void := by
  rw [Bool.not_eq_true', isVoidOrVoidArray_iff]

theorem checkDeclaration_meets {type : Ty} {o : Option Expr} {o' : Option TExpr} (h : OptAnnotates Γ ls o o') :
    Meets Stop.breach [must ((∀ e ∈ o, MayAssign (some (ruleType type)) (typeOf Γ ls e)) ∧
        baseType type ≠ .primitive .void)]
      (fun _ => True) (checkDeclaration (semaType type) o') := by
  have hnotVoid : (!(semaType type).isVoidOrVoidArray) = true ↔ baseType type ≠ .primitive .void := notVoid_iff
  have hvoid := (check_meets hnotVoid (.voidVariable (semaType type))).mono fun _ _ _ => trivial
  unfold checkDeclaration
  match o, o', h with
  | none, none, _ => exact Meets.and (.cons (r := must _) (fun e he => nomatch he) hvoid)
  | some e, some t, h =>
    refine Meets.and (((check_meets (accepts_semaType h) _).congr ?_).bind fun _ _ _ _ => hvoid)
    exact ⟨fun h e he => Option.some.inj he ▸ h, fun h => h e rfl⟩

theorem checkReturn_meets (hf : Reads cx Γ) {o : Option Expr} {o' : Option TExpr} (h : OptAnnotates Γ ls o o') :
    Meets Stop.breach [must (ReturnFits Γ ls o)] (fun _ => True) (checkReturn cx.currentMethod.returnType o') := by
  have hvoid : cx.currentMethod.returnType.isVoid = true ↔ Γ.returnType = .void := by
    rw [SemType.ruleType_isVoid, hf.returnType, Option.some_inj]
  match o, o', h with
  | none, none, _ => exact (check_meets hvoid _).mono fun _ _ _ => trivial
  | some e, some t, h =>
    have hvalue : (!cx.currentMethod.returnType.isVoid) = true ↔ Γ.returnType ≠ .void := by
      rw [Bool.not_eq_true', ← Bool.not_eq_true, hvoid]
    have hfits : cx.currentMethod.returnType.accepts t.targetType = true ↔
        MayAssign (some Γ.returnType) (typeOf Γ ls e) := by
      rw [← hf.returnType, ← h.type]
      refine accepts_iff_mayAssign (fun hnone => ?_) h.unresolved
      rw [hf.returnType] at hnone
      cases hnone
    exact Meets.and ((check_meets hvalue _).bind fun _ _ _ _ => (check_meets hfits _).mono fun _ _ _ => trivial)

/-- The visit of a list of statements, if each of them is visited as it should be. -/
theorem visitStmts_meets_of (hf : Reads cx Γ) {l : List Stmt}
    (ih : ∀ s ∈ l, ∀ ls n tbl, Rel Γ.frame ls tbl → Inner tbl →
      Meets Stop.breach (stmtChecks Γ ls n s) (fun r => decide (r.1.cfb = .return) = returns s)
        (visitStmt cx ⟨tbl, n⟩ s)) {n : Nat} (hr : Rel Γ.frame ls tbl) (hi : Inner tbl) :
    Meets Stop.breach (stmtsChecks Γ ls n l)
      (fun r => (r.1.any fun s => decide (s.cfb = .return)) = someReturns l) (visitStmts cx ⟨tbl, n⟩ l) := by
  induction l generalizing ls n tbl with
  | nil => rw [visitStmts]; exact .pure rfl
  | cons s l ihl =>
    rw [visitStmts, stmtsChecks]
    refine (ih s List.mem_cons_self _ _ _ hr hi).bind ?_
    rintro ⟨t, ⟨tbl₁, n₁⟩⟩ h₁ - ht
    obtain ⟨hr₁, hi₁, hn₁, -⟩ := visitStmt_ok hf.fits hr h₁
    simp only at hr₁ hi₁ hn₁ ht
    subst hn₁
    refine (ihl (fun s hs => ih s (List.mem_cons_of_mem _ hs)) hr₁ (hi₁ hi)).then ?_
    rintro ⟨ts, st'⟩ - - hts
    refine ⟨_, rfl, ?_⟩
    simp only at hts ⊢
    rw [List.any_cons, ht, hts, someReturns]

theorem visitOptStmt_meets_of {o : Option Stmt}
    (ih : ∀ s ∈ o, ∀ ls n tbl, Rel Γ.frame ls tbl → Inner tbl →
      Meets Stop.breach (stmtChecks Γ ls n s) (fun r => decide (r.1.cfb = .return) = returns s)
        (visitStmt cx ⟨tbl, n⟩ s)) {n : Nat} (hr : Rel Γ.frame ls tbl) (hi : Inner tbl) :
    Meets Stop.breach (optChecks Γ ls n o) (fun r => decide (branchCFB r.1 = .return) = optReturns o)
      (visitOptStmt cx ⟨tbl, n⟩ o) := by
  cases o with
  | none => rw [visitOptStmt]; exact .pure rfl
  | some s =>
    rw [visitOptStmt, optChecks]
    exact (ih s rfl _ _ _ hr hi).then fun _ _ _ ht => ⟨_, rfl, ht⟩

theorem visitStmt_block_meets_of (hf : Reads cx Γ) {l : List Stmt} (lonely : Bool)
    (ih : ∀ s ∈ l, ∀ ls n tbl, Rel Γ.frame ls tbl → Inner tbl →
      Meets Stop.breach (stmtChecks Γ ls n s) (fun r => decide (r.1.cfb = .return) = returns s)
        (visitStmt cx ⟨tbl, n⟩ s)) {n : Nat} (hr : Rel Γ.frame ls tbl) :
    Meets Stop.breach (stmtChecks Γ ls n (.block l lonely))
      (fun r => decide (r.1.cfb = .return) = returns (.block l lonely))
      (visitStmt cx ⟨tbl, n⟩ (.block l lonely)) := by
  rw [visitStmt, stmtChecks]
  refine (visitStmts_meets_of hf ih hr.enterScope hr.inner).then ?_
  rintro ⟨ts, ⟨tbl', n'⟩⟩ h - hreturns
  have hleave : leave tbl' = .ok tbl := leave_of_extends (visitStmts_extends h)
  refine ⟨(finishBlock ts lonely, ⟨tbl, n'⟩), ?_, ?_⟩
  · simp only [hleave]
    rfl
  · simp only at hreturns
    rw [returns, ← hreturns]
    show decide ((if (ts.any fun s => decide (s.cfb = .return)) = true then ControlFlowBehavior.return
      else .mayContinue) = .return) = _
    cases ts.any fun s => decide (s.cfb = .return) <;> rfl

theorem combineCFB_return (c₁ c₂ : ControlFlowBehavior) :
    decide (combineCFB c₁ c₂ = .return) = (decide (c₁ = .return) && decide (c₂ = .return)) := by
  cases c₁ <;> cases c₂ <;> rfl

theorem visitStmt_meets (hf : Reads cx Γ) {s : Stmt} {n : Nat} (hr : Rel Γ.frame ls tbl) (hi : Inner tbl) :
    Meets Stop.breach (stmtChecks Γ ls n s) (fun r => decide (r.1.cfb = .return) = returns s)
      (visitStmt cx ⟨tbl, n⟩ s) := by
  induction s using Stmt.induct generalizing ls n tbl with
  | block l lonely ih => exact visitStmt_block_meets_of hf lonely (fun s hs _ _ _ => ih s hs) hr
  | varDecl type name o =>
    rw [visitStmt, stmtChecks]
    refine (declare_meets hr hi n type name).bind ?_
    rintro _ - - rfl
    refine (visitType_meets hf.hasClass type).bind fun _ _ _ _ => ?_
    refine (visitOptExpr_meets hf (hr.declare name n type) o).bind fun o' _ _ ho => ?_
    exact (checkDeclaration_meets ho).then fun _ _ _ _ => ⟨_, rfl, rfl⟩
  | exprStmt e =>
    rw [visitStmt, stmtChecks]
    exact (visitExpr_meets hf hr e).then fun _ _ _ _ => ⟨_, rfl, rfl⟩
  | ifStmt c s₁ s₂ ih₁ ih₂ =>
    rw [visitStmt, stmtChecks]
    refine (visitExpr_meets hf hr c).bind fun c' _ _ hc => ?_
    refine (visitOptStmt_meets_of (fun s hs _ _ _ => ih₁ s hs) hr hi).bind ?_
    rintro ⟨t₁, ⟨tbl₁, n₁⟩⟩ h₁ - ht₁
    obtain ⟨hr₁, hi₁, hn₁, -⟩ := visitOptStmt_ok_of (fun _ _ _ _ _ _ _ => visitStmt_ok hf.fits) hr h₁
    simp only at hr₁ hi₁ hn₁ ht₁
    subst hn₁
    refine (visitOptStmt_meets_of (fun s hs _ _ _ => ih₂ s hs) hr₁ (hi₁ hi)).bind ?_
    rintro ⟨t₂, st₂⟩ - - ht₂
    refine (check_meets (isBool_iff hc) _).then fun _ _ _ _ => ⟨_, rfl, ?_⟩
    simp only at ht₂
    show decide (combineCFB (branchCFB t₁) (branchCFB t₂) = .return) = _
    rw [combineCFB_return, ht₁, ht₂, returns]
  | whileStmt c s ih =>
    rw [visitStmt, stmtChecks]
    refine (visitExpr_meets hf hr c).bind fun c' _ _ hc => ?_
    refine (visitOptStmt_meets_of (fun s hs _ _ _ => ih s hs) hr hi).bind ?_
    rintro ⟨t₁, st₁⟩ - - -
    exact (check_meets (isBool_iff hc) _).then fun _ _ _ _ => ⟨_, rfl, rfl⟩
  | returnStmt o =>
    rw [visitStmt, stmtChecks]
    refine (visitOptExpr_meets hf hr o).bind fun o' _ _ ho => ?_
    exact (checkReturn_meets hf ho).then fun _ _ _ _ => ⟨_, rfl, rfl⟩

end Statements

/-! ## Methods -/

section Methods

variable {p : Program} {c : Ast.Class} {tbl : Table}

theorem checkForDuplicates_meets {α : Type} (name : α → String) (what : String) (l : List α) :
    Meets Stop.breach [must (l.map name).Nodup] (· = sortByName name l) (checkForDuplicates name what l) := by
  by_cases h : (l.map name).Nodup
  · rw [checkForDuplicates_eq_ok.mpr ⟨h, rfl⟩]
    exact ok_meets h rfl
  · unfold checkForDuplicates
    split
    · exact error_meets h _
    next hadj =>
      have hok : checkForDuplicates name what l = .ok (sortByName name l) := by
        unfold checkForDuplicates
        rw [if_neg hadj]
      exact absurd (checkForDuplicates_eq_ok.mp hok).1 h

theorem reads_of {cx : Context} {Γ : Env} (hcx : cx.classes = sortedClasses p) (hΓ : Γ.classes = p.classes)
    (hname : cx.currentClass.name = Γ.className) (hfits : Γ.frame.Fits cx)
    (hret : cx.currentMethod.returnType.ruleType = some Γ.returnType) (hfr : Γ.frame.Distinct) : Reads cx Γ where
  className := hname
  fits := hfits
  returnType := hret
  distinct := hfr
  classes name := by
    have hsorted : (sortedClasses p).Pairwise fun a b => a.name ≤ b.name :=
      List.pairwise_map.mpr (pairwise_sortByName Ast.Class.name p.classes)
    rw [Context.findClassByName, hcx, findByName_eq_find? hsorted, Env.class?, hΓ, ← find?_sortByName p.classes]
    exact List.find?_map

theorem reads_regular {m : RegularMethod} (hf : (c.fields.map Ast.Field.name).Nodup)
    (hp : (m.parameters.map Parameter.name).Nodup) :
    Reads (classContext p c (.regular m.returnType)) (regularEnv p c m) :=
  reads_of rfl rfl rfl (regularFrame_fits c.fields m (classContext p c .main)) (SemType.ruleType_semaType _) ⟨hf, hp⟩

theorem reads_main {mm : MainMethod} (hf : (c.fields.map Ast.Field.name).Nodup) :
    Reads (classContext p c .main) (mainEnv p c mm) :=
  reads_of rfl rfl rfl (mainFrame_fits c.fields mm (classContext p c .main)) rfl ⟨hf, List.nodup_nil⟩

theorem visitParameter_meets {cx : Context} {Γ : Env}
    (hc : ∀ name, Γ.HasClass name ↔ (cx.findClassByName name).isSome = true) {fields : List Ast.Field}
    {done : List Parameter} (hr : ParamRel fields done tbl) (q : Parameter) :
    Meets Stop.breach [must (Γ.DeclaresBasic (baseType q.type)),
        must (q.name ∉ done.map Parameter.name ∧ baseType q.type ≠ .primitive .void)]
      (· = tbl.insert q.name (.parameter q.idx q.type)) (visitParameter cx tbl q) := by
  have hdefined : (!tbl.isDefinedInCurrentScope q.name) = true ↔ q.name ∉ done.map Parameter.name := by
    rw [Bool.not_eq_true', ← Bool.not_eq_true, hr.defined, List.mem_map]
  refine (visitType_meets hc q.type).bind fun _ _ _ _ => Meets.and ?_
  exact (check_meets hdefined _).bind fun _ _ _ _ => (check_meets notVoid_iff _).then fun _ _ _ _ => ⟨_, rfl, rfl⟩

theorem visitParameters_meets {cx : Context} {Γ : Env}
    (hc : ∀ name, Γ.HasClass name ↔ (cx.findClassByName name).isSome = true) {fields : List Ast.Field}
    {done params : List Parameter} (hr : ParamRel fields done tbl) :
    Meets Stop.breach (paramChecks Γ (done.map Parameter.name) params) (fun _ => True)
      (visitParameters cx tbl params) := by
  induction params generalizing done tbl with
  | nil => exact .pure trivial
  | cons q l ih =>
    rw [visitParameters, paramChecks]
    refine (visitParameter_meets hc hr q).bind ?_
    rintro _ - - rfl
    exact ih (hr.insert q)

theorem visitBlock_meets {cx : Context} {Γ : Env} (hf : Reads cx Γ) (hr : Rel Γ.frame [] tbl) (b : Block) :
    Meets Stop.breach (stmtChecks Γ [] 0 (Block.stmt b)) (fun r => decide (r.1.cfb = .return) = returns (Block.stmt b))
      (visitBlock cx ⟨tbl, 0⟩ b) :=
  visitStmt_block_meets_of hf b.lonely (fun _ _ _ _ _ => visitStmt_meets hf) hr

theorem isVoid_semaType {type : Ty} : (semaType type).isVoid = true ↔ type = .basic (.primitive .void) := by
  refine ⟨eq_void_of_isVoid, ?_⟩
  rintro rfl
  rfl

theorem notVoidArray_iff {type : Ty} : (!(semaType type).isVoidArray) = true ↔
    (baseType type = .primitive .void → type = .basic (.primitive .void)) := by
  cases type with
  | basic type =>
    cases type with
    | primitive type => cases type <;> simp [baseType] <;> rfl
    | classType name => simp [baseType]; rfl
  | array elementType dimension =>
    cases elementType with
    | primitive type => cases type <;> simp [baseType] <;> rfl
    | classType name => simp [baseType]; rfl

theorem visitRegularMethod_meets (hr : Rel ⟨c.fields, none, []⟩ [] tbl) (hf : (c.fields.map Ast.Field.name).Nodup)
    (m : RegularMethod) :
    Meets Stop.breach (methodChecks p c m) (fun _ => True) (visitRegularMethod (classContext p c .main) tbl m) := by
  have hc (name : String) : (regularEnv p c m).HasClass name ↔
      ((classContext p c (.regular m.returnType)).findClassByName name).isSome = true :=
    hasClass_iff (p := p) rfl rfl name
  unfold visitRegularMethod methodChecks
  refine (visitType_meets hc m.returnType).bind fun _ _ _ _ => ?_
  refine (visitParameters_meets hc (.enterScope hr)).bind fun ptbl hptbl _ _ => ?_
  obtain ⟨hp, hr'⟩ := visitParameters_rel hr hptbl
  refine (visitBlock_meets (reads_regular hf hp) hr' m.block).bind ?_
  rintro ⟨body, ⟨tbl₁, n⟩⟩ hbody - hreturns
  obtain rfl : tbl₁ = ptbl := visitBlock_symTbl hbody
  have hleave : leave tbl₁ = .ok tbl := leave_of_extends (visitParameters_extends hptbl)
  simp only [hleave]
  have hlast : ((semaType m.returnType).isVoid || decide (body.cfb = .return)) = true ↔
      m.returnType = .basic (.primitive .void) ∨ returns (Block.stmt m.block) = true := by
    rw [Bool.or_eq_true, isVoid_semaType, ← hreturns]
  exact Meets.and ((check_meets notVoidArray_iff _).bind fun _ _ _ _ => (check_meets hlast _).then
    fun _ _ _ _ => ⟨_, rfl, trivial⟩)

theorem visitMethods_meets (hr : Rel ⟨c.fields, none, []⟩ [] tbl) (hf : (c.fields.map Ast.Field.name).Nodup)
    (l : List RegularMethod) :
    Meets Stop.breach (l.flatMap (methodChecks p c)) (fun _ => True) (visitMethods (classContext p c .main) tbl l) := by
  induction l with
  | nil => exact .pure trivial
  | cons m l ih =>
    rw [visitMethods, List.flatMap_cons]
    refine (visitRegularMethod_meets hr hf m).bind ?_
    rintro ⟨t, tbl'⟩ hm - -
    obtain rfl : tbl' = tbl := (visitRegularMethod_visited hm).2
    exact ih.then fun _ _ _ _ => ⟨_, rfl, trivial⟩

theorem visitMainMethod_meets (hr : Rel ⟨c.fields, none, []⟩ [] tbl) (hf : (c.fields.map Ast.Field.name).Nodup)
    (n : Nat) (mm : MainMethod) :
    Meets Stop.breach (mainChecks p c mm) (fun _ => True) (visitMainMethod (classContext p c .main) tbl n mm) :=
  (visitBlock_meets (reads_main hf) (hr.insertMainArg mm.argName) mm.block).then fun _ _ _ _ => ⟨_, rfl, trivial⟩

theorem visitMainMethodList_meets (hr : Rel ⟨c.fields, none, []⟩ [] tbl) (hf : (c.fields.map Ast.Field.name).Nodup)
    (n : Nat) (l : List MainMethod) :
    Meets Stop.breach ([must (l.length ≤ 1)] ++ l.flatMap (mainChecks p c)) (fun _ => True)
      (visitMainMethodList (classContext p c .main) tbl n l) := by
  unfold visitMainMethodList
  refine (check_meets decide_eq_true_iff _).bind fun _ _ _ hlen => ?_
  match l, hlen with
  | [], _ => exact .pure trivial
  | [mm], _ =>
    have hs : sortByName MainMethod.name [mm] = [mm] := rfl
    rw [hs, visitMainMethods, List.flatMap_cons, List.flatMap_nil, List.append_nil]
    exact (visitMainMethod_meets hr hf n mm).then fun _ _ _ _ => ⟨_, rfl, trivial⟩

end Methods

/-! ## Classes and programs -/

section Classes

variable {p : Program} {c : Ast.Class}

theorem visitFields_meets {cx : Context} {Γ : Env}
    (hc : ∀ name, Γ.HasClass name ↔ (cx.findClassByName name).isSome = true) (l : List Ast.Field) :
    Meets Stop.breach (l.flatMap (fieldChecks Γ)) (fun _ => True) (visitFields cx l) := by
  induction l with
  | nil => exact .pure trivial
  | cons f l ih =>
    rw [visitFields, List.flatMap_cons]
    refine Meets.bind (Meets.and ?_) fun _ _ _ (_ : True) => ih
    exact (visitType_meets hc f.type).bind fun _ _ _ _ => (check_meets notVoid_iff _).mono fun _ _ _ => trivial

theorem visitFieldList_meets (tbl : Table) :
    Meets Stop.breach ([must (c.fields.map Ast.Field.name).Nodup] ++
        (sortByName Ast.Field.name c.fields).flatMap (fieldChecks (classEnv p c)))
      (fun _ => True) (visitFieldList (classContext p c .main) tbl (sortMembers c).fields) := by
  have hc (name : String) : (classEnv p c).HasClass name ↔
      ((classContext p c .main).findClassByName name).isSome = true := hasClass_iff (p := p) rfl rfl name
  have hnodup := checkForDuplicates_meets Ast.Field.name "field" (sortMembers c).fields
  unfold visitFieldList
  refine (hnodup.congr nodup_sortByName).bind ?_
  rintro _ - - rfl
  have hsort : sortByName Ast.Field.name (sortMembers c).fields = sortByName Ast.Field.name c.fields :=
    sortByName_sortByName _ _
  rw [hsort]
  exact (visitFields_meets hc _).then fun _ _ _ _ => ⟨_, rfl, trivial⟩

theorem visitMethodList_meets {tbl : Table} (hr : Rel ⟨c.fields, none, []⟩ [] tbl)
    (hf : (c.fields.map Ast.Field.name).Nodup) :
    Meets Stop.breach ([must (c.methods.map RegularMethod.name).Nodup] ++
        (sortByName RegularMethod.name c.methods).flatMap (methodChecks p c))
      (fun _ => True) (visitMethodList (classContext p c .main) tbl (sortMembers c).methods) := by
  have hnodup := checkForDuplicates_meets RegularMethod.name "method" (sortMembers c).methods
  unfold visitMethodList
  refine (hnodup.congr nodup_sortByName).bind ?_
  rintro _ - - rfl
  have hsort : sortByName RegularMethod.name (sortMembers c).methods = sortByName RegularMethod.name c.methods :=
    sortByName_sortByName _ _
  rw [hsort]
  exact visitMethods_meets hr hf _

theorem checkOverload_meets (hlen : c.mainMethods.length ≤ 1) :
    Meets Stop.breach [must (∀ mm ∈ c.mainMethods, ∀ m ∈ c.methods, m.name ≠ mm.name)] (fun _ => True)
      (checkOverload (sortMembers c)) := by
  unfold checkOverload
  rcases Nat.le_one_iff_eq_zero_or_eq_one.mp hlen with hzero | hone
  · have hnil : c.mainMethods = [] := List.eq_nil_of_length_eq_zero hzero
    have hnil' : (sortMembers c).mainMethods = [] := hnil
    rw [hnil, hnil']
    exact ok_meets (List.forall_mem_nil _) trivial
  · obtain ⟨mm, hmm⟩ := List.length_eq_one_iff.mp hone
    have hmm' : (sortMembers c).mainMethods = [mm] := hmm
    rw [hmm, hmm']
    refine (check_meets ?_ _).mono fun _ _ _ => trivial
    rw [findMethodInClass_sortMembers, Option.isNone_iff_eq_none, List.find?_eq_none, List.forall_mem_singleton]
    simp only [decide_eq_true_eq]

theorem visitFieldList_extends {cx : Context} {tbl tbl' : Table} {l fields : List Ast.Field}
    (h : visitFieldList cx tbl l = .ok (fields, tbl')) : Extends tbl tbl' := by
  unfold visitFieldList at h
  simp only [bind_eq_ok, pure_eq_ok, Prod.mk.injEq] at h
  obtain ⟨_, -, -, -, -, rfl⟩ := h
  exact .foldl_insert _ _ _ _

theorem visitMethodList_symTbl {cx : Context} {tbl tbl' : Table} {l : List RegularMethod} {ts : List TRegularMethod}
    (h : visitMethodList cx tbl l = .ok (ts, tbl')) : tbl' = tbl := by
  obtain ⟨_, -, h⟩ := bind_eq_ok.mp h
  exact (visitMethods_visited h).2

theorem visitClass_meets (n : Nat) (c : Ast.Class) :
    Meets Stop.breach (classChecks p c) (fun _ => True) (visitClass (sortedClasses p) .empty n (sortMembers c)) := by
  unfold visitClass classChecks
  rw [← List.append_assoc]
  refine (visitFieldList_meets (SymbolTable.enterScope .empty)).bind ?_
  rintro ⟨fields, tbl⟩ hfields - -
  obtain ⟨hf, hr⟩ := visitFieldList_rel hfields
  rw [← List.append_assoc]
  refine (visitMethodList_meets hr hf).bind ?_
  rintro ⟨methods, tbl₁⟩ hmethods - -
  obtain rfl := visitMethodList_symTbl hmethods
  rw [← List.append_assoc]
  refine (visitMainMethodList_meets hr hf n c.mainMethods).bind ?_
  rintro ⟨mains, tbl₂, n'⟩ hmains - -
  obtain ⟨hlen, -, hext, -⟩ := visitMainMethodList_visited hmains
  have hleave : leave tbl₂ = .ok .empty := leave_of_extends ((visitFieldList_extends hfields).trans hext)
  simp only [hleave]
  exact (checkOverload_meets hlen).then fun _ _ _ _ => ⟨_, rfl, trivial⟩

theorem visitClasses_meets (n : Nat) (l : List Ast.Class) :
    Meets Stop.breach (l.flatMap (classChecks p)) (fun _ => True)
      (visitClasses (sortedClasses p) .empty n (l.map sortMembers)) := by
  induction l generalizing n with
  | nil => exact .pure trivial
  | cons c l ih =>
    rw [List.map_cons, visitClasses, List.flatMap_cons]
    refine (visitClass_meets n c).bind ?_
    rintro ⟨t, tbl, n'⟩ hc - -
    obtain rfl := (visitClass_visited hc).2.1
    exact (ih n').then fun _ _ _ _ => ⟨_, rfl, trivial⟩

theorem sum_sortedClasses (p : Program) : ((sortedClasses p).map fun c => countMains c.mainMethods).sum =
    countMains (p.classes.flatMap Ast.Class.mainMethods) := by
  unfold sortedClasses countMains
  rw [List.map_map, List.countP_flatMap]
  exact ((sortByName_perm Ast.Class.name p.classes).map _).sum_nat

theorem visitProgram_meets (p : Program) :
    Meets Stop.breach (programChecks p) (fun _ => True) (visitProgram p) := by
  unfold visitProgram programChecks
  refine (checkForDuplicates_meets Ast.Class.name "class" p.classes).bind ?_
  rintro _ - - rfl
  refine (visitClasses_meets 0 (sortByName Ast.Class.name p.classes)).bind ?_
  rintro ⟨ts, tbl, n⟩ hclasses - -
  obtain ⟨-, hn⟩ := visitClasses_visited hclasses
  have hcount : n = countMains (p.classes.flatMap Ast.Class.mainMethods) := by
    rw [hn, Nat.zero_add]
    exact sum_sortedClasses p
  have hmains : Meets Stop.breach [must (n ≠ 0 ∧ n ≤ 1)] (fun _ => True) (do
      check (n ≠ 0) .noMain
      check (n ≤ 1) .severalMains
      return (⟨ts⟩ : TProgram)) :=
    Meets.and ((check_meets decide_eq_true_iff _).bind fun _ _ _ _ => (check_meets decide_eq_true_iff _).then
      fun _ _ _ _ => ⟨_, rfl, trivial⟩)
  refine hmains.congr ?_
  rw [← hcount]
  omega

end Classes

/-- The visit ends: it gives a tree or raises a `SemanticError`. -/
def Ends (p : Program) : Prop :=
  (∃ t, visitProgram p = .ok t) ∨ ∃ message, visitProgram p = .error (.semanticError message)

theorem ends_iff_ne_crash (p : Program) : Ends p ↔ visitProgram p ≠ .error .crash := by
  unfold Ends
  cases visitProgram p with
  | ok t => exact ⟨fun _ h => (nomatch h), fun _ => .inl ⟨t, rfl⟩⟩
  | error s =>
    cases s with
    | semanticError m => exact ⟨fun _ h => (nomatch h), fun _ => .inr ⟨m, rfl⟩⟩
    | crash =>
      refine ⟨?_, fun h => absurd rfl h⟩
      rintro (⟨_, h⟩ | ⟨_, h⟩) <;> cases h

theorem crash_iff (p : Program) :
    visitProgram p = .error .crash ↔ FirstBroken (programChecks p) .unknownReceiver := by
  rw [← (visitProgram_meets p).error_iff]
  refine ⟨fun h => ⟨.crash, h, rfl⟩, ?_⟩
  rintro ⟨s, h, hs⟩
  cases s with
  | semanticError m => cases hs
  | crash => exact h

/-- A null pointer is reached exactly if the first of the visitor's checks that the program fails is that the class of a
receiver is declared; every other visit gives a tree or raises a `SemanticError`. -/
theorem ends_iff (p : Program) : Ends p ↔ ¬ FirstBroken (programChecks p) .unknownReceiver := by
  rw [ends_iff_ne_crash, Ne, crash_iff]

/-- A class that is used before its own visit has a field of an unknown class. -/
def unknownClass : List UInt8 :=
  Lexer.bytes ("class A \x7b public void f(B b) \x7b b.x.y; \x7d public static void main(String[] a) \x7b \x7d \x7d " ++
    "class B \x7b public X x; \x7d").toList

/-- The visit of a parsed program comes to the lookup of a field in no class. -/
theorem not_ends_unknownClass : ∃ p, Printer.parseFile unknownClass = some p ∧ ¬ Ends p := by
  have hrun : ((Printer.parseFile unknownClass).map fun p => match visitProgram p with
      | .error .crash => true
      | _ => false) = some true := by
    decide +kernel
  obtain ⟨p, hp, hrun⟩ := Option.map_eq_some_iff.mp hrun
  refine ⟨p, hp, ?_⟩
  rw [ends_iff_ne_crash, not_not]
  split at hrun
  next h => exact h
  next => cases hrun

end Mjc.Sema

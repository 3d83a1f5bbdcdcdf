import Mjc.Sema.Visitor

/-!
# What a visit that returns has done

One inversion lemma for each function of the visitor, and what every visit does to the symbol table.

* `bind_eq_ok`, `check_eq_ok` : the steps of a visit;
* `visitVarRef_eq_ok` and its like : the visit of each kind of expression;
* `visitStmt_block_eq_ok` and its like : the visit of each kind of statement;
* `visitStmt_extends` : a visit of a statement extends the symbol table;
* `visitBlock_symTbl`, `visitMethods_eq_ok`, `visitClass_eq_ok` : a block, a method and a class give back the table
  they were given.
-/

namespace Mjc.Sema
open Mjc.Ast SymbolTable

set_option autoImplicit false

section Steps

variable {ε α β : Type}

theorem bind_eq_ok {x : Except ε α} {f : α → Except ε β} {b : β} :
    (x >>= f) = .ok b ↔ ∃ a, x = .ok a ∧ f a = .ok b := by
  cases x with
  | error e =>
    constructor
    · intro h; cases h
    · rintro ⟨a, h, -⟩; cases h
  | ok a =>
    constructor
    · intro h; exact ⟨a, rfl, h⟩
    · rintro ⟨a', h, h'⟩; cases h; exact h'

theorem pure_eq_ok {a b : α} : (pure a : Except ε α) = .ok b ↔ a = b := by
  constructor
  · intro h; cases h; rfl
  · rintro rfl; rfl

end Steps

theorem check_eq_ok {b : Bool} {message : Message} {u : Unit} : check b message = .ok u ↔ b = true := by
  unfold check
  cases b
  · constructor <;> intro h <;> cases h
  · exact ⟨fun _ => rfl, fun _ => rfl⟩

theorem leave_of_extends {tbl tbl' : Table} (h : Extends tbl.enterScope tbl') : leave tbl' = .ok tbl := by
  unfold leave
  rw [leaveScope_of_extends h]

/-! ## Expressions -/

section Expressions

variable {cx : Context} {tbl : Table} {t : TExpr}

theorem visitExprs_eq_ok {l : List Expr} {ts : List TExpr} :
    visitExprs cx tbl l = .ok ts ↔ List.Forall₂ (fun e t => visitExpr cx tbl e = .ok t) l ts := by
  induction l generalizing ts with
  | nil =>
    rw [visitExprs]
    constructor
    · intro h; cases h; exact .nil
    · intro h; cases h; rfl
  | cons e l ih =>
    rw [visitExprs]
    simp only [bind_eq_ok, pure_eq_ok, ih]
    constructor
    · rintro ⟨t, ht, ts', hts, rfl⟩; exact .cons ht hts
    · intro h
      cases h with
      | cons ht hts => exact ⟨_, ht, _, hts, rfl⟩

theorem visitVarRef_eq_ok {name : String} (h : visitVarRef cx tbl name = .ok t) :
    (tbl.lookup name = none ∧ name = "System" ∧ t = .varRef name .system .unresolved) ∨
      ∃ d type, tbl.lookup name = some d ∧ d.type = some type ∧
        (cx.currentMethod = .main → ∀ type, d ≠ .field type) ∧
        t = .varRef name (.definition d) (semaType type) := by
  unfold visitVarRef at h
  split at h
  next hl =>
    by_cases hname : name = "System"
    · rw [if_pos hname] at h; cases h; exact .inl ⟨hl, hname, rfl⟩
    · rw [if_neg hname] at h; cases h
  next => cases h
  next type hl =>
    by_cases hmain : cx.currentMethod = .main
    · rw [if_pos hmain] at h; cases h
    · rw [if_neg hmain] at h; cases h
      exact .inr ⟨_, type, hl, rfl, fun h => absurd h hmain, rfl⟩
  next idx type hl => cases h; exact .inr ⟨_, type, hl, rfl, fun _ _ => Definition.noConfusion, rfl⟩
  next idx type hl => cases h; exact .inr ⟨_, type, hl, rfl, fun _ _ => Definition.noConfusion, rfl⟩

theorem visitMember_eq_ok {left : TExpr} {name : String} (h : visitMember cx left name = .ok t) :
    ∃ cls field, left.targetType.isClass = true ∧ cx.findClassByName left.targetType.name = some cls ∧
      findFieldInClass cls name = some field ∧ t = .fieldAccess left name (.field cls.name) (semaType field.type) := by
  unfold visitMember at h
  obtain ⟨⟨⟩, hclass, h⟩ := bind_eq_ok.mp h
  split at h
  next => cases h
  next cls hcls =>
    split at h
    next => cases h
    next field hfield => cases h; exact ⟨cls, field, check_eq_ok.mp hclass, hcls, hfield, rfl⟩

theorem visitFieldAccess_eq_ok {left : TExpr} {name : String} (h : visitFieldAccess cx left name = .ok t) :
    (∃ x type d, left = .varRef x .system type ∧ (d = .systemOut ∨ d = .systemIn) ∧
        t = .fieldAccess left name d .unresolved) ∨
      ∃ cls field, left.targetType.isClass = true ∧ cx.findClassByName left.targetType.name = some cls ∧
        findFieldInClass cls name = some field ∧
        t = .fieldAccess left name (.field cls.name) (semaType field.type) := by
  unfold visitFieldAccess at h
  split at h
  next x type =>
    by_cases hout : name = "out"
    · rw [if_pos hout] at h; cases h; exact .inl ⟨x, type, _, rfl, .inl rfl, rfl⟩
    · rw [if_neg hout] at h
      by_cases hin : name = "in"
      · rw [if_pos hin] at h; cases h; exact .inl ⟨x, type, _, rfl, .inr rfl, rfl⟩
      · rw [if_neg hin] at h; cases h
  next => cases h
  next => cases h
  next => exact .inr (visitMember_eq_ok h)

theorem checkArguments_eq_ok {params : List Parameter} {args : List TExpr} (hlen : params.length = args.length)
    (h : checkArguments params args = .ok ()) :
    List.Forall₂ (fun p a => (semaType p.type).accepts a.targetType = true) params args := by
  induction params generalizing args with
  | nil => cases args with
    | nil => exact .nil
    | cons a args => cases hlen
  | cons p params ih => cases args with
    | nil => cases hlen
    | cons a args =>
      rw [checkArguments] at h
      obtain ⟨⟨⟩, ha, hargs⟩ := bind_eq_ok.mp h
      exact .cons (check_eq_ok.mp ha) (ih (Nat.succ.inj hlen) hargs)

theorem visitCall_eq_ok {left : TExpr} {name : String} {args : List TExpr} (h : visitCall cx left name args = .ok t) :
    ∃ cls method, left.targetType.isClass = true ∧ cx.findClassByName left.targetType.name = some cls ∧
      findMethodInClass cls name = some method ∧
      List.Forall₂ (fun p a => (semaType p.type).accepts a.targetType = true) method.parameters args ∧
      t = .methodInvocation left name args (.method cls.name) (semaType method.returnType) := by
  unfold visitCall at h
  obtain ⟨⟨⟩, hclass, h⟩ := bind_eq_ok.mp h
  split at h
  next => cases h
  next cls hcls =>
    split at h
    next => cases h
    next method hmethod =>
      obtain ⟨⟨⟩, hlen, h⟩ := bind_eq_ok.mp h
      obtain ⟨⟨⟩, hargs, h⟩ := bind_eq_ok.mp h
      cases h
      have hlen' := eq_of_beq (check_eq_ok.mp hlen)
      exact ⟨cls, method, check_eq_ok.mp hclass, hcls, hmethod, checkArguments_eq_ok hlen' hargs, rfl⟩

/-- The calls on `System.out` and `System.in` that the visitor knows, with the type of their value. -/
inductive SysoutCall : AccessDef → String → List TExpr → SemType → Prop
  | println {e : TExpr} (h : e.targetType.isInt = true) : SysoutCall .systemOut "println" [e] .void
  | write {e : TExpr} (h : e.targetType.isInt = true) : SysoutCall .systemOut "write" [e] .void
  | flush : SysoutCall .systemOut "flush" [] .void
  | read : SysoutCall .systemIn "read" [] .int

theorem visitSysoutArgument_eq_ok {left : TExpr} {name : String} {args : List TExpr}
    (h : visitSysoutArgument left name args = .ok t) :
    ∃ e, args = [e] ∧ e.targetType.isInt = true ∧ t = .methodInvocation left name args .sysout .void := by
  unfold visitSysoutArgument at h
  split at h
  next e =>
    by_cases he : e.targetType.isInt = true
    · rw [if_pos he] at h; cases h; exact ⟨e, rfl, he, rfl⟩
    · rw [if_neg he] at h; cases h
  next => cases h

theorem visitMethodInvocation_eq_ok {left : TExpr} {name : String} {args : List TExpr}
    (h : visitMethodInvocation cx left name args = .ok t) :
    (∃ x y d type₁ type, left = .fieldAccess x y d type₁ ∧ SysoutCall d name args type ∧
        t = .methodInvocation left name args .sysout type) ∨
      ∃ cls method, left.targetType.isClass = true ∧ cx.findClassByName left.targetType.name = some cls ∧
        findMethodInClass cls name = some method ∧
        List.Forall₂ (fun p a => (semaType p.type).accepts a.targetType = true) method.parameters args ∧
        t = .methodInvocation left name args (.method cls.name) (semaType method.returnType) := by
  unfold visitMethodInvocation at h
  split at h
  next => cases h
  next =>
    obtain ⟨⟨⟩, -, h⟩ := bind_eq_ok.mp h
    exact .inr (visitCall_eq_ok h)
  next x y type₁ =>
    left
    by_cases hname : (decide (name = "println") || decide (name = "write")) = true
    · rw [if_pos hname] at h
      obtain ⟨e, rfl, he, rfl⟩ := visitSysoutArgument_eq_ok h
      rcases Bool.or_eq_true_iff.mp hname with hname | hname
      · obtain rfl := of_decide_eq_true hname
        exact ⟨x, y, _, type₁, _, rfl, .println he, rfl⟩
      · obtain rfl := of_decide_eq_true hname
        exact ⟨x, y, _, type₁, _, rfl, .write he, rfl⟩
    · rw [if_neg hname] at h
      by_cases hflush : name = "flush"
      · subst hflush
        rw [if_pos rfl] at h
        obtain ⟨⟨⟩, hargs, h⟩ := bind_eq_ok.mp h
        cases h
        obtain rfl := List.isEmpty_iff.mp (check_eq_ok.mp hargs)
        exact ⟨x, y, _, type₁, _, rfl, .flush, rfl⟩
      · rw [if_neg hflush] at h; cases h
  next x y type₁ =>
    left
    by_cases hread : name = "read"
    · subst hread
      rw [if_pos rfl] at h
      obtain ⟨⟨⟩, hargs, h⟩ := bind_eq_ok.mp h
      cases h
      obtain rfl := List.isEmpty_iff.mp (check_eq_ok.mp hargs)
      exact ⟨x, y, _, type₁, _, rfl, .read, rfl⟩
    · rw [if_neg hread] at h; cases h
  next => exact .inr (visitCall_eq_ok h)

theorem visitArrayAccess_eq_ok {array index : TExpr} (h : visitArrayAccess array index = .ok t) :
    index.targetType.isInt = true ∧ array.targetType.isArray = true ∧
      t = .arrayAccess array index array.targetType.element := by
  unfold visitArrayAccess at h
  obtain ⟨⟨⟩, hindex, h⟩ := bind_eq_ok.mp h
  obtain ⟨⟨⟩, harray, h⟩ := bind_eq_ok.mp h
  cases h
  exact ⟨check_eq_ok.mp hindex, check_eq_ok.mp harray, rfl⟩

theorem visitNewArray_eq_ok {elementType : BasicType} {dimension : Nat} {size : TExpr}
    (h : visitNewArray elementType dimension size = .ok t) :
    size.targetType.isInt = true ∧ (semaType (.array elementType dimension)).isVoidOrVoidArray = false ∧
      t = .newArray elementType dimension size (semaType (.array elementType dimension)) := by
  unfold visitNewArray at h
  obtain ⟨⟨⟩, hsize, h⟩ := bind_eq_ok.mp h
  obtain ⟨⟨⟩, hvoid, h⟩ := bind_eq_ok.mp h
  cases h
  exact ⟨check_eq_ok.mp hsize, Bool.not_eq_true' _ ▸ check_eq_ok.mp hvoid, rfl⟩

theorem visitNewObject_eq_ok {name : String} (h : visitNewObject cx name = .ok t) :
    (cx.findClassByName name).isSome = true ∧ t = .newObject name (.cls name) := by
  unfold visitNewObject at h
  obtain ⟨⟨⟩, hclass, h⟩ := bind_eq_ok.mp h
  cases h
  exact ⟨check_eq_ok.mp hclass, rfl⟩

theorem visitThisLiteral_eq_ok (h : visitThisLiteral cx = .ok t) :
    cx.currentMethod ≠ .main ∧ t = .thisLiteral (.cls cx.currentClass.name) := by
  unfold visitThisLiteral at h
  split at h
  next hm =>
    cases h
    refine ⟨fun hmain => ?_, rfl⟩
    rw [hm] at hmain
    cases hmain
  next => cases h

/-- What `visitBinaryExpression` asks of the types of the operands, and the type it gives. -/
inductive BinaryTyped : BinaryOp → TExpr → TExpr → SemType → Prop
  | arithmetic {op : BinaryOp} {l r : TExpr}
      (hop : op = .plus ∨ op = .minus ∨ op = .mul ∨ op = .div ∨ op = .mod)
      (hl : l.targetType.isInt = true) (hr : r.targetType.isInt = true) : BinaryTyped op l r .int
  | order {op : BinaryOp} {l r : TExpr}
      (hop : op = .less ∨ op = .lessEquals ∨ op = .greater ∨ op = .greaterEquals)
      (hl : l.targetType.isInt = true) (hr : r.targetType.isInt = true) : BinaryTyped op l r .bool
  | logical {op : BinaryOp} {l r : TExpr} (hop : op = .or ∨ op = .and)
      (hl : l.targetType.isBool = true) (hr : r.targetType.isBool = true) : BinaryTyped op l r .bool
  | assign {l r : TExpr} (hl : l.isRValue = false) (h : l.targetType.accepts r.targetType = true) :
      BinaryTyped .assign l r l.targetType
  | equality {op : BinaryOp} {l r : TExpr} (hop : op = .equals ∨ op = .notEquals)
      (hl : l.targetType.isVoid = false) (hr : r.targetType.isVoid = false)
      (h : l.targetType.accepts r.targetType = true ∨ r.targetType.accepts l.targetType = true) :
      BinaryTyped op l r .bool

theorem visitBinary_eq_ok {op : BinaryOp} {l r : TExpr} (h : visitBinary op l r = .ok t) :
    ∃ type, BinaryTyped op l r type ∧ t = .binary op l r type := by
  unfold visitBinary at h
  cases op
  case plus | minus | mul | div | mod =>
    obtain ⟨⟨⟩, hc, h⟩ := bind_eq_ok.mp h
    cases h
    obtain ⟨hr, hl⟩ := Bool.and_eq_true_iff.mp (check_eq_ok.mp hc)
    exact ⟨_, .arithmetic (by simp) hl hr, rfl⟩
  case less | lessEquals | greater | greaterEquals =>
    obtain ⟨⟨⟩, hc, h⟩ := bind_eq_ok.mp h
    cases h
    obtain ⟨hr, hl⟩ := Bool.and_eq_true_iff.mp (check_eq_ok.mp hc)
    exact ⟨_, .order (by simp) hl hr, rfl⟩
  case or | and =>
    obtain ⟨⟨⟩, hc, h⟩ := bind_eq_ok.mp h
    cases h
    obtain ⟨hr, hl⟩ := Bool.and_eq_true_iff.mp (check_eq_ok.mp hc)
    exact ⟨_, .logical (by simp) hl hr, rfl⟩
  case assign =>
    obtain ⟨⟨⟩, hl, h⟩ := bind_eq_ok.mp h
    obtain ⟨⟨⟩, hc, h⟩ := bind_eq_ok.mp h
    cases h
    exact ⟨_, .assign (Bool.not_eq_true' _ ▸ check_eq_ok.mp hl) (check_eq_ok.mp hc), rfl⟩
  case equals | notEquals =>
    obtain ⟨⟨⟩, hc, h⟩ := bind_eq_ok.mp h
    cases h
    have hc := check_eq_ok.mp hc
    simp only [Bool.and_eq_true, Bool.or_eq_true, Bool.not_eq_true'] at hc
    exact ⟨_, .equality (by simp) hc.1.1 hc.1.2 hc.2, rfl⟩

theorem visitUnary_eq_ok {op : UnaryOp} {e : TExpr} (h : visitUnary op e = .ok t) :
    (op = .neg ∧ e.targetType.isInt = true ∧ t = .unary op e .int) ∨
      (op = .not ∧ e.targetType.isBool = true ∧ t = .unary op e .bool) := by
  unfold visitUnary at h
  cases op
  case neg =>
    obtain ⟨⟨⟩, hc, h⟩ := bind_eq_ok.mp h
    cases h
    exact .inl ⟨rfl, check_eq_ok.mp hc, rfl⟩
  case not =>
    obtain ⟨⟨⟩, hc, h⟩ := bind_eq_ok.mp h
    cases h
    exact .inr ⟨rfl, check_eq_ok.mp hc, rfl⟩

/-- The visit of an expression only adds annotations. -/
theorem visitExpr_source {e : Expr} (h : visitExpr cx tbl e = .ok t) : t.source = e := by
  induction e using Expr.induct generalizing t with
  | intLiteral | boolLiteral | nullLiteral => rw [visitExpr] at h; cases h; rfl
  | thisLiteral =>
    rw [visitExpr] at h
    obtain ⟨-, rfl⟩ := visitThisLiteral_eq_ok h
    rfl
  | varRef name =>
    rw [visitExpr] at h
    rcases visitVarRef_eq_ok h with ⟨-, -, rfl⟩ | ⟨d, type, -, -, -, rfl⟩ <;> rfl
  | methodInvocation left name args ihl iha =>
    rw [visitExpr] at h
    obtain ⟨left', hl, h⟩ := bind_eq_ok.mp h
    obtain ⟨args', ha, h⟩ := bind_eq_ok.mp h
    have hargs : TExpr.sources args' = args := by
      rw [TExpr.sources_eq, ← List.map_id args, ← List.forall₂_eq_eq_eq, List.forall₂_map_left_iff,
        List.forall₂_map_right_iff]
      refine List.Forall₂.flip ((List.forall₂_and_left _ _).mpr ⟨iha, visitExprs_eq_ok.mp ha⟩ |>.imp ?_)
      intro e e' ⟨hih, he⟩
      exact hih he
    rcases visitMethodInvocation_eq_ok h with ⟨_, _, _, _, _, -, -, rfl⟩ | ⟨_, _, -, -, -, -, rfl⟩
    · rw [TExpr.source, ihl hl, hargs]
    · rw [TExpr.source, ihl hl, hargs]
  | fieldAccess left name ih =>
    rw [visitExpr] at h
    obtain ⟨left', hl, h⟩ := bind_eq_ok.mp h
    rcases visitFieldAccess_eq_ok h with ⟨_, _, _, -, -, rfl⟩ | ⟨_, _, -, -, -, rfl⟩
    · rw [TExpr.source, ih hl]
    · rw [TExpr.source, ih hl]
  | arrayAccess array index iha ihi =>
    rw [visitExpr] at h
    obtain ⟨array', ha, h⟩ := bind_eq_ok.mp h
    obtain ⟨index', hi, h⟩ := bind_eq_ok.mp h
    obtain ⟨-, -, rfl⟩ := visitArrayAccess_eq_ok h
    rw [TExpr.source, iha ha, ihi hi]
  | newObject name =>
    rw [visitExpr] at h
    obtain ⟨-, rfl⟩ := visitNewObject_eq_ok h
    rfl
  | newArray elementType dimension size ih =>
    rw [visitExpr] at h
    obtain ⟨⟨⟩, -, h⟩ := bind_eq_ok.mp h
    obtain ⟨size', hs, h⟩ := bind_eq_ok.mp h
    obtain ⟨-, -, rfl⟩ := visitNewArray_eq_ok h
    rw [TExpr.source, ih hs]
  | binary op left right ihl ihr =>
    rw [visitExpr] at h
    obtain ⟨left', hl, h⟩ := bind_eq_ok.mp h
    obtain ⟨right', hr, h⟩ := bind_eq_ok.mp h
    obtain ⟨type, -, rfl⟩ := visitBinary_eq_ok h
    rw [TExpr.source, ihl hl, ihr hr]
  | unary op e ih =>
    rw [visitExpr] at h
    obtain ⟨e', he, h⟩ := bind_eq_ok.mp h
    rcases visitUnary_eq_ok h with ⟨-, -, rfl⟩ | ⟨-, -, rfl⟩
    · rw [TExpr.source, ih he]
    · rw [TExpr.source, ih he]

end Expressions

/-! ## Statements -/

section Visits

variable {cx : Context} {tbl : Table} {st st' : St} {t : TStmt}

theorem visitOptExpr_eq_ok {o : Option Expr} {t : Option TExpr} :
    visitOptExpr cx tbl o = .ok t ↔
      (o = none ∧ t = none) ∨ ∃ e e', o = some e ∧ t = some e' ∧ visitExpr cx tbl e = .ok e' := by
  cases o with
  | none =>
    rw [visitOptExpr]
    constructor
    · intro h; cases h; exact .inl ⟨rfl, rfl⟩
    · rintro (⟨-, rfl⟩ | ⟨_, _, h, -⟩)
      · rfl
      · cases h
  | some e =>
    rw [visitOptExpr]
    simp only [bind_eq_ok, pure_eq_ok]
    constructor
    · rintro ⟨e', he, rfl⟩; exact .inr ⟨e, e', rfl, rfl, he⟩
    · rintro (⟨h, -⟩ | ⟨_, e', h, rfl, he⟩)
      · cases h
      · cases h; exact ⟨e', he, rfl⟩

theorem declare_eq_ok {type : Ty} {name : String} :
    declare st type name = .ok st' ↔
      st.symTbl.isDefinedInCurrentScope name = false ∧ mayHide (st.symTbl.lookup name) = true ∧
        st' = ⟨st.symTbl.insert name (.variable st.currentLocalVarDeclNr type), st.currentLocalVarDeclNr + 1⟩ := by
  unfold declare
  simp only [bind_eq_ok, check_eq_ok, pure_eq_ok, Bool.not_eq_true', exists_and_left, exists_const, eq_comm (a := st')]

theorem cutDeadCode_append (l : List TStmt) : (cutDeadCode l).1 ++ (cutDeadCode l).2 = l := by
  induction l with
  | nil => rfl
  | cons s l ih =>
    unfold cutDeadCode
    by_cases h : s.cfb = .return
    · rw [if_pos h]; rfl
    · rw [if_neg h]
      show s :: ((cutDeadCode l).1 ++ (cutDeadCode l).2) = s :: l
      rw [ih]

theorem visitStmt_block_eq_ok {l : List Stmt} {lonely : Bool} :
    visitStmt cx st (.block l lonely) = .ok (t, st') ↔
      ∃ ts n tbl tbl', visitStmts cx ⟨st.symTbl.enterScope, st.currentLocalVarDeclNr⟩ l = .ok (ts, ⟨tbl, n⟩) ∧
        leave tbl = .ok tbl' ∧ t = finishBlock ts lonely ∧ st' = ⟨tbl', n⟩ := by
  rw [visitStmt]
  simp only [bind_eq_ok, pure_eq_ok, Prod.exists, Prod.mk.injEq]
  constructor
  · rintro ⟨ts, ⟨tbl, n⟩, h, tbl', h', rfl, rfl⟩; exact ⟨ts, n, tbl, tbl', h, h', rfl, rfl⟩
  · rintro ⟨ts, n, tbl, tbl', h, h', rfl, rfl⟩; exact ⟨ts, ⟨tbl, n⟩, h, tbl', h', rfl, rfl⟩

theorem visitStmt_varDecl_eq_ok {type : Ty} {name : String} {o : Option Expr} :
    visitStmt cx st (.varDecl type name o) = .ok (t, st') ↔
      ∃ o', declare st type name = .ok st' ∧ visitType cx type = .ok () ∧
        visitOptExpr cx st'.symTbl o = .ok o' ∧ checkDeclaration (semaType type) o' = .ok () ∧
        t = .varDecl type name st.currentLocalVarDeclNr o' := by
  rw [visitStmt]
  simp only [bind_eq_ok, pure_eq_ok, Prod.mk.injEq]
  constructor
  · rintro ⟨st₁, h₁, ⟨⟩, h₂, o', h₃, ⟨⟩, h₄, rfl, rfl⟩; exact ⟨o', h₁, h₂, h₃, h₄, rfl⟩
  · rintro ⟨o', h₁, h₂, h₃, h₄, rfl⟩; exact ⟨st', h₁, (), h₂, o', h₃, (), h₄, rfl, rfl⟩

theorem visitStmt_exprStmt_eq_ok {e : Expr} :
    visitStmt cx st (.exprStmt e) = .ok (t, st') ↔
      ∃ e', visitExpr cx st.symTbl e = .ok e' ∧ t = .exprStmt e' ∧ st' = st := by
  rw [visitStmt]
  simp only [bind_eq_ok, pure_eq_ok, Prod.mk.injEq]
  constructor
  · rintro ⟨e', h, rfl, rfl⟩; exact ⟨e', h, rfl, rfl⟩
  · rintro ⟨e', h, rfl, rfl⟩; exact ⟨e', h, rfl, rfl⟩

theorem visitStmt_ifStmt_eq_ok {c : Expr} {s₁ s₂ : Option Stmt} :
    visitStmt cx st (.ifStmt c s₁ s₂) = .ok (t, st') ↔
      ∃ c' t₁ st₁ t₂, visitExpr cx st.symTbl c = .ok c' ∧ visitOptStmt cx st s₁ = .ok (t₁, st₁) ∧
        visitOptStmt cx st₁ s₂ = .ok (t₂, st') ∧ c'.targetType.isBool = true ∧
        t = .ifStmt c' t₁ t₂ (combineCFB (branchCFB t₁) (branchCFB t₂)) := by
  rw [visitStmt]
  simp only [bind_eq_ok, pure_eq_ok, check_eq_ok, Prod.exists, Prod.mk.injEq]
  constructor
  · rintro ⟨c', h₁, t₁, st₁, h₂, t₂, st₂, h₃, -, h₄, rfl, rfl⟩; exact ⟨c', t₁, st₁, t₂, h₁, h₂, h₃, h₄, rfl⟩
  · rintro ⟨c', t₁, st₁, t₂, h₁, h₂, h₃, h₄, rfl⟩; exact ⟨c', h₁, t₁, st₁, h₂, t₂, st', h₃, (), h₄, rfl, rfl⟩

theorem visitStmt_whileStmt_eq_ok {c : Expr} {s : Option Stmt} :
    visitStmt cx st (.whileStmt c s) = .ok (t, st') ↔
      ∃ c' t₁, visitExpr cx st.symTbl c = .ok c' ∧ visitOptStmt cx st s = .ok (t₁, st') ∧
        c'.targetType.isBool = true ∧ t = .whileStmt c' t₁ := by
  rw [visitStmt]
  simp only [bind_eq_ok, pure_eq_ok, check_eq_ok, Prod.exists, Prod.mk.injEq]
  constructor
  · rintro ⟨c', h₁, t₁, st₁, h₂, -, h₃, rfl, rfl⟩; exact ⟨c', t₁, h₁, h₂, h₃, rfl⟩
  · rintro ⟨c', t₁, h₁, h₂, h₃, rfl⟩; exact ⟨c', h₁, t₁, st', h₂, (), h₃, rfl, rfl⟩

theorem visitStmt_returnStmt_eq_ok {o : Option Expr} :
    visitStmt cx st (.returnStmt o) = .ok (t, st') ↔
      ∃ o', visitOptExpr cx st.symTbl o = .ok o' ∧ checkReturn cx.currentMethod.returnType o' = .ok () ∧
        t = .returnStmt o' ∧ st' = st := by
  rw [visitStmt]
  simp only [bind_eq_ok, pure_eq_ok, Prod.mk.injEq]
  constructor
  · rintro ⟨o', h₁, ⟨⟩, h₂, rfl, rfl⟩; exact ⟨o', h₁, h₂, rfl, rfl⟩
  · rintro ⟨o', h₁, h₂, rfl, rfl⟩; exact ⟨o', h₁, (), h₂, rfl, rfl⟩

theorem visitStmts_cons_eq_ok {s : Stmt} {l : List Stmt} {ts : List TStmt} :
    visitStmts cx st (s :: l) = .ok (ts, st') ↔
      ∃ t st₁ ts', visitStmt cx st s = .ok (t, st₁) ∧ visitStmts cx st₁ l = .ok (ts', st') ∧ ts = t :: ts' := by
  rw [visitStmts]
  simp only [bind_eq_ok, pure_eq_ok, Prod.exists, Prod.mk.injEq]
  constructor
  · rintro ⟨t, st₁, h₁, ts', st₂, h₂, rfl, rfl⟩; exact ⟨t, st₁, ts', h₁, h₂, rfl⟩
  · rintro ⟨t, st₁, ts', h₁, h₂, rfl⟩; exact ⟨t, st₁, h₁, ts', st', h₂, rfl, rfl⟩

theorem visitOptStmt_some_eq_ok {s : Stmt} {o : Option TStmt} :
    visitOptStmt cx st (some s) = .ok (o, st') ↔ ∃ t, visitStmt cx st s = .ok (t, st') ∧ o = some t := by
  rw [visitOptStmt]
  simp only [bind_eq_ok, pure_eq_ok, Prod.exists, Prod.mk.injEq]
  constructor
  · rintro ⟨t, st₁, h, rfl, rfl⟩; exact ⟨t, h, rfl⟩
  · rintro ⟨t, h, rfl⟩; exact ⟨t, st', h, rfl, rfl⟩

end Visits

/-! ## The symbol table -/

section Tables

variable {cx : Context}

/-- The statements of a list extend the table, if each of them does. -/
theorem visitStmts_extends_of {l : List Stmt}
    (ih : ∀ s ∈ l, ∀ st t st', visitStmt cx st s = .ok (t, st') → Extends st.symTbl st'.symTbl)
    {st st' : St} {ts : List TStmt} (h : visitStmts cx st l = .ok (ts, st')) : Extends st.symTbl st'.symTbl := by
  induction l generalizing st ts with
  | nil => rw [visitStmts] at h; cases h; exact .refl _
  | cons s l ihl =>
    obtain ⟨t, st₁, ts', h₁, h₂, -⟩ := visitStmts_cons_eq_ok.mp h
    exact (ih s List.mem_cons_self _ _ _ h₁).trans (ihl (fun s hs => ih s (List.mem_cons_of_mem _ hs)) h₂)

theorem visitOptStmt_extends_of {o : Option Stmt}
    (ih : ∀ s ∈ o, ∀ st t st', visitStmt cx st s = .ok (t, st') → Extends st.symTbl st'.symTbl)
    {st st' : St} {t : Option TStmt} (h : visitOptStmt cx st o = .ok (t, st')) :
    Extends st.symTbl st'.symTbl := by
  cases o with
  | none => rw [visitOptStmt] at h; cases h; exact .refl _
  | some s =>
    obtain ⟨t', h', -⟩ := visitOptStmt_some_eq_ok.mp h
    exact ih s rfl _ _ _ h'

theorem visitStmt_extends {st st' : St} {s : Stmt} {t : TStmt} (h : visitStmt cx st s = .ok (t, st')) :
    Extends st.symTbl st'.symTbl := by
  induction s using Stmt.induct generalizing st t st' with
  | block l lonely ih =>
    obtain ⟨ts, n, tbl, tbl', h₁, h₂, -, rfl⟩ := visitStmt_block_eq_ok.mp h
    have hext := visitStmts_extends_of (fun s hs _ _ _ => ih s hs) h₁
    rw [leave_of_extends hext] at h₂
    cases h₂
    exact .refl _
  | varDecl type name o =>
    obtain ⟨o', h₁, -⟩ := visitStmt_varDecl_eq_ok.mp h
    obtain ⟨-, -, rfl⟩ := declare_eq_ok.mp h₁
    exact .insert _ _ _
  | exprStmt e =>
    obtain ⟨e', -, -, rfl⟩ := visitStmt_exprStmt_eq_ok.mp h
    exact .refl _
  | ifStmt c s₁ s₂ ih₁ ih₂ =>
    obtain ⟨c', t₁, st₁, t₂, -, h₁, h₂, -, -⟩ := visitStmt_ifStmt_eq_ok.mp h
    exact (visitOptStmt_extends_of (fun s hs _ _ _ => ih₁ s hs) h₁).trans
      (visitOptStmt_extends_of (fun s hs _ _ _ => ih₂ s hs) h₂)
  | whileStmt c s ih =>
    obtain ⟨c', t₁, -, h₁, -, -⟩ := visitStmt_whileStmt_eq_ok.mp h
    exact visitOptStmt_extends_of (fun s hs _ _ _ => ih s hs) h₁
  | returnStmt o =>
    obtain ⟨o', -, -, -, rfl⟩ := visitStmt_returnStmt_eq_ok.mp h
    exact .refl _

theorem visitStmts_extends {st st' : St} {l : List Stmt} {ts : List TStmt}
    (h : visitStmts cx st l = .ok (ts, st')) : Extends st.symTbl st'.symTbl :=
  visitStmts_extends_of (fun _ _ _ _ _ => visitStmt_extends) h

/-- A block gives back the table it was given. -/
theorem visitStmt_block_visits {st st' : St} {l : List Stmt} {lonely : Bool} {t : TStmt} :
    visitStmt cx st (.block l lonely) = .ok (t, st') ↔
      ∃ ts tbl n, visitStmts cx ⟨st.symTbl.enterScope, st.currentLocalVarDeclNr⟩ l = .ok (ts, ⟨tbl, n⟩) ∧
        t = finishBlock ts lonely ∧ st' = ⟨st.symTbl, n⟩ := by
  rw [visitStmt_block_eq_ok]
  constructor
  · rintro ⟨ts, n, tbl, tbl', h₁, h₂, rfl, rfl⟩
    rw [leave_of_extends (visitStmts_extends h₁)] at h₂
    cases h₂
    exact ⟨ts, tbl, n, h₁, rfl, rfl⟩
  · rintro ⟨ts, tbl, n, h₁, rfl, rfl⟩
    exact ⟨ts, n, tbl, st.symTbl, h₁, leave_of_extends (visitStmts_extends h₁), rfl, rfl⟩

end Tables

end Mjc.Sema

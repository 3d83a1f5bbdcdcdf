import Mjc.Parser.WellFormed
import Mjc.Sema.Checking
import Mjc.Sema.Typing

/-!
# Types of accepted programs by the rules

* `Conforms` : the nodes of an annotated expression carry the types of the rules, apart from the receivers of calls on
  the streams;
* `OnlyReceivers` : `System`, `System.out` and `System.in` stand nowhere else;
* `NoStray` : they are not operands of `=`, `==` and `!=`;
* `visitExpr_conforms`, `visitStmt_conforms` : what is visited without an error conforms, unless such a name is astray;
* `BodyVisit` : the visits of the bodies of a program;
* `typing_exact` : the visitor implements the rules, apart from the names that are astray.
-/

namespace Mjc.Sema
open Mjc.Ast Mjc.Parser SymbolTable

set_option autoImplicit false

/-! ## Nodes -/

/-- The direct subexpressions. -/
def exprChildren : Expr → List Expr
  | .intLiteral _ | .boolLiteral _ | .nullLiteral | .thisLiteral | .varRef _ | .newObject _ => []
  | .methodInvocation left _ arguments => left :: arguments
  | .fieldAccess left _ => [left]
  | .arrayAccess array index => [array, index]
  | .newArray _ _ size => [size]
  | .binary _ left right => [left, right]
  | .unary _ expression => [expression]

/-- The direct subexpressions of an annotated expression. -/
def TExpr.children : TExpr → List TExpr
  | .intLiteral _ | .boolLiteral _ | .nullLiteral | .thisLiteral _ | .varRef _ _ _ | .newObject _ _ => []
  | .methodInvocation left _ arguments _ _ => left :: arguments
  | .fieldAccess left _ _ _ => [left]
  | .arrayAccess array index _ => [array, index]
  | .newArray _ _ size _ => [size]
  | .binary _ left right _ => [left, right]
  | .unary _ expression _ => [expression]

/-- The `targetType` of an expression is the one type that the rules give. -/
def Carries (Γ : Env) (ls : Locals) (t : TExpr) : Prop :=
  ∃ τ, HasType Γ ls t.source τ ∧ (∀ σ, HasType Γ ls t.source σ → σ = τ) ∧ t.targetType.ruleType = some τ ∧
    Γ.Proper τ ∧ (τ = .void → isCall t.source = true)

/-- All nodes of an annotated expression carry their types, apart from the receivers of calls on the streams. -/
inductive Conforms (Γ : Env) (ls : Locals) : TExpr → Prop
  | node {t : TExpr} (h : Carries Γ ls t) (hc : ∀ c ∈ t.children, Conforms Γ ls c) : Conforms Γ ls t
  | streamCall {left : TExpr} {name : String} {args : List TExpr} {d : CallDef} {type : SemType}
      (hs : StreamCall Γ.frame ls left.source name) (h : Carries Γ ls (.methodInvocation left name args d type))
      (ha : ∀ a ∈ args, Conforms Γ ls a) : Conforms Γ ls (.methodInvocation left name args d type)

/-- `System`, `System.out` and `System.in` are only receivers of calls on the streams. -/
inductive OnlyReceivers (fr : Frame) (ls : Locals) : Expr → Prop
  | node {e : Expr} (h : ¬ IsSystemName fr ls e) (hc : ∀ c ∈ exprChildren e, OnlyReceivers fr ls c) :
      OnlyReceivers fr ls e
  | streamCall {left : Expr} {name : String} {args : List Expr} (hs : StreamCall fr ls left name)
      (ha : ∀ a ∈ args, OnlyReceivers fr ls a) : OnlyReceivers fr ls (.methodInvocation left name args)

/-- The operators whose operands may have any type. -/
def isLoose : BinaryOp → Bool
  | .assign | .equals | .notEquals => true
  | _ => false

/-- None of `System`, `System.out` and `System.in` is an operand of `=`, `==` or `!=`. -/
inductive NoStray (fr : Frame) (ls : Locals) : Expr → Prop
  | node {e : Expr}
      (h : ∀ op l r, e = .binary op l r → isLoose op = true → ¬ IsSystemName fr ls l ∧ ¬ IsSystemName fr ls r)
      (hc : ∀ c ∈ exprChildren e, NoStray fr ls c) : NoStray fr ls e

section Nodes

variable {fr : Frame} {ls : Locals}

theorem NoStray.child {e c : Expr} (h : NoStray fr ls e) (hc : c ∈ exprChildren e) : NoStray fr ls c := by
  cases h with
  | node _ h => exact h c hc

theorem NoStray.operands {op : BinaryOp} {l r : Expr} (h : NoStray fr ls (.binary op l r)) (hop : isLoose op = true) :
    ¬ IsSystemName fr ls l ∧ ¬ IsSystemName fr ls r := by
  cases h with
  | node h _ => exact h op l r rfl hop

theorem OnlyReceivers.not_isSystemName {e : Expr} (h : OnlyReceivers fr ls e) : ¬ IsSystemName fr ls e := by
  cases h with
  | node h _ => exact h
  | streamCall _ _ =>
    rintro ⟨-, h | h | h⟩ <;> cases h

theorem noStray_stream (name : String) : NoStray fr ls (.fieldAccess (.varRef "System") name) := by
  refine .node (fun _ _ _ h => nomatch h) fun c hc => ?_
  obtain rfl := List.mem_singleton.mp hc
  exact .node (fun _ _ _ h => nomatch h) (List.forall_mem_nil _)

theorem StreamCall.noStray {left : Expr} {name : String} (h : StreamCall fr ls left name) : NoStray fr ls left := by
  obtain ⟨-, ⟨rfl, -⟩ | ⟨rfl, -⟩⟩ := h
  · exact noStray_stream _
  · exact noStray_stream _

theorem OnlyReceivers.noStray {e : Expr} (h : OnlyReceivers fr ls e) : NoStray fr ls e := by
  induction h with
  | @node e _ hc ih =>
    refine .node ?_ ih
    rintro op l r rfl -
    exact ⟨(hc l (by simp [exprChildren])).not_isSystemName, (hc r (by simp [exprChildren])).not_isSystemName⟩
  | @streamCall left name args hs _ ih =>
    refine .node (fun _ _ _ h => nomatch h) fun c hc => ?_
    rcases List.mem_cons.mp hc with rfl | hc
    · exact hs.noStray
    · exact ih c hc

end Nodes

theorem children_source (t : TExpr) : exprChildren t.source = t.children.map TExpr.source := by
  cases t with
  | methodInvocation left name args d type =>
    show left.source :: TExpr.sources args = _
    rw [TExpr.sources_eq]
    rfl
  | _ => rfl

/-- What conforms has the names of the streams only as receivers. -/
theorem Conforms.onlyReceivers {Γ : Env} {ls : Locals} {t : TExpr} (h : Conforms Γ ls t) :
    OnlyReceivers Γ.frame ls t.source := by
  induction h with
  | node h _ ih =>
    obtain ⟨τ, hτ, -⟩ := h
    refine .node (fun hsys => hsys.not_hasType τ hτ) fun c hc => ?_
    rw [children_source] at hc
    obtain ⟨c', hc', rfl⟩ := List.mem_map.mp hc
    exact ih c' hc'
  | streamCall hs _ _ ih =>
    refine .streamCall hs fun a ha => ?_
    rw [TExpr.sources_eq] at ha
    obtain ⟨a', ha', rfl⟩ := List.mem_map.mp ha
    exact ih a' ha'

/-! ## Bodies -/

/-- An expression of a body that is not part of another one. -/
structure Point where
  locals : Locals
  /-- the expression is a statement -/
  alone : Bool
  expr : Expr

/-- The initializer of a variable, or what is returned. -/
def pointsOf (ls : Locals) : Option Expr → List Point
  | none => []
  | some e => [⟨ls, false, e⟩]

mutual

/-- The expressions of a statement in textual order; a variable is visible in its own initializer. -/
def points (ls : Locals) (n : Nat) : Stmt → List Point
  | .block l _ => pointsAll ls n l
  | .varDecl type name o => pointsOf ((name, n, type) :: ls) o
  | .exprStmt e => [⟨ls, true, e⟩]
  | .ifStmt c s₁ s₂ =>
    ⟨ls, false, c⟩ :: (pointsOpt ls n s₁ ++ pointsOpt (optDeclared n s₁ ++ ls) (n + optVarCount s₁) s₂)
  | .whileStmt c s => ⟨ls, false, c⟩ :: pointsOpt ls n s
  | .returnStmt o => pointsOf ls o

/-- The expressions of the statements of a block. -/
def pointsAll (ls : Locals) (n : Nat) : List Stmt → List Point
  | [] => []
  | s :: l => points ls n s ++ pointsAll (declared n s ++ ls) (n + varCount s) l

/-- The expressions of a statement that may be missing. -/
def pointsOpt (ls : Locals) (n : Nat) : Option Stmt → List Point
  | none => []
  | some s => points ls n s

end

mutual

/-- The annotated expressions of a statement, those of the erased statements included. -/
def TStmt.exprs : TStmt → List TExpr
  | .block ss es _ _ => TStmt.exprsAll ss ++ TStmt.exprsAll es
  | .varDecl _ _ _ o => o.toList
  | .exprStmt e => [e]
  | .ifStmt c t₁ t₂ _ => c :: (TStmt.exprsOpt t₁ ++ TStmt.exprsOpt t₂)
  | .whileStmt c t => c :: TStmt.exprsOpt t
  | .returnStmt o => o.toList

/-- The annotated expressions of the statements of a block. -/
def TStmt.exprsAll : List TStmt → List TExpr
  | [] => []
  | s :: l => s.exprs ++ TStmt.exprsAll l

/-- The annotated expressions of a statement that may be missing. -/
def TStmt.exprsOpt : Option TStmt → List TExpr
  | none => []
  | some s => s.exprs

end

/-- The expression has the types of the rules, and the names of the streams where they belong. -/
structure Point.Follows (Γ : Env) (o : Point) (t : TExpr) : Prop where
  source : t.source = o.expr
  types : Conforms Γ o.locals t
  names : OnlyReceivers Γ.frame o.locals o.expr

/-- No name of a stream is an operand of `=`, `==` or `!=`, or a statement. -/
structure Point.Clear (fr : Frame) (o : Point) : Prop where
  operands : NoStray fr o.locals o.expr
  statement : o.alone = true → ¬ IsSystemName fr o.locals o.expr

/-- All expressions of a body have the types of the rules. -/
def BodyFollows (Γ : Env) (s : Stmt) (t : TStmt) : Prop := List.Forall₂ (Point.Follows Γ) (points [] 0 s) t.exprs

/-- No name of a stream is astray in a body. -/
def BodyClear (fr : Frame) (s : Stmt) : Prop := ∀ o ∈ points [] 0 s, o.Clear fr

theorem BodyFollows.clear {Γ : Env} {s : Stmt} {t : TStmt} (h : BodyFollows Γ s t) : BodyClear Γ.frame s := by
  intro o ho
  obtain ⟨e, -, he⟩ := exists_right_of_mem h ho
  exact ⟨he.names.noStray, fun _ => he.names.not_isSystemName⟩

theorem TStmt.exprsAll_append (l l' : List TStmt) :
    TStmt.exprsAll (l ++ l') = TStmt.exprsAll l ++ TStmt.exprsAll l' := by
  induction l with
  | nil => rfl
  | cons s l ih =>
    show s.exprs ++ TStmt.exprsAll (l ++ l') = s.exprs ++ TStmt.exprsAll l ++ TStmt.exprsAll l'
    rw [ih, List.append_assoc]

/-! ## Soundness -/

/-- The visitor finds what the rules find, and nothing else. -/
structure Knows (cx : Context) (Γ : Env) : Prop extends Finds cx Γ where
  found : ∀ name c', cx.findClassByName name = some c' → ∃ c, Declared Ast.Class.name Γ.classes name c ∧
    (∀ x f, findFieldInClass c' x = some f → Declared Ast.Field.name c.fields x f) ∧
      ∀ x m, findMethodInClass c' x = some m → Declared RegularMethod.name c.methods x m

theorem Env.Sensible.append {Γ : Env} {ls ls' : Locals} (h : Γ.Sensible ls)
    (hl : ∀ v ∈ ls', Γ.VariableType v.2.2 ∧ PositiveDimension v.2.2) : Γ.Sensible (ls' ++ ls) :=
  { h with locals := fun v hv => (List.mem_append.mp hv).elim (hl v) (h.locals v) }

theorem SemType.ruleType_of_accepts {t o : SemType} {τ : RuleType} (ht : t.ruleType = some τ)
    (h : t.accepts o = true) : ∃ σ, o.ruleType = some σ := by
  rcases SemType.accepts_kind h with hk | ⟨hn, -⟩
  · obtain ⟨kind, innerKind, name, dimension⟩ := t
    obtain ⟨kind', innerKind', name', dimension'⟩ := o
    obtain rfl : kind = kind' := hk
    cases kind
    case array =>
      have hinner : innerKind = innerKind' := by
        by_contra hne
        simp [SemType.accepts, SemType.same, hne] at h
      subst hinner
      cases innerKind <;> first | exact ⟨_, rfl⟩ | cases ht
    case unresolved => cases ht
    all_goals exact ⟨_, rfl⟩
  · exact ⟨_, SemType.ruleType_isNull.mp hn⟩

section Sound

variable {cx : Context} {Γ : Env} {ls : Locals} {tbl : Table}

/-- The dummies of the streams have no type. -/
theorem IsSystemName.unresolved {e : Expr} (hsys : IsSystemName Γ.frame ls e) (hr : Rel Γ.frame ls tbl) {t : TExpr}
    (h : visitExpr cx tbl e = .ok t) : t.targetType = .unresolved := by
  obtain ⟨hs, rfl | rfl | rfl⟩ := hsys
  · rw [visitExpr_system hr hs] at h; cases h; rfl
  · rw [visitExpr_systemOut hr hs] at h; cases h; rfl
  · rw [visitExpr_systemIn hr hs] at h; cases h; rfl

theorem not_isSystemName (hr : Rel Γ.frame ls tbl) {e : Expr} {t : TExpr} {τ : RuleType}
    (h : visitExpr cx tbl e = .ok t) (ht : t.targetType.ruleType = some τ) : ¬ IsSystemName Γ.frame ls e := by
  intro hsys
  rw [hsys.unresolved hr h] at ht
  cases ht

/-- An expression that the rules give a type carries it. -/
theorem carries_of_hasType (hf : Finds cx Γ) (hr : Rel Γ.frame ls tbl) (hs : Γ.Sensible ls) {e : Expr} {t : TExpr}
    {τ : RuleType} (h : visitExpr cx tbl e = .ok t) (he : HasType Γ ls e τ) : Carries Γ ls t := by
  have hcarried (σ : RuleType) (hσ : HasType Γ ls e σ) : t.targetType.ruleType = some σ := by
    obtain ⟨t', ht', htype⟩ := visitExpr_complete hf hr hσ
    rw [h] at ht'
    cases ht'
    exact htype
  obtain ⟨hproper, hvoid⟩ := he.proper hs
  refine ⟨τ, ?_, ?_, hcarried τ he, hproper, ?_⟩
  · rw [visitExpr_source h]; exact he
  · intro σ hσ
    rw [visitExpr_source h] at hσ
    exact Option.some.inj ((hcarried σ hσ).symm.trans (hcarried τ he))
  · rw [visitExpr_source h]; exact hvoid

theorem Conforms.carries {t : TExpr} (h : Conforms Γ ls t) : Carries Γ ls t := by
  cases h with
  | node h _ => exact h
  | streamCall _ h _ => exact h

theorem visitVarRef_systemVisible (hr : Rel Γ.frame ls tbl) {x : String} {type : SemType}
    (h : visitVarRef cx tbl x = .ok (.varRef x .system type)) : x = "System" ∧ SystemVisible Γ.frame ls := by
  rcases visitVarRef_eq_ok h with ⟨hl, rfl, -⟩ | ⟨_, _, -, -, -, ht⟩
  · have hsees := hr.sees "System"
    rw [hl] at hsees
    cases hsees with
    | nothing hl hp hm hf => exact ⟨rfl, .system hl hp hm hf rfl⟩
  · cases ht

/-- A receiver that is marked as a stream is `System.out` or `System.in`. -/
theorem visitExpr_stream (hr : Rel Γ.frame ls tbl) {e : Expr} {x : TExpr} {y : String} {d : AccessDef} {type : SemType}
    (h : visitExpr cx tbl e = .ok (.fieldAccess x y d type)) (hd : d = .systemOut ∨ d = .systemIn) :
    SystemVisible Γ.frame ls ∧
      e = .fieldAccess (.varRef "System") (if d = .systemOut then "out" else "in") := by
  obtain ⟨rfl, hx, h⟩ := visitExpr_fieldAccess h
  unfold visitFieldAccess at h
  split at h
  next z ztype =>
    obtain ⟨-, hz⟩ := visitExpr_varRef hx
    obtain ⟨rfl, hs⟩ := visitVarRef_systemVisible hr hz
    refine ⟨hs, ?_⟩
    by_cases hout : y = "out"
    · rw [if_pos hout] at h; cases h; rw [if_pos rfl, hout]; rfl
    · rw [if_neg hout] at h
      by_cases hin : y = "in"
      · rw [if_pos hin] at h; cases h; rw [if_neg (by decide), hin]; rfl
      · rw [if_neg hin] at h; cases h
  next => cases h
  next => cases h
  next =>
    obtain ⟨_, _, -, -, -, ht⟩ := visitMember_eq_ok h
    cases ht
    rcases hd with hd | hd <;> cases hd

/-- The arguments of a call carry types. -/
theorem exists_types {args : List Expr} {ts : List TExpr}
    (h : List.Forall₂ (fun e t => visitExpr cx tbl e = .ok t) args ts) (hc : ∀ t ∈ ts, Conforms Γ ls t) :
    ∃ types : List RuleType, args.length = types.length ∧ (∀ a ∈ args.zip types, HasType Γ ls a.1 a.2) ∧
      List.Forall₂ (fun t τ => t.targetType.ruleType = some τ) ts types := by
  induction h with
  | nil => exact ⟨[], rfl, List.forall_mem_nil _, .nil⟩
  | cons ht _ ih =>
    obtain ⟨types, hlen, htypes, hrule⟩ := ih fun t ht => hc t (List.mem_cons_of_mem _ ht)
    obtain ⟨τ, hτ, -, htype, -, -⟩ := (hc _ List.mem_cons_self).carries
    rw [visitExpr_source ht] at hτ
    exact ⟨τ :: types, congrArg (· + 1) hlen, List.forall_mem_cons.mpr ⟨hτ, htypes⟩, .cons htype hrule⟩

theorem assignable_of_accepts {params : List Parameter} {ts : List TExpr} {types : List RuleType}
    (hacc : List.Forall₂ (fun p t => (semaType p.type).accepts t.targetType = true) params ts)
    (ht : List.Forall₂ (fun t τ => t.targetType.ruleType = some τ) ts types) :
    List.Forall₂ (fun p τ => Assignable (ruleType p.type) τ) params types := by
  induction hacc generalizing types with
  | nil => cases ht; exact .nil
  | cons h _ ih =>
    cases ht with
    | cons ht hts => exact .cons ((SemType.accepts_iff (SemType.ruleType_semaType _) ht).mp h) (ih hts)

theorem conforms_node (hf : Finds cx Γ) (hr : Rel Γ.frame ls tbl) (hs : Γ.Sensible ls) {e : Expr} {t : TExpr}
    {τ : RuleType} (h : visitExpr cx tbl e = .ok t) (he : HasType Γ ls e τ) (hc : ∀ c ∈ t.children, Conforms Γ ls c) :
    Conforms Γ ls t :=
  .node (carries_of_hasType hf hr hs h he) hc

/-- The type of the rules of an annotated expression that conforms. -/
theorem Conforms.hasType {e : Expr} {t : TExpr} {τ : RuleType} (hc : Conforms Γ ls t) (h : visitExpr cx tbl e = .ok t)
    (ht : t.targetType.ruleType = some τ) : HasType Γ ls e τ := by
  obtain ⟨σ, hσ, -, htype, -, -⟩ := hc.carries
  rw [visitExpr_source h] at hσ
  obtain rfl : τ = σ := Option.some.inj (ht.symm.trans htype)
  exact hσ

theorem conforms_binary (hk : Knows cx Γ) (hr : Rel Γ.frame ls tbl) (hs : Γ.Sensible ls) {op : BinaryOp} {l r : Expr}
    {l' r' : TExpr} {type : SemType} (hn : NoStray Γ.frame ls (.binary op l r))
    (ihl : ¬ IsSystemName Γ.frame ls l → Conforms Γ ls l') (ihr : ¬ IsSystemName Γ.frame ls r → Conforms Γ ls r')
    (hl : visitExpr cx tbl l = .ok l') (hr' : visitExpr cx tbl r = .ok r') (ht : BinaryTyped op l' r' type)
    (h : visitExpr cx tbl (.binary op l r) = .ok (.binary op l' r' type)) :
    Conforms Γ ls (.binary op l' r' type) := by
  have typed {τ σ : RuleType} (hτ : l'.targetType.ruleType = some τ) (hσ : r'.targetType.ruleType = some σ) :
      Conforms Γ ls l' ∧ Conforms Γ ls r' :=
    ⟨ihl (not_isSystemName hr hl hτ), ihr (not_isSystemName hr hr' hσ)⟩
  have both {ρ : RuleType} (hc : Conforms Γ ls l' ∧ Conforms Γ ls r') (he : HasType Γ ls (.binary op l r) ρ) :
      Conforms Γ ls (.binary op l' r' type) := by
    refine conforms_node hk.toFinds hr hs h he fun c hmem => ?_
    rcases List.mem_cons.mp hmem with rfl | hmem
    · exact hc.1
    · exact List.mem_singleton.mp hmem ▸ hc.2
  have loose (hop : isLoose op = true) : Conforms Γ ls l' ∧ Conforms Γ ls r' :=
    ⟨ihl (hn.operands hop).1, ihr (hn.operands hop).2⟩
  cases ht with
  | arithmetic hop hil hir =>
    have hil := SemType.ruleType_isInt.mp hil
    have hir := SemType.ruleType_isInt.mp hir
    have hc := typed hil hir
    exact both hc (.arithmetic hop (hc.1.hasType hl hil) (hc.2.hasType hr' hir))
  | order hop hil hir =>
    have hil := SemType.ruleType_isInt.mp hil
    have hir := SemType.ruleType_isInt.mp hir
    have hc := typed hil hir
    exact both hc (.order hop (hc.1.hasType hl hil) (hc.2.hasType hr' hir))
  | logical hop hbl hbr =>
    have hbl := SemType.ruleType_isBool.mp hbl
    have hbr := SemType.ruleType_isBool.mp hbr
    have hc := typed hbl hbr
    exact both hc (.logical hop (hc.1.hasType hl hbl) (hc.2.hasType hr' hbr))
  | assign hlv hacc =>
    have hc := loose rfl
    obtain ⟨τ, hτ, -, htl, -, -⟩ := hc.1.carries
    obtain ⟨σ, hσ, -, htr, -, -⟩ := hc.2.carries
    rw [visitExpr_source hl] at hτ
    rw [visitExpr_source hr'] at hσ
    rw [isRValue_source, visitExpr_source hl, Bool.not_eq_false'] at hlv
    exact both hc (.assign hlv hτ hσ ((SemType.accepts_iff htl htr).mp hacc))
  | equality hop hvl hvr hacc =>
    have hloose : isLoose op = true := by rcases hop with rfl | rfl <;> rfl
    have hc := loose hloose
    obtain ⟨τ, hτ, -, htl, -, -⟩ := hc.1.carries
    obtain ⟨σ, hσ, -, htr, -, -⟩ := hc.2.carries
    rw [visitExpr_source hl] at hτ
    rw [visitExpr_source hr'] at hσ
    refine both hc (.equality hop hτ hσ ?_ ?_ ?_)
    · rintro rfl; rw [SemType.ruleType_isVoid.mpr htl] at hvl; cases hvl
    · rintro rfl; rw [SemType.ruleType_isVoid.mpr htr] at hvr; cases hvr
    · exact hacc.imp (SemType.accepts_iff htl htr).mp (SemType.accepts_iff htr htl).mp

/-- A call that is marked as one on a stream is such a call. -/
theorem conforms_stream (hf : Finds cx Γ) (hr : Rel Γ.frame ls tbl) (hs : Γ.Sensible ls) {left : Expr} {name : String}
    {args : List Expr} {x : TExpr} {y : String} {d : AccessDef} {type₁ type : SemType} {args' : List TExpr}
    (hl : visitExpr cx tbl left = .ok (.fieldAccess x y d type₁))
    (hargs : List.Forall₂ (fun e t => visitExpr cx tbl e = .ok t) args args') (hcall : SysoutCall d name args' type)
    (hconf : ∀ a ∈ args', ∀ τ, a.targetType.ruleType = some τ → Conforms Γ ls a)
    (h : visitExpr cx tbl (.methodInvocation left name args) =
      .ok (.methodInvocation (.fieldAccess x y d type₁) name args' .sysout type)) :
    Conforms Γ ls (.methodInvocation (.fieldAccess x y d type₁) name args' .sysout type) := by
  have hd : d = .systemOut ∨ d = .systemIn := by
    cases hcall
    case read => exact .inr rfl
    all_goals exact .inl rfl
  obtain ⟨hvis, hleft⟩ := visitExpr_stream hr hl hd
  have stream {τ : RuleType} (he : HasType Γ ls (.methodInvocation left name args) τ)
      (hcalled : StreamCall Γ.frame ls left name) (ha : ∀ a ∈ args', Conforms Γ ls a) :
      Conforms Γ ls (.methodInvocation (.fieldAccess x y d type₁) name args' .sysout type) :=
    .streamCall (visitExpr_source hl ▸ hcalled) (carries_of_hasType hf hr hs h he) ha
  -- the only argument of `println` and `write`
  have single {e' : TExpr} (heq : args' = [e']) (hint : e'.targetType.isInt = true) :
      ∃ e, args = [e] ∧ HasType Γ ls e .int ∧ ∀ a ∈ args', Conforms Γ ls a := by
    subst heq
    obtain ⟨e, args, he, hnil, rfl⟩ := List.forall₂_cons_right_iff.mp hargs
    cases hnil
    have hint := SemType.ruleType_isInt.mp hint
    have hc := hconf e' List.mem_cons_self _ hint
    exact ⟨e, rfl, hc.hasType he hint, fun a ha => List.mem_singleton.mp ha ▸ hc⟩
  cases hcall with
  | println hint =>
    obtain ⟨e, rfl, he, ha⟩ := single rfl hint
    subst hleft
    exact stream (.println hvis (.inl rfl) he) ⟨hvis, .inl ⟨rfl, .inl rfl⟩⟩ ha
  | write hint =>
    obtain ⟨e, rfl, he, ha⟩ := single rfl hint
    subst hleft
    exact stream (.println hvis (.inr rfl) he) ⟨hvis, .inl ⟨rfl, .inr (.inl rfl)⟩⟩ ha
  | flush =>
    cases hargs
    subst hleft
    exact stream (.flush hvis) ⟨hvis, .inl ⟨rfl, .inr (.inr rfl)⟩⟩ (List.forall_mem_nil _)
  | read =>
    cases hargs
    subst hleft
    exact stream (.read hvis) ⟨hvis, .inr ⟨rfl, rfl⟩⟩ (List.forall_mem_nil _)

/-- An expression that is visited without an error has the types of the rules. -/
theorem visitExpr_conforms (hk : Knows cx Γ) (hr : Rel Γ.frame ls tbl) (hs : Γ.Sensible ls) {e : Expr} {t : TExpr}
    (hw : WfExpr e) (hn : NoStray Γ.frame ls e) (hsys : ¬ IsSystemName Γ.frame ls e)
    (h : visitExpr cx tbl e = .ok t) : Conforms Γ ls t := by
  have node := @conforms_node cx Γ ls tbl hk.toFinds hr hs
  induction e using Expr.induct generalizing t with
  | intLiteral value =>
    have hv := h
    rw [visitExpr] at hv; cases hv
    exact node h (.intLiteral value) (List.forall_mem_nil _)
  | boolLiteral value =>
    have hv := h
    rw [visitExpr] at hv; cases hv
    exact node h (.boolLiteral value) (List.forall_mem_nil _)
  | nullLiteral =>
    have hv := h
    rw [visitExpr] at hv; cases hv
    exact node h .nullLiteral (List.forall_mem_nil _)
  | thisLiteral =>
    have hv := h
    rw [visitExpr] at hv
    obtain ⟨hmain, rfl⟩ := visitThisLiteral_eq_ok hv
    refine node h (.thisLiteral ?_) (List.forall_mem_nil _)
    by_contra hne
    exact hmain (hk.fits.mpr hne)
  | varRef name =>
    have hv := h
    rw [visitExpr] at hv
    rcases visitVarRef_eq_ok hv with ⟨-, -, rfl⟩ | ⟨d, type, hl, hd, hmain, rfl⟩
    · obtain ⟨rfl, hvis⟩ := visitVarRef_systemVisible hr hv
      exact absurd ⟨hvis, .inl rfl⟩ hsys
    · have hsees := hr.sees name
      rw [hl] at hsees
      exact node h (.varRef (hsees.resolves hd fun hne => hmain (hk.fits.mpr hne)) hd) (List.forall_mem_nil _)
  | methodInvocation left name args ihl iha =>
    have hv := h
    rw [visitExpr] at hv
    obtain ⟨left', hl, hv⟩ := bind_eq_ok.mp hv
    obtain ⟨args', ha, hv⟩ := bind_eq_ok.mp hv
    have hargs := visitExprs_eq_ok.mp ha
    cases hw with
    | methodInvocation hwl hid hwa =>
      -- an argument conforms as soon as it has a type
      have hconf {a : TExpr} {τ : RuleType} (hmem : a ∈ args') (htype : a.targetType.ruleType = some τ) :
          Conforms Γ ls a := by
        obtain ⟨e, he, hva⟩ := exists_left_of_mem hargs hmem
        exact iha e he (hwa e he) (hn.child (List.mem_cons_of_mem _ he)) (not_isSystemName hr hva htype) hva
      rcases visitMethodInvocation_eq_ok hv with ⟨x, y, d, type₁, type, rfl, hcall, rfl⟩ |
        ⟨c', m, hclass, hcls, hmethod, hacc, rfl⟩
      · exact conforms_stream hk.toFinds hr hs hl hargs hcall (fun _ hmem _ htype => hconf hmem htype) h
      · have htype := SemType.ruleType_isClass.mp hclass
        have hcl := ihl hwl (hn.child List.mem_cons_self) (not_isSystemName hr hl htype) hl
        obtain ⟨c, hc, -, hmethods⟩ := hk.found _ c' hcls
        have hca : ∀ a ∈ args', Conforms Γ ls a := by
          intro a hmem
          obtain ⟨p, -, hpa⟩ := exists_left_of_mem hacc hmem
          obtain ⟨σ, hσ⟩ := SemType.ruleType_of_accepts (SemType.ruleType_semaType p.type) hpa
          exact hconf hmem hσ
        obtain ⟨types, hlen, htypes, hrule⟩ := exists_types hargs hca
        refine node h (.call (hcl.hasType hl htype) hc (hmethods name m hmethod) hlen htypes
          (assignable_of_accepts hacc hrule)) fun x hx => ?_
        rcases List.mem_cons.mp hx with rfl | hx
        · exact hcl
        · exact hca x hx
  | fieldAccess left name ih =>
    have hv := h
    rw [visitExpr] at hv
    obtain ⟨left', hl, hv⟩ := bind_eq_ok.mp hv
    cases hw with
    | fieldAccess hwl hid =>
      rcases visitFieldAccess_eq_ok hv with ⟨_, _, d, -, hd, rfl⟩ | ⟨c', f, hclass, hcls, hfield, rfl⟩
      · obtain ⟨hvis, he⟩ := visitExpr_stream hr h hd
        refine absurd ⟨hvis, .inr ?_⟩ hsys
        rcases hd with rfl | rfl
        · exact .inl he
        · exact .inr he
      · have htype := SemType.ruleType_isClass.mp hclass
        have hconf := ih hwl (hn.child List.mem_cons_self) (not_isSystemName hr hl htype) hl
        obtain ⟨c, hc, hfields, -⟩ := hk.found _ c' hcls
        refine node h (.fieldAccess (hconf.hasType hl htype) hc (hfields name f hfield)) fun x hx => ?_
        exact List.mem_singleton.mp hx ▸ hconf
  | arrayAccess array index iha ihi =>
    have hv := h
    rw [visitExpr] at hv
    obtain ⟨array', ha, hv⟩ := bind_eq_ok.mp hv
    obtain ⟨index', hi, hv⟩ := bind_eq_ok.mp hv
    obtain ⟨hint, harray, rfl⟩ := visitArrayAccess_eq_ok hv
    have hint := SemType.ruleType_isInt.mp hint
    cases hw with
    | arrayAccess hwa hwi =>
      have hnotSystem : ¬ IsSystemName Γ.frame ls array := by
        intro hsys
        rw [hsys.unresolved hr ha] at harray
        cases harray
      have hca := iha hwa (hn.child List.mem_cons_self) hnotSystem ha
      have hci := ihi hwi (hn.child (by simp [exprChildren])) (not_isSystemName hr hi hint) hi
      obtain ⟨τ, -, -, htype, hproper, -⟩ := hca.carries
      obtain ⟨elementType, rfl⟩ := SemType.ruleType_isArray harray htype
      obtain ⟨n, hdim⟩ := Nat.exists_eq_succ_of_ne_zero hproper.2.2.ne'
      rw [hdim] at htype
      refine node h (.arrayAccess (hca.hasType ha htype) (hci.hasType hi hint)) fun x hx => ?_
      rcases List.mem_cons.mp hx with rfl | hx
      · exact hca
      · exact List.mem_singleton.mp hx ▸ hci
  | newObject name =>
    have hv := h
    rw [visitExpr] at hv
    obtain ⟨hclass, rfl⟩ := visitNewObject_eq_ok hv
    exact node h (.newObject ((hk.hasClass name).mpr hclass)) (List.forall_mem_nil _)
  | newArray elementType dimension size ih =>
    have hv := h
    rw [visitExpr] at hv
    obtain ⟨⟨⟩, htype, hv⟩ := bind_eq_ok.mp hv
    obtain ⟨size', hsize, hv⟩ := bind_eq_ok.mp hv
    obtain ⟨hint, hvoid, rfl⟩ := visitNewArray_eq_ok hv
    have hint := SemType.ruleType_isInt.mp hint
    cases hw with
    | newArray _ hdim hws =>
      have hconf := ih hws (hn.child List.mem_cons_self) (not_isSystemName hr hsize hint) hsize
      have hnotVoid : elementType ≠ .primitive .void := isVoidOrVoidArray_iff.mp hvoid
      have hdecl := (visitBasicType_iff hk.hasClass elementType).mp htype
      refine node h (.newArray hdecl hnotVoid hdim (hconf.hasType hsize hint)) ?_
      exact fun x hx => List.mem_singleton.mp hx ▸ hconf
  | binary op left right ihl ihr =>
    have hv := h
    rw [visitExpr] at hv
    obtain ⟨left', hl, hv⟩ := bind_eq_ok.mp hv
    obtain ⟨right', hr', hv⟩ := bind_eq_ok.mp hv
    obtain ⟨type, htyped, rfl⟩ := visitBinary_eq_ok hv
    cases hw with
    | binary hwl hwr =>
      exact conforms_binary hk hr hs hn (fun hsys => ihl hwl (hn.child (by simp [exprChildren])) hsys hl)
        (fun hsys => ihr hwr (hn.child (by simp [exprChildren])) hsys hr') hl hr' htyped h
  | unary op e ih =>
    have hv := h
    rw [visitExpr] at hv
    obtain ⟨e', he, hv⟩ := bind_eq_ok.mp hv
    cases hw with
    | unary hwe =>
      have hconf {τ : RuleType} (htype : e'.targetType.ruleType = some τ) : Conforms Γ ls e' :=
        ih hwe (hn.child List.mem_cons_self) (not_isSystemName hr he htype) he
      rcases visitUnary_eq_ok hv with ⟨rfl, hint, rfl⟩ | ⟨rfl, hbool, rfl⟩
      · have hint := SemType.ruleType_isInt.mp hint
        exact node h (.neg ((hconf hint).hasType he hint)) fun x hx => List.mem_singleton.mp hx ▸ hconf hint
      · have hbool := SemType.ruleType_isBool.mp hbool
        exact node h (.not ((hconf hbool).hasType he hbool)) fun x hx => List.mem_singleton.mp hx ▸ hconf hbool

theorem follows_of_conforms {o : Point} {t : TExpr} (h : visitExpr cx tbl o.expr = .ok t)
    (hc : Conforms Γ o.locals t) : o.Follows Γ t := by
  have hsource := visitExpr_source h
  exact ⟨hsource, hc, hsource ▸ hc.onlyReceivers⟩

/-- An expression whose annotation stands for a type. -/
theorem visitExpr_follows (hk : Knows cx Γ) (hr : Rel Γ.frame ls tbl) (hs : Γ.Sensible ls) {alone : Bool} {e : Expr}
    {t : TExpr} {τ : RuleType} (hw : WfExpr e) (hn : Point.Clear Γ.frame ⟨ls, alone, e⟩)
    (h : visitExpr cx tbl e = .ok t) (ht : t.targetType.ruleType = some τ) : Point.Follows Γ ⟨ls, alone, e⟩ t :=
  follows_of_conforms h (visitExpr_conforms hk hr hs hw hn.operands (not_isSystemName hr h ht) h)

theorem visitOptExpr_follows (hk : Knows cx Γ) (hr : Rel Γ.frame ls tbl) (hs : Γ.Sensible ls) {o : Option Expr}
    {t : Option TExpr} (hw : ∀ e ∈ o, WfExpr e) (hn : ∀ x ∈ pointsOf ls o, x.Clear Γ.frame)
    (h : visitOptExpr cx tbl o = .ok t) (ht : ∀ e ∈ t, ∃ τ, e.targetType.ruleType = some τ) :
    List.Forall₂ (Point.Follows Γ) (pointsOf ls o) t.toList := by
  rcases visitOptExpr_eq_ok.mp h with ⟨rfl, rfl⟩ | ⟨e, e', rfl, rfl, he⟩
  · exact .nil
  · obtain ⟨τ, hτ⟩ := ht e' rfl
    exact .cons (visitExpr_follows hk hr hs (hw e rfl) (hn _ List.mem_cons_self) he hτ) .nil

/-- What the visit of a statement does: its expressions have the types of the rules, and its variables types of
variables. -/
structure StmtFollows (Γ : Env) (ls : Locals) (n : Nat) (s : Stmt) (t : TStmt) : Prop where
  sensible : Γ.Sensible (declared n s ++ ls)
  exprs : List.Forall₂ (Point.Follows Γ) (points ls n s) t.exprs

theorem visitStmts_follows_of (hk : Knows cx Γ) {l : List Stmt}
    (ih : ∀ s ∈ l, ∀ ls n tbl t st', WfStmt s → (∀ o ∈ points ls n s, o.Clear Γ.frame) → Rel Γ.frame ls tbl →
      Γ.Sensible ls → visitStmt cx ⟨tbl, n⟩ s = .ok (t, st') → StmtFollows Γ ls n s t) {n : Nat} {ts : List TStmt}
    {st' : St} (hw : ∀ s ∈ l, WfStmt s) (hn : ∀ o ∈ pointsAll ls n l, o.Clear Γ.frame) (hr : Rel Γ.frame ls tbl)
    (hs : Γ.Sensible ls) (h : visitStmts cx ⟨tbl, n⟩ l = .ok (ts, st')) :
    List.Forall₂ (Point.Follows Γ) (pointsAll ls n l) (TStmt.exprsAll ts) := by
  induction l generalizing ls n tbl ts with
  | nil => rw [visitStmts] at h; cases h; exact .nil
  | cons s l ihl =>
    obtain ⟨t, ⟨tbl₁, n₁⟩, ts', h₁, h₂, rfl⟩ := visitStmts_cons_eq_ok.mp h
    obtain ⟨hr₁, -, hn₁, -⟩ := visitStmt_ok hk.fits hr h₁
    simp only at hr₁ hn₁
    subst hn₁
    obtain ⟨hclear, hclears⟩ := List.forall_mem_append.mp hn
    obtain ⟨hws, hwl⟩ := List.forall_mem_cons.mp hw
    obtain ⟨hs₁, hexprs⟩ := ih s List.mem_cons_self _ _ _ _ _ hws hclear hr hs h₁
    exact List.rel_append hexprs (ihl (fun s hs => ih s (List.mem_cons_of_mem _ hs)) hwl hclears hr₁ hs₁ h₂)

theorem visitOptStmt_follows_of {o : Option Stmt}
    (ih : ∀ s ∈ o, ∀ ls n tbl t st', WfStmt s → (∀ o ∈ points ls n s, o.Clear Γ.frame) → Rel Γ.frame ls tbl →
      Γ.Sensible ls → visitStmt cx ⟨tbl, n⟩ s = .ok (t, st') → StmtFollows Γ ls n s t) {n : Nat} {t : Option TStmt}
    {st' : St} (hw : ∀ s ∈ o, WfStmt s) (hn : ∀ x ∈ pointsOpt ls n o, x.Clear Γ.frame) (hr : Rel Γ.frame ls tbl)
    (hs : Γ.Sensible ls) (h : visitOptStmt cx ⟨tbl, n⟩ o = .ok (t, st')) :
    Γ.Sensible (optDeclared n o ++ ls) ∧ List.Forall₂ (Point.Follows Γ) (pointsOpt ls n o) (TStmt.exprsOpt t) := by
  cases o with
  | none => rw [visitOptStmt] at h; cases h; exact ⟨hs, .nil⟩
  | some s =>
    obtain ⟨t', h', rfl⟩ := visitOptStmt_some_eq_ok.mp h
    obtain ⟨hs', hexprs⟩ := ih s rfl _ _ _ _ _ (hw s rfl) hn hr hs h'
    exact ⟨hs', hexprs⟩

theorem variableType_of_checkDeclaration (hk : Knows cx Γ) {type : Ty} {o : Option TExpr} (hw : WfTy type)
    (ht : visitType cx type = .ok ()) (hc : checkDeclaration (semaType type) o = .ok ()) :
    Γ.VariableType type ∧ PositiveDimension type := by
  obtain ⟨-, hvoid⟩ := checkDeclaration_eq_ok hc
  refine ⟨⟨(visitType_iff hk.hasClass type).mp ht, isVoidOrVoidArray_iff.mp hvoid⟩, ?_⟩
  cases type with
  | basic => trivial
  | array => exact hw.2

/-- A statement that is visited without an error has the types of the rules. -/
theorem visitStmt_follows (hk : Knows cx Γ) {s : Stmt} {n : Nat} {t : TStmt} {st' : St} (hw : WfStmt s)
    (hn : ∀ o ∈ points ls n s, o.Clear Γ.frame) (hr : Rel Γ.frame ls tbl) (hs : Γ.Sensible ls)
    (h : visitStmt cx ⟨tbl, n⟩ s = .ok (t, st')) : StmtFollows Γ ls n s t := by
  induction s using Stmt.induct generalizing ls n tbl t st' with
  | block l lonely ih =>
    obtain ⟨ts, tbl', n', h₁, rfl, rfl⟩ := visitStmt_block_visits.mp h
    cases hw with
    | block hw =>
      refine ⟨hs, ?_⟩
      unfold finishBlock
      rw [TStmt.exprs, ← TStmt.exprsAll_append, cutDeadCode_append]
      exact visitStmts_follows_of hk (fun s hs _ _ _ _ _ => ih s hs) hw hn hr.enterScope hs h₁
  | varDecl type name o =>
    obtain ⟨o', h₁, htype, h₂, hcheck, rfl⟩ := visitStmt_varDecl_eq_ok.mp h
    obtain ⟨-, -, rfl⟩ := declare_eq_ok.mp h₁
    cases hw with
    | varDecl hwt _ hwi =>
      have hs' : Γ.Sensible ([(name, n, type)] ++ ls) :=
        hs.append (List.forall_mem_singleton.mpr (variableType_of_checkDeclaration hk hwt htype hcheck))
      refine ⟨hs', visitOptExpr_follows hk (hr.declare name n type) hs' hwi hn h₂ fun e he => ?_⟩
      exact SemType.ruleType_of_accepts (SemType.ruleType_semaType type) ((checkDeclaration_eq_ok hcheck).1 e he)
  | exprStmt e =>
    obtain ⟨e', he, rfl, rfl⟩ := visitStmt_exprStmt_eq_ok.mp h
    have hclear := hn _ List.mem_cons_self
    cases hw with
    | exprStmt hwe =>
      have hconf := visitExpr_conforms hk hr hs hwe hclear.operands (hclear.statement rfl) he
      exact ⟨hs, .cons (follows_of_conforms he hconf) .nil⟩
  | ifStmt c s₁ s₂ ih₁ ih₂ =>
    obtain ⟨c', t₁, ⟨tbl₁, n₁⟩, t₂, hc, h₁, h₂, hbool, rfl⟩ := visitStmt_ifStmt_eq_ok.mp h
    obtain ⟨hr₁, -, hn₁, -⟩ := visitOptStmt_ok_of (fun _ _ _ _ _ _ _ => visitStmt_ok hk.fits) hr h₁
    simp only at hr₁ hn₁
    subst hn₁
    obtain ⟨hclear, hclears⟩ := List.forall_mem_cons.mp hn
    obtain ⟨hclear₁, hclear₂⟩ := List.forall_mem_append.mp hclears
    cases hw with
    | ifStmt hwc hw₁ _ hw₂ _ =>
      have hbool := SemType.ruleType_isBool.mp hbool
      obtain ⟨hs₁, hexprs₁⟩ := visitOptStmt_follows_of (fun s hs _ _ _ _ _ => ih₁ s hs) hw₁ hclear₁ hr hs h₁
      obtain ⟨hs₂, hexprs₂⟩ := visitOptStmt_follows_of (fun s hs _ _ _ _ _ => ih₂ s hs) hw₂ hclear₂ hr₁ hs₁ h₂
      refine ⟨?_, .cons (visitExpr_follows hk hr hs hwc hclear hc hbool) (List.rel_append hexprs₁ hexprs₂)⟩
      rw [declared, List.append_assoc]
      exact hs₂
  | whileStmt c s ih =>
    obtain ⟨c', t₁, hc, h₁, hbool, rfl⟩ := visitStmt_whileStmt_eq_ok.mp h
    obtain ⟨hclear, hclears⟩ := List.forall_mem_cons.mp hn
    cases hw with
    | whileStmt hwc hws _ =>
      have hbool := SemType.ruleType_isBool.mp hbool
      obtain ⟨hs₁, hexprs₁⟩ := visitOptStmt_follows_of (fun s hs _ _ _ _ _ => ih s hs) hws hclears hr hs h₁
      exact ⟨hs₁, .cons (visitExpr_follows hk hr hs hwc hclear hc hbool) hexprs₁⟩
  | returnStmt o =>
    obtain ⟨o', ho, hcheck, rfl, rfl⟩ := visitStmt_returnStmt_eq_ok.mp h
    cases hw with
    | returnStmt hwo =>
      refine ⟨hs, visitOptExpr_follows hk hr hs hwo hn ho fun e he => ?_⟩
      cases he
      obtain ⟨⟨⟩, -, hacc⟩ := bind_eq_ok.mp hcheck
      exact SemType.ruleType_of_accepts hk.returnType (check_eq_ok.mp hacc)

end Sound

/-! ## Programs -/

/-- What the rules look at in a method. -/
def regularEnv (p : Program) (c : Ast.Class) (m : RegularMethod) : Env :=
  ⟨p.classes, c.name, regularFrame c.fields m, ruleType m.returnType⟩

/-- What the rules look at in a static method. -/
def mainEnv (p : Program) (c : Ast.Class) (mm : MainMethod) : Env := ⟨p.classes, c.name, mainFrame c.fields mm, .void⟩

/-- The expressions of a class have the types of the rules. -/
structure ClassFollows (p : Program) (c : Ast.Class) (tc : TClass) : Prop where
  name : tc.name = c.name
  methods : ∀ m ∈ c.methods, ∃ tm ∈ tc.methods, tm.name = m.name ∧
    BodyFollows (regularEnv p c m) (Block.stmt m.block) tm.body
  mainMethods : ∀ mm ∈ c.mainMethods, ∃ tm ∈ tc.mainMethods, tm.name = mm.name ∧
    BodyFollows (mainEnv p c mm) (Block.stmt mm.block) tm.body

/-- The expressions of a program have the types of the rules. -/
def FollowsRules (p : Program) (t : TProgram) : Prop := ∀ c ∈ p.classes, ∃ tc ∈ t.classes, ClassFollows p c tc

/-- No name of a stream is an operand of `=`, `==` or `!=`, or a statement. -/
def ClearOfStreams (p : Program) : Prop :=
  ∀ c ∈ p.classes, (∀ m ∈ c.methods, BodyClear (regularFrame c.fields m) (Block.stmt m.block)) ∧
    ∀ mm ∈ c.mainMethods, BodyClear (mainFrame c.fields mm) (Block.stmt mm.block)

theorem FollowsRules.clear {p : Program} {t : TProgram} (h : FollowsRules p t) : ClearOfStreams p := by
  intro c hc
  obtain ⟨tc, -, hf⟩ := h c hc
  refine ⟨fun m hm => ?_, fun mm hmm => ?_⟩
  · obtain ⟨tm, -, -, hbody⟩ := hf.methods m hm
    exact hbody.clear
  · obtain ⟨tm, -, -, hbody⟩ := hf.mainMethods mm hmm
    exact hbody.clear

section Programs

variable {p : Program} {t : TProgram} {c : Ast.Class}

/-- The context in which a method of a class is visited. -/
def classContext (p : Program) (c : Ast.Class) (method : Method) : Context := ⟨sortedClasses p, sortMembers c, method⟩

theorem finds_regular {m : RegularMethod} (hf : (c.fields.map Ast.Field.name).Nodup)
    (hp : (m.parameters.map Parameter.name).Nodup) :
    Finds (classContext p c (.regular m.returnType)) (regularEnv p c m) :=
  finds_of rfl rfl rfl (regularFrame_fits c.fields m (classContext p c .main)) (SemType.ruleType_semaType _) ⟨hf, hp⟩

theorem finds_main {mm : MainMethod} (hf : (c.fields.map Ast.Field.name).Nodup) :
    Finds (classContext p c .main) (mainEnv p c mm) :=
  finds_of rfl rfl rfl (mainFrame_fits c.fields mm (classContext p c .main)) rfl ⟨hf, List.nodup_nil⟩

/-- The visitor comes to the body of a method: the fields of the class and the parameters were accepted. -/
inductive BodyVisit (p : Program) : Env → Context → Table → Block → Prop
  | regular {c : Ast.Class} {m : RegularMethod} {fields : List Ast.Field} {tbl ptbl : Table} (hc : c ∈ p.classes)
      (hm : m ∈ c.methods)
      (hf : visitFieldList (classContext p c .main) (SymbolTable.enterScope .empty) (sortMembers c).fields =
        .ok (fields, tbl))
      (hp : visitParameters (classContext p c (.regular m.returnType)) tbl.enterScope m.parameters = .ok ptbl) :
      BodyVisit p (regularEnv p c m) (classContext p c (.regular m.returnType)) ptbl m.block
  | main {c : Ast.Class} {mm : MainMethod} {fields : List Ast.Field} {tbl : Table} (hc : c ∈ p.classes)
      (hmm : mm ∈ c.mainMethods)
      (hf : visitFieldList (classContext p c .main) (SymbolTable.enterScope .empty) (sortMembers c).fields =
        .ok (fields, tbl)) :
      BodyVisit p (mainEnv p c mm) (classContext p c .main) (tbl.insert mm.argName .mainArg) mm.block

theorem visitFieldList_rel {fields : List Ast.Field} {tbl : Table}
    (h : visitFieldList (classContext p c .main) (SymbolTable.enterScope .empty) (sortMembers c).fields =
      .ok (fields, tbl)) : (c.fields.map Ast.Field.name).Nodup ∧ Rel ⟨c.fields, none, []⟩ [] tbl := by
  unfold visitFieldList at h
  simp only [bind_eq_ok, pure_eq_ok, Prod.mk.injEq, checkForDuplicates_eq_ok] at h
  obtain ⟨_, ⟨hnodup, rfl⟩, -, -, rfl, rfl⟩ := h
  refine ⟨nodup_sortByName.mp hnodup, Rel.congr ?_ ?_ ?_ (fieldTable_rel_sorted (sortMembers c).fields)⟩
  · exact fun _ => (sortByName_perm _ _).mem_iff
  · rfl
  · exact fun _ => Iff.rfl

theorem visitParameters_rel {cx : Context} {tbl ptbl : Table} {m : RegularMethod}
    (hr : Rel ⟨c.fields, none, []⟩ [] tbl) (h : visitParameters cx tbl.enterScope m.parameters = .ok ptbl) :
    (m.parameters.map Parameter.name).Nodup ∧ Rel (regularFrame c.fields m) [] ptbl := by
  obtain ⟨hparams, hnodup⟩ := visitParameters_ok (.enterScope hr) List.nodup_nil h
  rw [List.append_nil] at hparams hnodup
  rw [List.map_reverse, List.nodup_reverse] at hnodup
  exact ⟨hnodup, hparams.rel_regularFrame⟩

/-- The visit of a body that follows the rules does not fail. -/
theorem BodyVisit.complete {Γ : Env} {cx : Context} {tbl : Table} {b : Block} (h : BodyVisit p Γ cx tbl b)
    (hrules : StmtRules Γ [] 0 (Block.stmt b)) : ∃ t st, visitBlock cx ⟨tbl, 0⟩ b = .ok (t, st) := by
  cases h with
  | regular _ _ hf hp =>
    obtain ⟨hfn, hr⟩ := visitFieldList_rel hf
    obtain ⟨hpn, hr'⟩ := visitParameters_rel hr hp
    exact visitBlock_complete (finds_regular hfn hpn) hr' hrules
  | @main c mm _ _ _ _ hf =>
    obtain ⟨hfn, hr⟩ := visitFieldList_rel hf
    exact visitBlock_complete (finds_main hfn) (hr.insertMainArg mm.argName) hrules

/-- The lookups of an accepted program have a single result. -/
theorem ProgramVisited.knows (h : ProgramVisited p t) {cx : Context} {Γ : Env} (hcx : cx.classes = sortedClasses p)
    (hΓ : Γ.classes = p.classes) (hf : Finds cx Γ) : Knows cx Γ := by
  refine ⟨hf, fun name c' hc' => ?_⟩
  unfold Context.findClassByName at hc'
  rw [hcx] at hc'
  obtain ⟨hmem, hname⟩ := findByName_eq_some hc'
  obtain ⟨d, hd, rfl⟩ := List.mem_map.mp hmem
  obtain ⟨tc, -, hv⟩ := exists_right_of_mem h.classes hmem
  have hd' := (sortByName_perm _ _).mem_iff.mp hd
  refine ⟨d, ⟨hΓ ▸ hd', hname, fun e he hename => ?_⟩, fun x f => ?_, fun x m => ?_⟩
  · exact eq_of_name_eq h.classNames (hΓ ▸ he) hd' (hename.trans hname.symm)
  · exact declared_of_findByName (nodup_sortByName.mp hv.fieldNames)
  · exact declared_of_findByName (nodup_sortByName.mp hv.methodNames)

theorem visitFields_each {cx : Context} {l : List Ast.Field} (h : visitFields cx l = .ok ()) :
    ∀ f ∈ l, visitField cx f = .ok () := by
  induction l with
  | nil => exact List.forall_mem_nil _
  | cons f l ih =>
    rw [visitFields] at h
    obtain ⟨⟨⟩, hf, hl⟩ := bind_eq_ok.mp h
    exact List.forall_mem_cons.mpr ⟨hf, ih hl⟩

theorem visitParameters_types {cx : Context} {tbl tbl' : Table} {params : List Parameter}
    (h : visitParameters cx tbl params = .ok tbl') :
    ∀ q ∈ params, visitType cx q.type = .ok () ∧ (semaType q.type).isVoidOrVoidArray = false := by
  induction params generalizing tbl with
  | nil => exact List.forall_mem_nil _
  | cons q params ih =>
    rw [visitParameters] at h
    obtain ⟨tbl₁, h₁, h₂⟩ := bind_eq_ok.mp h
    unfold visitParameter at h₁
    obtain ⟨⟨⟩, htype, h₁⟩ := bind_eq_ok.mp h₁
    obtain ⟨⟨⟩, -, h₁⟩ := bind_eq_ok.mp h₁
    obtain ⟨⟨⟩, hvoid, -⟩ := bind_eq_ok.mp h₁
    exact List.forall_mem_cons.mpr ⟨⟨htype, Bool.not_eq_true' _ ▸ check_eq_ok.mp hvoid⟩, ih h₂⟩

theorem positiveDimension_of_wf {type : Ty} (h : WfTy type) : PositiveDimension type := by
  cases type with
  | basic => trivial
  | array => exact h.2

theorem eq_void_of_isVoid {type : Ty} (h : (semaType type).isVoid = true) : type = .basic (.primitive .void) := by
  cases type with
  | array => cases h
  | basic type =>
    cases type with
    | classType => cases h
    | primitive type => cases type <;> first | rfl | cases h

/-- The declarations of an accepted program have types of variables. -/
theorem ProgramVisited.sensible (h : ProgramVisited p t) (hp : WfProgram p) (hc : c ∈ p.classes) {Γ : Env}
    (hΓ : Γ.classes = p.classes) (hname : Γ.className = c.name) (hfields : Γ.frame.fields = c.fields)
    (hparams : ∀ q ∈ Γ.frame.params, Γ.VariableType q.type ∧ PositiveDimension q.type) : Γ.Sensible [] := by
  have hclass (cx : Context) (hcx : cx.classes = sortedClasses p) (type : Ty) (ht : visitType cx type = .ok ()) :
      Γ.DeclaresBasic (baseType type) := (visitType_iff (hasClass_iff hcx hΓ) type).mp ht
  have visited (d : Ast.Class) (hd : d ∈ p.classes) :
      ∃ td, ClassVisited (sortedClasses p) .empty (sortMembers d) td := by
    obtain ⟨td, -, hv⟩ := exists_right_of_mem h.classes
      (List.mem_map_of_mem ((sortByName_perm _ _).mem_iff.mpr hd))
    exact ⟨td, hv⟩
  have hfield (d : Ast.Class) (hd : d ∈ p.classes) (f : Ast.Field) (hf : f ∈ d.fields) :
      Γ.VariableType f.type ∧ PositiveDimension f.type := by
    obtain ⟨td, hv⟩ := visited d hd
    have hmem : f ∈ td.fields := by
      rw [hv.fields]
      exact (sortByName_perm _ _).mem_iff.mpr ((sortByName_perm _ _).mem_iff.mpr hf)
    have hvisit := visitFields_each hv.fieldTypes f hmem
    unfold visitField at hvisit
    obtain ⟨⟨⟩, htype, hvoid⟩ := bind_eq_ok.mp hvisit
    exact ⟨⟨hclass _ rfl _ htype, isVoidOrVoidArray_iff.mp (Bool.not_eq_true' _ ▸ check_eq_ok.mp hvoid)⟩,
      positiveDimension_of_wf ((hp d hd).fields f hf).type⟩
  refine ⟨⟨c, hΓ ▸ hc, hname.symm⟩, fun d hd => hfield d (hΓ ▸ hd), fun d hd m hm => ?_,
    fun f hf => hfield c hc f (hfields ▸ hf), hparams, List.forall_mem_nil _⟩
  have hd : d ∈ p.classes := hΓ ▸ hd
  obtain ⟨td, hv⟩ := visited d hd
  obtain ⟨tm, -, ptbl, n, hmv⟩ := exists_right_of_mem hv.methods
    ((sortByName_perm _ _).mem_iff.mpr ((sortByName_perm _ _).mem_iff.mpr hm))
  by_cases hvoid : (semaType m.returnType).isVoid = true
  · exact .inl (eq_void_of_isVoid hvoid)
  · have hnotVoid : (semaType m.returnType).isVoidOrVoidArray = false :=
      Bool.or_eq_false_iff.mpr ⟨Bool.eq_false_iff.mpr hvoid, hmv.notVoidArray⟩
    exact .inr ⟨⟨hclass _ rfl _ hmv.returnType, isVoidOrVoidArray_iff.mp hnotVoid⟩,
      positiveDimension_of_wf ((hp d hd).methods m hm).returnType⟩

/-- The annotated bodies of an accepted program have the types of the rules, if no name of a stream is astray. -/
theorem ProgramVisited.follows (h : ProgramVisited p t) (hp : WfProgram p) (hclear : ClearOfStreams p) :
    FollowsRules p t := by
  intro c hc
  obtain ⟨tc, htc, hv⟩ := exists_right_of_mem h.classes
    (List.mem_map_of_mem ((sortByName_perm _ _).mem_iff.mpr hc))
  obtain ⟨hregular, hmain⟩ := hclear c hc
  have hfn : (c.fields.map Ast.Field.name).Nodup := nodup_sortByName.mp hv.fieldNames
  have hr : Rel ⟨c.fields, none, []⟩ [] (fieldTable .empty tc.fields) := by
    refine Rel.congr ?_ ?_ ?_ (fieldTable_rel tc.fields)
    · intro f
      rw [hv.fields]
      exact (sortByName_perm _ _).mem_iff.trans (sortByName_perm _ _).mem_iff
    · rfl
    · exact fun _ => Iff.rfl
  refine ⟨tc, htc, hv.name, fun m hm => ?_, fun mm hmm => ?_⟩
  · obtain ⟨tm, htm, ptbl, n, hmv⟩ := exists_right_of_mem hv.methods
      ((sortByName_perm _ _).mem_iff.mpr ((sortByName_perm _ _).mem_iff.mpr hm))
    obtain ⟨hpn, hr'⟩ := visitParameters_rel hr hmv.parameters
    have hwm := (hp c hc).methods m hm
    have hparams : ∀ q ∈ m.parameters, (regularEnv p c m).VariableType q.type ∧ PositiveDimension q.type := by
      intro q hq
      obtain ⟨htype, hvoid⟩ := visitParameters_types hmv.parameters q hq
      exact ⟨⟨(visitType_iff (hasClass_iff (p := p) rfl rfl) _).mp htype, isVoidOrVoidArray_iff.mp hvoid⟩,
        positiveDimension_of_wf (hwm.parameters q hq).type⟩
    have hk : Knows (classContext p c (.regular m.returnType)) (regularEnv p c m) :=
      h.knows rfl rfl (finds_regular hfn hpn)
    have hs : (regularEnv p c m).Sensible [] := h.sensible hp hc rfl rfl rfl hparams
    have hfollows := visitStmt_follows hk hwm.block (hregular m hm) hr' hs hmv.body
    exact ⟨tm, htm, congrArg TRegularMethod.name hmv.result, hfollows.exprs⟩
  · obtain ⟨tm, htm, n, hbody, hresult⟩ := exists_right_of_mem hv.mainMethods hmm
    have hk : Knows (classContext p c .main) (mainEnv p c mm) := h.knows rfl rfl (finds_main hfn)
    have hs : (mainEnv p c mm).Sensible [] := h.sensible hp hc rfl rfl rfl (List.forall_mem_nil _)
    have hfollows := visitStmt_follows hk ((hp c hc).mainMethods mm hmm).block (hmain mm hmm)
      (hr.insertMainArg mm.argName) hs hbody
    exact ⟨tm, htm, congrArg TMainMethod.name hresult, hfollows.exprs⟩

/-- The visitor implements the typing rules, apart from the names of the streams that are astray. In an accepted program
every expression carries the type of the rules, and those names are only receivers of the calls of the streams, exactly
if none of them is an operand of `=`, `==` or `!=` or a statement; and the visit of a body that follows the rules does
not fail. -/
theorem typing_exact (hp : WfProgram p) :
    (∀ t, visitProgram p = .ok t → (FollowsRules p t ↔ ClearOfStreams p)) ∧
      ∀ Γ cx tbl b, BodyVisit p Γ cx tbl b → StmtRules Γ [] 0 (Block.stmt b) →
        ∃ t st, visitBlock cx ⟨tbl, 0⟩ b = .ok (t, st) :=
  ⟨fun _ h => ⟨FollowsRules.clear, (visitProgram_visited h).follows hp⟩, fun _ _ _ _ h => h.complete⟩

end Programs

/-! ## Examples -/

/-- A program whose main method evaluates one expression. -/
def evaluates (e : Expr) : Program := ⟨[⟨"A", [], [], [⟨"main", "x", ⟨[.exprStmt e], false⟩⟩]⟩]⟩

/-- An identifier by its bytes. -/
theorem isIdent_of_bytes (c : UInt8) (cs : List UInt8) (hc : Lexer.Letter c) (hcs : cs.Forall Lexer.Letter)
    (hk : Lexer.classify (c :: cs) = .Identifier) : IsIdent (String.ofList (Lexer.text (c :: cs))) := by
  have hword := Lexer.Word.identifier hc fun d hd => .inl (List.forall_iff_forall_mem.mp hcs d hd)
  rw [hk] at hword
  exact hword.spelled

theorem evaluates_wf {e : Expr} (he : WfExpr e) : WfProgram (evaluates e) := by
  intro c hc
  obtain rfl := List.mem_singleton.mp hc
  refine ⟨isIdent_of_bytes 65 [] (by decide) trivial (by decide), List.forall_mem_nil _, List.forall_mem_nil _, ?_⟩
  intro mm hmm
  obtain rfl := List.mem_singleton.mp hmm
  refine ⟨isIdent_of_bytes 109 [97, 105, 110] (by decide) ⟨by decide, by decide, by decide⟩ (by decide),
    isIdent_of_bytes 120 [] (by decide) trivial (by decide), .block ?_ rfl⟩
  exact List.forall_mem_singleton.mpr (.exprStmt he)

theorem isIdent_System : IsIdent "System" :=
  isIdent_of_bytes 83 [121, 115, 116, 101, 109] (by decide)
    ⟨by decide, by decide, by decide, by decide, by decide⟩ (by decide)

/-- `System.out.flush();` -/
def flushCall : Expr := .methodInvocation (.fieldAccess (.varRef "System") "out") "flush" []

theorem flushCall_wf : WfExpr flushCall :=
  .methodInvocation (.fieldAccess (.varRef isIdent_System)
    (isIdent_of_bytes 111 [117, 116] (by decide) ⟨by decide, by decide⟩ (by decide)))
    (isIdent_of_bytes 102 [108, 117, 115, 104] (by decide) ⟨by decide, by decide, by decide, by decide⟩ (by decide))
    (List.forall_mem_nil _)

theorem typing_exact_flushCall :
    ∃ t, visitProgram (evaluates flushCall) = .ok t ∧ FollowsRules (evaluates flushCall) t := by
  refine ⟨_, rfl, ((typing_exact (evaluates_wf flushCall_wf)).1 _ rfl).mpr ?_⟩
  intro c hc
  obtain rfl := List.mem_singleton.mp hc
  refine ⟨List.forall_mem_nil _, fun mm hmm o ho => ?_⟩
  obtain rfl := List.mem_singleton.mp hmm
  obtain rfl := List.mem_singleton.mp ho
  refine ⟨.node (fun _ _ _ h => nomatch h) fun c hc => ?_, fun _ => ?_⟩
  · obtain rfl := List.mem_singleton.mp hc
    exact noStray_stream "out"
  · rintro ⟨-, h | h | h⟩ <;> cases h

/-- The statement `System;` is accepted, with the type `Unresolved`. -/
theorem not_follows_system :
    ∃ t, WfProgram (evaluates (.varRef "System")) ∧ visitProgram (evaluates (.varRef "System")) = .ok t ∧
      (t.classes.flatMap TClass.mainMethods).flatMap (fun mm => mm.body.exprs.map TExpr.targetType) = [.unresolved] ∧
        ¬ FollowsRules (evaluates (.varRef "System")) t := by
  refine ⟨_, evaluates_wf (.varRef isIdent_System), rfl, rfl, fun h => ?_⟩
  have hclear := (h.clear _ List.mem_cons_self).2 _ List.mem_cons_self ⟨[], true, .varRef "System"⟩ List.mem_cons_self
  refine hclear.statement rfl ⟨.system rfl (List.forall_mem_nil _) ?_ (List.forall_mem_nil _) rfl, .inl rfl⟩
  exact fun h => absurd (Option.some.inj h) (by decide)

end Mjc.Sema

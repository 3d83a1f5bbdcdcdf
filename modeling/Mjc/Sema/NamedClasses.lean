import Mjc.Sema.Totality

/-!
# Programs that name only classes that exist

An unknown receiver comes from the type of a field or from the return type of a method, which may belong to a class that
is visited later. Parameters and local variables are checked before they are used.

* `Env.Closed` : the visible declarations name only classes that exist;
* `exprChecks_spares`, `stmtChecks_spares` : then no receiver is unknown;
* `NamesClasses.ends` : a program whose fields and methods have types that exist is visited to the end;
* `analysis_exact`, `NamesClasses.decided` : what the visit decides.
-/

namespace Mjc.Sema
open Mjc.Ast Mjc.Checklist

set_option autoImplicit false

/-- The types of the declarations that are visible name only classes that exist. -/
structure Env.Closed (Γ : Env) (ls : Locals) : Prop where
  self : Γ.HasClass Γ.className
  fields : ∀ c ∈ Γ.classes, ∀ f ∈ c.fields, Γ.DeclaresBasic (baseType f.type)
  methods : ∀ c ∈ Γ.classes, ∀ m ∈ c.methods, Γ.DeclaresBasic (baseType m.returnType)
  own : ∀ f ∈ Γ.frame.fields, Γ.DeclaresBasic (baseType f.type)
  params : ∀ q ∈ Γ.frame.params, Γ.DeclaresBasic (baseType q.type)
  locals : ∀ v ∈ ls, Γ.DeclaresBasic (baseType v.2.2)

/-- The class that a type names exists. -/
def Env.Names (Γ : Env) : RuleType → Prop
  | .cls name => Γ.HasClass name
  | .array elementType _ => Γ.DeclaresBasic elementType
  | .int | .boolean | .void | .null => True

section Closed

variable {Γ : Env} {ls : Locals}

theorem names_ruleBasic {type : BasicType} (h : Γ.DeclaresBasic type) : Γ.Names (ruleBasic type) := by
  cases type with
  | classType name => exact h
  | primitive type => cases type <;> trivial

theorem names_ruleType {type : Ty} (h : Γ.DeclaresBasic (baseType type)) : Γ.Names (ruleType type) := by
  cases type with
  | basic type => exact names_ruleBasic h
  | array elementType dimension => exact h

theorem names_ruleElement {type : BasicType} (h : Γ.DeclaresBasic type) (n : Nat) : Γ.Names (ruleElement type n) := by
  cases n with
  | zero => exact names_ruleBasic h
  | succ n => exact h

theorem Env.Closed.sees (h : Γ.Closed ls) {x : String} {d : Definition} {type : Ty}
    (hd : Γ.frame.sees ls x = some d) (ht : d.type = some type) : Γ.DeclaresBasic (baseType type) := by
  unfold Frame.sees at hd
  split at hd
  next hl => cases hd; cases ht; exact h.locals _ (lookup_mem hl)
  next hp => cases hd; cases ht; exact h.params _ (List.mem_of_find?_eq_some hp)
  next =>
    by_cases hm : Γ.frame.mainArg = some x
    · rw [if_pos hm] at hd; cases hd; cases ht
    · rw [if_neg hm] at hd
      obtain ⟨f, hf, rfl⟩ := Option.map_eq_some_iff.mp hd
      cases ht
      exact h.own _ (List.mem_of_find?_eq_some hf)

theorem Env.Closed.field? (h : Γ.Closed ls) {C name : String} {f : Ast.Field} (hf : Γ.field? C name = some f) :
    Γ.DeclaresBasic (baseType f.type) := by
  obtain ⟨c, hc, hf⟩ := Option.bind_eq_some_iff.mp hf
  exact h.fields _ (List.mem_of_find?_eq_some hc) _ (List.mem_of_find?_eq_some hf)

theorem Env.Closed.method? (h : Γ.Closed ls) {C name : String} {m : RegularMethod} (hm : Γ.method? C name = some m) :
    Γ.DeclaresBasic (baseType m.returnType) := by
  obtain ⟨c, hc, hm⟩ := Option.bind_eq_some_iff.mp hm
  exact h.methods _ (List.mem_of_find?_eq_some hc) _ (List.mem_of_find?_eq_some hm)

theorem must_spares (p : Prop) : Spares .unknownReceiver [must p] :=
  .cons (fun h => nomatch h) fun _ => spares_nil

theorem memberChecks_spares {type : Option RuleType} (h : ∀ τ ∈ type, Γ.Names τ) (found : String → Prop) :
    Spares .unknownReceiver (memberChecks Γ type found) := by
  refine .cons (fun h => nomatch h) fun _ => .cons (fun _ => ?_) fun _ => must_spares _
  rintro C hC
  match type, hC with
  | some (.cls name), hC => exact Option.some.inj hC ▸ h _ rfl

theorem accessChecks_spares {left : Expr} (h : ∀ τ ∈ typeOf Γ ls left, Γ.Names τ) (name : String) :
    Spares .unknownReceiver (accessChecks Γ ls left name) := by
  unfold accessChecks
  split
  · exact must_spares _
  · exact must_spares _
  · exact memberChecks_spares h _

theorem callChecks_spares {left : Expr} (h : ∀ τ ∈ typeOf Γ ls left, Γ.Names τ) (name : String) (args : List Expr) :
    Spares .unknownReceiver (callChecks Γ ls left name args) := by
  unfold callChecks
  split
  · exact must_spares _
  · exact must_spares _
  · exact must_spares _
  · exact (memberChecks_spares h _).append fun _ => must_spares _

theorem exprsChecks_spares_of {l : List Expr} (ih : ∀ e ∈ l, Spares .unknownReceiver (exprChecks Γ ls e)) :
    Spares .unknownReceiver (exprsChecks Γ ls l) := by
  induction l with
  | nil => exact spares_nil
  | cons e l ihl =>
    rw [exprsChecks]
    exact (ih e List.mem_cons_self).append fun _ => ihl fun e he => ih e (List.mem_cons_of_mem _ he)

theorem names_elementOf {type : Option RuleType} (h : ∀ τ ∈ type, Γ.Names τ) : ∀ τ ∈ elementOf type, Γ.Names τ := by
  intro τ hτ
  match type, hτ with
  | some (.array elementType dimension), hτ => exact Option.some.inj hτ ▸ names_ruleElement (h _ rfl) _

theorem names_binaryType {left : Option RuleType} (h : ∀ τ ∈ left, Γ.Names τ) (op : BinaryOp) :
    ∀ τ ∈ binaryType left op, Γ.Names τ := by
  intro τ hτ
  cases op
  case assign => exact h τ hτ
  all_goals cases hτ; trivial

theorem names_call (h : Γ.Closed ls) (left : Expr) (name : String) (args : List Expr) :
    ∀ τ ∈ typeOf Γ ls (.methodInvocation left name args), Γ.Names τ := by
  intro τ hτ
  rw [typeOf] at hτ
  split at hτ
  · cases hτ; trivial
  · cases hτ; trivial
  · obtain ⟨m, hm, rfl⟩ := Option.map_eq_some_iff.mp hτ
    obtain ⟨C, -, hm⟩ := Option.bind_eq_some_iff.mp hm
    exact names_ruleType (h.method? hm)

/-- In an environment that names only classes that exist no receiver is unknown, and every type that comes up names a
class that exists. -/
theorem exprChecks_spares (h : Γ.Closed ls) (e : Expr) : Spares .unknownReceiver (exprChecks Γ ls e) ∧
    (AllHold (exprChecks Γ ls e) → ∀ τ ∈ typeOf Γ ls e, Γ.Names τ) := by
  induction e using Expr.induct with
  | intLiteral | boolLiteral | nullLiteral =>
    refine ⟨spares_nil, fun _ τ hτ => ?_⟩
    cases hτ
    trivial
  | thisLiteral =>
    refine ⟨must_spares _, fun _ τ hτ => ?_⟩
    cases hτ
    exact h.self
  | varRef x =>
    refine ⟨must_spares _, fun _ τ hτ => ?_⟩
    obtain ⟨type, htype, rfl⟩ := Option.map_eq_some_iff.mp hτ
    obtain ⟨d, hd, htype⟩ := Option.bind_eq_some_iff.mp htype
    exact names_ruleType (h.sees hd htype)
  | methodInvocation left name args ihl iha =>
    rw [exprChecks]
    refine ⟨ihl.1.append fun hl => ?_, fun _ => names_call h left name args⟩
    exact (exprsChecks_spares_of fun e he => (iha e he).1).append fun _ => callChecks_spares (ihl.2 hl) name args
  | fieldAccess left name ih =>
    rw [exprChecks]
    refine ⟨ih.1.append fun hl => accessChecks_spares (ih.2 hl) name, fun _ τ hτ => ?_⟩
    rw [typeOf] at hτ
    obtain ⟨f, hf, rfl⟩ := Option.map_eq_some_iff.mp hτ
    obtain ⟨C, -, hf⟩ := Option.bind_eq_some_iff.mp hf
    exact names_ruleType (h.field? hf)
  | arrayAccess array index iha ihi =>
    rw [exprChecks]
    refine ⟨iha.1.append fun _ => ihi.1.append fun _ => must_spares _, fun hall => ?_⟩
    exact names_elementOf (iha.2 (allHold_append.mp hall).1)
  | newObject name =>
    refine ⟨must_spares _, fun hall τ hτ => ?_⟩
    cases hτ
    exact allHold_singleton.mp hall
  | newArray elementType dimension size ih =>
    rw [exprChecks]
    refine ⟨(must_spares _).append fun _ => ih.1.append fun _ => must_spares _, fun hall τ hτ => ?_⟩
    cases hτ
    exact allHold_singleton.mp (allHold_append.mp hall).1
  | binary op left right ihl ihr =>
    rw [exprChecks]
    refine ⟨ihl.1.append fun _ => ihr.1.append fun _ => must_spares _, fun hall => ?_⟩
    exact names_binaryType (ihl.2 (allHold_append.mp hall).1) op
  | unary op e ih =>
    rw [exprChecks]
    refine ⟨ih.1.append fun _ => must_spares _, fun _ τ hτ => ?_⟩
    cases hτ
    cases op <;> trivial

theorem optExprChecks_spares (h : Γ.Closed ls) (o : Option Expr) :
    Spares .unknownReceiver (optExprChecks Γ ls o) := by
  cases o with
  | none => exact spares_nil
  | some e => exact (exprChecks_spares h e).1

theorem Env.Closed.append {ls' : Locals} (h : Γ.Closed ls) (hl : ∀ v ∈ ls', Γ.DeclaresBasic (baseType v.2.2)) :
    Γ.Closed (ls' ++ ls) :=
  { h with locals := fun v hv => (List.mem_append.mp hv).elim (hl v) (h.locals v) }

/-- A statement of which no receiver is unknown; what it declares names only classes that exist. -/
def StmtSpares (Γ : Env) (ls : Locals) (n : Nat) (s : Stmt) : Prop :=
  Spares .unknownReceiver (stmtChecks Γ ls n s) ∧
    (AllHold (stmtChecks Γ ls n s) → ∀ v ∈ declared n s, Γ.DeclaresBasic (baseType v.2.2))

theorem stmtsChecks_spares_of {l : List Stmt} (ih : ∀ s ∈ l, ∀ ls n, Γ.Closed ls → StmtSpares Γ ls n s)
    (h : Γ.Closed ls) (n : Nat) : Spares .unknownReceiver (stmtsChecks Γ ls n l) := by
  induction l generalizing ls n with
  | nil => exact spares_nil
  | cons s l ihl =>
    rw [stmtsChecks]
    obtain ⟨hs, hdecl⟩ := ih s List.mem_cons_self ls n h
    exact hs.append fun hall => ihl (fun s hs => ih s (List.mem_cons_of_mem _ hs)) (h.append (hdecl hall)) _

theorem optChecks_spares_of {o : Option Stmt} (ih : ∀ s ∈ o, ∀ ls n, Γ.Closed ls → StmtSpares Γ ls n s)
    (h : Γ.Closed ls) (n : Nat) : Spares .unknownReceiver (optChecks Γ ls n o) ∧
      (AllHold (optChecks Γ ls n o) → ∀ v ∈ optDeclared n o, Γ.DeclaresBasic (baseType v.2.2)) := by
  cases o with
  | none => exact ⟨spares_nil, fun _ => List.forall_mem_nil _⟩
  | some s => exact ih s rfl ls n h

theorem stmtChecks_spares (h : Γ.Closed ls) (n : Nat) (s : Stmt) : StmtSpares Γ ls n s := by
  unfold StmtSpares
  induction s using Stmt.induct generalizing ls n with
  | block l lonely ih =>
    rw [stmtChecks]
    exact ⟨stmtsChecks_spares_of (fun s hs _ n h => ih s hs h n) h n, fun _ => List.forall_mem_nil _⟩
  | varDecl type name o =>
    rw [stmtChecks]
    constructor
    · refine (must_spares _).append fun _ => (must_spares _).append fun htype => ?_
      have htype : Γ.DeclaresBasic (baseType type) := allHold_singleton.mp htype
      have h' : Γ.Closed ([(name, n, type)] ++ ls) := h.append (List.forall_mem_singleton.mpr htype)
      exact (optExprChecks_spares h' o).append fun _ => must_spares _
    · intro hall
      obtain ⟨-, hall⟩ := allHold_append.mp hall
      exact List.forall_mem_singleton.mpr (allHold_singleton.mp (allHold_append.mp hall).1)
  | exprStmt e =>
    rw [stmtChecks]
    exact ⟨(exprChecks_spares h e).1, fun _ => List.forall_mem_nil _⟩
  | ifStmt c s₁ s₂ ih₁ ih₂ =>
    have hs₁ := optChecks_spares_of (fun s hs _ n h => ih₁ s hs h n) h n
    have hs₂ (hall : AllHold (optChecks Γ ls n s₁)) :=
      optChecks_spares_of (fun s hs _ n h => ih₂ s hs h n) (h.append (hs₁.2 hall)) (n + optVarCount s₁)
    rw [stmtChecks]
    constructor
    · refine (exprChecks_spares h c).1.append fun _ => hs₁.1.append fun hall => ?_
      exact (hs₂ hall).1.append fun _ => must_spares _
    · intro hall
      obtain ⟨-, hall⟩ := allHold_append.mp hall
      obtain ⟨hall₁, hall⟩ := allHold_append.mp hall
      rw [declared]
      exact List.forall_mem_append.mpr ⟨(hs₂ hall₁).2 (allHold_append.mp hall).1, hs₁.2 hall₁⟩
  | whileStmt c s ih =>
    have hs := optChecks_spares_of (fun s hs _ n h => ih s hs h n) h n
    rw [stmtChecks]
    refine ⟨(exprChecks_spares h c).1.append fun _ => hs.1.append fun _ => must_spares _, fun hall => ?_⟩
    obtain ⟨-, hall⟩ := allHold_append.mp hall
    exact hs.2 (allHold_append.mp hall).1
  | returnStmt o =>
    rw [stmtChecks]
    exact ⟨(optExprChecks_spares h o).append fun _ => must_spares _, fun _ => List.forall_mem_nil _⟩

theorem paramChecks_spares (done : List String) (params : List Parameter) :
    Spares .unknownReceiver (paramChecks Γ done params) ∧
      (AllHold (paramChecks Γ done params) → ∀ q ∈ params, Γ.DeclaresBasic (baseType q.type)) := by
  induction params generalizing done with
  | nil => exact ⟨spares_nil, fun _ => List.forall_mem_nil _⟩
  | cons q l ih =>
    rw [paramChecks]
    constructor
    · exact (must_spares _).append fun _ => (must_spares _).append fun _ => (ih _).1
    · intro hall
      obtain ⟨hq, hl⟩ := allHold_append.mp hall
      exact List.forall_mem_cons.mpr ⟨hq _ List.mem_cons_self, (ih _).2 hl⟩

end Closed

section ClosedPrograms

variable {p : Program}

/-- The types of all fields and the return types of all methods name only classes that exist. -/
def NamesClasses (p : Program) : Prop :=
  ∀ c ∈ p.classes, (∀ f ∈ c.fields, (classEnv p c).DeclaresBasic (baseType f.type)) ∧
    ∀ m ∈ c.methods, (classEnv p c).DeclaresBasic (baseType m.returnType)

theorem NamesClasses.closed (h : NamesClasses p) {c : Ast.Class} (hc : c ∈ p.classes) {Γ : Env}
    (hΓ : Γ.classes = p.classes) (hname : Γ.className = c.name) (hfields : Γ.frame.fields = c.fields)
    (hparams : ∀ q ∈ Γ.frame.params, Γ.DeclaresBasic (baseType q.type)) : Γ.Closed [] := by
  have hbasic (type : BasicType) (hd : (classEnv p c).DeclaresBasic type) : Γ.DeclaresBasic type := by
    cases type with
    | primitive => trivial
    | classType name =>
      obtain ⟨d, hd, hdname⟩ := hd
      exact ⟨d, hΓ ▸ hd, hdname⟩
  refine ⟨⟨c, hΓ ▸ hc, hname.symm⟩, fun d hd f hf => ?_, fun d hd m hm => ?_, fun f hf => ?_, hparams,
    List.forall_mem_nil _⟩
  · exact hbasic _ ((h d (hΓ ▸ hd)).1 f hf)
  · exact hbasic _ ((h d (hΓ ▸ hd)).2 m hm)
  · exact hbasic _ ((h c hc).1 f (hfields ▸ hf))

theorem methodChecks_spares (h : NamesClasses p) {c : Ast.Class} (hc : c ∈ p.classes) (m : RegularMethod) :
    Spares .unknownReceiver (methodChecks p c m) := by
  unfold methodChecks
  obtain ⟨hparams, hdeclared⟩ := paramChecks_spares (Γ := regularEnv p c m) [] m.parameters
  refine (must_spares _).append fun _ => hparams.append fun hall => ?_
  have hclosed : (regularEnv p c m).Closed [] := h.closed hc rfl rfl rfl (hdeclared hall)
  exact (stmtChecks_spares hclosed 0 _).1.append fun _ => must_spares _

theorem mainChecks_spares (h : NamesClasses p) {c : Ast.Class} (hc : c ∈ p.classes) (mm : MainMethod) :
    Spares .unknownReceiver (mainChecks p c mm) :=
  (stmtChecks_spares (h.closed hc rfl rfl rfl (List.forall_mem_nil _)) 0 _).1

theorem classChecks_spares (h : NamesClasses p) {c : Ast.Class} (hc : c ∈ p.classes) :
    Spares .unknownReceiver (classChecks p c) := by
  unfold classChecks
  refine (must_spares _).append fun _ => (spares_flatMap fun f _ => must_spares _).append fun _ => ?_
  refine (must_spares _).append fun _ => (spares_flatMap fun m _ => methodChecks_spares h hc m).append fun _ => ?_
  refine (must_spares _).append fun _ => (spares_flatMap fun mm _ => mainChecks_spares h hc mm).append fun _ => ?_
  exact must_spares _

/-- If all fields and methods have types that exist, the visit ends: the types of parameters and of local variables are
checked before they are used. -/
theorem NamesClasses.ends (h : NamesClasses p) : Ends p := by
  rw [ends_iff_ne_crash, Ne, crash_iff]
  refine (must_spares _).append fun _ => (spares_flatMap fun c hc => ?_).append fun _ => must_spares _
  exact classChecks_spares h ((sortByName_perm _ _).mem_iff.mp hc)

theorem accepted_iff (p : Program) : (∃ t, visitProgram p = .ok t) ↔ AllHold (programChecks p) :=
  (visitProgram_meets p).ok_iff

/-- A program is accepted exactly if it passes all of the visitor's checks, and refused with a `SemanticError` exactly if
the first one that it fails, in the order of the visits, is not the one for the class of a receiver. -/
theorem analysis_exact (p : Program) :
    ((∃ t, visitProgram p = .ok t) ↔ AllHold (programChecks p)) ∧
      ((∃ message, visitProgram p = .error (.semanticError message)) ↔ FirstBroken (programChecks p) .mistake) := by
  refine ⟨accepted_iff p, ?_⟩
  rw [← (visitProgram_meets p).error_iff]
  constructor
  · rintro ⟨message, h⟩
    exact ⟨_, h, rfl⟩
  · rintro ⟨s, h, hs⟩
    cases s with
    | semanticError message => exact ⟨message, h⟩
    | crash => cases hs

/-- If all fields and methods have types that exist, the visit decides whether the program passes the checks. -/
theorem NamesClasses.decided (h : NamesClasses p) :
    ((∃ t, visitProgram p = .ok t) ↔ AllHold (programChecks p)) ∧
      ((∃ message, visitProgram p = .error (.semanticError message)) ↔ ¬ AllHold (programChecks p)) := by
  refine ⟨accepted_iff p, ?_⟩
  rw [← accepted_iff]
  rcases h.ends with ⟨t, ht⟩ | ⟨message, hm⟩
  · rw [ht]
    exact ⟨fun ⟨_, hm⟩ => (by cases hm), fun hnot => absurd ⟨t, rfl⟩ hnot⟩
  · rw [hm]
    exact ⟨fun _ ⟨_, ht⟩ => (by cases ht), fun _ => ⟨message, rfl⟩⟩

/-- Two classes that have fields of each other. -/
def mutualClasses : Program :=
  ⟨[⟨"B", [⟨.basic (.classType "A"), "a"⟩], [], []⟩,
    ⟨"A", [⟨.basic (.classType "B"), "b"⟩],
      [⟨.basic (.classType "A"), "f", [], ⟨[.returnStmt (some (.fieldAccess (.varRef "b") "a"))], false⟩⟩],
      [⟨"main", "args", ⟨[], true⟩⟩]⟩]⟩

theorem NamesClasses.decided_mutualClasses : NamesClasses mutualClasses ∧ AllHold (programChecks mutualClasses) := by
  have h : NamesClasses mutualClasses := by
    simp [NamesClasses, mutualClasses, classEnv, Env.DeclaresBasic, Env.HasClass, baseType]
  exact ⟨h, h.decided.1.mp ⟨_, rfl⟩⟩

end ClosedPrograms

end Mjc.Sema

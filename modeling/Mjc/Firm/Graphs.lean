import Mjc.Firm.Stacks

/-!
# Where graph construction ends

A `System` dummy that is visited pushes nothing, and the next `popNode` finds the stack empty.

* `plain_of_ok`, `plainStmt_of_ok` : no dummy is visited on the way to the end of an expression or a statement;
* `visitProgram_ok_iff` : the graphs of an accepted program are built exactly if no dummy is visited.
-/

namespace Mjc.FirmVisitor
open Mjc.Ast Mjc.Sema Mjc.Firm

set_option autoImplicit false

/-! ## Expressions -/

section Expressions

variable {b : Bool} {e : TExpr} {r : List Bool} {gs : List String} {st : St}

/-- A dummy has no type. -/
theorem not_system_of_kind (h : Typed e) (hk : e.targetType.kind ≠ .unresolved) : isSystem e = false := by
  cases h with
  | system | systemStream => exact absurd rfl hk
  | _ => rfl

theorem not_system_of_isInt (h : Typed e) (ht : e.targetType.isInt = true) : isSystem e = false :=
  not_system_of_kind h fun hk => by rw [SemType.isInt, hk] at ht; cases ht

theorem not_system_of_isBool (h : Typed e) (ht : e.targetType.isBool = true) : isSystem e = false :=
  not_system_of_kind h fun hk => by rw [SemType.isBool, hk] at ht; cases ht

theorem not_system_of_isClass (h : Typed e) (ht : e.targetType.isClass = true) : isSystem e = false :=
  not_system_of_kind h fun hk => by rw [SemType.isClass, hk] at ht; cases ht

theorem not_system_of_isValue (h : Typed e) (ht : e.targetType.isValue = true) : isSystem e = false :=
  not_system_of_kind h fun hk => by rw [SemType.isValue, hk] at ht; cases ht

theorem Plain.of_parts (h : isSystem e = false) (hparts : ∀ v ∈ partVisits b e, isSystem v.1 = false) : Plain b e :=
  List.forall_mem_cons.mpr ⟨h, hparts⟩

/-- Where the visit of `e` ends on an empty stack, only `e` itself can be a dummy. -/
def Ends (b : Bool) (e : TExpr) : Prop :=
  ∀ r gs st, visitExpr e ⟨[], b :: r, gs⟩ = .ok st → isSystem e = true ∨ Plain b e

theorem Ends.plain (h : Ends b e) (hs : isSystem e = false) (hok : visitExpr e ⟨[], b :: r, gs⟩ = .ok st) : Plain b e :=
  (h r gs st hok).resolve_left (by rw [hs]; exact Bool.false_ne_true)

/-- The visit of an operand that ends, and whose value is popped. -/
theorem Ends.operand {α : Type} {f : Value × St → Except Failure α} {a : α} (h : Ends b e) (ht : Typed e) (hw : Wanted b e)
    (hok : (visitExpr e ⟨[], b :: r, gs⟩ >>= fun st => popNode st >>= f) = .ok a) :
    Plain b e ∧ ∃ v, f (v, ⟨[], b :: r, gs⟩) = .ok a := by
  obtain ⟨st, hvisit, hrest⟩ := bind_eq_ok.mp hok
  rcases h r gs st hvisit with hsys | hplain
  · rw [visitExpr_isSystem hsys] at hvisit
    cases hvisit
    cases hrest
  · obtain ⟨v, hv, -⟩ := visits_push ht hw hplain _ List.mem_cons_self [] r gs
    rw [hv] at hvisit
    cases hvisit
    exact ⟨hplain, v, hrest⟩

theorem popArguments_plain {args : List TExpr} (h : ∀ a ∈ args, Ends false a) (ht : ∀ a ∈ args, Typed a)
    (hok : popArguments args ⟨[], false :: r, gs⟩ = .ok st) : ∀ a ∈ args, Plain false a := by
  induction args with
  | nil => exact List.forall_mem_nil _
  | cons a l ih =>
    rw [popArguments] at hok
    obtain ⟨hplain, v, hrest⟩ := (h a List.mem_cons_self).operand (ht a List.mem_cons_self) (wanted_false _) hok
    obtain ⟨-, -, hl⟩ := bind_eq_ok.mp hrest
    exact List.forall_mem_cons.mpr ⟨hplain, ih (fun a ha => h a (List.mem_cons_of_mem _ ha))
      (fun a ha => ht a (List.mem_cons_of_mem _ ha)) hl⟩

theorem argVisits_plain {l : List TExpr} (h : ∀ a ∈ l, Plain b a) : ∀ v ∈ argVisits b l, isSystem v.1 = false :=
  forall_mem_argVisits h

theorem operator_ends {op : BinaryOp} (hop : wantsBool op = false) {l r : TExpr} {type : SemType} (hl : Ends false l)
    (hr : Ends false r) (htl : Typed l) (htr : Typed r) : Ends b (.binary op l r type) := by
  intro rs gs st hok
  rw [visitExpr_operator hop] at hok
  obtain ⟨hplain, v, hrest⟩ := hl.operand htl (wanted_false _) hok
  obtain ⟨hplain', -⟩ := hr.operand htr (wanted_false _) hrest
  refine .inr (.of_parts rfl ?_)
  rw [partVisits, hop]
  exact List.forall_mem_append.mpr ⟨hplain, hplain'⟩

theorem binary_ends {op : BinaryOp} {l r : TExpr} {type : SemType} (h : BinaryTyped op l r type) (htl : Typed l)
    (htr : Typed r) (hl : Ends (wantsBool op) l) (hr : Ends (wantsBool op) r) : Ends b (.binary op l r type) := by
  cases h with
  | logical hop hlb hrb =>
    have hb : wantsBool op = true := by rcases hop with rfl | rfl <;> rfl
    rw [hb] at hl hr
    intro rs gs st hok
    rw [visitExpr_logical hb] at hok
    have hcond : ∀ {e : TExpr} {f : St → Except Failure St} {st}, Typed e → e.targetType.isBool = true → Ends true e →
        (visitExpr e ⟨[], true :: b :: rs, gs⟩ >>= fun st => popCondition st >>= f) = .ok st →
        Plain true e ∧ f ⟨[], b :: rs, gs⟩ = .ok st := by
      intro e f st ht hbool he hok
      obtain ⟨st₁, hvisit, hrest⟩ := bind_eq_ok.mp hok
      have hplain := he.plain (not_system_of_isBool ht hbool) hvisit
      have hpush := visits_push ht (fun _ => hbool) hplain _ List.mem_cons_self
      rw [hpush.condition] at hvisit
      cases hvisit
      exact ⟨hplain, hrest⟩
    obtain ⟨hplain, hrest⟩ := hcond htl hlb hl hok
    obtain ⟨hplain', -⟩ := hcond htr hrb hr hrest
    refine .inr (.of_parts rfl ?_)
    rw [partVisits, hb]
    exact List.forall_mem_append.mpr ⟨hplain, hplain'⟩
  | arithmetic hop =>
    have hb : wantsBool op = false := by rcases hop with rfl | rfl | rfl | rfl | rfl <;> rfl
    rw [hb] at hl hr
    exact operator_ends hb hl hr htl htr
  | order hop =>
    have hb : wantsBool op = false := by rcases hop with rfl | rfl | rfl | rfl <;> rfl
    rw [hb] at hl hr
    exact operator_ends hb hl hr htl htr
  | equality hop =>
    have hb : wantsBool op = false := by rcases hop with rfl | rfl <;> rfl
    rw [hb] at hl hr
    exact operator_ends hb hl hr htl htr
  | assign => exact operator_ends rfl hl hr htl htr

/-- No dummy is visited on the way to the end of an expression, unless the expression is one. -/
theorem plain_of_ok (h : Typed e) (hw : Wanted b e) : Ends b e := by
  induction h generalizing b with
  | intLiteral | boolLiteral | nullLiteral | thisLiteral | newObject | varRef =>
    intro r gs st _
    refine .inr (.of_parts rfl ?_)
    rw [partVisits]
    exact List.forall_mem_nil _
  | system => exact fun _ _ _ _ => .inl rfl
  | systemStream hd => rcases hd with rfl | rfl <;> exact fun _ _ _ _ => .inl rfl
  | @sysoutCall x y name d type₁ type args h ha iha =>
    have hb : b = false := not_wanted hw (by cases h <;> rfl)
    subst hb
    intro r gs st hok
    refine .inr (.of_parts rfl ?_)
    rw [partVisits]
    refine argVisits_plain fun a ham => ?_
    cases h with
    | println hint | write hint =>
      obtain rfl := List.mem_singleton.mp ham
      simp only [visitExpr, ok_bind, visitArguments] at hok
      obtain ⟨st₁, hargs, -⟩ := bind_eq_ok.mp hok
      obtain ⟨st₂, hvisit, -⟩ := bind_eq_ok.mp hargs
      exact (iha a ham (wanted_false a)).plain (not_system_of_isInt (ha a ham) hint) hvisit
    | flush | read => cases ham
  | call hl hc ha hv ht ihl iha =>
    intro r gs st hok
    simp only [visitExpr, hc, assert, if_true, ok_bind, pushRequires] at hok
    obtain ⟨hleft, v, hrest⟩ := (ihl (wanted_false _)).operand hl (wanted_false _) hok
    obtain ⟨_, -, hload⟩ := bind_eq_ok.mp hrest
    obtain ⟨st₁, hargs, -⟩ := bind_eq_ok.mp hload
    have hplain := popArguments_plain (fun a ham => iha a ham (wanted_false a)) ha hargs
    refine .inr (.of_parts rfl ?_)
    rw [partVisits]
    exact List.forall_mem_append.mpr ⟨hleft, argVisits_plain hplain⟩
  | fieldAccess hl hc ht ihl =>
    intro r gs st hok
    simp only [visitExpr, pushRequires] at hok
    obtain ⟨st₁, hvisit, -⟩ := bind_eq_ok.mp hok
    refine .inr (.of_parts rfl ?_)
    rw [partVisits]
    exact (ihl (wanted_false _)).plain (not_system_of_isClass hl hc) hvisit
  | arrayAccess ha hi hint harray iha ihi =>
    intro r gs st hok
    simp only [visitExpr, pushRequires] at hok
    obtain ⟨harr, v, hrest⟩ := (iha (wanted_false _)).operand ha (wanted_false _) hok
    obtain ⟨_, -, hassert⟩ := bind_eq_ok.mp hrest
    obtain ⟨_, -, hindex⟩ := bind_eq_ok.mp hassert
    obtain ⟨st₁, hvisit, -⟩ := bind_eq_ok.mp hindex
    refine .inr (.of_parts rfl ?_)
    rw [partVisits]
    exact List.forall_mem_append.mpr ⟨harr, (ihi (wanted_false _)).plain (not_system_of_isInt hi hint) hvisit⟩
  | newArray hs hint ht ihs =>
    intro r gs st hok
    simp only [visitExpr, pushRequires] at hok
    obtain ⟨st₁, hvisit, -⟩ := bind_eq_ok.mp hok
    refine .inr (.of_parts rfl ?_)
    rw [partVisits]
    exact (ihs (wanted_false _)).plain (not_system_of_isInt hs hint) hvisit
  | binary hl hr h ihl ihr => exact binary_ends h hl hr (ihl (BinaryTyped.wanted h).1) (ihr (BinaryTyped.wanted h).2)
  | neg he h ihe =>
    have hb : b = false := not_wanted hw rfl
    subst hb
    intro r gs st hok
    simp only [visitExpr] at hok
    obtain ⟨st₁, hvisit, -⟩ := bind_eq_ok.mp hok
    refine .inr (.of_parts rfl ?_)
    rw [partVisits]
    exact (ihe (wanted_false _)).plain (not_system_of_isInt he h) hvisit
  | not he h ihe =>
    intro r gs st hok
    simp only [visitExpr, pushRequires] at hok
    obtain ⟨st₁, hvisit, -⟩ := bind_eq_ok.mp hok
    refine .inr (.of_parts rfl ?_)
    rw [partVisits]
    exact (ihe (fun _ => h)).plain (not_system_of_isBool he h) hvisit

end Expressions

/-! ## Statements -/

section Statements

variable {r : List Bool} {gs : List String} {st : St}

/-- The visit of a statement that ends leaves the stacks as they are. -/
theorem PlainStmt.after {s : TStmt} (h : PlainStmt s) (ht : TypedStmt s)
    (hok : visitStmt s ⟨[], false :: r, gs⟩ = .ok st) : st = ⟨[], false :: r, gs⟩ := by
  rw [(stmtVisits_balanced ht h s (mem_stmtVisits_self s)).1] at hok
  cases hok
  rfl

theorem optVisits_plain {o : Option TStmt} (h : ∀ s ∈ o, PlainStmt s) :
    ∀ s' ∈ optVisits o, ∀ v ∈ ownVisits s', isSystem v.1 = false := forall_mem_optVisits h

theorem visitStmts_plain {l : List TStmt}
    (h : ∀ s ∈ l, ∀ r gs st, visitStmt s ⟨[], false :: r, gs⟩ = .ok st → PlainStmt s) (ht : ∀ s ∈ l, TypedStmt s)
    (hok : visitStmts l ⟨[], false :: r, gs⟩ = .ok st) : ∀ s ∈ l, PlainStmt s := by
  induction l with
  | nil => exact List.forall_mem_nil _
  | cons s l ih =>
    rw [visitStmts] at hok
    obtain ⟨st₁, hvisit, hrest⟩ := bind_eq_ok.mp hok
    have hplain := h s List.mem_cons_self r gs st₁ hvisit
    rw [hplain.after (ht s List.mem_cons_self) hvisit] at hrest
    exact List.forall_mem_cons.mpr ⟨hplain, ih (fun s hs => h s (List.mem_cons_of_mem _ hs))
      (fun s hs => ht s (List.mem_cons_of_mem _ hs)) hrest⟩

theorem visitOptStmt_plain {o : Option TStmt}
    (h : ∀ s ∈ o, ∀ r gs st, visitStmt s ⟨[], false :: r, gs⟩ = .ok st → PlainStmt s) (ht : ∀ s ∈ o, TypedStmt s)
    (hok : visitOptStmt o ⟨[], false :: r, gs⟩ = .ok st) :
    (∀ s ∈ o, PlainStmt s) ∧ st = ⟨[], false :: r, gs⟩ := by
  cases o with
  | none =>
    rw [visitOptStmt] at hok
    cases hok
    refine ⟨fun s hs => ?_, rfl⟩
    cases hs
  | some s =>
    rw [visitOptStmt] at hok
    have hplain := h s rfl r gs st hok
    refine ⟨fun s' hs' => ?_, hplain.after (ht s rfl) hok⟩
    cases hs'
    exact hplain

theorem visitCondition_plain {c : TExpr} (hc : Typed c) (hb : c.targetType.isBool = true)
    (hok : visitCondition c ⟨[], false :: r, gs⟩ = .ok st) : Plain true c ∧ st = ⟨[], false :: r, gs⟩ := by
  have hends := plain_of_ok hc (b := true) fun _ => hb
  have hrun := hok
  unfold visitCondition at hok
  obtain ⟨st₁, hvisit, -⟩ := bind_eq_ok.mp hok
  have hplain := hends.plain (not_system_of_isBool hc hb) hvisit
  rw [visitCondition_keeps (visits_push hc (fun _ => hb) hplain _ List.mem_cons_self)] at hrun
  cases hrun
  exact ⟨hplain, rfl⟩

theorem optExpr_plain {o : Option TExpr} (h : ∀ e ∈ o, Plain false e) :
    ∀ v ∈ o.toList.flatMap (exprVisits false), isSystem v.1 = false := by
  cases o with
  | none => exact fun v hv => (nomatch hv)
  | some e =>
    rw [Option.toList_some, List.flatMap_singleton]
    exact h e rfl

theorem PlainStmt.of_parts {s : TStmt} {l : List TStmt} (hs : stmtVisits s = s :: l)
    (hown : ∀ v ∈ ownVisits s, isSystem v.1 = false) (hl : ∀ s' ∈ l, ∀ v ∈ ownVisits s', isSystem v.1 = false) :
    PlainStmt s := by
  unfold PlainStmt
  rw [hs]
  exact List.forall_mem_cons.mpr ⟨hown, hl⟩

/-- No dummy is visited on the way to the end of a statement. -/
theorem plainStmt_of_ok {s : TStmt} (h : TypedStmt s) :
    ∀ r gs st, visitStmt s ⟨[], false :: r, gs⟩ = .ok st → PlainStmt s := by
  induction h with
  | @block ss es lonely cfb hss ih =>
    intro r gs st hok
    rw [visitStmt] at hok
    have hplain := visitStmts_plain ih hss hok
    exact .of_parts (by rw [stmtVisits]) (List.forall_mem_nil _) (forall_mem_stmtsVisits hplain)
  | @varDecl type name idx o h =>
    intro r gs st hok
    refine .of_parts (by rw [stmtVisits]) (optExpr_plain fun e he => ?_) (List.forall_mem_nil _)
    obtain ⟨ht, hvalue⟩ := h e he
    cases he
    simp only [visitStmt, visitVariableDeclaration] at hok
    obtain ⟨st₁, hvisit, -⟩ := bind_eq_ok.mp hok
    exact (plain_of_ok ht (wanted_false e)).plain (not_system_of_isValue ht hvalue) hvisit
  | @exprStmt e h =>
    intro r gs st hok
    rw [visitStmt] at hok
    obtain ⟨hplain, -⟩ := (plain_of_ok h (wanted_false e)).operand h (wanted_false e) hok
    exact .of_parts (by rw [stmtVisits]) hplain (List.forall_mem_nil _)
  | @ifStmt c t₁ t₂ cfb hc hb h₁ h₂ ih₁ ih₂ =>
    intro r gs st hok
    rw [visitStmt] at hok
    obtain ⟨st₁, hcond, hrest⟩ := bind_eq_ok.mp hok
    obtain ⟨hplain, rfl⟩ := visitCondition_plain hc hb hcond
    obtain ⟨st₂, hthen, helse⟩ := bind_eq_ok.mp hrest
    obtain ⟨hplain₁, rfl⟩ := visitOptStmt_plain ih₁ h₁ hthen
    obtain ⟨hplain₂, rfl⟩ := visitOptStmt_plain ih₂ h₂ helse
    exact .of_parts (by rw [stmtVisits]) hplain
      (List.forall_mem_append.mpr ⟨optVisits_plain hplain₁, optVisits_plain hplain₂⟩)
  | @whileStmt c t hc hb h ih =>
    intro r gs st hok
    rw [visitStmt] at hok
    obtain ⟨st₁, hcond, hrest⟩ := bind_eq_ok.mp hok
    obtain ⟨hplain, rfl⟩ := visitCondition_plain hc hb hcond
    obtain ⟨hplain₁, rfl⟩ := visitOptStmt_plain ih h hrest
    exact .of_parts (by rw [stmtVisits]) hplain (optVisits_plain hplain₁)
  | @returnStmt o h =>
    intro r gs st hok
    refine .of_parts (by rw [stmtVisits]) (optExpr_plain fun e he => ?_) (List.forall_mem_nil _)
    obtain ⟨ht, hvalue⟩ := h e he
    cases he
    simp only [visitStmt, visitReturnStatement, pushRequires] at hok
    obtain ⟨st₁, hvisit, -⟩ := bind_eq_ok.mp hok
    exact (plain_of_ok ht (wanted_false e)).plain (not_system_of_isValue ht hvalue) hvisit

end Statements

/-! ## Programs -/

section Programs

variable {gs : List String} {st : St}

theorem foldlM_visitMethod_plain {α : Type} {entity : α → String} {body : α → TStmt} {l : List α}
    (ht : ∀ m ∈ l, TypedStmt (body m))
    (hok : l.foldlM (fun st m => visitMethod (entity m) (body m) st) (St.mk [] [false] gs) = .ok st) :
    (∀ m ∈ l, PlainStmt (body m)) ∧ ∃ gs', st = ⟨[], [false], gs'⟩ := by
  induction l generalizing gs with
  | nil =>
    cases hok
    exact ⟨List.forall_mem_nil _, gs, rfl⟩
  | cons m l ih =>
    rw [List.foldlM_cons] at hok
    obtain ⟨st₁, hmethod, hrest⟩ := bind_eq_ok.mp hok
    unfold visitMethod at hmethod
    obtain ⟨st₂, hbody, hst⟩ := bind_eq_ok.mp hmethod
    have htm := ht m List.mem_cons_self
    have hplain := plainStmt_of_ok htm [] gs st₂ hbody
    obtain rfl := hplain.after htm hbody
    cases hst
    obtain ⟨hl, hst⟩ := ih (fun m hm => ht m (List.mem_cons_of_mem _ hm)) hrest
    exact ⟨List.forall_mem_cons.mpr ⟨hplain, hl⟩, hst⟩

theorem foldlM_visitClass_plain {l : List TClass}
    (ht : ∀ c ∈ l, (∀ m ∈ c.methods, TypedStmt m.body) ∧ ∀ m ∈ c.mainMethods, TypedStmt m.body)
    (hok : l.foldlM (fun st c => visitClassMembers c st) (St.mk [] [false] gs) = .ok st) :
    ∀ c ∈ l, (∀ m ∈ c.methods, PlainStmt m.body) ∧ ∀ m ∈ c.mainMethods, PlainStmt m.body := by
  induction l generalizing gs with
  | nil => exact List.forall_mem_nil _
  | cons c l ih =>
    rw [List.foldlM_cons] at hok
    obtain ⟨st₁, hclass, hrest⟩ := bind_eq_ok.mp hok
    unfold visitClassMembers visitRegularMethod visitMainMethod at hclass
    obtain ⟨st₂, hmethods, hmains⟩ := bind_eq_ok.mp hclass
    obtain ⟨htm, hts⟩ := ht c List.mem_cons_self
    obtain ⟨hm, gs₁, rfl⟩ := foldlM_visitMethod_plain htm hmethods
    obtain ⟨hs, gs₂, rfl⟩ := foldlM_visitMethod_plain hts hmains
    exact List.forall_mem_cons.mpr ⟨⟨hm, hs⟩, ih (fun c hc => ht c (List.mem_cons_of_mem _ hc)) hrest⟩

/-- The graphs of an accepted program are built exactly if no `System` dummy is visited; they are then those of its
methods. -/
theorem visitProgram_ok_iff {p : Program} {t : TProgram} (h : ProgramVisited p t) :
    visitProgram t = .ok st ↔
      st = ⟨[], [false], graphEntities t⟩ ∧ ∀ v ∈ programVisits t, isSystem v.1 = false := by
  constructor
  · intro hok
    have hplain : ∀ v ∈ programVisits t, isSystem v.1 = false := by
      intro v hv
      obtain ⟨s, hs, hv⟩ := List.mem_flatMap.mp hv
      obtain ⟨s₀, hs₀, hs⟩ := List.mem_flatMap.mp hs
      obtain ⟨c, hc, hbody⟩ := List.mem_flatMap.mp hs₀
      unfold visitProgram initial at hok
      obtain ⟨st₁, hclasses, -⟩ := bind_eq_ok.mp hok
      obtain ⟨hm, hmm⟩ := foldlM_visitClass_plain (fun c hc => h.typed hc) hclasses c hc
      rcases List.mem_append.mp hbody with hbody | hbody
      · obtain ⟨m, hmem, rfl⟩ := List.mem_map.mp hbody
        exact hm m hmem s hs v hv
      · obtain ⟨m, hmem, rfl⟩ := List.mem_map.mp hbody
        exact hmm m hmem s hs v hv
    rw [visitProgram_of_plain h hplain] at hok
    exact ⟨(Except.ok.inj hok).symm, hplain⟩
  · rintro ⟨rfl, hplain⟩
    exact visitProgram_of_plain h hplain

end Programs

end Mjc.FirmVisitor

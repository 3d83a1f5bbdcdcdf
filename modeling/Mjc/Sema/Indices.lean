import Mjc.Sema.Scoping

/-!
# The indices of local variables

The counter of `visitVariableDeclaration` numbers the variables of a method in textual order, over all of its blocks and
with the dead code.

* `declared_occurrences` : the indices of the declarations of a statement are an interval;
* `DeclaredIn`, `occurrences_in` : a visible variable has a declaration;
* `Numbered` : the declarations of a body are numbered, and references have the indices of declarations and parameters;
* `RegularVisited.numbered`, `MainVisited.numbered` : so it is in every accepted method.
-/

namespace Mjc.Sema
open Mjc.Ast

set_option autoImplicit false

/-- The index of a name that is declared. -/
def Mention.declared : Mention → Option Nat
  | .use _ => none
  | .decl _ idx => some idx

/-- The index of an annotated declaration. -/
def Binding.declared : Binding → Option Nat
  | .use _ _ => none
  | .decl _ idx => some idx

/-- The indices of the declarations among some names. -/
def declaredAt (l : List Occurrence) : List Nat := l.filterMap fun o => o.mention.declared

theorem declaredAt_append (l l' : List Occurrence) : declaredAt (l ++ l') = declaredAt l ++ declaredAt l' :=
  List.filterMap_append

theorem declaredAt_usesAt (ls : Locals) (names : List String) : declaredAt (usesAt ls names) = [] := by
  unfold declaredAt usesAt
  apply List.filterMap_eq_nil_iff.mpr
  intro o ho
  obtain ⟨x, -, rfl⟩ := List.mem_map.mp ho
  rfl

theorem declared_bindings {fr : Frame} {l : List Occurrence} {bs : List Binding}
    (h : List.Forall₂ (Occurrence.Ok fr) l bs) : bs.filterMap Binding.declared = declaredAt l := by
  unfold declaredAt
  induction h with
  | nil => rfl
  | @cons o b l bs hob _ ih =>
    obtain ⟨ls, mention⟩ := o
    have hidx : b.declared = mention.declared := by
      cases mention <;> cases b
      · rfl
      · cases hob
      · cases hob
      · exact congrArg some hob.2.1.symm
    rw [List.filterMap_cons, List.filterMap_cons, hidx, ih]

/-! ## The declarations of a statement -/

section Occurrences

variable {l : List Stmt} {o : Option Stmt}

theorem declared_occurrencesAll
    (ih : ∀ s ∈ l, ∀ ls n, declaredAt (occurrences ls n s) = List.range' n (varCount s)) (ls : Locals) (n : Nat) :
    declaredAt (occurrencesAll ls n l) = List.range' n (varsCount l) := by
  induction l generalizing ls n with
  | nil => rfl
  | cons s l ihl =>
    rw [occurrencesAll, declaredAt_append, ih s List.mem_cons_self,
      ihl (fun s hs => ih s (List.mem_cons_of_mem _ hs)), List.range'_append_1, varsCount]

theorem declared_occurrencesOpt
    (ih : ∀ s ∈ o, ∀ ls n, declaredAt (occurrences ls n s) = List.range' n (varCount s)) (ls : Locals) (n : Nat) :
    declaredAt (occurrencesOpt ls n o) = List.range' n (optVarCount o) := by
  cases o with
  | none => rfl
  | some s => exact ih s rfl ls n

/-- The declarations of a statement are numbered in textual order. -/
theorem declared_occurrences (ls : Locals) (n : Nat) (s : Stmt) :
    declaredAt (occurrences ls n s) = List.range' n (varCount s) := by
  induction s using Stmt.induct generalizing ls n with
  | block l lonely ih => exact declared_occurrencesAll (fun s hs ls n => ih s hs ls n) ls n
  | varDecl type name o =>
    show n :: declaredAt (usesAt _ _) = [n]
    rw [declaredAt_usesAt]
  | exprStmt e => exact declaredAt_usesAt _ _
  | ifStmt c s₁ s₂ ih₁ ih₂ =>
    rw [occurrences, declaredAt_append, declaredAt_append, declaredAt_usesAt, List.nil_append,
      declared_occurrencesOpt (fun s hs ls n => ih₁ s hs ls n),
      declared_occurrencesOpt (fun s hs ls n => ih₂ s hs ls n), List.range'_append_1, varCount]
  | whileStmt c s ih =>
    rw [occurrences, declaredAt_append, declaredAt_usesAt, List.nil_append,
      declared_occurrencesOpt (fun s hs ls n => ih s hs ls n), varCount]
  | returnStmt o => exact declaredAt_usesAt _ _

/-! ## The visible variables -/

/-- The names alone. -/
def mentions (l : List Occurrence) : List Mention := l.map Occurrence.mention

theorem mentions_append (l l' : List Occurrence) : mentions (l ++ l') = mentions l ++ mentions l' := List.map_append

/-- Every visible variable has its declaration among the names. -/
def DeclaredIn (ms : List Mention) (ls : Locals) : Prop := ∀ v ∈ ls, Mention.decl v.1 v.2.1 ∈ ms

theorem DeclaredIn.mono {ms ms' : List Mention} {ls : Locals} (h : DeclaredIn ms ls) (hms : ms ⊆ ms') :
    DeclaredIn ms' ls := fun v hv => hms (h v hv)

theorem DeclaredIn.append {ms : List Mention} {ls ls' : Locals} (h : DeclaredIn ms ls) (h' : DeclaredIn ms ls') :
    DeclaredIn ms (ls ++ ls') := List.forall_mem_append.mpr ⟨h, h'⟩

theorem DeclaredIn.lookup {ms : List Mention} {ls : Locals} (h : DeclaredIn ms ls) {x : String} {idx : Nat} {type : Ty}
    (hx : ls.lookup x = some (idx, type)) : Mention.decl x idx ∈ ms := by
  obtain ⟨l, l', hl, -⟩ := List.lookup_eq_some_iff.mp hx
  exact h (x, idx, type) (by rw [hl]; exact List.mem_append_right _ List.mem_cons_self)

theorem optDeclared_in (ih : ∀ s ∈ o, ∀ ls n, DeclaredIn (mentions (occurrences ls n s)) (declared n s)) (ls : Locals)
    (n : Nat) : DeclaredIn (mentions (occurrencesOpt ls n o)) (optDeclared n o) := by
  cases o with
  | none => exact List.forall_mem_nil _
  | some s => exact ih s rfl ls n

/-- What a statement leaves visible is declared in it. -/
theorem declared_in (ls : Locals) (n : Nat) (s : Stmt) : DeclaredIn (mentions (occurrences ls n s)) (declared n s) := by
  induction s using Stmt.induct generalizing ls n with
  | block | exprStmt | returnStmt => exact List.forall_mem_nil _
  | varDecl type name o => exact List.forall_mem_singleton.mpr List.mem_cons_self
  | ifStmt c s₁ s₂ ih₁ ih₂ =>
    have h₁ := optDeclared_in (fun s hs ls n => ih₁ s hs ls n) ls n
    have h₂ := optDeclared_in (fun s hs ls n => ih₂ s hs ls n) (optDeclared n s₁ ++ ls) (n + optVarCount s₁)
    rw [declared, occurrences, mentions_append, mentions_append]
    refine (h₂.mono fun m hm => ?_).append (h₁.mono fun m hm => ?_)
    · exact List.mem_append_right _ (List.mem_append_right _ hm)
    · exact List.mem_append_right _ (List.mem_append_left _ hm)
  | whileStmt c s ih =>
    rw [declared, occurrences, mentions_append]
    exact (optDeclared_in (fun s hs ls n => ih s hs ls n) ls n).mono fun m hm => List.mem_append_right _ hm

theorem usesAt_in {ms : List Mention} {ls : Locals} (h : DeclaredIn ms ls) (names : List String) :
    ∀ o ∈ usesAt ls names, DeclaredIn ms o.locals := by
  intro o ho
  obtain ⟨x, -, rfl⟩ := List.mem_map.mp ho
  exact h

theorem occurrencesAll_in
    (ih : ∀ s ∈ l, ∀ ms ls n, DeclaredIn ms ls →
      ∀ o ∈ occurrences ls n s, DeclaredIn (ms ++ mentions (occurrences ls n s)) o.locals)
    {ms : List Mention} {ls : Locals} {n : Nat} (h : DeclaredIn ms ls) :
    ∀ o ∈ occurrencesAll ls n l, DeclaredIn (ms ++ mentions (occurrencesAll ls n l)) o.locals := by
  induction l generalizing ms ls n with
  | nil => exact List.forall_mem_nil _
  | cons s l ihl =>
    rw [occurrencesAll, mentions_append, ← List.append_assoc]
    refine List.forall_mem_append.mpr ⟨fun o ho => ?_, ?_⟩
    · exact (ih s List.mem_cons_self ms ls n h o ho).mono (List.subset_append_left _ _)
    · have h' : DeclaredIn (ms ++ mentions (occurrences ls n s)) (declared n s ++ ls) :=
        ((declared_in ls n s).mono (List.subset_append_right _ _)).append (h.mono (List.subset_append_left _ _))
      exact ihl (fun s hs => ih s (List.mem_cons_of_mem _ hs)) h'

theorem occurrencesOpt_in
    (ih : ∀ s ∈ o, ∀ ms ls n, DeclaredIn ms ls →
      ∀ o ∈ occurrences ls n s, DeclaredIn (ms ++ mentions (occurrences ls n s)) o.locals)
    {ms : List Mention} {ls : Locals} {n : Nat} (h : DeclaredIn ms ls) :
    ∀ o' ∈ occurrencesOpt ls n o, DeclaredIn (ms ++ mentions (occurrencesOpt ls n o)) o'.locals := by
  cases o with
  | none => exact List.forall_mem_nil _
  | some s => exact ih s rfl ms ls n h

/-- What a name of a statement sees is declared before the statement or in it. -/
theorem occurrences_in {ms : List Mention} {ls : Locals} {n : Nat} (h : DeclaredIn ms ls) (s : Stmt) :
    ∀ o ∈ occurrences ls n s, DeclaredIn (ms ++ mentions (occurrences ls n s)) o.locals := by
  induction s using Stmt.induct generalizing ms ls n with
  | block l lonely ih => exact occurrencesAll_in (fun s hs _ _ _ => ih s hs) h
  | varDecl type name o =>
    have hnew : DeclaredIn (ms ++ mentions (occurrences ls n (.varDecl type name o))) ((name, n, type) :: ls) :=
      List.forall_mem_cons.mpr ⟨List.mem_append_right _ List.mem_cons_self, h.mono (List.subset_append_left _ _)⟩
    exact List.forall_mem_cons.mpr ⟨h.mono (List.subset_append_left _ _), usesAt_in hnew _⟩
  | exprStmt e => exact usesAt_in (h.mono (List.subset_append_left _ _)) _
  | ifStmt c s₁ s₂ ih₁ ih₂ =>
    have h₁ := occurrencesOpt_in (fun s hs _ _ _ => ih₁ s hs) (n := n) h
    have hd : DeclaredIn (ms ++ mentions (occurrencesOpt ls n s₁)) (optDeclared n s₁ ++ ls) :=
      ((optDeclared_in (fun s _ ls n => declared_in ls n s) ls n).mono (List.subset_append_right _ _)).append
        (h.mono (List.subset_append_left _ _))
    have h₂ := occurrencesOpt_in (fun s hs _ _ _ => ih₂ s hs) (n := n + optVarCount s₁) hd
    rw [occurrences, mentions_append, mentions_append]
    refine List.forall_mem_append.mpr ⟨fun o ho => ?_, List.forall_mem_append.mpr ⟨fun o ho => ?_, fun o ho => ?_⟩⟩
    · exact usesAt_in (h.mono (List.subset_append_left _ _)) _ o ho
    · refine (h₁ o ho).mono ?_
      grind
    · refine (h₂ o ho).mono ?_
      grind
  | whileStmt c s ih =>
    rw [occurrences, mentions_append]
    refine List.forall_mem_append.mpr ⟨fun o ho => ?_, fun o ho => ?_⟩
    · exact usesAt_in (h.mono (List.subset_append_left _ _)) _ o ho
    · refine (occurrencesOpt_in (fun s hs _ _ _ => ih s hs) h o ho).mono ?_
      grind
  | returnStmt o => exact usesAt_in (h.mono (List.subset_append_left _ _)) _

end Occurrences

/-! ## Bodies -/

/-- The annotations of a body with `k` local variables: the declarations have the indices below `k` in textual order, and
a reference has the name and the index of one of them or of a parameter. -/
structure Numbered (params : List Parameter) (k : Nat) (t : TStmt) : Prop where
  decls : t.bindings.filterMap Binding.declared = List.range k
  locals : ∀ x idx type, Binding.use x (.definition (.variable idx type)) ∈ t.bindings → Binding.decl x idx ∈ t.bindings
  params : ∀ x idx type, Binding.use x (.definition (.parameter idx type)) ∈ t.bindings →
    ∃ param ∈ params, param.name = x ∧ param.idx = idx

theorem ScopedBody.numbered {fr : Frame} {s : Stmt} {t : TStmt} (h : ScopedBody fr s t) :
    Numbered fr.params (varCount s) t := by
  have hres : ∀ x d, Binding.use x d ∈ t.bindings →
      ∃ ls, DeclaredIn (mentions (occurrences [] 0 s)) ls ∧ Resolves fr ls x d := by
    intro x d hb
    obtain ⟨⟨ls, mention⟩, ho, hok⟩ := exists_left_of_mem h hb
    have hin := @occurrences_in [] [] 0 (List.forall_mem_nil _) s _ ho
    cases mention with
    | use y =>
      obtain ⟨rfl, hok⟩ := hok
      exact ⟨ls, hin, hok⟩
    | decl => cases hok
  refine ⟨?_, fun x idx type hb => ?_, fun x idx type hb => ?_⟩
  · rw [declared_bindings h, declared_occurrences, List.range_eq_range']
  · obtain ⟨ls, hin, hok⟩ := hres x _ hb
    cases hok with
    | «local» hl =>
      obtain ⟨⟨ls', mention⟩, ho, hmention⟩ := List.mem_map.mp (hin.lookup hl)
      obtain rfl : mention = .decl x idx := hmention
      obtain ⟨b, hb, hok⟩ := exists_right_of_mem h ho
      cases b with
      | use => cases hok
      | decl y m =>
        obtain ⟨rfl, rfl, -⟩ := hok
        exact hb
  · obtain ⟨ls, -, hok⟩ := hres x _ hb
    cases hok with
    | param hl hp hx => exact ⟨_, hp, hx, rfl⟩

section Methods

variable {cx : Context} {fields : List Ast.Field} {tbl : Table}

theorem RegularVisited.numbered {m : RegularMethod} {tm : TRegularMethod} (h : RegularVisited cx tbl m tm)
    (hr : Rel ⟨fields, none, []⟩ [] tbl) : tm.parameters = m.parameters ∧ Numbered tm.parameters tm.varDecls tm.body := by
  have hscoped := (h.scoped hr).2.2
  obtain ⟨ptbl, n, h⟩ := h
  obtain ⟨hparams, -⟩ := visitParameters_ok (.enterScope hr) List.nodup_nil h.parameters
  rw [List.append_nil] at hparams
  have hcount : n = 0 + varCount (Block.stmt m.block) :=
    (visitStmt_ok (regularFrame_fits fields m cx) hparams.rel_regularFrame h.body).count
  rw [Nat.zero_add] at hcount
  have hp : tm.parameters = m.parameters := by rw [h.result]
  have hk : tm.varDecls = varCount (Block.stmt m.block) := by
    rw [h.result]
    exact hcount
  rw [hp, hk]
  exact ⟨rfl, hscoped.numbered⟩

theorem MainVisited.numbered {mm : MainMethod} {tm : TMainMethod} (h : MainVisited cx tbl mm tm)
    (hr : Rel ⟨fields, none, []⟩ [] tbl) : Numbered [] tm.varDecls tm.body := by
  have hscoped := (h.scoped hr).2
  obtain ⟨n, h, hresult⟩ := h
  have hcount : n = 0 + varCount (Block.stmt mm.block) :=
    (visitStmt_ok (mainFrame_fits fields mm cx) (hr.insertMainArg mm.argName) h).count
  rw [Nat.zero_add] at hcount
  have hk : tm.varDecls = varCount (Block.stmt mm.block) := by
    rw [hresult]
    exact hcount
  rw [hk]
  exact hscoped.numbered

end Methods

/-- The methods of a class of an accepted program: their local variables are numbered, and an instance method has the
parameters that the parser has given it. -/
structure NumberedClass (c : Ast.Class) (tc : TClass) : Prop where
  methods : ∀ tm ∈ tc.methods, Numbered tm.parameters tm.varDecls tm.body ∧
    ∃ m ∈ c.methods, tm.parameters = m.parameters
  mainMethods : ∀ tm ∈ tc.mainMethods, Numbered [] tm.varDecls tm.body

theorem ProgramVisited.numbered {p : Program} {t : TProgram} (h : ProgramVisited p t) {tc : TClass}
    (htc : tc ∈ t.classes) : ∃ c ∈ p.classes, NumberedClass c tc := by
  obtain ⟨_, hmem, hv⟩ := exists_left_of_mem h.classes htc
  obtain ⟨c, hc, rfl⟩ := List.mem_map.mp hmem
  have hr : Rel ⟨tc.fields, none, []⟩ [] (fieldTable .empty tc.fields) := fieldTable_rel tc.fields
  refine ⟨c, (sortByName_perm _ _).mem_iff.mp hc, ?_, ?_⟩
  · intro tm htm
    obtain ⟨m, hm, hmv⟩ := exists_left_of_mem hv.methods htm
    obtain ⟨hp, hnum⟩ := hmv.numbered hr
    exact ⟨hnum, m, (sortByName_perm _ _).mem_iff.mp ((sortByName_perm _ _).mem_iff.mp hm), hp⟩
  · intro tm htm
    obtain ⟨mm, -, hmv⟩ := exists_left_of_mem hv.mainMethods htm
    exact hmv.numbered hr

end Mjc.Sema

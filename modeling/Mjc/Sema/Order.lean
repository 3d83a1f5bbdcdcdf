import Mjc.Sema.Accepted

/-!
# Declaration order

Semantic analysis does not depend on the order of the declarations.

* `ClassPerm`, `ProgramPerm` : the same declarations in another order;
* `visitProgram_eq_of_perm` : an accepted program gives the same annotated program in every order;
* `accepts_perm` : acceptance is independent of the order.
-/

namespace Mjc.Sema
open Mjc.Ast

set_option autoImplicit false

/-- The members of a class, each kind permuted among themselves. -/
structure ClassPerm (c d : Ast.Class) : Prop where
  name : c.name = d.name
  fields : c.fields.Perm d.fields
  methods : c.methods.Perm d.methods
  mainMethods : c.mainMethods.Perm d.mainMethods

/-- The classes of a program permuted, and then the members of each class. -/
def ProgramPerm (p q : Program) : Prop := ∃ cs, p.classes.Perm cs ∧ List.Forall₂ ClassPerm cs q.classes

/-- Semantic analysis accepts the program. -/
def Accepts (p : Program) : Prop := ∃ t, visitProgram p = .ok t

theorem ClassPerm.symm {c d : Ast.Class} (h : ClassPerm c d) : ClassPerm d c :=
  ⟨h.name.symm, h.fields.symm, h.methods.symm, h.mainMethods.symm⟩

/-- A permutation can be moved to the other side of a pointwise relation. -/
theorem exists_forall₂_of_perm {α : Type} {R : α → α → Prop} {l l' m' : List α} (h : List.Forall₂ R l l')
    (hp : l'.Perm m') : ∃ m, l.Perm m ∧ List.Forall₂ R m m' := by
  induction hp generalizing l with
  | nil => cases h; exact ⟨[], .nil, .nil⟩
  | cons b hp ih =>
    cases h with
    | cons hab hl =>
      obtain ⟨m, hm, hR⟩ := ih hl
      exact ⟨_ :: m, hm.cons _, .cons hab hR⟩
  | swap b c l' =>
    cases h with
    | cons hab h =>
      cases h with
      | cons hcd hl => exact ⟨_ :: _ :: _, .swap _ _ _, .cons hcd (.cons hab hl)⟩
  | trans _ _ ih₁ ih₂ =>
    obtain ⟨m, hm, hR⟩ := ih₁ h
    obtain ⟨m₂, hm₂, hR₂⟩ := ih₂ hR
    exact ⟨m₂, hm.trans hm₂, hR₂⟩

theorem ProgramPerm.symm {p q : Program} (h : ProgramPerm p q) : ProgramPerm q p := by
  obtain ⟨cs, hp, hcs⟩ := h
  have hflip : List.Forall₂ ClassPerm q.classes cs :=
    List.Forall₂.flip (hcs.imp fun _ _ h => h.symm)
  exact exists_forall₂_of_perm hflip hp.symm

theorem ProgramPerm.names {p q : Program} (h : ProgramPerm p q) :
    (p.classes.map Ast.Class.name).Perm (q.classes.map Ast.Class.name) := by
  obtain ⟨cs, hp, hcs⟩ := h
  have hnames : cs.map Ast.Class.name = q.classes.map Ast.Class.name := by
    rw [← List.forall₂_eq_eq_eq, List.forall₂_map_left_iff, List.forall₂_map_right_iff]
    exact hcs.imp fun _ _ h => h.name
  exact hnames ▸ hp.map _

/-- Two permuted lists of at most one element are equal. -/
theorem eq_of_perm_of_length_le_one {α : Type} {l l' : List α} (h : l.Perm l') (hl : l.length ≤ 1) : l = l' := by
  match l, hl with
  | [], _ => exact (h.nil_eq)
  | [a], _ => exact (h.singleton_eq)

/-- A class that passes the checks for duplicates looks the same after sorting, whatever its order was. -/
theorem ClassPerm.sortMembers_eq {c d : Ast.Class} (h : ClassPerm c d)
    (hf : (c.fields.map Ast.Field.name).Nodup) (hm : (c.methods.map RegularMethod.name).Nodup)
    (hmain : c.mainMethods.length ≤ 1) : sortMembers c = sortMembers d := by
  obtain ⟨cname, cfields, cmethods, cmains⟩ := c
  obtain ⟨dname, dfields, dmethods, dmains⟩ := d
  obtain ⟨hname, hfields, hmethods, hmains⟩ := h
  simp only at hname hfields hmethods hmains hf hm hmain
  unfold sortMembers
  simp only
  rw [hname, sortByName_eq_of_perm hfields hf, sortByName_eq_of_perm hmethods hm,
    eq_of_perm_of_length_le_one hmains hmain]

/-- What an accepted program says about its classes before they are sorted. -/
theorem ProgramVisited.class_distinct {p : Program} {t : TProgram} (h : ProgramVisited p t) {c : Ast.Class}
    (hc : c ∈ p.classes) : (c.fields.map Ast.Field.name).Nodup ∧ (c.methods.map RegularMethod.name).Nodup ∧
      c.mainMethods.length ≤ 1 := by
  have hmem : sortMembers c ∈ sortedClasses p :=
    List.mem_map_of_mem ((sortByName_perm _ _).mem_iff.mpr hc)
  obtain ⟨t', -, ht'⟩ := exists_right_of_mem h.classes hmem
  exact ⟨nodup_sortByName.mp ht'.fieldNames, nodup_sortByName.mp ht'.methodNames, ht'.atMostOneMain⟩

theorem sortedClasses_eq_of_perm {p q : Program} (h : ProgramPerm p q) {t : TProgram} (ht : ProgramVisited p t) :
    sortedClasses p = sortedClasses q := by
  obtain ⟨cs, hp, hcs⟩ := h
  have hsorted := forall₂_sortByName (fun _ _ h => h.name) hcs
  unfold sortedClasses
  rw [sortByName_eq_of_perm hp ht.classNames]
  have hmem : ∀ c ∈ sortByName Ast.Class.name cs, c ∈ p.classes := by
    intro c hc
    exact hp.mem_iff.mpr ((sortByName_perm _ _).mem_iff.mp hc)
  generalize sortByName Ast.Class.name cs = l at hsorted hmem ⊢
  generalize sortByName Ast.Class.name q.classes = l' at hsorted ⊢
  induction hsorted with
  | nil => rfl
  | cons hcd _ ih =>
    obtain ⟨hf, hm, hmain⟩ := ht.class_distinct (hmem _ List.mem_cons_self)
    rw [List.map_cons, List.map_cons, hcd.sortMembers_eq hf hm hmain,
      ih fun c hc => hmem c (List.mem_cons_of_mem _ hc)]

theorem visitProgram_eq_of_perm {p q : Program} (h : ProgramPerm p q) {t : TProgram} (ht : visitProgram p = .ok t) :
    visitProgram q = .ok t := by
  have hv := visitProgram_visited ht
  have hq : (q.classes.map Ast.Class.name).Nodup := h.names.nodup_iff.mp hv.classNames
  have hp' := (@checkForDuplicates_eq_ok _ _ "class" _ _).mpr ⟨hv.classNames, rfl⟩
  have hq' := (@checkForDuplicates_eq_ok _ _ "class" _ _).mpr ⟨hq, rfl⟩
  rw [← ht]
  unfold visitProgram
  rw [hp', hq']
  have hs : (sortByName Ast.Class.name q.classes).map sortMembers =
      (sortByName Ast.Class.name p.classes).map sortMembers := (sortedClasses_eq_of_perm h hv).symm
  show (do let r ← visitClasses _ _ _ _; _) = (do let r ← visitClasses _ _ _ _; _)
  rw [hs]

/-- Semantic analysis accepts a program exactly when it accepts the program with its classes, and the fields, methods
and static methods of each class, in any other order. -/
theorem accepts_perm {p q : Program} (h : ProgramPerm p q) : Accepts p ↔ Accepts q := by
  constructor
  · rintro ⟨t, ht⟩; exact ⟨t, visitProgram_eq_of_perm h ht⟩
  · rintro ⟨t, ht⟩; exact ⟨t, visitProgram_eq_of_perm h.symm ht⟩

/-- A class that uses a class declared after it. -/
def useBeforeDefinition : Program :=
  ⟨[⟨"A", [⟨.basic (.classType "B"), "b"⟩, ⟨.basic (.primitive .int), "a"⟩], [],
      [⟨"main", "args", ⟨[.exprStmt (.methodInvocation (.newObject "B") "f" [])], false⟩⟩]⟩,
    ⟨"B", [], [⟨.basic (.classType "B"), "g", [], ⟨[.returnStmt (some .thisLiteral)], false⟩⟩,
      ⟨.basic (.classType "B"), "f", [], ⟨[.returnStmt (some (.methodInvocation .thisLiteral "g" []))], false⟩⟩], []⟩]⟩

/-- The same declarations, all of them the other way round. -/
def useAfterDefinition : Program :=
  ⟨[⟨"B", [], [⟨.basic (.classType "B"), "f", [],
        ⟨[.returnStmt (some (.methodInvocation .thisLiteral "g" []))], false⟩⟩,
      ⟨.basic (.classType "B"), "g", [], ⟨[.returnStmt (some .thisLiteral)], false⟩⟩], []⟩,
    ⟨"A", [⟨.basic (.primitive .int), "a"⟩, ⟨.basic (.classType "B"), "b"⟩], [],
      [⟨"main", "args", ⟨[.exprStmt (.methodInvocation (.newObject "B") "f" [])], false⟩⟩]⟩]⟩

theorem useBeforeDefinition_perm : ProgramPerm useBeforeDefinition useAfterDefinition :=
  ⟨_, .swap _ _ _, .cons ⟨rfl, .nil, .swap _ _ _, .nil⟩ (.cons ⟨rfl, .swap _ _ _, .nil, .refl _⟩ .nil)⟩

theorem accepts_useAfterDefinition :
    ProgramPerm useBeforeDefinition useAfterDefinition ∧ Accepts useBeforeDefinition ∧ Accepts useAfterDefinition := by
  have h : Accepts useBeforeDefinition := ⟨_, rfl⟩
  exact ⟨useBeforeDefinition_perm, h, (accepts_perm useBeforeDefinition_perm).mp h⟩

end Mjc.Sema

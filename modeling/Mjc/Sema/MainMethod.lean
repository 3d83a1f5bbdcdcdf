import Mjc.Firm.Graphs

/-!
# The main method

Semantic analysis counts the static methods that are called `main`, and allows one static method to a class.
A static method of another name is never refused, though code generation calls the graph of every static method `main`.

* `staticMethods` : the static methods of a program;
* `SingleMain` : there is one static method, it is called `main`, and code generation builds one graph of that name;
* `singleMain_iff` : an accepted program is of that kind exactly when all its static methods are called `main` and
  code generation evaluates no `System`.
-/

namespace Mjc.Sema
open Mjc.Ast FirmVisitor

set_option autoImplicit false

/-- The static methods of a program. -/
def staticMethods (p : Program) : List MainMethod := p.classes.flatMap Ast.Class.mainMethods

/-- The program has exactly one static method; it is called `main`, its class has no instance method of that name, and
code generation ends with exactly one graph for the entity `main`. -/
structure SingleMain (p : Program) (t : TProgram) : Prop where
  method : ∃ mm, staticMethods p = [mm] ∧ mm.name = "main" ∧
    ∃ c ∈ p.classes, c.mainMethods = [mm] ∧ ∀ m ∈ c.methods, m.name ≠ mm.name
  graph : ∃ st, FirmVisitor.visitProgram t = .ok st ∧ st.firmGraphs.count "main" = 1

theorem createMangledName_ne_main (className name : String) (parameters : List Parameter) :
    createMangledName className name parameters ≠ "main" := by
  intro h
  have h' := congrArg String.toList h
  unfold createMangledName at h'
  simp only [String.append_assoc, String.toList_append] at h'
  have hz : "_ZN".toList = '_' :: ['Z', 'N'] := rfl
  have hm : "main".toList = 'm' :: ['a', 'i', 'n'] := rfl
  rw [hz, hm, List.cons_append] at h'
  exact absurd (List.cons.inj h').1 (by decide)

/-- The graphs of the static methods, and only these, are called `main`. -/
theorem ClassVisited.count_main {classes : List Ast.Class} {tbl : Table} {c : Ast.Class} {t : TClass}
    (h : ClassVisited classes tbl c t) : (classEntities t).count "main" = c.mainMethods.length := by
  unfold classEntities
  have hmethods : (t.methods.map TRegularMethod.mangledName).count "main" = 0 := by
    rw [List.count_eq_zero]
    intro hmem
    obtain ⟨tm, htm, hname⟩ := List.mem_map.mp hmem
    obtain ⟨m, -, ptbl, n, hm⟩ := exists_left_of_mem h.methods htm
    rw [hm.result] at hname
    exact createMangledName_ne_main _ _ _ hname
  have hmains : (t.mainMethods.map fun _ => "main").count "main" = t.mainMethods.length := by
    rw [List.map_const', List.count_replicate_self]
  rw [List.count_append, hmethods, hmains, h.mainMethods.length_eq, Nat.zero_add]

/-- In an accepted program the static methods and the graphs called `main` are equally many. -/
theorem ProgramVisited.count_main {p : Program} {t : TProgram} (h : ProgramVisited p t) :
    (graphEntities t).count "main" = (staticMethods p).length := by
  have hsorted : (graphEntities t).count "main" =
      ((sortedClasses p).map fun c => c.mainMethods.length).sum := by
    unfold graphEntities
    rw [List.count_flatMap]
    have hall : List.Forall₂ (fun c t => (classEntities t).count "main" = c.mainMethods.length)
        (sortedClasses p) t.classes := h.classes.imp fun _ _ hc => hc.count_main
    generalize t.classes = ts at hall ⊢
    generalize sortedClasses p = cls at hall ⊢
    induction hall with
    | nil => rfl
    | cons hc _ ih =>
      rw [List.map_cons, List.map_cons, List.sum_cons, List.sum_cons, ih]
      exact congrArg (· + _) hc
  unfold sortedClasses at hsorted
  rw [List.map_map] at hsorted
  have hperm : ((sortByName Ast.Class.name p.classes).map
      ((fun c => c.mainMethods.length) ∘ sortMembers)).sum = (p.classes.map fun c => c.mainMethods.length).sum :=
    ((sortByName_perm _ _).map _).sum_nat
  rw [hsorted, hperm]
  unfold staticMethods
  rw [List.length_flatMap]

/-- An accepted program has exactly one static method that is called `main`. -/
theorem ProgramVisited.countMains_staticMethods {p : Program} {t : TProgram} (h : ProgramVisited p t) :
    countMains (staticMethods p) = 1 := by
  have hone := h.oneMain
  unfold sortedClasses at hone
  rw [List.map_map] at hone
  have hperm : ((sortByName Ast.Class.name p.classes).map
      ((fun c => countMains c.mainMethods) ∘ sortMembers)).sum = (p.classes.map fun c => countMains c.mainMethods).sum :=
    ((sortByName_perm _ _).map _).sum_nat
  rw [hperm] at hone
  unfold staticMethods countMains
  rw [List.countP_flatMap]
  exact hone

/-- The class of a static method has no instance method of its name. -/
theorem ProgramVisited.not_overloaded {p : Program} {t : TProgram} (h : ProgramVisited p t) {c : Ast.Class}
    (hc : c ∈ p.classes) {mm : MainMethod} (hmm : c.mainMethods = [mm]) {m : RegularMethod} (hm : m ∈ c.methods) :
    m.name ≠ mm.name := by
  intro hname
  have hmem : sortMembers c ∈ sortedClasses p :=
    List.mem_map_of_mem ((sortByName_perm _ _).mem_iff.mpr hc)
  obtain ⟨tc, -, htc⟩ := exists_right_of_mem h.classes hmem
  have hover := htc.overload
  have hmains : (sortMembers c).mainMethods = [mm] := hmm
  unfold checkOverload at hover
  rw [hmains] at hover
  have hnone := check_eq_ok.mp hover
  have hsome : (findMethodInClass (sortMembers c) mm.name).isSome = true :=
    findByName_isSome (pairwise_sortByName _ _) ((sortByName_perm _ _).mem_iff.mpr hm) hname
  rw [Option.isNone_iff_eq_none] at hnone
  rw [hnone] at hsome
  cases hsome

/-- An accepted program has a single static method, called `main` and giving the only graph of that name, exactly when
all its static methods are called `main` and no visit of an expression meets `System` alone. -/
theorem singleMain_iff {p : Program} {t : TProgram} (h : visitProgram p = .ok t) :
    SingleMain p t ↔
      (∀ mm ∈ staticMethods p, mm.name = "main") ∧ ∀ v ∈ programVisits t, isSystem v.1 = false := by
  have hv := visitProgram_visited h
  constructor
  · rintro ⟨⟨mm, hstatic, hname, -⟩, st, hgraphs, -⟩
    refine ⟨?_, ((visitProgram_ok_iff hv).mp hgraphs).2⟩
    intro mm' hmm'
    rw [hstatic, List.mem_singleton] at hmm'
    rw [hmm', hname]
  · rintro ⟨hall, hplain⟩
    have hlen : (staticMethods p).length = 1 := by
      rw [← hv.countMains_staticMethods]
      exact (List.countP_eq_length.mpr fun mm hmm => decide_eq_true (hall mm hmm)).symm
    obtain ⟨mm, hmm⟩ := List.length_eq_one_iff.mp hlen
    have hmem : mm ∈ staticMethods p := by rw [hmm]; exact List.mem_singleton_self mm
    refine ⟨⟨mm, hmm, hall mm hmem, ?_⟩, _, (visitProgram_ok_iff hv).mpr ⟨rfl, hplain⟩, hv.count_main.trans hlen⟩
    obtain ⟨c, hc, hmmc⟩ := List.mem_flatMap.mp hmem
    have hsingle : c.mainMethods = [mm] := by
      have hle : c.mainMethods.length ≤ 1 := by
        obtain ⟨tc, -, htc⟩ := exists_right_of_mem hv.classes
          (List.mem_map_of_mem ((sortByName_perm _ _).mem_iff.mpr hc))
        exact htc.atMostOneMain
      obtain ⟨a, ha⟩ := List.length_eq_one_iff.mp (Nat.le_antisymm hle (List.length_pos_of_mem hmmc))
      rw [ha, List.mem_singleton] at hmmc
      rw [ha, hmmc]
    exact ⟨c, hc, hsingle, fun m hm => hv.not_overloaded hc hsingle hm⟩

/-- One class with a main method. -/
def oneStaticMethod : Program := ⟨[⟨"A", [], [], [⟨"main", "args", ⟨[], false⟩⟩]⟩]⟩

theorem singleMain_oneStaticMethod : ∃ t, visitProgram oneStaticMethod = .ok t ∧ SingleMain oneStaticMethod t := by
  refine ⟨_, rfl, (singleMain_iff rfl).mpr ⟨?_, List.forall_mem_nil _⟩⟩
  intro mm hmm
  rw [List.mem_singleton.mp hmm]

/-- A second class with a static method of another name. -/
def otherStaticMethod : Program :=
  ⟨[⟨"A", [], [], [⟨"main", "args", ⟨[], false⟩⟩]⟩, ⟨"B", [], [], [⟨"foo", "args", ⟨[], false⟩⟩]⟩]⟩

/-- The program is accepted, has two static methods, and code generation builds two graphs for `main`. -/
theorem not_singleMain_otherStaticMethod :
    ∃ t st, visitProgram otherStaticMethod = .ok t ∧ (staticMethods otherStaticMethod).length = 2 ∧
      FirmVisitor.visitProgram t = .ok st ∧ st.firmGraphs.count "main" = 2 ∧ ¬ SingleMain otherStaticMethod t := by
  refine ⟨_, _, rfl, rfl, rfl, rfl, ?_⟩
  rintro ⟨⟨mm, hstatic, -⟩, -⟩
  cases hstatic

end Mjc.Sema

import Mjc.Bisect
import Mjc.Sema.Accepted

/-!
# Lists that are sorted in place

The class list and the member lists of the classes as they are while a program is compiled: `checkForDuplicates`,
`sortMembers` and `acceptChildren` sort them where they stand, and the members are found in them by binary search.

* `Visit` : visits that read and change the lists, with what the lists were at each read and after each change;
  `visitProgram`, `compile`;
* `findByName_exact` : the binary search in a sorted list;
* `Keeps` : a visit that leaves the lists as they are, with the rules for its steps;
* `visitProgram_eq` : sorting in place makes no difference to semantic analysis;
* `lookups_exact` : whenever a member is looked up, all lists are sorted.
-/

namespace Mjc.Sema.InPlace
open Mjc.Ast Mjc.Bisect

set_option autoImplicit false

/-! ## The source -/

/-- `**++firstDuplicate`: the element at which `checkForDuplicates` reports its error. -/
def firstDuplicate {α : Type} (name : α → String) (l : List α) : Option α :=
  secondOfPair name (sortByName name l)

/-- The class list, and what it was whenever it was read or written since `visitProgram` has sorted everything. -/
structure Lists where
  classes : List Ast.Class
  moments : List (List Ast.Class)

/-- A visit that may sort the lists; an error leaves them as they are. -/
abbrev Visit := EStateM Stop Lists

/-- A visit that only reads them. -/
def lift {α : Type} (r : Except Stop α) : Visit α := fun s =>
  match r with
  | .ok a => .ok a s
  | .error stop => .error stop s

/-- The class list as it was parsed. -/
def declaredClasses : Visit (List Ast.Class) := fun s => .ok s.classes s

def classes : Visit (List Ast.Class) := fun s => .ok s.classes ⟨s.classes, s.moments ++ [s.classes]⟩

def setClasses (l : List Ast.Class) : Visit Unit := fun s => .ok () ⟨l, s.moments ++ [l]⟩

/-- The class at an index of the class list. -/
def classAt (i : Nat) : Visit Ast.Class := do
  match (← classes)[i]? with
  | some klass => return klass
  | none => lift (.error .crash)

/-- Sort a list of the class at an index. -/
def modifyClass (i : Nat) (sort : Ast.Class → Ast.Class) : Visit Unit := do
  setClasses ((← classes).modify i sort)

/-- The lists in which the visits of the members of a class look up names. -/
def context (i : Nat) : Visit Context := do
  let klass ← classAt i
  return ⟨← classes, klass, .main⟩

variable (std : UnstableSort)

/-- `FieldList::acceptChildren` sorts first. -/
def sortFields (i : Nat) : Visit Unit :=
  modifyClass i fun klass => { klass with fields := std.sort Ast.Field.name klass.fields }

/-- `MethodList::acceptChildren` sorts first. -/
def sortMethods (i : Nat) : Visit Unit :=
  modifyClass i fun klass => { klass with methods := std.sort RegularMethod.name klass.methods }

/-- `MainMethodList::acceptChildren` sorts first. -/
def sortMainMethods (i : Nat) : Visit Unit :=
  modifyClass i fun klass => { klass with mainMethods := std.sort MainMethod.name klass.mainMethods }

def visitFieldList (i : Nat) (tbl : Table) : Visit (List Ast.Field × Table) := do
  let klass ← classAt i
  modifyClass i fun klass => { klass with fields := sortByName Ast.Field.name klass.fields }
  let fields ← lift (checkForDuplicates Ast.Field.name "field" klass.fields)
  let tbl := fields.foldl (fun tbl f => tbl.insert f.name (.field f.type)) tbl
  sortFields std i
  let cx ← context i
  lift (visitFields cx cx.currentClass.fields)
  return (cx.currentClass.fields, tbl)

def visitMethodList (i : Nat) (tbl : Table) : Visit (List TRegularMethod × Table) := do
  let klass ← classAt i
  modifyClass i fun klass => { klass with methods := sortByName RegularMethod.name klass.methods }
  let _ ← lift (checkForDuplicates RegularMethod.name "method" klass.methods)
  sortMethods std i
  let cx ← context i
  lift (visitMethods cx tbl cx.currentClass.methods)

def visitMainMethodList (i : Nat) (tbl : Table) (mainMethodCount : Nat) :
    Visit (List TMainMethod × Table × Nat) := do
  let klass ← classAt i
  lift (check (klass.mainMethods.length ≤ 1) .severalMainsInClass)
  sortMainMethods std i
  let cx ← context i
  lift (visitMainMethods cx tbl mainMethodCount cx.currentClass.mainMethods)

def visitClass (tbl : Table) (mainMethodCount i : Nat) : Visit (TClass × Table × Nat) := do
  let (fields, tbl) ← visitFieldList std i tbl.enterScope
  let (methods, tbl) ← visitMethodList std i tbl
  let (mainMethods, tbl, mainMethodCount) ← visitMainMethodList std i tbl mainMethodCount
  let tbl ← lift (leave tbl)
  let klass ← classAt i
  lift (checkOverload klass)
  return (⟨klass.name, fields, methods, mainMethods⟩, tbl, mainMethodCount)

/-- The classes at some indices, one after the other. -/
def visitClasses (tbl : Table) (mainMethodCount : Nat) : List Nat → Visit (List TClass × Table × Nat)
  | [] => return ([], tbl, mainMethodCount)
  | i :: l => do
    let (c, tbl, mainMethodCount) ← visitClass std tbl mainMethodCount i
    let (l, tbl, mainMethodCount) ← visitClasses tbl mainMethodCount l
    return (c :: l, tbl, mainMethodCount)

/-- `visitProgram` behind the loop over `sortMembers`; `Program::acceptChildren` sorts first. -/
def visitSorted : Visit TProgram := do
  setClasses (std.sort Ast.Class.name (← classes))
  let (visited, _, mainMethodCount) ← visitClasses std .empty 0 (List.range (← classes).length)
  lift (check (mainMethodCount ≠ 0) .noMain)
  lift (check (mainMethodCount ≤ 1) .severalMains)
  return ⟨visited⟩

def visitProgram : Visit TProgram := do
  let sorted ← lift (checkForDuplicates Ast.Class.name "class" (← declaredClasses))
  setClasses (sorted.map sortMembers)
  visitSorted std

/-- `Class::acceptChildren` of `FirmVisitor`, as far as the lists go: every list is sorted, and the visits of its elements
look up classes. -/
def acceptChildren (i : Nat) : Visit Unit := do
  sortFields std i
  let _ ← context i
  sortMethods std i
  let _ ← context i
  sortMainMethods std i
  let _ ← context i

/-- `FirmVisitor::visitProgram`, as far as the lists go: it goes through the class list as it is. -/
def firmVisitProgram : Visit Unit := do
  (List.range (← classes).length).forM (acceptChildren std)

/-- `Compiler::compile`, up to the graphs. -/
def compile : Visit Unit := do
  let _ ← visitProgram std
  firmVisitProgram std

/-- The lists when a visit is over. -/
def listsOf {α : Type} : EStateM.Result Stop Lists α → Lists
  | .ok _ s | .error _ s => s

/-- The lists of a program whenever something may be looked up in them. -/
def moments (program : Program) : List (List Ast.Class) := (listsOf (compile std ⟨program.classes, []⟩)).moments

/-! ## Sorted lists -/

section Sorted

variable {α : Type} {name : α → String} {l : List α}

/-- The search in the list is exact: the list is sorted, what is found was declared with the name, and what was declared
with a name is found. -/
structure Exact (name : α → String) (declared l : List α) : Prop where
  sorted : l.Pairwise fun a b => name a ≤ name b
  found : ∀ key x, findByName name l key = some x → x ∈ declared ∧ name x = key
  finds : ∀ key, (findByName name l key).isSome = true ↔ ∃ x ∈ declared, name x = key

theorem findByName_exact (name : α → String) (declared : List α) : Exact name declared (sortByName name declared) := by
  have hsorted := pairwise_sortByName name declared
  have hfound : ∀ key x, findByName name (sortByName name declared) key = some x → x ∈ declared ∧ name x = key := by
    intro key x h
    obtain ⟨hmem, hname⟩ := findByName_eq_some h
    exact ⟨(sortByName_perm name declared).mem_iff.mp hmem, hname⟩
  refine ⟨hsorted, hfound, fun key => ⟨fun h => ?_, ?_⟩⟩
  · obtain ⟨x, hx⟩ := Option.isSome_iff_exists.mp h
    exact ⟨x, hfound key x hx⟩
  · rintro ⟨x, hmem, hname⟩
    exact findByName_isSome hsorted ((sortByName_perm name declared).mem_iff.mpr hmem) hname

/-! ## Duplicates -/

theorem secondOfPair_isSome (name : α → String) (l : List α) : (secondOfPair name l).isSome = hasAdjacent name l := by
  induction l with
  | nil => rfl
  | cons a l ih =>
    cases l with
    | nil => rfl
    | cons b l =>
      unfold secondOfPair hasAdjacent
      by_cases h : name a = name b
      · rw [if_pos h, decide_eq_true h, Bool.true_or]
        rfl
      · rw [if_neg h, decide_eq_false h, Bool.false_or, ih]

theorem checkForDuplicates_eq (name : α → String) (what : String) (l : List α) :
    checkForDuplicates name what l =
      if (firstDuplicate name l).isSome then error (.duplicate what) else .ok (sortByName name l) := by
  unfold checkForDuplicates firstDuplicate
  rw [secondOfPair_isSome]

/-- The check of a list that was declared in this order: an error is raised if some name is there twice, at an element
behind another one of its name. -/
structure Reports (name : α → String) (declared l : List α) : Prop where
  raises : ∀ what, checkForDuplicates name what l = error (.duplicate what) ↔ ¬ (declared.map name).Nodup
  reports : (firstDuplicate name l).isSome = true ↔ ¬ (declared.map name).Nodup
  notFirst : ∀ x, firstDuplicate name l = some x → ∃ y, List.Sublist [y, x] declared ∧ name y = name x

theorem check_reports (name : α → String) (l : List α) : Reports name l l := by
  have hiff : (firstDuplicate name l).isSome = true ↔ ¬ (l.map name).Nodup := by
    unfold firstDuplicate
    rw [secondOfPair_isSome, ← nodup_sortByName, ← hasAdjacent_eq_false (pairwise_sortByName name l),
      Bool.not_eq_false]
  refine ⟨fun what => ?_, hiff, fun x hx => secondOfPair_sorted hx⟩
  rw [checkForDuplicates_eq, ← hiff]
  by_cases h : (firstDuplicate name l).isSome = true
  · rw [if_pos h]
    exact iff_of_true rfl h
  · rw [if_neg h]
    exact iff_of_false (fun h => by cases h) h

/-- Sorting by name does not change the order of the elements of a name. -/
theorem check_sorted_reports (name : α → String) (l : List α) : Reports name l (sortByName name l) := by
  have hsame : firstDuplicate name (sortByName name l) = firstDuplicate name l := by
    unfold firstDuplicate
    rw [sortByName_sortByName]
  have h := check_reports name l
  refine ⟨fun what => ?_, ?_, ?_⟩
  · rw [← h.raises what, checkForDuplicates_eq, checkForDuplicates_eq, hsame, sortByName_sortByName]
  · rw [hsame]
    exact h.reports
  · rw [hsame]
    exact h.notFirst

end Sorted

/-! ## Visits that keep the lists -/

/-- While the lists are `L`, the visit does what `r` does, and the lists are `L` all along. -/
def Keeps (L : List Ast.Class) {α : Type} (v : Visit α) (r : Except Stop α) : Prop :=
  ∀ moments, (∀ m ∈ moments, m = L) →
    ∃ later, (∀ m ∈ later, m = L) ∧ v ⟨L, moments⟩ = lift r ⟨L, moments ++ later⟩

namespace Keeps

variable {L : List Ast.Class} {α β : Type}

theorem append {moments later : List (List Ast.Class)} (h : ∀ m ∈ moments, m = L) (h' : ∀ m ∈ later, m = L) :
    ∀ m ∈ moments ++ later, m = L := fun m hm => (List.mem_append.mp hm).elim (h m) (h' m)

theorem lift (r : Except Stop α) : Keeps L (lift r) r := by
  intro moments _
  exact ⟨[], List.forall_mem_nil _, by rw [List.append_nil]⟩

theorem pure (a : α) : Keeps L (Pure.pure a) (.ok a) := lift (.ok a)

theorem bind {v : Visit α} {r : Except Stop α} {f : α → Visit β} {g : α → Except Stop β} (hv : Keeps L v r)
    (hf : ∀ a, r = .ok a → Keeps L (f a) (g a)) : Keeps L (v >>= f) (r >>= g) := by
  intro moments h
  obtain ⟨later, hlater, hrun⟩ := hv moments h
  cases r with
  | error stop =>
    refine ⟨later, hlater, ?_⟩
    show EStateM.bind v f _ = _
    unfold EStateM.bind
    rw [hrun]
    rfl
  | ok a =>
    obtain ⟨last, hlast, hrun'⟩ := hf a rfl (moments ++ later) (append h hlater)
    refine ⟨later ++ last, append hlater hlast, ?_⟩
    show EStateM.bind v f _ = _
    unfold EStateM.bind
    rw [hrun, ← List.append_assoc]
    exact hrun'

/-- A step that the result does not depend on. -/
theorem step {v : Visit α} {a : α} {f : α → Visit β} {r : Except Stop β} (hv : Keeps L v (.ok a))
    (hf : Keeps L (f a) r) : Keeps L (v >>= f) r :=
  bind (g := fun _ => r) hv fun a' h => by cases h; exact hf

theorem classes : Keeps L classes (.ok L) := fun _ _ => ⟨[L], fun _ hm => List.mem_singleton.mp hm, rfl⟩

theorem setClasses : Keeps L (setClasses L) (.ok ()) := fun _ _ => ⟨[L], fun _ hm => List.mem_singleton.mp hm, rfl⟩

variable {i : Nat} {c : Ast.Class}

theorem classAt (hc : L[i]? = some c) : Keeps L (classAt i) (.ok c) := by
  refine step classes ?_
  rw [hc]
  exact pure c

theorem context (hc : L[i]? = some c) : Keeps L (context i) (.ok ⟨L, c, .main⟩) :=
  step (classAt hc) (step classes (pure _))

/-- Sorting a list that is sorted. -/
theorem modifyClass (hc : L[i]? = some c) {sort : Ast.Class → Ast.Class} (hsort : sort c = c) :
    Keeps L (modifyClass i sort) (.ok ()) := by
  refine step classes ?_
  have hsame : L.modify i sort = L := by
    refine List.ext_getElem? fun j => ?_
    rw [List.getElem?_modify]
    by_cases hij : i = j
    · subst hij
      rw [hc, Option.map_eq_map, Option.map_some, if_pos rfl, hsort]
    · simp [hij]
  rw [hsame]
  exact setClasses

end Keeps

/-! ## Semantic analysis -/

section Analysis

variable {std : UnstableSort} {L : List Ast.Class} {i : Nat} {c : Ast.Class}

/-- The member lists of a class are sorted. -/
structure MembersSorted (c : Ast.Class) : Prop where
  fields : sortByName Ast.Field.name c.fields = c.fields
  methods : sortByName RegularMethod.name c.methods = c.methods

theorem membersSorted_sortMembers (c : Ast.Class) : MembersSorted (sortMembers c) :=
  ⟨sortByName_sortByName _ _, sortByName_sortByName _ _⟩

theorem sortFields_keeps (hc : L[i]? = some c) (hs : MembersSorted c) (hnames : (c.fields.map Ast.Field.name).Nodup) :
    Keeps L (sortFields std i) (.ok ()) := by
  refine Keeps.modifyClass hc ?_
  rw [std.sort_eq hnames, hs.fields]

theorem sortMethods_keeps (hc : L[i]? = some c) (hs : MembersSorted c)
    (hnames : (c.methods.map RegularMethod.name).Nodup) : Keeps L (sortMethods std i) (.ok ()) := by
  refine Keeps.modifyClass hc ?_
  rw [std.sort_eq hnames, hs.methods]

theorem sortMainMethods_keeps (hc : L[i]? = some c) (hlength : c.mainMethods.length ≤ 1) :
    Keeps L (sortMainMethods std i) (.ok ()) := by
  refine Keeps.modifyClass hc ?_
  have : std.sort MainMethod.name c.mainMethods = c.mainMethods := by
    have hperm := std.perm MainMethod.name c.mainMethods
    match hmains : c.mainMethods, hlength with
    | [], _ => exact (hmains ▸ hperm).eq_nil
    | [mm], _ => exact List.perm_singleton.mp (hmains ▸ hperm)
  rw [this]

theorem visitFieldList_keeps (hc : L[i]? = some c) (hs : MembersSorted c) (tbl : Table) :
    Keeps L (visitFieldList std i tbl) (Sema.visitFieldList ⟨L, c, .main⟩ tbl c.fields) := by
  unfold visitFieldList Sema.visitFieldList
  refine (Keeps.classAt hc).step ((Keeps.modifyClass hc (by rw [hs.fields])).step ?_)
  refine (Keeps.lift _).bind fun fields hcheck => ?_
  obtain ⟨hnames, rfl⟩ := checkForDuplicates_eq_ok.mp hcheck
  rw [hs.fields]
  refine (sortFields_keeps hc hs hnames).step ((Keeps.context hc).step ?_)
  exact (Keeps.lift _).bind fun _ _ => Keeps.pure _

theorem visitMethodList_keeps (hc : L[i]? = some c) (hs : MembersSorted c) (tbl : Table) :
    Keeps L (visitMethodList std i tbl) (Sema.visitMethodList ⟨L, c, .main⟩ tbl c.methods) := by
  unfold visitMethodList Sema.visitMethodList
  refine (Keeps.classAt hc).step ((Keeps.modifyClass hc (by rw [hs.methods])).step ?_)
  refine (Keeps.lift _).bind fun methods hcheck => ?_
  obtain ⟨hnames, rfl⟩ := checkForDuplicates_eq_ok.mp hcheck
  rw [hs.methods]
  exact (sortMethods_keeps hc hs hnames).step ((Keeps.context hc).step (Keeps.lift _))

theorem visitMainMethodList_keeps (hc : L[i]? = some c) (tbl : Table) (n : Nat) :
    Keeps L (visitMainMethodList std i tbl n) (Sema.visitMainMethodList ⟨L, c, .main⟩ tbl n c.mainMethods) := by
  unfold visitMainMethodList Sema.visitMainMethodList
  refine (Keeps.classAt hc).step ((Keeps.lift _).bind fun _ hcheck => ?_)
  have hlength : c.mainMethods.length ≤ 1 := of_decide_eq_true (check_eq_ok.mp hcheck)
  have hsort : sortByName MainMethod.name c.mainMethods = c.mainMethods := by
    match hmains : c.mainMethods, hlength with
    | [], _ => rfl
    | [mm], _ => rfl
  rw [hsort]
  exact (sortMainMethods_keeps hc hlength).step ((Keeps.context hc).step (Keeps.lift _))

theorem visitClass_keeps (hc : L[i]? = some c) (hs : MembersSorted c) (tbl : Table) (n : Nat) :
    Keeps L (visitClass std tbl n i) (Sema.visitClass L tbl n c) := by
  unfold visitClass Sema.visitClass
  refine (visitFieldList_keeps hc hs _).bind fun a _ => ?_
  refine (visitMethodList_keeps hc hs _).bind fun b _ => ?_
  refine (visitMainMethodList_keeps hc _ _).bind fun m _ => ?_
  refine (Keeps.lift _).bind fun tbl _ => (Keeps.classAt hc).step ?_
  exact (Keeps.lift _).bind fun _ _ => Keeps.pure _

/-- The classes from index `k` on. -/
theorem visitClasses_keeps (hs : ∀ c ∈ L, MembersSorted c) {l : List Ast.Class} {k : Nat} (hl : L.drop k = l)
    (tbl : Table) (n : Nat) :
    Keeps L (visitClasses std tbl n (List.range' k l.length)) (Sema.visitClasses L tbl n l) := by
  induction l generalizing k tbl n with
  | nil => exact Keeps.pure _
  | cons c l ih =>
    have hc : L[k]? = some c := by rw [← List.head?_drop, hl, List.head?_cons]
    have hdrop : L.drop (k + 1) = l := by rw [← List.tail_drop, hl, List.tail_cons]
    rw [List.length_cons, List.range'_succ]
    unfold visitClasses Sema.visitClasses
    refine (visitClass_keeps hc (hs c (List.mem_of_getElem? hc)) tbl n).bind fun a _ => ?_
    exact (ih hdrop _ _).bind fun _ _ => Keeps.pure _

theorem membersSorted_of_mem {p : Program} : ∀ c ∈ sortedClasses p, MembersSorted c := by
  intro c hc
  obtain ⟨d, -, rfl⟩ := List.mem_map.mp hc
  exact membersSorted_sortMembers d

theorem visitSorted_keeps {p : Program} (hnames : (p.classes.map Ast.Class.name).Nodup) :
    Keeps (sortedClasses p) (visitSorted std) (Sema.visitProgram p) := by
  have hsort : std.sort Ast.Class.name (sortedClasses p) = sortedClasses p := by
    have hsorted : sortByName Ast.Class.name (sortedClasses p) = sortedClasses p := by
      refine sortByName_eq_self ?_
      unfold sortedClasses
      exact List.pairwise_map.mpr (pairwise_sortByName Ast.Class.name p.classes)
    have hdistinct : ((sortedClasses p).map Ast.Class.name).Nodup := by
      unfold sortedClasses
      rw [List.map_map]
      exact nodup_sortByName.mpr hnames
    rw [std.sort_eq hdistinct, hsorted]
  unfold visitSorted Sema.visitProgram
  rw [checkForDuplicates_eq_ok.mpr ⟨hnames, rfl⟩]
  refine Keeps.classes.step ?_
  rw [hsort]
  refine Keeps.setClasses.step (Keeps.classes.step ?_)
  rw [List.range_eq_range']
  refine (visitClasses_keeps membersSorted_of_mem List.drop_zero _ _).bind fun a _ => ?_
  refine (Keeps.lift _).bind fun _ _ => (Keeps.lift _).bind fun _ _ => ?_
  exact Keeps.pure _

/-- Sorting in place makes no difference, and the lists are the same ones from the first sort on. -/
theorem visitProgram_eq (std : UnstableSort) (p : Program) :
    ∃ s, visitProgram std ⟨p.classes, []⟩ = lift (Sema.visitProgram p) s ∧ (∀ m ∈ s.moments, m = sortedClasses p) ∧
      ((p.classes.map Ast.Class.name).Nodup → sortedClasses p ∈ s.moments) ∧
        ∀ t, Sema.visitProgram p = .ok t → s.classes = sortedClasses p := by
  by_cases hnames : (p.classes.map Ast.Class.name).Nodup
  · have hcheck : checkForDuplicates Ast.Class.name "class" p.classes = .ok (sortByName Ast.Class.name p.classes) :=
      checkForDuplicates_eq_ok.mpr ⟨hnames, rfl⟩
    have hrun : visitProgram std ⟨p.classes, []⟩ = visitSorted std ⟨sortedClasses p, [sortedClasses p]⟩ := by
      show ((InPlace.lift (checkForDuplicates Ast.Class.name "class" p.classes)).bind _) _ = _
      rw [hcheck]
      rfl
    have hkeeps : Keeps (sortedClasses p) (visitSorted std) (Sema.visitProgram p) := visitSorted_keeps hnames
    have hfirst : ∀ m ∈ [sortedClasses p], m = sortedClasses p := fun m hm => List.mem_singleton.mp hm
    obtain ⟨later, hlater, hsorted⟩ := hkeeps [sortedClasses p] hfirst
    exact ⟨⟨sortedClasses p, [sortedClasses p] ++ later⟩, hrun.trans hsorted, Keeps.append hfirst hlater,
      fun _ => List.mem_cons_self, fun _ _ => rfl⟩
  · have hcheck := ((check_reports Ast.Class.name p.classes).raises "class").mpr hnames
    have hpure : Sema.visitProgram p = error (.duplicate "class") := by
      unfold Sema.visitProgram
      rw [hcheck]
      rfl
    refine ⟨⟨p.classes, []⟩, ?_, List.forall_mem_nil _, fun h => absurd h hnames, fun t ht => ?_⟩
    · rw [hpure]
      show ((InPlace.lift (checkForDuplicates Ast.Class.name "class" p.classes)).bind _) _ = _
      rw [hcheck]
      rfl
    · rw [hpure] at ht
      cases ht

end Analysis

/-! ## The whole compilation -/

section Compilation

variable {std : UnstableSort} {L : List Ast.Class} {p : Program}

/-- What semantic analysis has checked of a class. -/
structure Checked (c : Ast.Class) : Prop extends MembersSorted c where
  fieldNames : (c.fields.map Ast.Field.name).Nodup
  methodNames : (c.methods.map RegularMethod.name).Nodup
  atMostOneMain : c.mainMethods.length ≤ 1

theorem checked_of_visitProgram {t : TProgram} (h : Sema.visitProgram p = .ok t) : ∀ c ∈ sortedClasses p, Checked c := by
  intro c hc
  obtain ⟨t', -, hv⟩ := exists_right_of_mem (visitProgram_visited h).classes hc
  exact ⟨membersSorted_of_mem c hc, hv.fieldNames, hv.methodNames, hv.atMostOneMain⟩

theorem acceptChildren_keeps {i : Nat} {c : Ast.Class} (hc : L[i]? = some c) (h : Checked c) :
    Keeps L (acceptChildren std i) (.ok ()) := by
  refine (sortFields_keeps hc h.toMembersSorted h.fieldNames).step ((Keeps.context hc).step ?_)
  refine (sortMethods_keeps hc h.toMembersSorted h.methodNames).step ((Keeps.context hc).step ?_)
  exact (sortMainMethods_keeps hc h.atMostOneMain).step ((Keeps.context hc).step (Keeps.pure ()))

theorem firmVisitProgram_keeps (h : ∀ c ∈ L, Checked c) : Keeps L (firmVisitProgram std) (.ok ()) := by
  have hloop : ∀ is : List Nat, (∀ i ∈ is, i < L.length) → Keeps L (is.forM (acceptChildren std)) (.ok ()) := by
    intro is his
    induction is with
    | nil => exact Keeps.pure ()
    | cons i is ih =>
      obtain ⟨hi, his⟩ := List.forall_mem_cons.mp his
      refine (acceptChildren_keeps (List.getElem?_eq_getElem hi) (h _ (List.getElem_mem hi))).step ?_
      exact ih his
  exact Keeps.classes.step (hloop _ fun i hi => List.mem_range.mp hi)

/-- From the first sort on, the lists are the sorted ones. -/
theorem moments_eq (std : UnstableSort) (p : Program) :
    (∀ m ∈ moments std p, m = sortedClasses p) ∧
      ((p.classes.map Ast.Class.name).Nodup → sortedClasses p ∈ moments std p) := by
  obtain ⟨s, hrun, hmoments, hmem, hclasses⟩ := visitProgram_eq std p
  have hcompile : compile std ⟨p.classes, []⟩ = (visitProgram std).bind (fun _ => firmVisitProgram std) ⟨p.classes, []⟩ :=
    rfl
  unfold moments
  rw [hcompile]
  unfold EStateM.bind
  rw [hrun]
  cases hp : Sema.visitProgram p with
  | error stop => exact ⟨hmoments, hmem⟩
  | ok t =>
    obtain ⟨classes, earlier⟩ := s
    obtain rfl : classes = sortedClasses p := hclasses t hp
    have hkeeps : Keeps (sortedClasses p) (firmVisitProgram std) (.ok ()) :=
      firmVisitProgram_keeps (checked_of_visitProgram hp)
    obtain ⟨later, hlater, hfirm⟩ := hkeeps earlier hmoments
    have hlists : listsOf (firmVisitProgram std ⟨sortedClasses p, earlier⟩) = ⟨sortedClasses p, earlier ++ later⟩ := by
      rw [hfirm]
      rfl
    show (∀ m ∈ (listsOf (firmVisitProgram std ⟨sortedClasses p, earlier⟩)).moments, _) ∧
      (_ → _ ∈ (listsOf (firmVisitProgram std ⟨sortedClasses p, earlier⟩)).moments)
    rw [hlists]
    exact ⟨Keeps.append hmoments hlater, fun h => List.mem_append_left _ (hmem h)⟩

end Compilation

/-! ## Lookups -/

/-- All lists are sorted, and the members that are found in them are those that the program declares. -/
structure LookupsExact (p : Program) (lists : List Ast.Class) : Prop where
  classes : Exact Ast.Class.name (p.classes.map sortMembers) lists
  members : ∀ c ∈ lists, ∃ d ∈ p.classes, c = sortMembers d ∧ Exact Ast.Field.name d.fields c.fields ∧
    Exact RegularMethod.name d.methods c.methods

theorem sortedClasses_eq (p : Program) : sortedClasses p = sortByName Ast.Class.name (p.classes.map sortMembers) :=
  List.map_insertionSort _ _ sortMembers p.classes fun _ _ _ _ => Iff.rfl

theorem sortedClasses_exact (p : Program) : LookupsExact p (sortedClasses p) := by
  refine ⟨?_, fun c hc => ?_⟩
  · rw [sortedClasses_eq]
    exact findByName_exact Ast.Class.name (p.classes.map sortMembers)
  · obtain ⟨d, hd, rfl⟩ := List.mem_map.mp hc
    exact ⟨d, (sortByName_perm _ _).mem_iff.mp hd, rfl, findByName_exact Ast.Field.name d.fields,
      findByName_exact RegularMethod.name d.methods⟩

/-- What a visit looks its names up in was read from the class list then. -/
theorem context_logged {i : Nat} {s s' : Lists} {cx : Context} (h : context i s = .ok cx s') :
    cx.classes = s.classes ∧ cx.classes ∈ s'.moments ∧ cx.currentClass ∈ cx.classes := by
  have hrun : context i s = (classAt i).bind (fun klass => classes.bind fun l => pure ⟨l, klass, .main⟩) s := rfl
  have hclass : classAt i s = (match s.classes[i]? with
      | some klass => (Pure.pure klass : Visit Ast.Class)
      | none => lift (.error .crash)) ⟨s.classes, s.moments ++ [s.classes]⟩ := rfl
  rw [hrun] at h
  unfold EStateM.bind at h
  rw [hclass] at h
  cases hc : s.classes[i]? with
  | none =>
    rw [hc] at h
    cases h
  | some klass =>
    rw [hc] at h
    cases h
    exact ⟨rfl, List.mem_append_right _ (List.mem_singleton_self _), List.mem_of_getElem? hc⟩

/-- Members are only looked up in lists that are sorted by name. -/
theorem lookups_exact (std : UnstableSort) (p : Program) :
    (∀ lists ∈ moments std p, LookupsExact p lists) ∧
      ((p.classes.map Ast.Class.name).Nodup → sortedClasses p ∈ moments std p) ∧
      (∀ i s cx s', context i s = .ok cx s' → cx.classes ∈ s'.moments ∧ cx.currentClass ∈ cx.classes) ∧
      ∀ (α : Type) (name : α → String) (declared : List α),
        Reports name declared declared ∧ Reports name declared (sortByName name declared) := by
  refine ⟨fun lists h => ?_, (moments_eq std p).2, fun i s cx s' h => (context_logged h).2,
    fun α name declared => ⟨check_reports name declared, check_sorted_reports name declared⟩⟩
  rw [(moments_eq std p).1 lists h]
  exact sortedClasses_exact p

/-- Class `B` comes first in the file, and its field has the type `A`. -/
def sampleProgram : Program :=
  ⟨[⟨"B", [⟨.basic (.classType "A"), "a"⟩], [], []⟩,
    ⟨"A", [], [], [⟨"main", "args", ⟨[], false⟩⟩]⟩]⟩

theorem lookups_exact_sampleProgram :
    LookupsExact sampleProgram [⟨"A", [], [], [⟨"main", "args", ⟨[], false⟩⟩]⟩,
      ⟨"B", [⟨.basic (.classType "A"), "a"⟩], [], []⟩] := by
  have h := lookups_exact default sampleProgram
  exact h.1 _ (h.2.1 (by decide))

end Mjc.Sema.InPlace

import Mjc.Firm.Visitor
import Mjc.Printer.Legible
import Mjc.Sema.Indices

/-!
# The storage of local variables

`FirmVisitor` keeps the variables of a method in numbered values of its graph: `this` in 0, the parameters in the values
after it, and the local variables in the values after these. No two of them share a value.

* `FirmMethod`, `varIndex`, `declIndex` : the sizes of a method, and the value of a reference and of a declaration;
* `regularValues`, `mainValues` : the values of the variables of a method;
* `Separate` : they are different values of the graph, and every reference uses the one of its variable;
* `variables_separate` : so it is in every method of an accepted program.
-/

namespace Mjc.FirmVisitor
open Mjc.Ast Mjc.Sema Mjc.Printer

set_option autoImplicit false

/-! ## The values of a method -/

structure FirmMethod where
  nParams : Nat
  /-- the size of `localVars` -/
  localVars : Nat
  /-- the number of values that `new_ir_graph` is asked for -/
  graphValues : Nat

/-- The first loop over the parameters in `visitClass`, after `numParams` of them. -/
def countParams (numParams : Nat) : List Parameter → Nat
  | [] => numParams
  | _ :: parameters => countParams (numParams + 1) parameters

/-- The second loop, from the parameter `i` on: the values that are set. -/
def setParams (i : Nat) : List Parameter → List (Parameter × Nat)
  | [] => []
  | param :: parameters => (param, i) :: setParams (i + 1) parameters

/-- `visitClass`: an instance method has the parameter `this` first. -/
def regularFirmMethod (method : TRegularMethod) : FirmMethod :=
  let numParams := countParams 1 method.parameters
  ⟨numParams, method.varDecls, numParams + method.varDecls⟩

def mainFirmMethod (method : TMainMethod) : FirmMethod := ⟨0, method.varDecls, method.varDecls⟩

/-- `visitVariableDeclaration`: first the parameters, then the local variables. -/
def FirmMethod.declIndex (fm : FirmMethod) (idx : Nat) : Nat := fm.nParams + idx

/-- `visitVarRef`: the value of a reference, if it is one to a parameter or to a local variable. -/
def FirmMethod.varIndex (fm : FirmMethod) : RefDef → Option Nat
  | .definition (.parameter idx _) => some idx
  | .definition (.variable idx _) => some (fm.nParams + idx)
  | .definition (.field _) | .definition .mainArg | .system => none

/-- The values of the declarations of a body, those in erased statements included. -/
def FirmMethod.declValues (fm : FirmMethod) (body : TStmt) : List Nat :=
  (body.bindings.filterMap Binding.declared).map fm.declIndex

/-- The values of the variables of an instance method: `this`, the parameters and the local variables. -/
def regularValues (method : TRegularMethod) : List Nat :=
  0 :: method.parameters.map Parameter.idx ++ (regularFirmMethod method).declValues method.body

/-- The values of the variables of a static method; nothing refers to its parameter. -/
def mainValues (method : TMainMethod) : List Nat := (mainFirmMethod method).declValues method.body

/-- The variables of a method have values of their own, and every reference uses the one of its variable. -/
structure Separate (fm : FirmMethod) (params : List Parameter) (body : TStmt) (values : List Nat) : Prop where
  nodup : values.Nodup
  bounded : ∀ v ∈ values, v < fm.graphValues
  /-- `localVars` has one entry for each declaration -/
  localVars : fm.localVars = (body.bindings.filterMap Binding.declared).length
  /-- the assertion of `visitVarRef` -/
  asserted : ∀ x idx type, Binding.use x (.definition (.parameter idx type)) ∈ body.bindings → idx < fm.nParams
  /-- a reference to a local variable uses the value of the declaration with this name and index -/
  locals : ∀ x idx type, Binding.use x (.definition (.variable idx type)) ∈ body.bindings →
    Binding.decl x idx ∈ body.bindings ∧ fm.varIndex (.definition (.variable idx type)) = some (fm.declIndex idx)
  /-- a reference to a parameter uses the value of the parameter with this name -/
  params : ∀ x idx type, Binding.use x (.definition (.parameter idx type)) ∈ body.bindings →
    ∃ param ∈ params, param.name = x ∧ fm.varIndex (.definition (.parameter idx type)) = some param.idx

/-! ## Separation -/

theorem countParams_eq (n : Nat) (l : List Parameter) : countParams n l = n + l.length := by
  induction l generalizing n with
  | nil => rfl
  | cons param l ih =>
    rw [countParams, ih, List.length_cons, Nat.add_assoc, Nat.add_comm 1]

/-- The value that is set for a parameter is the one that its references use. -/
theorem setParams_eq {i : Nat} {l : List Parameter} (h : l.map Parameter.idx = List.range' i l.length) :
    setParams i l = l.map fun param => (param, param.idx) := by
  induction l generalizing i with
  | nil => rfl
  | cons param l ih =>
    rw [List.map_cons, List.length_cons, List.range'_succ] at h
    obtain ⟨hparam, hl⟩ := List.cons.inj h
    rw [setParams, ih hl, List.map_cons, hparam]

/-- The values of the declarations follow those of the parameters. -/
theorem declValues_eq {fm : FirmMethod} {params : List Parameter} {k : Nat} {body : TStmt}
    (h : Numbered params k body) : fm.declValues body = List.range' fm.nParams k := by
  unfold FirmMethod.declValues
  rw [h.decls, List.range_eq_range']
  show List.map (fm.nParams + ·) (List.range' 0 k) = _
  rw [List.map_add_range', Nat.add_zero]

/-- A method is separate if its values are those of its graph, one after the other. -/
theorem Separate.of_range {fm : FirmMethod} {params : List Parameter} {body : TStmt} {values : List Nat}
    (h : Numbered params fm.localVars body) (hvalues : values = List.range fm.graphValues)
    (hparams : ∀ param ∈ params, param.idx < fm.nParams) : Separate fm params body values := by
  subst hvalues
  refine ⟨List.nodup_range, fun v hv => List.mem_range.mp hv, ?_, fun x idx type hb => ?_,
    fun x idx type hb => ⟨h.locals x idx type hb, rfl⟩, fun x idx type hb => ?_⟩
  · rw [h.decls, List.length_range]
  · obtain ⟨param, hmem, -, rfl⟩ := h.params x idx type hb
    exact hparams param hmem
  · obtain ⟨param, hmem, hname, rfl⟩ := h.params x idx type hb
    exact ⟨param, hmem, hname, rfl⟩

theorem regular_separate {method : TRegularMethod} (h : Numbered method.parameters method.varDecls method.body)
    (hidx : method.parameters.map Parameter.idx = List.range' 1 method.parameters.length) :
    Separate (regularFirmMethod method) method.parameters method.body (regularValues method) := by
  have hn : (regularFirmMethod method).nParams = 1 + method.parameters.length := countParams_eq _ _
  refine Separate.of_range h ?_ fun param hmem => ?_
  · have hthis : 0 :: List.range' 1 method.parameters.length = List.range' 0 (1 + method.parameters.length) := by
      rw [Nat.add_comm 1]
      rfl
    have happend := @List.range'_append_1 0 (1 + method.parameters.length) method.varDecls
    rw [Nat.zero_add] at happend
    unfold regularValues
    show _ = List.range ((regularFirmMethod method).nParams + method.varDecls)
    rw [declValues_eq h, hidx, hn, hthis, List.range_eq_range']
    exact happend
  · have hmem' := List.mem_map_of_mem (f := Parameter.idx) hmem
    rw [hidx, List.mem_range'_1] at hmem'
    rw [hn]
    exact hmem'.2

theorem main_separate {method : TMainMethod} (h : Numbered [] method.varDecls method.body) :
    Separate (mainFirmMethod method) [] method.body (mainValues method) := by
  refine Separate.of_range h ?_ (List.forall_mem_nil _)
  unfold mainValues
  rw [declValues_eq h, List.range_eq_range']
  rfl

/-- Local variables never share storage. In every method of an accepted program the values of `this`, of the parameters and
of all the declared variables are different values of the graph of the method, every reference uses the value of the
variable it is bound to, and the value that is set for a parameter is the one of its references. -/
theorem variables_separate {file : List UInt8} {p : Program} {t : TProgram} (hp : parseFile file = some p)
    (ht : Sema.visitProgram p = .ok t) :
    ∀ c ∈ t.classes,
      (∀ m ∈ c.methods, Separate (regularFirmMethod m) m.parameters m.body (regularValues m) ∧
        setParams 1 m.parameters = m.parameters.map fun param => (param, param.idx)) ∧
      ∀ mm ∈ c.mainMethods, Separate (mainFirmMethod mm) [] mm.body (mainValues mm) := by
  intro tc htc
  obtain ⟨c, hc, hnum⟩ := (visitProgram_visited ht).numbered htc
  refine ⟨fun tm htm => ?_, fun tm htm => main_separate (hnum.mainMethods tm htm)⟩
  obtain ⟨hbody, m, hm, hparams⟩ := hnum.methods tm htm
  have hidx : tm.parameters.map Parameter.idx = List.range' 1 tm.parameters.length := by
    rw [hparams]
    exact ((parseFile_wf hp c hc).methods m hm).indices
  exact ⟨regular_separate hbody hidx, setParams_eq hidx⟩

/-- Variables in sibling blocks, one of them after a `return`. -/
def siblingBlocks : List UInt8 :=
  Lexer.bytes ("class A \x7b public int f(int a, int b) \x7b \x7b int x = a; \x7d \x7b int x = b; return x; int y; \x7d \x7d " ++
    "public static void main(String[] args) \x7b int z = 1; \x7d \x7d").toList

theorem variables_separate_siblingBlocks :
    ∃ p t, parseFile siblingBlocks = some p ∧ Sema.visitProgram p = .ok t ∧
      t.classes.map (fun c => (c.methods.map regularValues, c.mainMethods.map mainValues)) =
        [([[0, 1, 2, 3, 4, 5]], [[0]])] ∧
      ∀ c ∈ t.classes, ∀ m ∈ c.methods, Separate (regularFirmMethod m) m.parameters m.body (regularValues m) := by
  have hrun : ((parseFile siblingBlocks).bind fun p => (Sema.visitProgram p).toOption.map fun t =>
      t.classes.map fun c => (c.methods.map regularValues, c.mainMethods.map mainValues)) =
        some [([[0, 1, 2, 3, 4, 5]], [[0]])] := by
    decide +kernel
  obtain ⟨p, hp, hrun⟩ := Option.bind_eq_some_iff.mp hrun
  obtain ⟨t, ht, hvalues⟩ := Option.map_eq_some_iff.mp hrun
  cases hv : Sema.visitProgram p with
  | error e =>
    rw [hv] at ht
    cases ht
  | ok t' =>
    rw [hv] at ht
    obtain rfl := Option.some.inj ht
    exact ⟨p, t', hp, hv, hvalues, fun c hc m hm => ((variables_separate hp hv c hc).1 m hm).1⟩

end Mjc.FirmVisitor

import Mjc.Parser.WellFormed
import Mjc.Printer.Pieces

/-!
# Normal forms of programs

What is printed does not show everything that the tree holds: a branch is printed as a block, a block that holds nothing but
empty blocks is printed as an empty one, and classes and members are printed in the order of their names.

* `normalStmt`, `normalProgram` : the tree that the printed text shows;
* `stmtPieces_normal`, `programPieces_normal` : it is printed like the tree itself.
-/

namespace Mjc.Printer
open Mjc.Ast Mjc.Lexer
open Mjc.Parser (WfStmt WfBlock WfRegularMethod WfMainMethod WfClass WfProgram isLonely isLonelyBlock)
open Mjc.Sema (sortByName sortByName_perm pairwise_sortByName nodup_sortByName)

set_option autoImplicit false

/-! ## Statements -/

mutual

/-- The statement that the printed text shows. -/
def normalStmt : Stmt → Stmt
  | .block statements lonely => if lonely then .block [] true else .block (normalStmts statements) false
  | .ifStmt condition thenStmt elseStmt => .ifStmt condition (some (normalBody thenStmt)) (normalElse elseStmt)
  | .whileStmt condition statement => .whileStmt condition (some (normalBody statement))
  | .varDecl type name initializer => .varDecl type name initializer
  | .exprStmt expression => .exprStmt expression
  | .returnStmt expression => .returnStmt expression

def normalStmts : List Stmt → List Stmt
  | [] => []
  | s :: l => normalStmt s :: normalStmts l

/-- A branch that `printStatementAsBlock` prints. -/
def normalBody : Option Stmt → Stmt
  | none => .block [] true
  | some (.block statements lonely) => normalStmt (.block statements lonely)
  | some s => .block [normalStmt s] false

/-- A branch that `printElseStatementAsBlock` prints. -/
def normalElse : Option Stmt → Option Stmt
  | none => none
  | some (.block statements lonely) => if lonely then none else some (normalStmt (.block statements lonely))
  | some s => some (.block [normalStmt s] false)

end

theorem normalStmts_eq_map (l : List Stmt) : normalStmts l = l.map normalStmt := by
  induction l with
  | nil => rw [normalStmts, List.map_nil]
  | cons s l ih => rw [normalStmts, List.map_cons, ih]

theorem isLonelyBlock_normalStmt (s : Stmt) : isLonelyBlock (normalStmt s) = isLonelyBlock s := by
  cases s with
  | block statements lonely => rw [normalStmt]; cases lonely <;> rfl
  | ifStmt _ _ _ | whileStmt _ _ => rw [normalStmt]; rfl
  | varDecl _ _ _ | exprStmt _ | returnStmt _ => rw [normalStmt]

theorem isLonely_normalStmts (l : List Stmt) : isLonely (normalStmts l) = isLonely l := by
  unfold isLonely
  rw [normalStmts_eq_map, List.all_map]
  exact List.all_congr rfl fun s => isLonelyBlock_normalStmt s

/-- The statement is printed like its normal form, and leaves the same flag. -/
structure PrintsNormal (s : Stmt) : Prop where
  pieces : ∀ i b, stmtPieces i b (normalStmt s) = stmtPieces i b s
  after : ∀ b, stmtAfter b (normalStmt s) = stmtAfter b s

section
variable {l : List Stmt} {o : Option Stmt}

theorem stmtsPieces_normal (h : ∀ s ∈ l, PrintsNormal s) (i : Nat) (b : Bool) :
    stmtsPieces i b (normalStmts l) = stmtsPieces i b l := by
  induction l generalizing b with
  | nil => rw [normalStmts]
  | cons s l ih =>
    have hs := h s List.mem_cons_self
    rw [normalStmts, stmtsPieces, stmtsPieces, hs.pieces, hs.after, ih fun s' hs' => h s' (List.mem_cons_of_mem _ hs')]

theorem stmtsAfter_normal (h : ∀ s ∈ l, PrintsNormal s) (b : Bool) : stmtsAfter b (normalStmts l) = stmtsAfter b l := by
  induction l generalizing b with
  | nil => rw [normalStmts]
  | cons s l ih =>
    rw [normalStmts, stmtsAfter, stmtsAfter, (h s List.mem_cons_self).after,
      ih fun s' hs' => h s' (List.mem_cons_of_mem _ hs')]

/-- A block of one statement. -/
theorem stmtPieces_single {s : Stmt} (h : PrintsNormal s) (i : Nat) (b : Bool) :
    stmtPieces i b (.block [normalStmt s] false) = braces i (line (i + 1) :: stmtPieces (i + 1) b s) := by
  rw [stmtPieces, stmtsPieces, stmtsPieces, h.pieces, List.append_nil]
  rfl

theorem stmtAfter_single {s : Stmt} (h : PrintsNormal s) (b : Bool) :
    stmtAfter b (.block [normalStmt s] false) = stmtAfter b s := by
  rw [stmtAfter, stmtsAfter, stmtsAfter, h.after]
  rfl

theorem normalStmt_isBlock (statements : List Stmt) (lonely : Bool) :
    ∃ statements' lonely', normalStmt (.block statements lonely) = .block statements' lonely' := by
  rw [normalStmt]
  cases lonely with
  | true => exact ⟨_, _, rfl⟩
  | false => exact ⟨_, _, rfl⟩

theorem bodyPieces_normal (h : ∀ s ∈ o, PrintsNormal s) (i : Nat) (b : Bool) :
    bodyPieces i b (some (normalBody o)) = bodyPieces i b o := by
  cases o with
  | none => rw [normalBody, bodyPieces, bodyPieces, stmtPieces]; rfl
  | some s =>
    have hs := h s rfl
    cases s with
    | block statements lonely =>
      have hpieces := hs.pieces i b
      obtain ⟨statements', lonely', heq⟩ := normalStmt_isBlock statements lonely
      rw [normalBody, bodyPieces, heq, bodyPieces, ← heq, hpieces]
    | _ =>
      rw [normalBody, bodyPieces, stmtPieces_single hs, bodyPieces]
      all_goals exact fun _ _ h => by cases h

theorem branchAfter_normal (h : ∀ s ∈ o, PrintsNormal s) (b : Bool) :
    branchAfter b (some (normalBody o)) = branchAfter b o := by
  cases o with
  | none => rw [normalBody, branchAfter, branchAfter, stmtAfter]; rfl
  | some s =>
    have hs := h s rfl
    cases s with
    | block statements lonely => rw [normalBody, branchAfter, hs.after, branchAfter]
    | _ =>
      rw [normalBody, branchAfter, stmtAfter_single hs, branchAfter]
      exact fun _ _ h => by cases h

theorem elsePieces_normal (h : ∀ s ∈ o, PrintsNormal s) (i : Nat) (b : Bool) :
    elsePieces i b (normalElse o) = elsePieces i b o := by
  cases o with
  | none => rw [normalElse]
  | some s =>
    have hs := h s rfl
    cases s with
    | block statements lonely =>
      rw [normalElse]
      cases lonely with
      | true => rw [if_pos rfl, elsePieces, elsePieces]; rfl
      | false =>
        have hpieces := hs.pieces i b
        have heq : normalStmt (.block statements false) = .block (normalStmts statements) false := by
          rw [normalStmt]; rfl
        rw [if_neg Bool.false_ne_true, heq, elsePieces, elsePieces, ← heq, hpieces]
    | _ =>
      rw [normalElse, elsePieces, stmtPieces_single hs, elsePieces]
      · rfl
      all_goals exact fun _ _ h => by cases h

theorem elseAfter_normal (h : ∀ s ∈ o, PrintsNormal s) (b : Bool) : branchAfter b (normalElse o) = branchAfter b o := by
  cases o with
  | none => rw [normalElse]
  | some s =>
    have hs := h s rfl
    cases s with
    | block statements lonely =>
      rw [normalElse]
      cases lonely with
      | true => rw [if_pos rfl, branchAfter, branchAfter, stmtAfter]; rfl
      | false => rw [if_neg Bool.false_ne_true, branchAfter, hs.after, branchAfter]
    | _ =>
      rw [normalElse, branchAfter, stmtAfter_single hs, branchAfter]
      exact fun _ _ h => by cases h

end

/-- A statement is printed like its normal form. -/
theorem stmt_printsNormal (s : Stmt) : PrintsNormal s := by
  induction s using Sema.Stmt.induct with
  | block statements lonely ih =>
    constructor
    · intro i b
      rw [normalStmt, stmtPieces]
      cases lonely with
      | true => rw [if_pos rfl, stmtPieces]; rfl
      | false => rw [if_neg Bool.false_ne_true, stmtPieces, stmtsPieces_normal ih]
    · intro b
      rw [normalStmt, stmtAfter]
      cases lonely with
      | true => rw [if_pos rfl, stmtAfter]; rfl
      | false => rw [if_neg Bool.false_ne_true, stmtAfter, stmtsAfter_normal ih]
  | ifStmt condition thenStmt elseStmt ih₁ ih₂ =>
    constructor
    · intro i b
      rw [normalStmt, stmtPieces, stmtPieces, bodyPieces_normal ih₁, branchAfter_normal ih₁, elsePieces_normal ih₂]
    · intro b
      rw [normalStmt, stmtAfter, stmtAfter, branchAfter_normal ih₁, elseAfter_normal ih₂]
  | whileStmt condition statement ih =>
    constructor
    · intro i b
      rw [normalStmt, stmtPieces, stmtPieces, bodyPieces_normal ih]
    · intro b
      rw [normalStmt, stmtAfter, stmtAfter, branchAfter_normal ih]
  | varDecl type name o => exact ⟨fun i b => by rw [normalStmt], fun b => by rw [normalStmt]⟩
  | exprStmt e => exact ⟨fun i b => by rw [normalStmt], fun b => by rw [normalStmt]⟩
  | returnStmt o => exact ⟨fun i b => by rw [normalStmt], fun b => by rw [normalStmt]⟩

/-! ## Classes and programs -/

/-- The body of a method; an empty body is printed as an empty block. -/
def normalBlock (block : Block) : Block :=
  if block.lonely then ⟨[], true⟩ else ⟨normalStmts block.statements, false⟩

def normalMethod (m : RegularMethod) : RegularMethod := { m with block := normalBlock m.block }

def normalMainMethod (m : MainMethod) : MainMethod := { m with block := normalBlock m.block }

/-- The members in the order in which they are printed. -/
def normalClass (c : Ast.Class) : Ast.Class where
  name := c.name
  fields := sortByName Ast.Field.name c.fields
  methods := (sortByName RegularMethod.name c.methods).map normalMethod
  mainMethods := (sortByName MainMethod.name c.mainMethods).map normalMainMethod

/-- The program that the printed text shows. -/
def normalProgram (p : Program) : Program := ⟨(sortByName Ast.Class.name p.classes).map normalClass⟩

theorem normalBlock_stmt (block : Block) :
    Stmt.block (normalBlock block).statements (normalBlock block).lonely =
      normalStmt (.block block.statements block.lonely) := by
  rw [normalStmt]
  unfold normalBlock
  cases block.lonely <;> rfl

theorem blockPieces_normal (i : Nat) (b : Bool) (block : Block) :
    blockPieces i b (normalBlock block) = blockPieces i b block := by
  unfold blockPieces
  rw [normalBlock_stmt, (stmt_printsNormal _).pieces]

theorem blockAfter_normal (b : Bool) (block : Block) : blockAfter b (normalBlock block) = blockAfter b block := by
  unfold blockAfter
  rw [normalBlock_stmt, (stmt_printsNormal _).after]

section Lists

variable {α : Type} {name : α → String} {f : α → α} {pieces : Bool → α → List Piece} {next : Bool → α → Bool}

/-- A sorted list stays sorted under a change that keeps the names. -/
theorem sortByName_normal (hf : ∀ x, name (f x) = name x) (l : List α) :
    sortByName name ((sortByName name l).map f) = (sortByName name l).map f := by
  refine List.Pairwise.insertionSort_eq (List.pairwise_map.mpr ?_)
  refine (pairwise_sortByName name l).imp fun h => ?_
  rw [hf, hf]
  exact h

theorem listPieces_normal (hp : ∀ b x, pieces b (f x) = pieces b x) (hn : ∀ b x, next b (f x) = next b x) (b : Bool)
    (l : List α) : listPieces pieces next b (l.map f) = listPieces pieces next b l := by
  rw [listPieces_map]
  exact listPieces_congr (fun x _ b => ⟨hp b x, hn b x⟩) b

theorem foldl_normal (hn : ∀ b x, next b (f x) = next b x) (b : Bool) (l : List α) :
    (l.map f).foldl next b = l.foldl next b := by
  rw [List.foldl_map]
  exact congrArg (fun g => l.foldl g b) (funext fun b => funext fun x => hn b x)

end Lists

theorem methodPieces_normal (b : Bool) (m : RegularMethod) : methodPieces b (normalMethod m) = methodPieces b m := by
  unfold methodPieces normalMethod
  rw [blockPieces_normal]

theorem mainMethodPieces_normal (b : Bool) (m : MainMethod) :
    mainMethodPieces b (normalMainMethod m) = mainMethodPieces b m := by
  unfold mainMethodPieces normalMainMethod
  rw [blockPieces_normal]

theorem methodAfter_normal (b : Bool) (m : RegularMethod) : methodAfter b (normalMethod m) = methodAfter b m :=
  blockAfter_normal b m.block

theorem mainMethodAfter_normal (b : Bool) (m : MainMethod) :
    mainMethodAfter b (normalMainMethod m) = mainMethodAfter b m := blockAfter_normal b m.block

theorem sorted_normalMethods (c : Ast.Class) :
    sortByName RegularMethod.name (normalClass c).methods = (normalClass c).methods :=
  @sortByName_normal _ _ normalMethod (fun _ => rfl) c.methods

theorem sorted_normalMains (c : Ast.Class) :
    sortByName MainMethod.name (normalClass c).mainMethods = (normalClass c).mainMethods :=
  @sortByName_normal _ _ normalMainMethod (fun _ => rfl) c.mainMethods

theorem sorted_normalFields (c : Ast.Class) :
    sortByName Ast.Field.name (normalClass c).fields = (normalClass c).fields :=
  List.Pairwise.insertionSort_eq (pairwise_sortByName _ _)

theorem methodsAfter_normal (b : Bool) (c : Ast.Class) : methodsAfter b (normalClass c) = methodsAfter b c := by
  unfold methodsAfter
  rw [sorted_normalMethods]
  exact foldl_normal methodAfter_normal b _

theorem classAfter_normal (b : Bool) (c : Ast.Class) : classAfter b (normalClass c) = classAfter b c := by
  unfold classAfter
  rw [sorted_normalMains, methodsAfter_normal]
  exact foldl_normal mainMethodAfter_normal _ _

theorem classPieces_normal (b : Bool) (c : Ast.Class) : classPieces b (normalClass c) = classPieces b c := by
  have hmethods : listPieces methodPieces methodAfter b (normalClass c).methods =
      listPieces methodPieces methodAfter b (sortByName RegularMethod.name c.methods) :=
    listPieces_normal methodPieces_normal methodAfter_normal b _
  have hmains : listPieces mainMethodPieces mainMethodAfter (methodsAfter b c) (normalClass c).mainMethods =
      listPieces mainMethodPieces mainMethodAfter (methodsAfter b c) (sortByName MainMethod.name c.mainMethods) :=
    listPieces_normal mainMethodPieces_normal mainMethodAfter_normal _ _
  unfold classPieces
  rw [sorted_normalFields, sorted_normalMethods, sorted_normalMains, methodsAfter_normal, hmethods, hmains]
  rfl

theorem programPieces_normal (p : Program) : programPieces (normalProgram p) = programPieces p := by
  unfold programPieces
  rw [show sortByName Ast.Class.name (normalProgram p).classes = (normalProgram p).classes from
    @sortByName_normal _ _ normalClass (fun _ => rfl) p.classes]
  exact listPieces_normal classPieces_normal classAfter_normal false _

theorem DistinctNames.normal {p : Program} (h : DistinctNames p) : DistinctNames (normalProgram p) := by
  refine ⟨?_, fun c hc => ?_⟩
  · have hnames : (normalProgram p).classes.map Ast.Class.name = (sortByName Ast.Class.name p.classes).map Ast.Class.name :=
      List.map_map
    rw [hnames]
    exact nodup_sortByName.mpr h.1
  · obtain ⟨d, hd, rfl⟩ := List.mem_map.mp hc
    obtain ⟨hfields, hmethods, hmains⟩ := h.2 d ((sortByName_perm _ _).mem_iff.mp hd)
    have hmethodNames : (normalClass d).methods.map RegularMethod.name =
        (sortByName RegularMethod.name d.methods).map RegularMethod.name := List.map_map
    have hmainNames : (normalClass d).mainMethods.map MainMethod.name =
        (sortByName MainMethod.name d.mainMethods).map MainMethod.name := List.map_map
    rw [hmethodNames, hmainNames]
    exact ⟨nodup_sortByName.mpr hfields, nodup_sortByName.mpr hmethods, nodup_sortByName.mpr hmains⟩

end Mjc.Printer

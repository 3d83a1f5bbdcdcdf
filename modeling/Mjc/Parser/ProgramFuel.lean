import Mjc.Parser.Fuel

/-!
# More steps for statements and classes

* `StmtLe m n`, `stmtLe` : the functions of statements with `m` and with `n` steps;
* `programLoop_le` : the loop of `parseProgram`.
-/

namespace Mjc.Parser
open Mjc.Ast

set_option autoImplicit false

theorem Le.map {α β : Type} {x y : P α} (h : Le x y) (f : α → β) : Le (f <$> x) (f <$> y) := h.bind fun _ => .refl _

section
variable {m n : Nat}

/-! ## Types and simple statements -/

theorem typeLoop_le (h : m ≤ n) (b : BasicType) (k : Nat) : Le (typeLoop m b k) (typeLoop n b k) := by
  induction m generalizing n k with
  | zero => exact .stop _
  | succ m ih =>
    obtain ⟨n, rfl⟩ : ∃ j, n = j + 1 := ⟨n - 1, by omega⟩
    unfold typeLoop
    refine Le.then fun tok => ?_
    split
    · exact Le.then fun _ => Le.then fun _ => ih (by omega) _
    · exact .refl _

theorem parseType_le (h : m ≤ n) : Le (parseType m) (parseType n) := Le.then fun b => typeLoop_le h b 0

theorem parseExpr_le (h : m ≤ n) : Le (parseExpr m) (parseExpr n) := (exprLe h).precedenceParse 0

theorem parseLocalVarDeclStmt_le (h : m ≤ n) : Le (parseLocalVarDeclStmt m) (parseLocalVarDeclStmt n) := by
  refine (parseType_le h).bind fun type => Le.then fun ident => Le.then fun tok => ?_
  split
  · exact Le.then fun _ => (parseExpr_le h).bind fun _ => .refl _
  · exact .refl _
  · exact .refl _

theorem parseExprStmt_le (h : m ≤ n) : Le (parseExprStmt m) (parseExprStmt n) := (parseExpr_le h).bind fun _ => .refl _

theorem parseReturnStmt_le (h : m ≤ n) : Le (parseReturnStmt m) (parseReturnStmt n) := by
  refine Le.then fun _ => Le.then fun tok => ?_
  split
  · exact .refl _
  · exact (parseExpr_le h).bind fun _ => .refl _

/-! ## Statements -/

/-- The functions of statements with fewer and with more steps. -/
structure StmtLe (m n : Nat) : Prop where
  parseBlock : Le (parseBlock m) (parseBlock n)
  blockLoop : ∀ l, Le (blockLoop m l) (blockLoop n l)
  parseBlockStatement : Le (parseBlockStatement m) (parseBlockStatement n)
  parseStmt : Le (parseStmt m) (parseStmt n)
  parseIfStmt : Le (parseIfStmt m) (parseIfStmt n)
  parseWhileStmt : Le (parseWhileStmt m) (parseWhileStmt n)

theorem stmtLe_zero (n : Nat) : StmtLe 0 n :=
  ⟨.stop _, fun _ => .stop _, .stop _, .stop _, .stop _, .stop _⟩

namespace StmtLe

theorem blockLoop_succ (ih : StmtLe m n) (l : List Stmt) : Le (Parser.blockLoop (m + 1) l) (Parser.blockLoop (n + 1) l) := by
  unfold Parser.blockLoop
  refine Le.then fun tok => ?_
  split
  case h_1 => exact .refl _
  case h_20 => exact .refl _
  all_goals exact ih.parseBlockStatement.bind fun stmt => ih.blockLoop _

theorem parseBlockStatement_succ (ih : StmtLe m n) (h : m ≤ n) :
    Le (Parser.parseBlockStatement (m + 1)) (Parser.parseBlockStatement (n + 1)) := by
  unfold Parser.parseBlockStatement
  refine Le.then fun tok => ?_
  split
  case h_18 =>
    refine Le.then fun _ => Le.then fun _ => ?_
    split
    · exact (parseLocalVarDeclStmt_le h).map _
    · exact ih.parseStmt
  case h_19 => exact .refl _
  all_goals first | exact (parseLocalVarDeclStmt_le h).map _ | exact ih.parseStmt

theorem parseStmt_succ (ih : StmtLe m n) (h : m ≤ n) : Le (Parser.parseStmt (m + 1)) (Parser.parseStmt (n + 1)) := by
  unfold Parser.parseStmt
  refine Le.then fun tok => ?_
  split
  · exact ih.parseBlock.bind fun _ => .refl _
  · exact .refl _
  · exact ih.parseIfStmt.map _
  · exact (parseReturnStmt_le h).map _
  · exact ih.parseWhileStmt.map _
  all_goals first | exact (parseExprStmt_le h).map _ | exact .refl _

theorem parseIfStmt_succ (ih : StmtLe m n) (h : m ≤ n) : Le (Parser.parseIfStmt (m + 1)) (Parser.parseIfStmt (n + 1)) := by
  unfold Parser.parseIfStmt
  refine Le.then fun _ => Le.then fun _ => (parseExpr_le h).bind fun _ => Le.then fun _ => ih.parseStmt.bind fun _ => ?_
  refine Le.then fun tok => ?_
  split
  · exact Le.then fun _ => ih.parseStmt.bind fun _ => .refl _
  · exact .refl _

theorem parseWhileStmt_succ (ih : StmtLe m n) (h : m ≤ n) :
    Le (Parser.parseWhileStmt (m + 1)) (Parser.parseWhileStmt (n + 1)) := by
  unfold Parser.parseWhileStmt
  exact Le.then fun _ => Le.then fun _ => (parseExpr_le h).bind fun _ => Le.then fun _ => ih.parseStmt.bind fun _ => .refl _

/-- One step more for both. -/
theorem succ (ih : StmtLe m n) (h : m ≤ n) : StmtLe (m + 1) (n + 1) where
  parseBlock := by
    unfold Parser.parseBlock
    exact Le.then fun _ => ih.blockLoop []
  blockLoop := ih.blockLoop_succ
  parseBlockStatement := ih.parseBlockStatement_succ h
  parseStmt := ih.parseStmt_succ h
  parseIfStmt := ih.parseIfStmt_succ h
  parseWhileStmt := ih.parseWhileStmt_succ h

end StmtLe

theorem stmtLe (h : m ≤ n) : StmtLe m n := by
  induction m generalizing n with
  | zero => exact stmtLe_zero n
  | succ m ih =>
    obtain ⟨n, rfl⟩ : ∃ k, n = k + 1 := ⟨n - 1, by omega⟩
    exact (ih (by omega)).succ (by omega)

/-! ## Classes -/

theorem parseParameter_le (h : m ≤ n) (idx : Nat) : Le (parseParameter m idx) (parseParameter n idx) :=
  (parseType_le h).bind fun _ => .refl _

theorem parameterLoop_le (h : m ≤ n) (idx : Nat) (l : List Parameter) :
    Le (parameterLoop m idx l) (parameterLoop n idx l) := by
  induction m generalizing n idx l with
  | zero => exact .stop _
  | succ m ih =>
    obtain ⟨n, rfl⟩ : ∃ k, n = k + 1 := ⟨n - 1, by omega⟩
    unfold parameterLoop
    refine Le.then fun tok => ?_
    split
    · exact Le.then fun _ => (parseParameter_le (by omega) _).bind fun p => ih (by omega) _ _
    · exact .refl _

theorem parseParameterList_le (h : m ≤ n) : Le (parseParameterList m) (parseParameterList n) := by
  refine Le.then fun tok => ?_
  split
  case h_5 => exact .refl _
  all_goals exact (parseParameter_le h 1).bind fun p => parameterLoop_le h 1 [p]

theorem parseMainMethod_le (h : m ≤ n) : Le (parseMainMethod m) (parseMainMethod n) := by
  unfold parseMainMethod
  refine Le.then fun _ => Le.then fun _ => Le.then fun _ => Le.then fun _ => Le.then fun _ => Le.then fun _ => ?_
  refine Le.then fun tok => ?_
  split
  · exact .refl _
  · refine Le.then fun _ => Le.then fun _ => Le.then fun _ => Le.then fun _ => Le.then fun _ => Le.then fun _ => ?_
    exact (stmtLe h).parseBlock.bind fun _ => .refl _

theorem parseFieldOrMethod_le (h : m ≤ n) : Le (parseFieldOrMethod m) (parseFieldOrMethod n) := by
  refine Le.then fun _ => (parseType_le h).bind fun type => Le.then fun name => Le.then fun tok => ?_
  split
  · exact .refl _
  · exact Le.then fun _ => (parseParameterList_le h).bind fun _ => Le.then fun _ => Le.then fun _ =>
      (stmtLe h).parseBlock.bind fun _ => .refl _
  · exact .refl _

theorem parseClassMember_le (h : m ≤ n) : Le (parseClassMember m) (parseClassMember n) := by
  refine Le.then fun next => ?_
  split
  · exact (parseMainMethod_le h).map _
  all_goals first | exact (parseFieldOrMethod_le h) | exact .refl _

theorem memberLoop_le (h : m ≤ n) (c : Ast.Class) : Le (memberLoop m c) (memberLoop n c) := by
  induction m generalizing n c with
  | zero => exact .stop _
  | succ m ih =>
    obtain ⟨n, rfl⟩ : ∃ k, n = k + 1 := ⟨n - 1, by omega⟩
    unfold memberLoop
    refine Le.then fun tok => ?_
    split
    · exact .refl _
    · exact (parseClassMember_le (by omega)).bind fun member => ih (by omega) _
    · exact .refl _

theorem parseClassDeclaration_le (h : m ≤ n) : Le (parseClassDeclaration m) (parseClassDeclaration n) :=
  Le.then fun _ => Le.then fun _ => Le.then fun _ => memberLoop_le h _

theorem programLoop_le (h : m ≤ n) (cs : List Ast.Class) : Le (programLoop m cs) (programLoop n cs) := by
  induction m generalizing n cs with
  | zero => exact .stop _
  | succ m ih =>
    obtain ⟨n, rfl⟩ : ∃ k, n = k + 1 := ⟨n - 1, by omega⟩
    unfold programLoop
    refine Le.then fun tok => ?_
    split
    · exact (parseClassDeclaration_le (by omega)).bind fun c => ih (by omega) _
    · exact .refl _
    · exact .refl _

end

end Mjc.Parser

import Mjc.Printer.RoundTrip

/-!
# What is read back where parentheses are missing

A receiver that is an operator expression is printed without parentheses where the flag does not ask for them, and the parser
then takes the postfix operator as a part of the last operand.

* `attach`, `rereadExpr`, `rereadProgram` : the tree that is read back;
* `plainAssignments` : the left side of no assignment ends in an assignment without parentheses;
* `WrittenAs`, `rereadExpr_writtenAs` : it is written like the tree that was printed, with all its parentheses.
-/

namespace Mjc.Printer
open Mjc.Ast Mjc.Lexer Mjc.Parser
open Mjc.Sema (sortByName sortByName_perm pairwise_sortByName nodup_sortByName UnstableSort)

set_option autoImplicit false

/-! ## Expressions -/

/-- A postfix operator behind an expression that is printed with the flag `b`: behind an operator expression without
parentheses it belongs to the last operand. -/
def attach (b : Bool) (f : Expr → Expr) : Expr → Expr
  | .binary op left right =>
    if b then f (.binary op left right) else .binary op left (attach (op ≠ .assign || after left) f right)
  | .unary op expression => if b then f (.unary op expression) else .unary op (f expression)
  | e => f e

mutual

/-- The expression that is read back, if `e` is printed with the flag `b`. -/
def rereadExpr (b : Bool) : Expr → Expr
  | .methodInvocation left name arguments =>
    attach b (fun l => .methodInvocation l name (rereadArgs (after left) arguments)) (rereadExpr b left)
  | .fieldAccess left name => attach b (fun l => .fieldAccess l name) (rereadExpr b left)
  | .arrayAccess array index => attach b (fun l => .arrayAccess l (rereadExpr (after array) index)) (rereadExpr b array)
  | .newArray elementType dimension size => .newArray elementType dimension (rereadExpr false size)
  | .binary op left right =>
    .binary op (rereadExpr (op ≠ .assign) left) (rereadExpr (op ≠ .assign || after left) right)
  | .unary op expression => .unary op (rereadExpr true expression)
  | .intLiteral value => .intLiteral value
  | .boolLiteral value => .boolLiteral value
  | .nullLiteral => .nullLiteral
  | .thisLiteral => .thisLiteral
  | .varRef name => .varRef name
  | .newObject name => .newObject name

def rereadArgs (b : Bool) : List Expr → List Expr
  | [] => []
  | e :: l => rereadExpr b e :: rereadArgs (after e) l

end

/-- Printed without parentheses, the expression ends in an assignment. -/
def endsInAssignment : Expr → Bool
  | .binary .assign _ _ => true
  | .methodInvocation left _ _ | .fieldAccess left _ | .arrayAccess left _ => endsInAssignment left
  | _ => false

mutual

/-- The left side of no assignment ends in an assignment. -/
def plainAssignments : Expr → Bool
  | .intLiteral _ | .boolLiteral _ | .nullLiteral | .thisLiteral | .varRef _ | .newObject _ => true
  | .methodInvocation left _ arguments => plainAssignments left && plainArgs arguments
  | .fieldAccess left _ => plainAssignments left
  | .arrayAccess array index => plainAssignments array && plainAssignments index
  | .newArray _ _ size => plainAssignments size
  | .binary op left right =>
    !(op = .assign && endsInAssignment left) && plainAssignments left && plainAssignments right
  | .unary _ expression => plainAssignments expression

def plainArgs : List Expr → Bool
  | [] => true
  | e :: l => plainAssignments e && plainArgs l

end

theorem plainArgs_iff {l : List Expr} : plainArgs l = true ↔ ∀ e ∈ l, plainAssignments e = true := by
  induction l with
  | nil => simp [plainArgs]
  | cons e l ih => rw [plainArgs, Bool.and_eq_true, ih, List.forall_mem_cons]

/-- With the flag `b`, the expression is written as `ps` with all its parentheses, and leaves the flag `a`. -/
structure WrittenAs (b : Bool) (ps : List Piece) (a : Bool) (e : Expr) : Prop where
  pieces : exprPieces b e = ps
  after : after e = a
  parenthesised : parenthesised b e = true
  wf : WfExpr e

/-- A postfix operator behind an expression. -/
theorem WrittenAs.attach {ps qs : List Piece} {a a' b : Bool} {f : Expr → Expr} {l : Expr} (h : WrittenAs b ps a l)
    (hf : ∀ ⦃b ps l⦄, WrittenAs b ps a l → (b || !isOperator l) = true → WrittenAs b (ps ++ qs) a' (f l)) :
    WrittenAs b (ps ++ qs) a' (attach b f l) := by
  induction l using Sema.Expr.induct generalizing b ps with
  | binary op x y _ ihy =>
    rw [Printer.attach]
    cases b with
    | true => exact hf h rfl
    | false =>
      obtain ⟨hpieces, hafter, hpar, hwf⟩ := h
      rw [Printer.parenthesised, Bool.and_eq_true, Bool.and_eq_true] at hpar
      cases hwf with
      | binary hx hy =>
        have hy' := ihy ⟨rfl, hafter, hpar.2, hy⟩
        rw [if_neg Bool.false_ne_true]
        constructor
        · rw [← hpieces, exprPieces, exprPieces, parens, parens, hy'.pieces]
          simp
        · exact hy'.after
        · rw [Printer.parenthesised, hpar.1.1, hpar.1.2, hy'.parenthesised]
          rfl
        · exact .binary hx hy'.wf
  | unary op x _ =>
    rw [Printer.attach]
    cases b with
    | true => exact hf h rfl
    | false =>
      obtain ⟨hpieces, hafter, hpar, hwf⟩ := h
      rw [Printer.parenthesised] at hpar
      cases hwf with
      | unary hx =>
        have hx' := @hf true _ x ⟨rfl, hafter, hpar, hx⟩ rfl
        rw [if_neg Bool.false_ne_true]
        constructor
        · rw [← hpieces, exprPieces, exprPieces, parens, parens, hx'.pieces]
          rfl
        · exact hx'.after
        · rw [Printer.parenthesised]
          exact hx'.parenthesised
        · exact .unary hx'.wf
  | _ => exact hf h (Bool.or_true _)

theorem isAssignment_attach {f : Expr → Expr} (hf : ∀ l, isAssignment (f l) = false) (l : Expr) :
    isAssignment (attach false f l) = isAssignment l := by
  cases l with
  | binary op x y =>
    rw [attach, if_neg Bool.false_ne_true]
    cases op <;> rfl
  | unary op x => rw [attach, if_neg Bool.false_ne_true]; rfl
  | _ => exact hf _

theorem isAssignment_rereadExpr (e : Expr) : isAssignment (rereadExpr false e) = endsInAssignment e := by
  induction e using Sema.Expr.induct with
  | methodInvocation left name arguments ihl iha =>
    rw [rereadExpr, isAssignment_attach (fun _ => rfl), ihl, endsInAssignment]
  | fieldAccess left name ih => rw [rereadExpr, isAssignment_attach (fun _ => rfl), ih, endsInAssignment]
  | arrayAccess array index iha ihi => rw [rereadExpr, isAssignment_attach (fun _ => rfl), iha, endsInAssignment]
  | binary op left right ihl ihr =>
    rw [rereadExpr]
    cases op <;> rfl
  | _ => rw [rereadExpr]; rfl

theorem rereadArgs_writtenAs {l : List Expr}
    (h : ∀ e ∈ l, ∀ b, WrittenAs b (exprPieces b e) (after e) (rereadExpr b e)) (b : Bool) :
    moreArgPieces b (rereadArgs b l) = moreArgPieces b l ∧ argPieces b (rereadArgs b l) = argPieces b l ∧
      afterArgs b (rereadArgs b l) = afterArgs b l ∧ argsParenthesised b (rereadArgs b l) = true ∧
      ∀ e ∈ rereadArgs b l, WfExpr e := by
  induction l generalizing b with
  | nil => exact ⟨by rw [rereadArgs], by rw [rereadArgs], by rw [rereadArgs], by rw [rereadArgs]; rfl, by
      rw [rereadArgs]; exact List.forall_mem_nil _⟩
  | cons e l ih =>
    have he := h e List.mem_cons_self b
    obtain ⟨hmore, -, hafter, hpar, hwf⟩ := ih (fun e' he' => h e' (List.mem_cons_of_mem _ he')) (after e)
    rw [rereadArgs]
    refine ⟨?_, ?_, ?_, ?_, ?_⟩
    · rw [moreArgPieces, moreArgPieces, he.pieces, he.after, hmore]
    · rw [argPieces, argPieces, he.pieces, he.after, hmore]
    · rw [afterArgs, afterArgs, he.after, hafter]
    · rw [argsParenthesised, he.parenthesised, he.after, hpar]; rfl
    · exact List.forall_mem_cons.mpr ⟨he.wf, hwf⟩

/-- The expression that is read back is written like the one that was printed, with all its parentheses. -/
theorem rereadExpr_writtenAs {e : Expr} (h : WfExpr e) (hp : plainAssignments e = true) (b : Bool) :
    WrittenAs b (exprPieces b e) (after e) (rereadExpr b e) := by
  induction h generalizing b with
  | @methodInvocation left name arguments hl hn ha ihl iha =>
    rw [plainAssignments, Bool.and_eq_true, plainArgs_iff] at hp
    obtain ⟨-, hargs, hafter, hpar, hwf⟩ := rereadArgs_writtenAs (fun e he b => iha e he (hp.2 e he) b) (after left)
    rw [rereadExpr, exprPieces, List.append_assoc, List.append_assoc]
    refine (ihl hp.1 b).attach fun b ps l hl' hb => ⟨?_, ?_, ?_, .methodInvocation hl'.wf hn hwf⟩
    · rw [exprPieces, hl'.pieces, hl'.after, hargs, List.append_assoc, List.append_assoc]
    · rw [after, after, hl'.after, hafter]
    · rw [parenthesised, hb, hl'.parenthesised, hl'.after, hpar]; rfl
  | @fieldAccess left name hl hn ihl =>
    rw [plainAssignments] at hp
    rw [rereadExpr, exprPieces]
    refine (ihl hp b).attach fun b ps l hl' hb => ⟨?_, ?_, ?_, .fieldAccess hl'.wf hn⟩
    · rw [exprPieces, hl'.pieces]
    · rw [after, after, hl'.after]
    · rw [parenthesised, hb, hl'.parenthesised]; rfl
  | @arrayAccess array index ha hi iha ihi =>
    rw [plainAssignments, Bool.and_eq_true] at hp
    have hindex := ihi hp.2 (after array)
    rw [rereadExpr, exprPieces, List.append_assoc, List.append_assoc]
    refine (iha hp.1 b).attach fun b ps l hl' hb => ⟨?_, ?_, ?_, .arrayAccess hl'.wf hindex.wf⟩
    · rw [exprPieces, hl'.pieces, hl'.after, hindex.pieces, List.append_assoc, List.append_assoc]
    · rw [after, after, hindex.after]
    · rw [parenthesised, hb, hl'.parenthesised, hl'.after, hindex.parenthesised]; rfl
  | @newArray elementType dimension size ht hd hs ihs =>
    rw [plainAssignments] at hp
    have hsize := ihs hp false
    rw [rereadExpr]
    refine ⟨?_, ?_, ?_, .newArray ht hd hsize.wf⟩
    · rw [exprPieces, exprPieces, hsize.pieces]
    · rw [after, after, hsize.after]
    · rw [parenthesised, hsize.parenthesised]
  | @binary op left right hl hr ihl ihr =>
    rw [plainAssignments, Bool.and_eq_true, Bool.and_eq_true] at hp
    have hleft := ihl hp.1.2 (op ≠ .assign)
    have hright := ihr hp.2 (op ≠ .assign || after left)
    rw [rereadExpr]
    refine ⟨?_, ?_, ?_, .binary hleft.wf hright.wf⟩
    · rw [exprPieces, exprPieces, hleft.pieces, hleft.after, hright.pieces]
    · rw [after, after, hright.after]
    · have hassign : (!(op = .assign && isAssignment (rereadExpr (op ≠ .assign) left))) = true := by
        by_cases hop : op = .assign
        · subst hop
          have hends := hp.1.1
          rw [show (decide (BinaryOp.assign ≠ .assign)) = false from rfl, isAssignment_rereadExpr]
          exact hends
        · simp [hop]
      rw [parenthesised, hassign, hleft.parenthesised, hleft.after, hright.parenthesised]
      rfl
  | @unary op e he ihe =>
    rw [plainAssignments] at hp
    have hexpr := ihe hp true
    rw [rereadExpr]
    refine ⟨?_, ?_, ?_, .unary hexpr.wf⟩
    · rw [exprPieces, exprPieces, hexpr.pieces]
    · rw [after, after, hexpr.after]
    · rw [parenthesised, hexpr.parenthesised]
  | intLiteral hv => rw [rereadExpr]; exact ⟨rfl, rfl, by rw [parenthesised], .intLiteral hv⟩
  | boolLiteral value => rw [rereadExpr]; exact ⟨rfl, rfl, by rw [parenthesised], .boolLiteral value⟩
  | nullLiteral => rw [rereadExpr]; exact ⟨rfl, rfl, by rw [parenthesised], .nullLiteral⟩
  | thisLiteral => rw [rereadExpr]; exact ⟨rfl, rfl, by rw [parenthesised], .thisLiteral⟩
  | varRef hn => rw [rereadExpr]; exact ⟨rfl, rfl, by rw [parenthesised], .varRef hn⟩
  | newObject hn => rw [rereadExpr]; exact ⟨rfl, rfl, by rw [parenthesised], .newObject hn⟩

/-! ## Statements -/

def plainOptExpr : Option Expr → Bool
  | none => true
  | some e => plainAssignments e

mutual

def plainStmt : Stmt → Bool
  | .block statements _ => plainStmts statements
  | .varDecl _ _ initializer => plainOptExpr initializer
  | .exprStmt expression => plainAssignments expression
  | .ifStmt condition thenStmt elseStmt => plainAssignments condition && plainBranch thenStmt && plainBranch elseStmt
  | .whileStmt condition statement => plainAssignments condition && plainBranch statement
  | .returnStmt expression => plainOptExpr expression

def plainStmts : List Stmt → Bool
  | [] => true
  | s :: l => plainStmt s && plainStmts l

def plainBranch : Option Stmt → Bool
  | none => true
  | some s => plainStmt s

end

mutual

/-- The statement that is read back up to its normal form, if `s` is printed with the flag `b`. -/
def rereadStmt (b : Bool) : Stmt → Stmt
  | .block statements lonely => .block (if lonely then statements else rereadStmts b statements) lonely
  | .varDecl type name initializer => .varDecl type name (initializer.map (rereadExpr b))
  | .exprStmt expression => .exprStmt (rereadExpr b expression)
  | .ifStmt condition thenStmt elseStmt =>
    .ifStmt (rereadExpr b condition) (rereadBranch (after condition) thenStmt)
      (rereadBranch (branchAfter (after condition) thenStmt) elseStmt)
  | .whileStmt condition statement => .whileStmt (rereadExpr b condition) (rereadBranch (after condition) statement)
  | .returnStmt expression => .returnStmt (expression.map (rereadExpr b))

def rereadStmts (b : Bool) : List Stmt → List Stmt
  | [] => []
  | s :: l => rereadStmt b s :: rereadStmts (stmtAfter b s) l

def rereadBranch (b : Bool) : Option Stmt → Option Stmt
  | none => none
  | some s => some (rereadStmt b s)

end

/-- The statement that is read back is written like the one that was printed, with all its parentheses. -/
structure StmtWritten (b : Bool) (s : Stmt) : Prop where
  pieces : ∀ i, stmtPieces i b (rereadStmt b s) = stmtPieces i b s
  after : stmtAfter b (rereadStmt b s) = stmtAfter b s
  parenthesised : stmtParenthesised b (rereadStmt b s) = true
  wf : WfStmt (rereadStmt b s)
  lonely : isLonelyBlock (rereadStmt b s) = isLonelyBlock s
  decl : isDecl (rereadStmt b s) = isDecl s

section
variable {l : List Stmt} {o : Option Stmt}

theorem rereadStmts_written (h : ∀ s ∈ l, ∀ b, StmtWritten b s) (b : Bool) :
    (∀ i, stmtsPieces i b (rereadStmts b l) = stmtsPieces i b l) ∧ stmtsAfter b (rereadStmts b l) = stmtsAfter b l ∧
      stmtsParenthesised b (rereadStmts b l) = true ∧ (∀ s ∈ rereadStmts b l, WfStmt s) ∧
      isLonely (rereadStmts b l) = isLonely l := by
  induction l generalizing b with
  | nil =>
    rw [rereadStmts]
    exact ⟨fun _ => rfl, rfl, by rw [stmtsParenthesised], List.forall_mem_nil _, rfl⟩
  | cons s l ih =>
    have hs := h s List.mem_cons_self b
    obtain ⟨hpieces, hafter, hpar, hwf, hlonely⟩ := ih (fun s' hs' => h s' (List.mem_cons_of_mem _ hs')) (stmtAfter b s)
    rw [rereadStmts]
    refine ⟨fun i => ?_, ?_, ?_, List.forall_mem_cons.mpr ⟨hs.wf, hwf⟩, ?_⟩
    · rw [stmtsPieces, stmtsPieces, hs.pieces, hs.after, hpieces]
    · rw [stmtsAfter, stmtsAfter, hs.after, hafter]
    · rw [stmtsParenthesised, hs.parenthesised, hs.after, hpar]; rfl
    · unfold isLonely at hlonely ⊢
      rw [List.all_cons, List.all_cons, hs.lonely, hlonely]

theorem rereadBranch_written (h : ∀ s ∈ o, ∀ b, StmtWritten b s) (b : Bool) :
    (∀ i, bodyPieces i b (rereadBranch b o) = bodyPieces i b o) ∧
      (∀ i, elsePieces i b (rereadBranch b o) = elsePieces i b o) ∧
      branchAfter b (rereadBranch b o) = branchAfter b o ∧ branchParenthesised b (rereadBranch b o) = true ∧
      ∀ s ∈ rereadBranch b o, WfStmt s := by
  cases o with
  | none =>
    rw [rereadBranch]
    exact ⟨fun _ => rfl, fun _ => rfl, rfl, by rw [branchParenthesised], fun _ h => by cases h⟩
  | some s =>
    have hs := h s rfl b
    rw [rereadBranch]
    refine ⟨?_, ?_, ?_, ?_, ?_⟩
    · intro i
      have hpieces := hs.pieces i
      have hpieces' := hs.pieces (i + 1)
      cases s with
      | block statements lonely =>
        rw [rereadStmt] at hpieces ⊢
        rw [bodyPieces, bodyPieces, hpieces]
      | _ =>
        rw [rereadStmt] at hpieces' ⊢
        simp only [bodyPieces, hpieces']
    · intro i
      have hpieces := hs.pieces i
      have hpieces' := hs.pieces (i + 1)
      cases s with
      | block statements lonely =>
        rw [rereadStmt] at hpieces ⊢
        rw [elsePieces, elsePieces, hpieces]
      | _ =>
        rw [rereadStmt] at hpieces' ⊢
        simp only [elsePieces, hpieces']
    · rw [branchAfter, branchAfter, hs.after]
    · rw [branchParenthesised, hs.parenthesised]
    · rintro _ ⟨⟩
      exact hs.wf

theorem optExpr_written {o : Option Expr} (ho : ∀ e ∈ o, WfExpr e) (hp : plainOptExpr o = true) (b : Bool) :
    initPieces b (o.map (rereadExpr b)) = initPieces b o ∧ returnPieces b (o.map (rereadExpr b)) = returnPieces b o ∧
      optExprAfter b (o.map (rereadExpr b)) = optExprAfter b o ∧ optExprParenthesised b (o.map (rereadExpr b)) = true ∧
      ∀ e ∈ o.map (rereadExpr b), WfExpr e := by
  cases o with
  | none => exact ⟨rfl, rfl, rfl, rfl, fun _ h => by cases h⟩
  | some e =>
    have he := rereadExpr_writtenAs (ho e rfl) hp b
    refine ⟨?_, ?_, ?_, he.parenthesised, ?_⟩
    · rw [Option.map_some, initPieces, initPieces, he.pieces]
    · rw [Option.map_some, returnPieces, returnPieces, he.pieces]
    · rw [Option.map_some, optExprAfter, optExprAfter, he.after]
    · rintro _ ⟨⟩
      exact he.wf

theorem plainStmts_iff : plainStmts l = true ↔ ∀ s ∈ l, plainStmt s = true := by
  induction l with
  | nil => simp [plainStmts]
  | cons s l ih => rw [plainStmts, Bool.and_eq_true, ih, List.forall_mem_cons]

theorem plainBranch_iff : plainBranch o = true ↔ ∀ s ∈ o, plainStmt s = true := by
  cases o with
  | none => simp [plainBranch]
  | some s => simp [plainBranch]

theorem rereadBranch_decl (h : ∀ s ∈ o, ∀ b, StmtWritten b s) (hd : ∀ s ∈ o, isDecl s = false) (b : Bool) :
    ∀ s ∈ rereadBranch b o, isDecl s = false := by
  cases o with
  | none => rw [rereadBranch]; exact fun _ h => by cases h
  | some s =>
    rw [rereadBranch]
    rintro _ ⟨⟩
    exact (h s rfl b).decl.trans (hd s rfl)

end

theorem rereadStmt_written {s : Stmt} (h : WfStmt s) (hp : plainStmt s = true) (b : Bool) : StmtWritten b s := by
  induction h generalizing b with
  | @block statements lonely hs hl ih =>
    rw [plainStmt, plainStmts_iff] at hp
    obtain ⟨hpieces, hafter, hpar, hwf, hlonely⟩ := rereadStmts_written (fun s h => ih s h (hp s h)) b
    cases lonely with
    | true =>
      have heq : rereadStmt b (.block statements true) = .block statements true := by rw [rereadStmt, if_pos rfl]
      exact ⟨fun i => by rw [heq], by rw [heq], by rw [heq, stmtParenthesised]; rfl, by rw [heq]; exact .block hs hl,
        by rw [heq], by rw [heq]⟩
    | false =>
      have heq : rereadStmt b (.block statements false) = .block (rereadStmts b statements) false := by
        rw [rereadStmt, if_neg Bool.false_ne_true]
      refine ⟨fun i => ?_, ?_, ?_, ?_, by rw [heq]; rfl, by rw [heq]; rfl⟩
      · rw [heq, stmtPieces, stmtPieces, hpieces]
      · rw [heq, stmtAfter, stmtAfter, hafter]
      · rw [heq, stmtParenthesised, hpar]; rfl
      · rw [heq]
        exact .block hwf (hl.trans hlonely.symm)
  | @varDecl type name o ht hn ho =>
    rw [plainStmt] at hp
    obtain ⟨hpieces, -, hafter, hpar, hwf⟩ := optExpr_written ho hp b
    have heq : rereadStmt b (.varDecl type name o) = .varDecl type name (o.map (rereadExpr b)) := by rw [rereadStmt]
    refine ⟨fun i => ?_, ?_, ?_, ?_, by rw [heq]; rfl, by rw [heq]; rfl⟩
    · rw [heq, stmtPieces, stmtPieces, hpieces]
    · rw [heq, stmtAfter, stmtAfter, hafter]
    · rw [heq, stmtParenthesised, hpar]
    · rw [heq]
      exact .varDecl ht hn hwf
  | @exprStmt e he =>
    rw [plainStmt] at hp
    have hexpr := rereadExpr_writtenAs he hp b
    have heq : rereadStmt b (.exprStmt e) = .exprStmt (rereadExpr b e) := by rw [rereadStmt]
    refine ⟨fun i => ?_, ?_, ?_, ?_, by rw [heq]; rfl, by rw [heq]; rfl⟩
    · rw [heq, stmtPieces, stmtPieces, hexpr.pieces]
    · rw [heq, stmtAfter, stmtAfter, hexpr.after]
    · rw [heq, stmtParenthesised, hexpr.parenthesised]
    · rw [heq]
      exact .exprStmt hexpr.wf
  | @ifStmt c thenStmt elseStmt hc h₁ hd₁ h₂ hd₂ ih₁ ih₂ =>
    rw [plainStmt, Bool.and_eq_true, Bool.and_eq_true, plainBranch_iff, plainBranch_iff] at hp
    have hcond := rereadExpr_writtenAs hc hp.1.1 b
    have hthen : ∀ s ∈ thenStmt, ∀ b, StmtWritten b s := fun s h => ih₁ s h (hp.1.2 s h)
    have helse : ∀ s ∈ elseStmt, ∀ b, StmtWritten b s := fun s h => ih₂ s h (hp.2 s h)
    obtain ⟨hbody, -, hafter₁, hpar₁, hwf₁⟩ := rereadBranch_written hthen (after c)
    obtain ⟨-, helsePieces, hafter₂, hpar₂, hwf₂⟩ := rereadBranch_written helse (branchAfter (after c) thenStmt)
    have heq : rereadStmt b (.ifStmt c thenStmt elseStmt) = .ifStmt (rereadExpr b c) (rereadBranch (after c) thenStmt)
        (rereadBranch (branchAfter (after c) thenStmt) elseStmt) := by rw [rereadStmt]
    refine ⟨fun i => ?_, ?_, ?_, ?_, by rw [heq]; rfl, by rw [heq]; rfl⟩
    · rw [heq, stmtPieces, stmtPieces, hcond.pieces, hcond.after, hbody, hafter₁, helsePieces]
    · rw [heq, stmtAfter, stmtAfter, hcond.after, hafter₁, hafter₂]
    · rw [heq, stmtParenthesised, hcond.parenthesised, hcond.after, hpar₁, hafter₁, hpar₂]
      rfl
    · rw [heq]
      exact .ifStmt hcond.wf hwf₁ (rereadBranch_decl hthen hd₁ _) hwf₂ (rereadBranch_decl helse hd₂ _)
  | @whileStmt c body hc h hd ih =>
    rw [plainStmt, Bool.and_eq_true, plainBranch_iff] at hp
    have hcond := rereadExpr_writtenAs hc hp.1 b
    have hstmt : ∀ s ∈ body, ∀ b, StmtWritten b s := fun s h => ih s h (hp.2 s h)
    obtain ⟨hbody, -, hafter, hpar, hwf⟩ := rereadBranch_written hstmt (after c)
    have heq : rereadStmt b (.whileStmt c body) = .whileStmt (rereadExpr b c) (rereadBranch (after c) body) := by
      rw [rereadStmt]
    refine ⟨fun i => ?_, ?_, ?_, ?_, by rw [heq]; rfl, by rw [heq]; rfl⟩
    · rw [heq, stmtPieces, stmtPieces, hcond.pieces, hcond.after, hbody]
    · rw [heq, stmtAfter, stmtAfter, hcond.after, hafter]
    · rw [heq, stmtParenthesised, hcond.parenthesised, hcond.after, hpar]
      rfl
    · rw [heq]
      exact .whileStmt hcond.wf hwf (rereadBranch_decl hstmt hd _)
  | @returnStmt o ho =>
    rw [plainStmt] at hp
    obtain ⟨-, hpieces, hafter, hpar, hwf⟩ := optExpr_written ho hp b
    have heq : rereadStmt b (.returnStmt o) = .returnStmt (o.map (rereadExpr b)) := by rw [rereadStmt]
    refine ⟨fun i => ?_, ?_, ?_, ?_, by rw [heq]; rfl, by rw [heq]; rfl⟩
    · rw [heq, stmtPieces, stmtPieces, hpieces]
    · rw [heq, stmtAfter, stmtAfter, hafter]
    · rw [heq, stmtParenthesised, hpar]
    · rw [heq]
      exact .returnStmt hwf

/-! ## Classes and programs -/

section Lists

variable {α : Type} {f : Bool → α → α} {pieces : Bool → α → List Piece} {next ok : Bool → α → Bool}

/-- Things that are read back one after the other, each with the flag that the one before has left. -/
def rereadList (f : Bool → α → α) (next : Bool → α → Bool) : Bool → List α → List α
  | _, [] => []
  | b, x :: l => f b x :: rereadList f next (next b x) l

theorem map_rereadList {β : Type} {g : α → β} (hg : ∀ b x, g (f b x) = g x) (b : Bool) (l : List α) :
    (rereadList f next b l).map g = l.map g := by
  induction l generalizing b with
  | nil => rfl
  | cons x l ih => rw [rereadList, List.map_cons, List.map_cons, hg, ih]

theorem forall_rereadList {Q : α → Prop} {l : List α} (h : ∀ x ∈ l, ∀ b, Q (f b x)) (b : Bool) :
    ∀ x ∈ rereadList f next b l, Q x := by
  induction l generalizing b with
  | nil => exact List.forall_mem_nil _
  | cons x l ih =>
    exact List.forall_mem_cons.mpr ⟨h x List.mem_cons_self b, ih (fun y hy => h y (List.mem_cons_of_mem _ hy)) _⟩

theorem listPieces_reread {l : List α} (hp : ∀ x ∈ l, ∀ b, pieces b (f b x) = pieces b x)
    (hn : ∀ x ∈ l, ∀ b, next b (f b x) = next b x) (b : Bool) :
    listPieces pieces next b (rereadList f next b l) = listPieces pieces next b l := by
  induction l generalizing b with
  | nil => rfl
  | cons x l ih =>
    rw [rereadList, listPieces, listPieces, hp x List.mem_cons_self, hn x List.mem_cons_self,
      ih (fun y hy => hp y (List.mem_cons_of_mem _ hy)) fun y hy => hn y (List.mem_cons_of_mem _ hy)]

theorem foldl_reread {l : List α} (hn : ∀ x ∈ l, ∀ b, next b (f b x) = next b x) (b : Bool) :
    (rereadList f next b l).foldl next b = l.foldl next b := by
  induction l generalizing b with
  | nil => rfl
  | cons x l ih =>
    rw [rereadList, List.foldl_cons, List.foldl_cons, hn x List.mem_cons_self,
      ih fun y hy => hn y (List.mem_cons_of_mem _ hy)]

theorem listParenthesised_reread {l : List α} (hok : ∀ x ∈ l, ∀ b, ok b (f b x) = true)
    (hn : ∀ x ∈ l, ∀ b, next b (f b x) = next b x) (b : Bool) :
    listParenthesised ok next b (rereadList f next b l) = true := by
  induction l generalizing b with
  | nil => rfl
  | cons x l ih =>
    rw [rereadList, listParenthesised, hok x List.mem_cons_self, hn x List.mem_cons_self,
      ih (fun y hy => hok y (List.mem_cons_of_mem _ hy)) fun y hy => hn y (List.mem_cons_of_mem _ hy)]
    rfl

/-- A sorted list that is read back stays sorted. -/
theorem sortByName_reread {name : α → String} (hname : ∀ b x, name (f b x) = name x) (b : Bool) (l : List α) :
    sortByName name (rereadList f next b (sortByName name l)) = rereadList f next b (sortByName name l) := by
  refine List.Pairwise.insertionSort_eq ?_
  have hsorted : (rereadList f next b (sortByName name l)).map name = (sortByName name l).map name :=
    map_rereadList hname b _
  have hpairs := List.pairwise_map.mpr (pairwise_sortByName name l)
  rw [← hsorted] at hpairs
  exact List.pairwise_map.mp hpairs

end Lists

def rereadBlock (b : Bool) (block : Block) : Block :=
  ⟨if block.lonely then block.statements else rereadStmts b block.statements, block.lonely⟩

def rereadMethod (b : Bool) (m : RegularMethod) : RegularMethod := { m with block := rereadBlock b m.block }

def rereadMainMethod (b : Bool) (m : MainMethod) : MainMethod := { m with block := rereadBlock b m.block }

def rereadClass (b : Bool) (c : Ast.Class) : Ast.Class where
  name := c.name
  fields := c.fields
  methods := rereadList rereadMethod methodAfter b (sortByName RegularMethod.name c.methods)
  mainMethods := rereadList rereadMainMethod mainMethodAfter (methodsAfter b c) (sortByName MainMethod.name c.mainMethods)

/-- The program that is read back up to its normal form. -/
def rereadProgram (p : Program) : Program :=
  ⟨rereadList rereadClass classAfter false (sortByName Ast.Class.name p.classes)⟩

def plainBlock (block : Block) : Bool := plainStmts block.statements

/-- No assignment of the program has a left side that ends in an assignment. -/
def plainProgram (p : Program) : Bool :=
  p.classes.all fun c => (c.methods.all fun m => plainBlock m.block) && c.mainMethods.all fun m => plainBlock m.block

section
variable {b : Bool}

theorem rereadBlock_written {block : Block} (hw : WfBlock block) (hp : plainBlock block = true) (b : Bool) :
    (∀ i, blockPieces i b (rereadBlock b block) = blockPieces i b block) ∧
      blockAfter b (rereadBlock b block) = blockAfter b block ∧ blockParenthesised b (rereadBlock b block) = true ∧
      WfBlock (rereadBlock b block) := by
  have hplain : plainStmt (.block block.statements block.lonely) = true := by rw [plainStmt]; exact hp
  have hs := rereadStmt_written hw hplain b
  have heq : Stmt.block (rereadBlock b block).statements (rereadBlock b block).lonely =
      rereadStmt b (.block block.statements block.lonely) := by
    rw [rereadStmt]
    rfl
  unfold blockPieces blockAfter blockParenthesised WfBlock
  rw [heq]
  exact ⟨hs.pieces, hs.after, hs.parenthesised, hs.wf⟩

theorem rereadMethod_written {m : RegularMethod} (hw : WfRegularMethod m) (hp : plainBlock m.block = true) (b : Bool) :
    methodPieces b (rereadMethod b m) = methodPieces b m ∧ methodAfter b (rereadMethod b m) = methodAfter b m ∧
      methodParenthesised b (rereadMethod b m) = true ∧ WfRegularMethod (rereadMethod b m) := by
  obtain ⟨hpieces, hafter, hpar, hwf⟩ := rereadBlock_written hw.block hp b
  refine ⟨?_, hafter, hpar, hw.returnType, hw.name, hw.parameters, hw.indices, hwf⟩
  unfold methodPieces rereadMethod
  rw [hpieces]

theorem rereadMainMethod_written {m : MainMethod} (hw : WfMainMethod m) (hp : plainBlock m.block = true) (b : Bool) :
    mainMethodPieces b (rereadMainMethod b m) = mainMethodPieces b m ∧
      mainMethodAfter b (rereadMainMethod b m) = mainMethodAfter b m ∧
      mainMethodParenthesised b (rereadMainMethod b m) = true ∧ WfMainMethod (rereadMainMethod b m) := by
  obtain ⟨hpieces, hafter, hpar, hwf⟩ := rereadBlock_written hw.block hp b
  refine ⟨?_, hafter, hpar, hw.name, hw.argName, hwf⟩
  unfold mainMethodPieces rereadMainMethod
  rw [hpieces]

theorem rereadClass_written {c : Ast.Class} (hw : WfClass c) (hm : ∀ m ∈ c.methods, plainBlock m.block = true)
    (hmm : ∀ m ∈ c.mainMethods, plainBlock m.block = true) (b : Bool) :
    classPieces b (rereadClass b c) = classPieces b c ∧ classAfter b (rereadClass b c) = classAfter b c ∧
      classParenthesised b (rereadClass b c) = true ∧ WfClass (rereadClass b c) := by
  have hmethods : ∀ m ∈ sortByName RegularMethod.name c.methods, ∀ b, _ := fun m h b =>
    rereadMethod_written (hw.methods m ((sortByName_perm _ _).mem_iff.mp h)) (hm m ((sortByName_perm _ _).mem_iff.mp h)) b
  have hmains : ∀ m ∈ sortByName MainMethod.name c.mainMethods, ∀ b, _ := fun m h b =>
    rereadMainMethod_written (hw.mainMethods m ((sortByName_perm _ _).mem_iff.mp h))
      (hmm m ((sortByName_perm _ _).mem_iff.mp h)) b
  have hsorted : sortByName RegularMethod.name (rereadClass b c).methods = (rereadClass b c).methods :=
    @sortByName_reread _ rereadMethod _ _ (fun _ _ => rfl) b c.methods
  have hsorted' : sortByName MainMethod.name (rereadClass b c).mainMethods = (rereadClass b c).mainMethods :=
    @sortByName_reread _ rereadMainMethod _ _ (fun _ _ => rfl) (methodsAfter b c) c.mainMethods
  have hafter : methodsAfter b (rereadClass b c) = methodsAfter b c := by
    unfold methodsAfter
    rw [hsorted]
    exact foldl_reread (fun m h b => (hmethods m h b).2.1) b
  refine ⟨?_, ?_, ?_, ?_⟩
  · unfold classPieces
    rw [hafter, hsorted, hsorted']
    unfold rereadClass
    rw [listPieces_reread (fun m h b => (hmethods m h b).1) (fun m h b => (hmethods m h b).2.1),
      listPieces_reread (fun m h b => (hmains m h b).1) (fun m h b => (hmains m h b).2.1)]
  · unfold classAfter
    rw [hafter, hsorted']
    exact foldl_reread (fun m h b => (hmains m h b).2.1) _
  · unfold classParenthesised
    rw [hafter, hsorted, hsorted']
    unfold rereadClass
    rw [listParenthesised_reread (fun m h b => (hmethods m h b).2.2.1) (fun m h b => (hmethods m h b).2.1),
      listParenthesised_reread (fun m h b => (hmains m h b).2.2.1) (fun m h b => (hmains m h b).2.1)]
    rfl
  · exact ⟨hw.name, hw.fields, forall_rereadList (fun m h b => (hmethods m h b).2.2.2) b,
      forall_rereadList (fun m h b => (hmains m h b).2.2.2) _⟩

end

/-- The program that is read back is printed like the one that was printed, with all its parentheses. -/
theorem rereadProgram_written {p : Program} (hw : WfProgram p) (hp : plainProgram p = true) :
    programPieces (rereadProgram p) = programPieces p ∧ programParenthesised (rereadProgram p) = true ∧
      WfProgram (rereadProgram p) := by
  unfold plainProgram at hp
  simp only [List.all_eq_true, Bool.and_eq_true] at hp
  have hclasses : ∀ c ∈ sortByName Ast.Class.name p.classes, ∀ b, _ := fun c h b =>
    rereadClass_written (hw c ((sortByName_perm _ _).mem_iff.mp h)) (hp c ((sortByName_perm _ _).mem_iff.mp h)).1
      (hp c ((sortByName_perm _ _).mem_iff.mp h)).2 b
  have hsorted : sortByName Ast.Class.name (rereadProgram p).classes = (rereadProgram p).classes :=
    @sortByName_reread _ rereadClass _ _ (fun _ _ => rfl) false p.classes
  refine ⟨?_, ?_, forall_rereadList (fun c h b => (hclasses c h b).2.2.2) false⟩
  · unfold programPieces
    rw [hsorted]
    exact listPieces_reread (fun c h b => (hclasses c h b).1) (fun c h b => (hclasses c h b).2.1) false
  · unfold programParenthesised
    rw [hsorted]
    exact listParenthesised_reread (fun c h b => (hclasses c h b).2.2.1) (fun c h b => (hclasses c h b).2.1) false

/-- What is printed for a program is read as the normal form of the program with its postfix operators attached. -/
theorem parseFile_print_reread {p : Program} (hw : WfProgram p) (hp : plainProgram p = true) :
    parseFile (bytes (written (programPieces p))) = some (normalProgram (rereadProgram p)) := by
  obtain ⟨hpieces, hpar, hwf⟩ := rereadProgram_written hw hp
  rw [← hpieces]
  exact parseFile_print_normal hwf hpar

theorem DistinctNames.reread {p : Program} (h : DistinctNames p) : DistinctNames (rereadProgram p) := by
  refine ⟨?_, forall_rereadList (fun c hc b => ?_) false⟩
  · have hnames : (rereadProgram p).classes.map Ast.Class.name = (sortByName Ast.Class.name p.classes).map Ast.Class.name :=
      @map_rereadList _ rereadClass _ _ _ (fun _ _ => rfl) _ _
    rw [hnames]
    exact nodup_sortByName.mpr h.1
  · obtain ⟨hfields, hmethods, hmains⟩ := h.2 c ((sortByName_perm _ _).mem_iff.mp hc)
    have hmethodNames : (rereadClass b c).methods.map RegularMethod.name =
        (sortByName RegularMethod.name c.methods).map RegularMethod.name :=
      @map_rereadList _ rereadMethod _ _ _ (fun _ _ => rfl) _ _
    have hmainNames : (rereadClass b c).mainMethods.map MainMethod.name =
        (sortByName MainMethod.name c.mainMethods).map MainMethod.name :=
      @map_rereadList _ rereadMainMethod _ _ _ (fun _ _ => rfl) _ _
    rw [hmethodNames, hmainNames]
    exact ⟨hfields, nodup_sortByName.mpr hmethods, nodup_sortByName.mpr hmains⟩

/-! ## Where nothing is attached -/

/-- A statement has its parentheses exactly if its normal form has. -/
theorem stmtParenthesised_normal (s : Stmt) : ∀ b, stmtParenthesised b (normalStmt s) = stmtParenthesised b s := by
  have hbody {o : Option Stmt} (h : ∀ s ∈ o, ∀ b, stmtParenthesised b (normalStmt s) = stmtParenthesised b s) (b : Bool) :
      stmtParenthesised b (normalBody o) = branchParenthesised b o := by
    cases o with
    | none => rw [normalBody, stmtParenthesised, branchParenthesised]; rfl
    | some s =>
      rw [branchParenthesised, ← h s rfl]
      cases s with
      | block statements lonely => rw [normalBody]
      | _ =>
        rw [normalBody, stmtParenthesised, stmtsParenthesised, stmtsParenthesised, Bool.and_true, Bool.false_or]
        exact fun _ _ h => by cases h
  have helse {o : Option Stmt} (h : ∀ s ∈ o, ∀ b, stmtParenthesised b (normalStmt s) = stmtParenthesised b s) (b : Bool) :
      branchParenthesised b (normalElse o) = branchParenthesised b o := by
    cases o with
    | none => rw [normalElse]
    | some s =>
      rw [branchParenthesised, ← h s rfl]
      cases s with
      | block statements lonely =>
        rw [normalElse]
        cases lonely with
        | true => rw [if_pos rfl, branchParenthesised, normalStmt, if_pos rfl, stmtParenthesised]; rfl
        | false => rw [if_neg Bool.false_ne_true, branchParenthesised]
      | _ =>
        rw [normalElse, branchParenthesised, stmtParenthesised, stmtsParenthesised, stmtsParenthesised, Bool.and_true,
          Bool.false_or]
        exact fun _ _ h => by cases h
  induction s using Sema.Stmt.induct with
  | block statements lonely ih =>
    intro b
    have hstmts (b : Bool) : stmtsParenthesised b (normalStmts statements) = stmtsParenthesised b statements := by
      induction statements generalizing b with
      | nil => rw [normalStmts]
      | cons s l ihl =>
        rw [normalStmts, stmtsParenthesised, stmtsParenthesised, ih s List.mem_cons_self, (stmt_printsNormal s).after,
          ihl fun s' hs' => ih s' (List.mem_cons_of_mem _ hs')]
    rw [normalStmt, stmtParenthesised]
    cases lonely with
    | true => rw [if_pos rfl, stmtParenthesised]; rfl
    | false => rw [if_neg Bool.false_ne_true, stmtParenthesised, hstmts]
  | ifStmt condition thenStmt elseStmt ih₁ ih₂ =>
    intro b
    rw [normalStmt, stmtParenthesised, stmtParenthesised, branchParenthesised, hbody ih₁,
      branchAfter_normal fun s _ => stmt_printsNormal s, helse ih₂]
  | whileStmt condition statement ih =>
    intro b
    rw [normalStmt, stmtParenthesised, stmtParenthesised, branchParenthesised, hbody ih]
  | varDecl | exprStmt | returnStmt => intro b; rw [normalStmt]

theorem listParenthesised_normal {α : Type} {f : α → α} {ok next : Bool → α → Bool} (hok : ∀ b x, ok b (f x) = ok b x)
    (hn : ∀ b x, next b (f x) = next b x) (b : Bool) (l : List α) :
    listParenthesised ok next b (l.map f) = listParenthesised ok next b l := by
  induction l generalizing b with
  | nil => rfl
  | cons x l ih => rw [List.map_cons, listParenthesised, listParenthesised, hok, hn, ih]

theorem blockParenthesised_normal (b : Bool) (block : Block) :
    blockParenthesised b (normalBlock block) = blockParenthesised b block := by
  unfold blockParenthesised
  rw [normalBlock_stmt, stmtParenthesised_normal]

theorem classParenthesised_normal (b : Bool) (c : Ast.Class) :
    classParenthesised b (normalClass c) = classParenthesised b c := by
  have hmethods := @listParenthesised_normal _ normalMethod methodParenthesised methodAfter
    (fun b m => blockParenthesised_normal b m.block) methodAfter_normal b (sortByName RegularMethod.name c.methods)
  have hmains := @listParenthesised_normal _ normalMainMethod mainMethodParenthesised mainMethodAfter
    (fun b m => blockParenthesised_normal b m.block) mainMethodAfter_normal (methodsAfter b c)
    (sortByName MainMethod.name c.mainMethods)
  unfold classParenthesised
  rw [sorted_normalMethods, sorted_normalMains, methodsAfter_normal, ← hmethods, ← hmains]
  rfl

theorem programParenthesised_normal (p : Program) : programParenthesised (normalProgram p) = programParenthesised p := by
  unfold programParenthesised
  rw [show sortByName Ast.Class.name (normalProgram p).classes = (normalProgram p).classes from
    @sortByName_normal _ _ normalClass (fun _ => rfl) p.classes]
  exact listParenthesised_normal classParenthesised_normal classAfter_normal false _

/-! ## Files -/

section
variable {file text : List UInt8} {p : Program}

/-- A receiver that is printed without parentheses. -/
def bareReceiver : List UInt8 :=
  bytes "class A \x7b public A f; public A g(A a) \x7b return (a = this).f; \x7d \x7d".toList

theorem sortProgram_wf (std : UnstableSort) (h : WfProgram p) : WfProgram (sortProgram std p) := by
  intro c hc
  obtain ⟨d, hd, rfl⟩ := List.mem_map.mp hc
  have hw := h d ((std.perm _ _).mem_iff.mp hd)
  exact ⟨hw.name, fun f hf => hw.fields f ((std.perm _ _).mem_iff.mp hf),
    fun m hm => hw.methods m ((std.perm _ _).mem_iff.mp hm), fun m hm => hw.mainMethods m ((std.perm _ _).mem_iff.mp hm)⟩

/-- The text that is printed for a file is accepted by the lexer and the parser, and printed again. -/
theorem printed_accepted (std : UnstableSort) (h : parseAndPrintAst std file = some text) :
    ∃ q text', parseFile text = some q ∧ WfProgram q ∧ parseAndPrintAst std text = some text' := by
  obtain ⟨p, hp, rfl⟩ := Option.map_eq_some_iff.mp h
  rw [print_eq]
  obtain ⟨q, hq, hwf⟩ := print_accepted (sortProgram_wf std (parseFile_wf hp))
  exact ⟨q, bytes (print std q), hq, hwf, Option.map_eq_some_iff.mpr ⟨q, hq, rfl⟩⟩

theorem printed_accepted_bareReceiver : ∃ text, parseAndPrintAst default bareReceiver = some text ∧
    ∃ q text', parseFile text = some q ∧ WfProgram q ∧ parseAndPrintAst default text = some text' := by
  have hrun : (parseFile bareReceiver).isSome = true := by decide +kernel
  obtain ⟨p, hp⟩ := Option.isSome_iff_exists.mp hrun
  have hprint : parseAndPrintAst default bareReceiver = some (bytes (print default p)) :=
    Option.map_eq_some_iff.mpr ⟨p, hp, rfl⟩
  exact ⟨_, hprint, printed_accepted default hprint⟩

/-- The text that is printed for a file without two things of one name is read as the normal form of the program exactly
if every receiver that is an operator expression and every assignment on the left of one gets its parentheses. -/
theorem printed_read_iff (std : UnstableSort) (h : parseFile file = some p) (hd : DistinctNames p)
    (hp : plainProgram p = true) :
    parseFile (bytes (print std p)) = some (normalProgram p) ↔ programParenthesised p = true := by
  have hwf := parseFile_wf h
  rw [print_distinct std hd]
  refine ⟨fun hread => ?_, parseFile_print_normal hwf⟩
  rw [parseFile_print_reread hwf hp] at hread
  rw [← programParenthesised_normal, ← Option.some.inj hread, programParenthesised_normal]
  exact (rereadProgram_written hwf hp).2.1

theorem printed_read_iff_bareReceiver : ∃ p, parseFile bareReceiver = some p ∧
    parseFile (bytes (print default p)) ≠ some (normalProgram p) := by
  have hrun : ((parseFile bareReceiver).map fun p =>
      (decide (DistinctNames p), plainProgram p, programParenthesised p)) = some (true, true, false) := by
    decide +kernel
  obtain ⟨p, hp, hrun⟩ := Option.map_eq_some_iff.mp hrun
  obtain ⟨hdistinct, hrun⟩ := Prod.mk.inj hrun
  obtain ⟨hplain, hpar⟩ := Prod.mk.inj hrun
  refine ⟨p, hp, fun hread => ?_⟩
  rw [(printed_read_iff default hp (of_decide_eq_true hdistinct) hplain).mp hread] at hpar
  exact Bool.noConfusion hpar

/-- The text that is printed for a file without two things of one name is printed for itself again, by any sort. -/
theorem printed_again (std std' : UnstableSort) (h : parseFile file = some p) (hd : DistinctNames p)
    (hp : plainProgram p = true) :
    parseAndPrintAst std' (bytes (print std p)) = some (bytes (print std p)) := by
  have hwf := parseFile_wf h
  rw [print_distinct std hd]
  unfold parseAndPrintAst
  rw [parseFile_print_reread hwf hp, Option.map_some, print_distinct std' hd.reread.normal, programPieces_normal,
    (rereadProgram_written hwf hp).1]

theorem printed_again_bareReceiver : ∃ p, parseFile bareReceiver = some p ∧
    parseAndPrintAst default (bytes (print default p)) = some (bytes (print default p)) := by
  have hrun : ((parseFile bareReceiver).map fun p => (decide (DistinctNames p), plainProgram p)) = some (true, true) := by
    decide +kernel
  obtain ⟨p, hp, hrun⟩ := Option.map_eq_some_iff.mp hrun
  obtain ⟨hdistinct, hplain⟩ := Prod.mk.inj hrun
  exact ⟨p, hp, printed_again default default hp (of_decide_eq_true hdistinct) hplain⟩

end

end Mjc.Printer

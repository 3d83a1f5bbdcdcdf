import Mjc.Lexer.Write
import Mjc.Printer.Basic

/-!
# What the printer writes

The text of a tree as a list of tokens and gaps, a function of the tree and of the flag `requireParenthesis` before it.

* `after`, `stmtAfter`, … : the flag after a visit; after an expression it does not depend on the flag before;
* `exprPieces`, `stmtPieces`, `programPieces` : the pieces that are written;
* `visitExpr_eq`, `visitStmt_eq`, `print_eq` : the visits write them; `print_distinct` : the sort does not matter where
  names are distinct.
-/

namespace Mjc.Printer
open Mjc.Ast Mjc.Lexer
open Mjc.Sema (sortByName UnstableSort sortByName_eq_self sortByName_sortByName)

set_option autoImplicit false

abbrev TT := Token.Type

/-! ## Pieces -/

/-- A keyword, an operator or a literal. -/
def sym (type : TT) (str : String) : Piece := .tok ⟨type, str⟩

/-- A name. -/
def ident (x : String) : Piece := .tok ⟨.Identifier, x⟩

def space : Piece := .gap [' ']

/-- The start of a line. -/
def line (i : Nat) : Piece := .gap ('\n' :: List.replicate i '\t')

/-- The basic types are one word. -/
def basicPiece : BasicType → Piece
  | .primitive .boolean => sym .Boolean "boolean"
  | .primitive .int => sym .Int "int"
  | .primitive .void => sym .Void "void"
  | .classType name => ident name

def brackets : Nat → List Piece
  | 0 => []
  | n + 1 => sym .LBracket "[" :: sym .RBracket "]" :: brackets n

def typePieces : Ty → List Piece
  | .basic type => [basicPiece type]
  | .array elementType dimension => basicPiece elementType :: brackets dimension

/-- The type of the token of an operator. -/
def opType : BinaryOp → TT
  | .assign => .Eq
  | .or => .VBarVBar
  | .and => .AmpAmp
  | .equals => .EqEq
  | .notEquals => .BangEq
  | .less => .Lt
  | .lessEquals => .LtEq
  | .greater => .Gt
  | .greaterEquals => .GtEq
  | .plus => .Plus
  | .minus => .Minus
  | .mul => .Star
  | .div => .Slash
  | .mod => .Percent

def opPieces (op : BinaryOp) : List Piece := [space, sym (opType op) (binaryOperationToString op), space]

def unaryPiece : UnaryOp → Piece
  | .neg => sym .Minus "-"
  | .not => sym .Bang "!"

/-- The pieces of an integer literal: one token, or two if it is negative. -/
def intPieces (value : Int) : List Piece :=
  if value < 0 then [sym .Minus "-", sym .IntLiteral (toString value.natAbs)]
  else [sym .IntLiteral (toString value.natAbs)]

/-- What `maybePlaceParenthesis` writes. -/
def parens (require : Bool) (ps : List Piece) : List Piece :=
  if require then sym .LParen "(" :: ps ++ [sym .RParen ")"] else ps

/-! ## Expressions -/

mutual

/-- The flag after the visit of an expression. -/
def after : Expr → Bool
  | .intLiteral value => value < 0
  | .boolLiteral _ | .nullLiteral | .thisLiteral | .varRef _ | .newObject _ => false
  | .methodInvocation left _ arguments => afterArgs (after left) arguments
  | .fieldAccess left _ => after left
  | .arrayAccess _ index => after index
  | .newArray _ _ size => after size
  | .binary _ _ right => after right
  | .unary _ expression => after expression

/-- The flag after the visit of the arguments. -/
def afterArgs (b : Bool) : List Expr → Bool
  | [] => b
  | e :: l => afterArgs (after e) l

end

mutual

/-- The pieces of an expression. -/
def exprPieces (b : Bool) : Expr → List Piece
  | .intLiteral value => parens b (intPieces value)
  | .boolLiteral value => [if value then sym .True "true" else sym .False "false"]
  | .nullLiteral => [sym .Null "null"]
  | .thisLiteral => [sym .This "this"]
  | .varRef name => [ident name]
  | .methodInvocation left name arguments =>
    exprPieces b left ++ [sym .Dot ".", ident name, sym .LParen "("] ++ argPieces (after left) arguments ++
      [sym .RParen ")"]
  | .fieldAccess left name => exprPieces b left ++ [sym .Dot ".", ident name]
  | .arrayAccess array index =>
    exprPieces b array ++ [sym .LBracket "["] ++ exprPieces (after array) index ++ [sym .RBracket "]"]
  | .newObject name => [sym .New "new", space, ident name, sym .LParen "(", sym .RParen ")"]
  | .newArray elementType dimension size =>
    [sym .New "new", space, basicPiece elementType, sym .LBracket "["] ++ exprPieces false size ++
      [sym .RBracket "]"] ++ brackets (dimension - 1)
  | .binary op left right =>
    parens b (exprPieces (op ≠ .assign) left ++ opPieces op ++ exprPieces (op ≠ .assign || after left) right)
  | .unary op expression => parens b (unaryPiece op :: exprPieces true expression)

/-- The pieces of the arguments of a call. -/
def argPieces (b : Bool) : List Expr → List Piece
  | [] => []
  | e :: l => exprPieces b e ++ moreArgPieces (after e) l

/-- The pieces of the arguments after the first one. -/
def moreArgPieces (b : Bool) : List Expr → List Piece
  | [] => []
  | e :: l => sym .Comma "," :: space :: exprPieces b e ++ moreArgPieces (after e) l

end

/-! ## Statements -/

def optExprAfter (b : Bool) : Option Expr → Bool
  | none => b
  | some e => after e

mutual

/-- The flag after the visit of a statement. -/
def stmtAfter (b : Bool) : Stmt → Bool
  | .block statements lonely => if lonely then b else stmtsAfter b statements
  | .varDecl _ _ initializer => optExprAfter b initializer
  | .exprStmt expression => after expression
  | .ifStmt condition thenStmt elseStmt => branchAfter (branchAfter (after condition) thenStmt) elseStmt
  | .whileStmt condition statement => branchAfter (after condition) statement
  | .returnStmt expression => optExprAfter b expression

def stmtsAfter (b : Bool) : List Stmt → Bool
  | [] => b
  | s :: l => stmtsAfter (stmtAfter b s) l

def branchAfter (b : Bool) : Option Stmt → Bool
  | none => b
  | some s => stmtAfter b s

end

def initPieces (b : Bool) : Option Expr → List Piece
  | none => []
  | some e => opPieces .assign ++ exprPieces b e

def returnPieces (b : Bool) : Option Expr → List Piece
  | none => []
  | some e => space :: exprPieces b e

/-- A statement between braces. -/
def braces (i : Nat) (ps : List Piece) : List Piece :=
  sym .LBrace "\x7b" :: ps ++ [line i, sym .RBrace "\x7d"]

def emptyBraces : List Piece := [sym .LBrace "\x7b", space, sym .RBrace "\x7d"]

mutual

/-- The pieces of a statement at an indentation. -/
def stmtPieces (i : Nat) (b : Bool) : Stmt → List Piece
  | .block statements lonely => if lonely then emptyBraces else braces i (stmtsPieces (i + 1) b statements)
  | .varDecl type name initializer =>
    typePieces type ++ [space, ident name] ++ initPieces b initializer ++ [sym .Semicolon ";"]
  | .exprStmt expression => exprPieces b expression ++ [sym .Semicolon ";"]
  | .ifStmt condition thenStmt elseStmt =>
    [sym .If "if", space, sym .LParen "("] ++ exprPieces b condition ++ [sym .RParen ")", space] ++
      bodyPieces i (after condition) thenStmt ++ elsePieces i (branchAfter (after condition) thenStmt) elseStmt
  | .whileStmt condition statement =>
    [sym .While "while", space, sym .LParen "("] ++ exprPieces b condition ++ [sym .RParen ")", space] ++
      bodyPieces i (after condition) statement
  | .returnStmt expression => sym .Return "return" :: returnPieces b expression ++ [sym .Semicolon ";"]

/-- The pieces of the statements of a block. -/
def stmtsPieces (i : Nat) (b : Bool) : List Stmt → List Piece
  | [] => []
  | s :: l => line i :: stmtPieces i b s ++ stmtsPieces i (stmtAfter b s) l

/-- What `printStatementAsBlock` writes. -/
def bodyPieces (i : Nat) (b : Bool) : Option Stmt → List Piece
  | none => emptyBraces
  | some (.block statements lonely) => stmtPieces i b (.block statements lonely)
  | some s => braces i (line (i + 1) :: stmtPieces (i + 1) b s)

/-- What `printElseStatementAsBlock` writes. -/
def elsePieces (i : Nat) (b : Bool) : Option Stmt → List Piece
  | none => []
  | some (.block statements lonely) =>
    if lonely then [] else line i :: sym .Else "else" :: space :: stmtPieces i b (.block statements lonely)
  | some s => line i :: sym .Else "else" :: space :: braces i (line (i + 1) :: stmtPieces (i + 1) b s)

end

/-! ## Classes and programs -/

def blockAfter (b : Bool) (block : Block) : Bool := stmtAfter b (.block block.statements block.lonely)

def blockPieces (i : Nat) (b : Bool) (block : Block) : List Piece :=
  stmtPieces i b (.block block.statements block.lonely)

def fieldPieces (f : Ast.Field) : List Piece :=
  [line 1, sym .Public "public", space] ++ typePieces f.type ++ [space, ident f.name, sym .Semicolon ";"]

def paramPieces (p : Parameter) : List Piece := typePieces p.type ++ [space, ident p.name]

def paramsPieces : List Parameter → List Piece
  | [] => []
  | p :: l => paramPieces p ++ l.flatMap fun p => sym .Comma "," :: space :: paramPieces p

def methodPieces (b : Bool) (m : RegularMethod) : List Piece :=
  [line 1, sym .Public "public", space] ++ typePieces m.returnType ++ [space, ident m.name, sym .LParen "("] ++
    paramsPieces m.parameters ++ [sym .RParen ")", space] ++ blockPieces 1 b m.block

def mainMethodPieces (b : Bool) (m : MainMethod) : List Piece :=
  [line 1, sym .Public "public", space, sym .Static "static", space, sym .Void "void", space, ident m.name,
    sym .LParen "(", ident "String", sym .LBracket "[", sym .RBracket "]", space, ident m.argName, sym .RParen ")",
    space] ++ blockPieces 1 b m.block

/-- Things that are written one after the other, each with the flag that the one before has left. -/
def listPieces {α : Type} (pieces : Bool → α → List Piece) (next : Bool → α → Bool) : Bool → List α → List Piece
  | _, [] => []
  | b, x :: l => pieces b x ++ listPieces pieces next (next b x) l

def methodAfter (b : Bool) (m : RegularMethod) : Bool := blockAfter b m.block

def mainMethodAfter (b : Bool) (m : MainMethod) : Bool := blockAfter b m.block

def methodsAfter (b : Bool) (c : Ast.Class) : Bool := (sortByName RegularMethod.name c.methods).foldl methodAfter b

def classAfter (b : Bool) (c : Ast.Class) : Bool :=
  (sortByName MainMethod.name c.mainMethods).foldl mainMethodAfter (methodsAfter b c)

def classPieces (b : Bool) (c : Ast.Class) : List Piece :=
  [sym .Class "class", space, ident c.name, space, sym .LBrace "\x7b", line 1, .gap "/* fields: */".toList] ++
    (sortByName Ast.Field.name c.fields).flatMap fieldPieces ++
    [.gap ['\n'], line 1, .gap "/* methods: */".toList] ++
    listPieces methodPieces methodAfter b (sortByName RegularMethod.name c.methods) ++
    [.gap ['\n'], line 1, .gap "/* main methods: */".toList] ++
    listPieces mainMethodPieces mainMethodAfter (methodsAfter b c) (sortByName MainMethod.name c.mainMethods) ++
    [line 0, sym .RBrace "\x7d", line 0]

def programPieces (p : Program) : List Piece := listPieces classPieces classAfter false (sortByName Ast.Class.name p.classes)

/-! ## The visits write the pieces -/

/-- The state after some pieces. -/
def State.emit (s : State) (ps : List Piece) (b : Bool) : State := ⟨s.stream ++ written ps, s.indentLevel, b⟩

section Writes

-- what is written to a state, one text after the other
attribute [local simp] State.emit State.put State.setRequire State.newline State.indent State.unindent
attribute [local simp] line sym ident space Piece.chars

variable {s : State}

theorem visitBasicType_eq (type : BasicType) : visitBasicType type s = s.emit [basicPiece type] s.requireParenthesis := by
  rcases type with (_ | _ | _) | name <;> simp [visitBasicType, visitPrimitiveType, basicPiece]

theorem putBrackets_eq (n : Nat) (s : State) : putBrackets n s = s.emit (brackets n) s.requireParenthesis := by
  induction n generalizing s with
  | zero => simp [putBrackets, brackets]
  | succ n ih => rw [putBrackets, ih]; simp [brackets]

theorem visitType_eq (type : Ty) (s : State) : visitType type s = s.emit (typePieces type) s.requireParenthesis := by
  cases type with
  | basic type => rw [visitType, visitBasicType_eq]; rfl
  | array elementType dimension =>
    rw [visitType, visitBasicType_eq, putBrackets_eq]
    simp [typePieces]

theorem written_intPieces (value : Int) : written (intPieces value) = (toString value).toList := by
  unfold intPieces
  cases value with
  | ofNat n =>
    have hn : ¬ Int.ofNat n < 0 := Int.not_lt.mpr (Int.natCast_nonneg n)
    rw [if_neg hn, written_cons, written_nil, List.append_nil]
    rfl
  | negSucc n =>
    rw [if_pos (Int.negSucc_lt_zero n), written_cons, written_cons, written_nil, List.append_nil]
    exact (String.toList_append).symm

theorem maybePlaceParenthesis_eq {f : State → State} {ps : List Piece} {b : Bool}
    (h : ∀ t : State, t.requireParenthesis = false → f t = t.emit ps b) :
    maybePlaceParenthesis f s = s.emit (parens s.requireParenthesis ps) b := by
  unfold maybePlaceParenthesis parens
  by_cases hr : s.requireParenthesis = true
  · rw [if_pos hr, if_pos hr, h _ rfl]
    simp
  · rw [if_neg hr, if_neg hr, h _ (Bool.eq_false_iff.mpr hr)]

theorem visitMoreArguments_eq {l : List Expr}
    (h : ∀ e ∈ l, ∀ s : State, visitExpr e s = s.emit (exprPieces s.requireParenthesis e) (after e)) (s : State) :
    visitMoreArguments l s = s.emit (moreArgPieces s.requireParenthesis l) (afterArgs s.requireParenthesis l) := by
  induction l generalizing s with
  | nil => simp [visitMoreArguments, moreArgPieces, afterArgs]
  | cons e l ih =>
    rw [visitMoreArguments, h e List.mem_cons_self, ih fun e he => h e (List.mem_cons_of_mem _ he), moreArgPieces,
      afterArgs]
    simp

theorem visitArguments_eq {l : List Expr}
    (h : ∀ e ∈ l, ∀ s : State, visitExpr e s = s.emit (exprPieces s.requireParenthesis e) (after e)) (s : State) :
    visitArguments l s = s.emit (argPieces s.requireParenthesis l) (afterArgs s.requireParenthesis l) := by
  cases l with
  | nil => simp [visitArguments, argPieces, afterArgs]
  | cons e l =>
    rw [visitArguments, h e List.mem_cons_self, visitMoreArguments_eq fun e he => h e (List.mem_cons_of_mem _ he),
      argPieces, afterArgs]
    simp

theorem visitExpr_eq (e : Expr) (s : State) : visitExpr e s = s.emit (exprPieces s.requireParenthesis e) (after e) := by
  induction e using Sema.Expr.induct generalizing s with
  | intLiteral value =>
    rw [visitExpr, exprPieces, after]
    refine maybePlaceParenthesis_eq fun t _ => ?_
    simp [visitIntLiteralHelper, written_intPieces]
  | boolLiteral value =>
    rw [visitExpr, exprPieces, after]
    cases value <;> simp
  | nullLiteral | thisLiteral => simp [visitExpr, exprPieces, after]
  | varRef name => simp [visitExpr, exprPieces, after]
  | methodInvocation left name arguments ihl iha =>
    rw [visitExpr, ihl, visitArguments_eq iha, exprPieces, after]
    simp
  | fieldAccess left name ih =>
    rw [visitExpr, ih, exprPieces, after]
    simp
  | arrayAccess array index iha ihi =>
    rw [visitExpr, iha, ihi, exprPieces, after]
    simp
  | newObject name =>
    rw [visitExpr, exprPieces, after]
    simp
  | newArray elementType dimension size ih =>
    rw [visitExpr, visitBasicType_eq, ih, putBrackets_eq, exprPieces, after]
    simp
  | binary op left right ihl ihr =>
    rw [visitExpr, exprPieces, after]
    refine maybePlaceParenthesis_eq fun t ht => ?_
    by_cases hop : op = .assign
    · subst hop
      simp [ihl, ihr, opPieces, ht]
    · simp [ihl, ihr, opPieces, hop]
  | unary op expression ih =>
    rw [visitExpr, exprPieces, after]
    refine maybePlaceParenthesis_eq fun t ht => ?_
    rw [ih]
    cases op <;> simp [unaryPiece, unaryOperationToString]

theorem visitVariableDeclaration_eq (type : Ty) (name : String) (o : Option Expr) (s : State) :
    visitVariableDeclaration type name o s =
      s.emit (stmtPieces s.indentLevel s.requireParenthesis (.varDecl type name o)) (optExprAfter s.requireParenthesis o) := by
  unfold visitVariableDeclaration
  rw [visitType_eq, stmtPieces]
  cases o with
  | none => simp [initPieces, optExprAfter]
  | some e =>
    simp only [visitExpr_eq]
    simp [initPieces, optExprAfter, opPieces, binaryOperationToString]

theorem visitReturnStatement_eq (o : Option Expr) (s : State) :
    visitReturnStatement o s =
      s.emit (stmtPieces s.indentLevel s.requireParenthesis (.returnStmt o)) (optExprAfter s.requireParenthesis o) := by
  unfold visitReturnStatement
  rw [stmtPieces]
  cases o with
  | none => simp [returnPieces, optExprAfter]
  | some e =>
    simp only [visitExpr_eq]
    simp [returnPieces, optExprAfter]

/-- What `visitStmt` writes. -/
def Writes (stmt : Stmt) : Prop :=
  ∀ s : State, visitStmt stmt s =
    s.emit (stmtPieces s.indentLevel s.requireParenthesis stmt) (stmtAfter s.requireParenthesis stmt)

theorem visitStmts_eq {l : List Stmt} (h : ∀ stmt ∈ l, Writes stmt) (s : State) :
    visitStmts l s =
      s.emit (stmtsPieces s.indentLevel s.requireParenthesis l) (stmtsAfter s.requireParenthesis l) := by
  induction l generalizing s with
  | nil => simp [visitStmts, stmtsPieces, stmtsAfter]
  | cons stmt l ih =>
    rw [visitStmts, h stmt List.mem_cons_self, ih fun stmt hs => h stmt (List.mem_cons_of_mem _ hs), stmtsPieces,
      stmtsAfter]
    simp

theorem printStatementAsBlock_eq {o : Option Stmt} (h : ∀ stmt ∈ o, Writes stmt) (s : State) :
    printStatementAsBlock o s =
      s.emit (bodyPieces s.indentLevel s.requireParenthesis o) (branchAfter s.requireParenthesis o) := by
  cases o with
  | none => simp [printStatementAsBlock, bodyPieces, branchAfter, emptyBraces]
  | some stmt =>
    have hw := h stmt rfl
    cases stmt with
    | block statements lonely => rw [printStatementAsBlock, hw, bodyPieces, branchAfter]
    | _ =>
      simp only [printStatementAsBlock, hw _, bodyPieces, branchAfter]
      simp [braces]

theorem printElseStatementAsBlock_eq {o : Option Stmt} (h : ∀ stmt ∈ o, Writes stmt) (s : State) :
    printElseStatementAsBlock o s =
      s.emit (elsePieces s.indentLevel s.requireParenthesis o) (branchAfter s.requireParenthesis o) := by
  cases o with
  | none => simp [printElseStatementAsBlock, elsePieces, branchAfter]
  | some stmt =>
    have hw := h stmt rfl
    cases stmt with
    | block statements lonely =>
      rw [printElseStatementAsBlock, hw, elsePieces, branchAfter]
      cases lonely with
      | true => simp [stmtAfter]
      | false => simp
    | _ =>
      simp only [printElseStatementAsBlock, hw _, elsePieces, branchAfter]
      simp [braces]

theorem visitStmt_eq (stmt : Stmt) : Writes stmt := by
  induction stmt using Sema.Stmt.induct with
  | block statements lonely ih =>
    intro s
    rw [visitStmt, stmtPieces, stmtAfter]
    cases lonely with
    | true => simp [emptyBraces]
    | false =>
      simp only [Bool.false_eq_true, if_false, visitStmts_eq ih]
      simp [braces]
  | varDecl type name o =>
    intro s
    rw [visitStmt, stmtAfter]
    exact visitVariableDeclaration_eq type name o s
  | exprStmt e =>
    intro s
    rw [visitStmt, visitExpr_eq, stmtPieces, stmtAfter]
    simp
  | ifStmt condition thenStmt elseStmt ih₁ ih₂ =>
    intro s
    rw [visitStmt, visitExpr_eq, printStatementAsBlock_eq ih₁, printElseStatementAsBlock_eq ih₂, stmtPieces, stmtAfter]
    simp
  | whileStmt condition statement ih =>
    intro s
    rw [visitStmt, visitExpr_eq, printStatementAsBlock_eq ih, stmtPieces, stmtAfter]
    simp
  | returnStmt o =>
    intro s
    rw [visitStmt, stmtAfter]
    exact visitReturnStatement_eq o s

theorem listPieces_map {α : Type} (f : α → α) (pieces : Bool → α → List Piece) (next : Bool → α → Bool) (b : Bool)
    (l : List α) :
    listPieces pieces next b (l.map f) = listPieces (fun b x => pieces b (f x)) (fun b x => next b (f x)) b l := by
  induction l generalizing b with
  | nil => rfl
  | cons x l ih => rw [List.map_cons, listPieces, listPieces, ih]

theorem listPieces_congr {α : Type} {pieces pieces' : Bool → α → List Piece} {next next' : Bool → α → Bool}
    {l : List α} (h : ∀ x ∈ l, ∀ b, pieces b x = pieces' b x ∧ next b x = next' b x) (b : Bool) :
    listPieces pieces next b l = listPieces pieces' next' b l := by
  induction l generalizing b with
  | nil => rfl
  | cons x l ih =>
    obtain ⟨hpieces, hnext⟩ := h x List.mem_cons_self b
    rw [listPieces, listPieces, hpieces, hnext, ih fun y hy => h y (List.mem_cons_of_mem _ hy)]

/-- A loop over things that are written one after the other. -/
theorem foldl_eq {α : Type} {visit : α → State → State} {pieces : Bool → α → List Piece} {next : Bool → α → Bool}
    {i : Nat} (l : List α)
    (h : ∀ x ∈ l, ∀ s : State, s.indentLevel = i →
      visit x s = s.emit (pieces s.requireParenthesis x) (next s.requireParenthesis x))
    (s : State) (hs : s.indentLevel = i) :
    l.foldl (fun s x => visit x s) s =
      s.emit (listPieces pieces next s.requireParenthesis l) (l.foldl next s.requireParenthesis) := by
  induction l generalizing s with
  | nil => simp [listPieces]
  | cons x l ih =>
    rw [List.foldl_cons, h x List.mem_cons_self s hs, ih (fun y hy => h y (List.mem_cons_of_mem _ hy)), listPieces,
      List.foldl_cons]
    · simp
    · exact hs

theorem visitFields_eq (l : List Ast.Field) (s : State) (hs : s.indentLevel = 1) :
    l.foldl (fun s f => visitField f s) s = s.emit (l.flatMap fieldPieces) s.requireParenthesis := by
  induction l generalizing s with
  | nil => simp
  | cons f l ih =>
    have hfield : visitField f s = s.emit (fieldPieces f) s.requireParenthesis := by
      unfold visitField fieldPieces
      rw [visitType_eq]
      simp [hs]
    rw [List.foldl_cons, hfield, ih (s.emit _ _) hs, List.flatMap_cons]
    simp

theorem visitParameter_eq (p : Parameter) (s : State) :
    visitParameter p s = s.emit (paramPieces p) s.requireParenthesis := by
  unfold visitParameter
  rw [visitType_eq]
  simp [paramPieces]

theorem visitParameters_eq (l : List Parameter) (s : State) :
    visitParameters l s = s.emit (paramsPieces l) s.requireParenthesis := by
  have hmore : ∀ (l : List Parameter) (s : State), l.foldl (fun s p => visitParameter p (s.put ", ")) s =
      s.emit (l.flatMap fun p => sym .Comma "," :: space :: paramPieces p) s.requireParenthesis := by
    intro l
    induction l with
    | nil => intro s; simp
    | cons p l ih =>
      intro s
      rw [List.foldl_cons, visitParameter_eq, ih, List.flatMap_cons]
      simp
  cases l with
  | nil => simp [visitParameters, paramsPieces]
  | cons p l =>
    rw [visitParameters, visitParameter_eq, hmore, paramsPieces]
    simp

theorem visitBlock_eq (block : Block) (s : State) :
    visitBlock block s =
      s.emit (blockPieces s.indentLevel s.requireParenthesis block) (blockAfter s.requireParenthesis block) :=
  visitStmt_eq _ s

theorem visitRegularMethod_eq (m : RegularMethod) (s : State) (hs : s.indentLevel = 1) :
    visitRegularMethod m s = s.emit (methodPieces s.requireParenthesis m) (methodAfter s.requireParenthesis m) := by
  unfold visitRegularMethod methodPieces methodAfter
  simp only [visitType_eq, visitParameters_eq, visitBlock_eq]
  simp [hs]

theorem visitMainMethod_eq (m : MainMethod) (s : State) (hs : s.indentLevel = 1) :
    visitMainMethod m s = s.emit (mainMethodPieces s.requireParenthesis m) (mainMethodAfter s.requireParenthesis m) := by
  unfold visitMainMethod mainMethodPieces mainMethodAfter
  simp only [visitBlock_eq]
  simp [hs]

variable (std : UnstableSort)

/-- The class as the visits leave it. -/
def sortClass (c : Ast.Class) : Ast.Class :=
  { c with
    fields := std.sort Ast.Field.name c.fields
    methods := std.sort RegularMethod.name c.methods
    mainMethods := std.sort MainMethod.name c.mainMethods }

/-- The program as the visits leave it. -/
def sortProgram (p : Program) : Program := ⟨(std.sort Ast.Class.name p.classes).map (sortClass std)⟩

theorem visitClass_eq (c : Ast.Class) (s : State) (hs : s.indentLevel = 0) :
    visitClass std c s =
      s.emit (classPieces s.requireParenthesis (sortClass std c)) (classAfter s.requireParenthesis (sortClass std c)) := by
  unfold visitClass visitFieldList visitMethodList visitMainMethodList classPieces classAfter methodsAfter sortClass
  -- the indentation is 1 throughout the members
  dsimp only
  rw [sortByName_eq_self (std.sorted _ _), sortByName_eq_self (std.sorted _ _), sortByName_eq_self (std.sorted _ _),
    visitFields_eq _ _ (by simp [hs]),
    foldl_eq _ (fun m _ s hs => visitRegularMethod_eq m s hs) _ (by simp [hs]),
    foldl_eq _ (fun m _ s hs => visitMainMethod_eq m s hs) _ (by simp [hs])]
  simp [hs]

/-- What is printed for a program. -/
theorem print_eq (p : Program) : print std p = written (programPieces (sortProgram std p)) := by
  have hsorted : (sortProgram std p).classes.Pairwise fun a b => a.name ≤ b.name :=
    List.pairwise_map.mpr (std.sorted Ast.Class.name p.classes)
  unfold print visitProgram programPieces
  rw [sortByName_eq_self hsorted]
  unfold sortProgram
  rw [listPieces_map, @foldl_eq _ _ (fun b c => classPieces b (sortClass std c)) (fun b c => classAfter b (sortClass std c))
    0 _ (fun c _ s hs => visitClass_eq std c s hs) ⟨[], 0, false⟩ rfl]
  simp

/-- No two classes have one name, and no two fields, methods or static methods of a class. -/
def DistinctNames (p : Program) : Prop :=
  (p.classes.map Ast.Class.name).Nodup ∧ ∀ c ∈ p.classes, (c.fields.map Ast.Field.name).Nodup ∧
    (c.methods.map RegularMethod.name).Nodup ∧ (c.mainMethods.map MainMethod.name).Nodup

instance (p : Program) : Decidable (DistinctNames p) :=
  inferInstanceAs (Decidable ((p.classes.map Ast.Class.name).Nodup ∧ ∀ c ∈ p.classes,
    (c.fields.map Ast.Field.name).Nodup ∧ (c.methods.map RegularMethod.name).Nodup ∧
      (c.mainMethods.map MainMethod.name).Nodup))

/-- Where names are distinct, all sorts print the same text. -/
theorem print_distinct {p : Program} (h : DistinctNames p) : print std p = written (programPieces p) := by
  have hclass : ∀ c ∈ std.sort Ast.Class.name p.classes, ∀ b,
      classPieces b (sortClass std c) = classPieces b c ∧ classAfter b (sortClass std c) = classAfter b c := by
    intro c hc b
    obtain ⟨hfields, hmethods, hmains⟩ := h.2 c ((std.perm _ _).mem_iff.mp hc)
    unfold classPieces classAfter methodsAfter sortClass
    dsimp only
    rw [std.sort_eq hfields, std.sort_eq hmethods, std.sort_eq hmains, sortByName_sortByName, sortByName_sortByName,
      sortByName_sortByName]
    exact ⟨rfl, rfl⟩
  have hsorted : (sortProgram std p).classes.Pairwise fun a b => a.name ≤ b.name :=
    List.pairwise_map.mpr (std.sorted Ast.Class.name p.classes)
  rw [print_eq]
  unfold programPieces
  rw [sortByName_eq_self hsorted]
  unfold sortProgram
  rw [listPieces_map, listPieces_congr hclass, std.sort_eq h.1]

end Writes

end Mjc.Printer

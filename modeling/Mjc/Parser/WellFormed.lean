import Mjc.Lexer.Write
import Mjc.Parser.Steps

/-!
# Trees that the parser returns

* `IsIdent` : a name that the lexer reads as an identifier;
* `WfExpr`, `WfStmt`, `WfProgram` : names are identifiers, literals are in the range of `int`, dimensions are positive,
  the flags of blocks and the indices of parameters are right, and no branch is a declaration;
* `Yields x Q` : on tokens of the lexer, what `x` returns satisfies `Q`;
* `parseProgram_wf` : the parser returns well-formed trees;
* `named_lexFile` : the tokens of a file are such tokens.
-/

namespace Mjc.Parser
open Mjc.Ast

set_option autoImplicit false

/-! ## Well-formed trees -/

/-- The lexer reads the name as an identifier. -/
def IsIdent (x : String) : Prop := Lexer.Spelled ⟨.Identifier, x⟩

def WfBasic : BasicType → Prop
  | .primitive _ => True
  | .classType name => IsIdent name

def WfTy : Ty → Prop
  | .basic type => WfBasic type
  | .array elementType dimension => WfBasic elementType ∧ 1 ≤ dimension

inductive WfExpr : Expr → Prop
  | intLiteral {value : Int} (h : InIntRange value) : WfExpr (.intLiteral value)
  | boolLiteral (value : Bool) : WfExpr (.boolLiteral value)
  | nullLiteral : WfExpr .nullLiteral
  | thisLiteral : WfExpr .thisLiteral
  | varRef {name : String} (h : IsIdent name) : WfExpr (.varRef name)
  | methodInvocation {left : Expr} {name : String} {arguments : List Expr} (hl : WfExpr left) (hn : IsIdent name)
      (ha : ∀ e ∈ arguments, WfExpr e) : WfExpr (.methodInvocation left name arguments)
  | fieldAccess {left : Expr} {name : String} (hl : WfExpr left) (hn : IsIdent name) : WfExpr (.fieldAccess left name)
  | arrayAccess {array index : Expr} (ha : WfExpr array) (hi : WfExpr index) : WfExpr (.arrayAccess array index)
  | newObject {name : String} (h : IsIdent name) : WfExpr (.newObject name)
  | newArray {elementType : BasicType} {dimension : Nat} {size : Expr} (ht : WfBasic elementType)
      (hd : 1 ≤ dimension) (hs : WfExpr size) : WfExpr (.newArray elementType dimension size)
  | binary {op : BinaryOp} {left right : Expr} (hl : WfExpr left) (hr : WfExpr right) : WfExpr (.binary op left right)
  | unary {op : UnaryOp} {expression : Expr} (he : WfExpr expression) : WfExpr (.unary op expression)

/-- A declaration of a local variable. -/
def isDecl : Stmt → Bool
  | .varDecl _ _ _ => true
  | _ => false

inductive WfStmt : Stmt → Prop
  | block {statements : List Stmt} {lonely : Bool} (h : ∀ s ∈ statements, WfStmt s)
      (hl : lonely = isLonely statements) : WfStmt (.block statements lonely)
  | varDecl {type : Ty} {name : String} {initializer : Option Expr} (ht : WfTy type) (hn : IsIdent name)
      (hi : ∀ e ∈ initializer, WfExpr e) : WfStmt (.varDecl type name initializer)
  | exprStmt {expression : Expr} (h : WfExpr expression) : WfStmt (.exprStmt expression)
  | ifStmt {condition : Expr} {thenStmt elseStmt : Option Stmt} (hc : WfExpr condition)
      (h₁ : ∀ s ∈ thenStmt, WfStmt s) (hd₁ : ∀ s ∈ thenStmt, isDecl s = false)
      (h₂ : ∀ s ∈ elseStmt, WfStmt s) (hd₂ : ∀ s ∈ elseStmt, isDecl s = false) :
      WfStmt (.ifStmt condition thenStmt elseStmt)
  | whileStmt {condition : Expr} {statement : Option Stmt} (hc : WfExpr condition)
      (h : ∀ s ∈ statement, WfStmt s) (hd : ∀ s ∈ statement, isDecl s = false) : WfStmt (.whileStmt condition statement)
  | returnStmt {expression : Option Expr} (h : ∀ e ∈ expression, WfExpr e) : WfStmt (.returnStmt expression)

def WfBlock (block : Block) : Prop := WfStmt (.block block.statements block.lonely)

structure WfField (f : Ast.Field) : Prop where
  type : WfTy f.type
  name : IsIdent f.name

structure WfParameter (p : Parameter) : Prop where
  type : WfTy p.type
  name : IsIdent p.name

structure WfRegularMethod (m : RegularMethod) : Prop where
  returnType : WfTy m.returnType
  name : IsIdent m.name
  parameters : ∀ p ∈ m.parameters, WfParameter p
  indices : m.parameters.map Parameter.idx = List.range' 1 m.parameters.length
  block : WfBlock m.block

structure WfMainMethod (m : MainMethod) : Prop where
  name : IsIdent m.name
  argName : IsIdent m.argName
  block : WfBlock m.block

structure WfClass (c : Ast.Class) : Prop where
  name : IsIdent c.name
  fields : ∀ f ∈ c.fields, WfField f
  methods : ∀ m ∈ c.methods, WfRegularMethod m
  mainMethods : ∀ m ∈ c.mainMethods, WfMainMethod m

def WfProgram (p : Program) : Prop := ∀ c ∈ p.classes, WfClass c

/-! ## What a parser function yields -/

/-- The identifiers among the tokens are spelled as such. -/
def Named (ts : List Token) : Prop := ∀ t ∈ ts, t.type = .Identifier → IsIdent t.str

theorem Named.tail {ts : List Token} (h : Named ts) : Named ts.tail := fun t ht => h t (List.mem_of_mem_tail ht)

theorem Named.headTok {ts : List Token} (h : Named ts) (ht : (headTok ts).type = .Identifier) :
    IsIdent (headTok ts).str := by
  cases ts with
  | nil => cases ht
  | cons t ts => exact h t List.mem_cons_self ht

/-- What `x` returns satisfies `Q`. -/
def Yields {α : Type} (x : P α) (Q : α → Prop) : Prop :=
  ∀ ts a rest, Named ts → x.run ts = .ok (a, rest) → Q a ∧ Named rest

section Rules

variable {α β : Type} {Q : α → Prop} {Q' : β → Prop}

theorem Yields.pure {a : α} (h : Q a) : Yields (pure a) Q := by
  intro ts b rest hts hrun
  cases hrun
  exact ⟨h, hts⟩

theorem Yields.bind {x : P α} {f : α → P β} (hx : Yields x Q) (hf : ∀ a, Q a → Yields (f a) Q') :
    Yields (x >>= f) Q' := by
  intro ts b rest hts hrun
  obtain ⟨a, ts', hrx, hrf⟩ := run_bind_eq_ok.mp hrun
  obtain ⟨ha, hts'⟩ := hx ts a ts' hts hrx
  exact hf a ha ts' b rest hts' hrf

theorem Yields.map {x : P α} {f : α → β} (hx : Yields x Q) (hf : ∀ a, Q a → Q' (f a)) : Yields (f <$> x) Q' := by
  intro ts b rest hts hrun
  obtain ⟨a, hrx, rfl⟩ := run_map_eq_ok.mp hrun
  obtain ⟨ha, hrest⟩ := hx ts a rest hts hrx
  exact ⟨hf a ha, hrest⟩

theorem Yields.stop (s : Stop) : Yields (P.stop s) Q := by
  intro ts a rest _ hrun
  cases hrun

theorem Yields.error (m : Message) : Yields (error m) Q := by
  intro ts a rest _ hrun
  cases hrun

theorem Yields.curTok : Yields curTok fun t => t.type = .Identifier → IsIdent t.str := by
  intro ts a rest hts hrun
  cases hrun
  exact ⟨hts.headTok, hts⟩

theorem Yields.lookAhead (k : Nat) : Yields (lookAhead k) fun _ => True := by
  intro ts a rest hts hrun
  cases hrun
  exact ⟨trivial, hts⟩

theorem Yields.readNextToken : Yields readNextToken fun _ => True := by
  intro ts a rest hts hrun
  cases hrun
  exact ⟨trivial, hts.tail⟩

theorem Yields.expect (type : TT) : Yields (expect type) fun _ => True := by
  unfold Parser.expect
  refine Yields.curTok.bind fun t _ => ?_
  split
  · exact Yields.error _
  · exact Yields.pure trivial

theorem Yields.expectAndNext (type : TT) : Yields (expectAndNext type) fun _ => True := by
  unfold Parser.expectAndNext
  exact (Yields.expect type).bind fun _ _ => Yields.readNextToken

theorem Yields.expectIdent : Yields (expectGetIdentAndNext .Identifier) IsIdent := by
  intro ts a rest hts hrun
  obtain ⟨t, rfl, htype, rfl⟩ := (expectGetIdentAndNext_eq_ok (by decide)).mp hrun
  exact ⟨hts t List.mem_cons_self htype, hts.tail⟩

end Rules

/-! ## Types -/

theorem parseBasicType_wf : Yields parseBasicType WfBasic := by
  unfold parseBasicType
  refine Yields.curTok.bind fun t ht => ?_
  split
  · refine Yields.readNextToken.bind fun _ _ => ?_
    split
    · exact Yields.pure trivial
    · exact Yields.stop _
  · refine Yields.readNextToken.bind fun _ _ => ?_
    split
    · exact Yields.pure trivial
    · exact Yields.stop _
  · refine Yields.readNextToken.bind fun _ _ => ?_
    split
    · exact Yields.pure trivial
    · exact Yields.stop _
  · next htype => exact Yields.readNextToken.bind fun _ _ => Yields.pure (ht htype)
  · exact Yields.error _

theorem typeLoop_wf {b : BasicType} (hb : WfBasic b) (n k : Nat) : Yields (typeLoop n b k) WfTy := by
  induction n generalizing k with
  | zero => exact Yields.stop _
  | succ n ih =>
    rw [typeLoop]
    refine Yields.curTok.bind fun t _ => ?_
    split
    · exact Yields.readNextToken.bind fun _ _ => (Yields.expectAndNext _).bind fun _ _ => ih (k + 1)
    · refine Yields.pure ?_
      by_cases hk : k = 0
      · rw [if_pos hk]; exact hb
      · rw [if_neg hk]; exact ⟨hb, Nat.one_le_iff_ne_zero.mpr hk⟩

theorem parseType_wf (n : Nat) : Yields (parseType n) WfTy :=
  parseBasicType_wf.bind fun _ hb => typeLoop_wf hb n 0

/-! ## Expressions -/

/-- The functions of expressions yield well-formed trees. -/
structure ExprYields (n : Nat) : Prop where
  precedenceParse (p : Int) : Yields (precedenceParse n p) WfExpr
  precedenceLoop (p : Int) {e : Expr} (he : WfExpr e) : Yields (precedenceLoop n p e) WfExpr
  parseUnary : Yields (parseUnary n) WfExpr
  unaryLoop (us : List UnaryOp) : Yields (unaryLoop n us) WfExpr
  parsePostfixExpr : Yields (parsePostfixExpr n) WfExpr
  postfixLoop {e : Expr} (he : WfExpr e) : Yields (postfixLoop n e) WfExpr
  parsePrimary : Yields (parsePrimary n) WfExpr
  parseMemberAccess {e : Expr} (he : WfExpr e) : Yields (parseMemberAccess n e) WfExpr
  parseArrayAccess {e : Expr} (he : WfExpr e) : Yields (parseArrayAccess n e) WfExpr
  parseArguments : Yields (parseArguments n) fun l => ∀ e ∈ l, WfExpr e
  argumentsLoop {l : List Expr} (hl : ∀ e ∈ l, WfExpr e) : Yields (argumentsLoop n l) fun l => ∀ e ∈ l, WfExpr e
  parseNewExpr : Yields (parseNewExpr n) WfExpr
  dimensionLoop {d : Nat} (hd : 1 ≤ d) : Yields (dimensionLoop n d) fun d => 1 ≤ d

section ExprStep

variable {n : Nat}

theorem foldl_unary_wf {us : List UnaryOp} {e : Expr} (he : WfExpr e) :
    WfExpr (us.foldl (fun e op => .unary op e) e) := by
  induction us generalizing e with
  | nil => exact he
  | cons op us ih => exact ih (.unary he)

/-- A negative literal: only the text of a literal is changed. -/
theorem setCurTokStr_wf {α : Type} {Q : α → Prop} {x : P α} (hx : Yields x Q) {ts rest : List Token} {str : String} {a : α}
    (hts : Named ts) (htype : (headTok ts).type = .IntLiteral)
    (hrun : (setCurTokStr str >>= fun _ => x).run ts = .ok (a, rest)) : Q a ∧ Named rest := by
  refine hx _ a rest ?_ hrun
  intro t ht hident
  rcases List.mem_cons.mp ht with rfl | ht
  · rw [htype] at hident; cases hident
  · exact hts.tail t ht hident

theorem unaryLoop_wf (ih : ExprYields n) (us : List UnaryOp) : Yields (unaryLoop (n + 1) us) WfExpr := by
  intro ts a rest hts hrun
  rw [unaryLoop, run_curTok_bind] at hrun
  revert hrun
  split
  · intro hrun
    exact (Yields.readNextToken.bind fun _ _ => ih.unaryLoop _) ts a rest hts hrun
  · intro hrun
    exact (Yields.readNextToken.bind fun _ _ => ih.unaryLoop _) ts a rest hts hrun
  · split
    · next hlit =>
      intro hrun
      exact setCurTokStr_wf (ih.parsePostfixExpr.bind fun e he => Yields.pure (foldl_unary_wf he)) hts hlit.1 hrun
    · intro hrun
      exact (ih.parsePostfixExpr.bind fun e he => Yields.pure (foldl_unary_wf he)) ts a rest hts hrun

theorem callArguments_wf (ih : ExprYields n) {f : List Expr → Expr} (hf : ∀ l, (∀ e ∈ l, WfExpr e) → WfExpr (f l)) :
    Yields (do
      let args ← parseArguments n
      expectAndNext .RParen
      pure (f args)) WfExpr :=
  ih.parseArguments.bind fun l hl => (Yields.expectAndNext _).bind fun _ _ => Yields.pure (hf l hl)

theorem parsePrimary_wf (ih : ExprYields n) : Yields (parsePrimary (n + 1)) WfExpr := by
  rw [parsePrimary]
  refine Yields.curTok.bind fun t ht => ?_
  split
  · exact Yields.readNextToken.bind fun _ _ => (ih.precedenceParse 0).bind fun e he =>
      (Yields.expectAndNext _).bind fun _ _ => Yields.pure he
  · exact Yields.readNextToken.bind fun _ _ => Yields.pure (.boolLiteral _)
  · exact Yields.readNextToken.bind fun _ _ => Yields.pure (.boolLiteral _)
  · exact Yields.readNextToken.bind fun _ _ => Yields.pure .nullLiteral
  · exact Yields.readNextToken.bind fun _ _ => Yields.pure .thisLiteral
  · split
    · exact Yields.stop _
    · split
      · next hrange => exact Yields.readNextToken.bind fun _ _ => Yields.pure (.intLiteral hrange)
      · exact Yields.error _
  · next htype =>
    refine Yields.readNextToken.bind fun _ _ => Yields.curTok.bind fun _ _ => ?_
    split
    · exact Yields.readNextToken.bind fun _ _ =>
        callArguments_wf ih fun l hl => .methodInvocation .thisLiteral (ht htype) hl
    · exact Yields.pure (.varRef (ht htype))
  · exact ih.parseNewExpr
  · exact Yields.error _

theorem parseArguments_wf (ih : ExprYields n) : Yields (parseArguments (n + 1)) fun l => ∀ e ∈ l, WfExpr e := by
  rw [parseArguments]
  refine Yields.curTok.bind fun t _ => ?_
  split
  all_goals first
    | exact (ih.precedenceParse 0).bind fun e he => ih.argumentsLoop fun e' he' => by
        rw [List.mem_singleton.mp he']; exact he
    | exact Yields.pure (List.forall_mem_nil _)
    | exact Yields.error _

theorem parseNewExpr_wf (ih : ExprYields n) : Yields (parseNewExpr (n + 1)) WfExpr := by
  rw [parseNewExpr]
  refine (Yields.expectAndNext _).bind fun _ _ => (Yields.lookAhead 1).bind fun t _ => ?_
  split
  · exact Yields.expectIdent.bind fun x hx => Yields.readNextToken.bind fun _ _ =>
      (Yields.expectAndNext _).bind fun _ _ => Yields.pure (.newObject hx)
  · exact parseBasicType_wf.bind fun b hb => Yields.readNextToken.bind fun _ _ => (ih.precedenceParse 0).bind fun e he =>
      (Yields.expectAndNext _).bind fun _ _ => (ih.dimensionLoop (Nat.le_refl 1)).bind fun d hd =>
        Yields.pure (.newArray hb hd he)
  · exact Yields.error _

end ExprStep

theorem exprYields (n : Nat) : ExprYields n := by
  induction n with
  | zero => constructor <;> intros <;> exact Yields.stop _
  | succ n ih =>
    constructor
    case precedenceParse =>
      intro p
      rw [Parser.precedenceParse]
      exact ih.parseUnary.bind fun e he => ih.precedenceLoop p he
    case precedenceLoop =>
      intro p e he
      rw [Parser.precedenceLoop]
      refine Yields.curTok.bind fun t _ => ?_
      dsimp only
      split
      · refine Yields.readNextToken.bind fun _ _ => (ih.precedenceParse _).bind fun r hr => ?_
        split
        · exact ih.precedenceLoop p (.binary he hr)
        · exact Yields.stop _
      · exact Yields.pure he
    case parseUnary => rw [Parser.parseUnary]; exact ih.unaryLoop []
    case unaryLoop => exact unaryLoop_wf ih
    case parsePostfixExpr =>
      rw [Parser.parsePostfixExpr]
      exact ih.parsePrimary.bind fun e he => ih.postfixLoop he
    case postfixLoop =>
      intro e he
      rw [Parser.postfixLoop]
      refine Yields.curTok.bind fun t _ => ?_
      split
      · exact (ih.parseMemberAccess he).bind fun e he => ih.postfixLoop he
      · exact (ih.parseArrayAccess he).bind fun e he => ih.postfixLoop he
      · exact Yields.pure he
    case parsePrimary => exact parsePrimary_wf ih
    case parseMemberAccess =>
      intro e he
      rw [Parser.parseMemberAccess]
      refine (Yields.expectAndNext _).bind fun _ _ => Yields.expectIdent.bind fun x hx => Yields.curTok.bind fun t _ => ?_
      split
      · exact Yields.readNextToken.bind fun _ _ => callArguments_wf ih fun l hl => .methodInvocation he hx hl
      · exact Yields.pure (.fieldAccess he hx)
    case parseArrayAccess =>
      intro e he
      rw [Parser.parseArrayAccess]
      exact (Yields.expectAndNext _).bind fun _ _ => (ih.precedenceParse 0).bind fun i hi =>
        (Yields.expectAndNext _).bind fun _ _ => Yields.pure (.arrayAccess he hi)
    case parseArguments => exact parseArguments_wf ih
    case argumentsLoop =>
      intro l hl
      rw [Parser.argumentsLoop]
      refine Yields.curTok.bind fun t _ => ?_
      split
      · refine Yields.readNextToken.bind fun _ _ => (ih.precedenceParse 0).bind fun e he => ih.argumentsLoop ?_
        exact List.forall_mem_append.mpr ⟨hl, List.forall_mem_singleton.mpr he⟩
      · exact Yields.pure hl
    case parseNewExpr => exact parseNewExpr_wf ih
    case dimensionLoop =>
      intro d hd
      rw [Parser.dimensionLoop]
      refine Yields.curTok.bind fun t _ => (Yields.lookAhead 1).bind fun t' _ => ?_
      split
      · exact Yields.readNextToken.bind fun _ _ => Yields.readNextToken.bind fun _ _ =>
          ih.dimensionLoop (Nat.le_succ_of_le hd)
      · exact Yields.pure hd

/-! ## Statements -/

theorem parseExpr_wf (n : Nat) : Yields (parseExpr n) WfExpr := (exprYields n).precedenceParse 0

theorem parseLocalVarDeclStmt_wf (n : Nat) : Yields (parseLocalVarDeclStmt n) WfStmt := by
  unfold parseLocalVarDeclStmt
  refine (parseType_wf n).bind fun type ht => Yields.expectIdent.bind fun x hx => Yields.curTok.bind fun t _ => ?_
  split
  · refine Yields.readNextToken.bind fun _ _ => (parseExpr_wf n).bind fun e he => (Yields.expectAndNext _).bind fun _ _ => ?_
    exact Yields.pure (.varDecl ht hx fun e' he' => by cases he'; exact he)
  · exact Yields.readNextToken.bind fun _ _ => Yields.pure (.varDecl ht hx fun e he => nomatch he)
  · exact Yields.error _

/-- A statement that may stand in a branch. -/
def WfBranch (s : Stmt) : Prop := WfStmt s ∧ isDecl s = false

theorem parseExprStmt_wf (n : Nat) : Yields (parseExprStmt n) WfBranch := by
  unfold parseExprStmt
  exact (parseExpr_wf n).bind fun e he => (Yields.expectAndNext _).bind fun _ _ => Yields.pure ⟨.exprStmt he, rfl⟩

theorem parseReturnStmt_wf (n : Nat) : Yields (parseReturnStmt n) WfBranch := by
  unfold parseReturnStmt
  refine (Yields.expectAndNext _).bind fun _ _ => Yields.curTok.bind fun t _ => ?_
  split
  · exact Yields.readNextToken.bind fun _ _ => Yields.pure ⟨.returnStmt fun e he => (nomatch he), rfl⟩
  · refine (parseExpr_wf n).bind fun e he => (Yields.expectAndNext _).bind fun _ _ => Yields.pure ⟨.returnStmt ?_, rfl⟩
    intro e' he'
    cases he'
    exact he

/-- The functions of statements yield well-formed trees. -/
structure StmtYields (n : Nat) : Prop where
  parseBlock : Yields (parseBlock n) WfBlock
  blockLoop {l : List Stmt} (hl : ∀ s ∈ l, WfStmt s) : Yields (blockLoop n l) WfBlock
  parseBlockStatement : Yields (parseBlockStatement n) fun o => ∀ s ∈ o, WfStmt s
  parseStmt : Yields (parseStmt n) fun o => ∀ s ∈ o, WfBranch s
  parseIfStmt : Yields (parseIfStmt n) WfBranch
  parseWhileStmt : Yields (parseWhileStmt n) WfBranch

section StmtStep

variable {n : Nat}

theorem some_wf {Q : Stmt → Prop} {s : Stmt} (hs : Q s) : ∀ s' ∈ some s, Q s' := by
  intro s' hs'
  cases hs'
  exact hs

theorem blockLoop_wf (ih : StmtYields n) {l : List Stmt} (hl : ∀ s ∈ l, WfStmt s) :
    Yields (blockLoop (n + 1) l) WfBlock := by
  rw [blockLoop]
  refine Yields.curTok.bind fun t _ => ?_
  split
  · exact Yields.readNextToken.bind fun _ _ => Yields.pure (.block hl rfl)
  all_goals first
    | exact ih.parseBlockStatement.bind fun o ho => ih.blockLoop
        (List.forall_mem_append.mpr ⟨hl, fun s hs => ho s (Option.mem_toList.mp hs)⟩)
    | exact Yields.error _

theorem parseBlockStatement_wf (ih : StmtYields n) : Yields (parseBlockStatement (n + 1)) fun o => ∀ s ∈ o, WfStmt s := by
  have hstmt : Yields (parseStmt n) fun o => ∀ s ∈ o, WfStmt s :=
    fun ts a rest hts hrun => ((ih.parseStmt ts a rest hts hrun).imp_left fun h s hs => (h s hs).1)
  rw [parseBlockStatement]
  refine Yields.curTok.bind fun t _ => ?_
  split
  all_goals first
    | exact hstmt
    | exact (parseLocalVarDeclStmt_wf n).map fun s hs => some_wf hs
    | exact Yields.pure fun s hs => nomatch hs
    | skip
  refine (Yields.lookAhead 1).bind fun _ _ => (Yields.lookAhead 2).bind fun _ _ => ?_
  split
  · exact (parseLocalVarDeclStmt_wf n).map fun s hs => some_wf hs
  · exact hstmt

theorem parseStmt_wf (ih : StmtYields n) : Yields (parseStmt (n + 1)) fun o => ∀ s ∈ o, WfBranch s := by
  rw [parseStmt]
  refine Yields.curTok.bind fun t _ => ?_
  split
  · exact ih.parseBlock.bind fun b hb => Yields.pure (some_wf ⟨hb, rfl⟩)
  · exact Yields.readNextToken.bind fun _ _ => Yields.pure fun s hs => nomatch hs
  · exact ih.parseIfStmt.map fun s hs => some_wf hs
  · exact (parseReturnStmt_wf n).map fun s hs => some_wf hs
  · exact ih.parseWhileStmt.map fun s hs => some_wf hs
  all_goals first
    | exact (parseExprStmt_wf n).map fun s hs => some_wf hs
    | exact Yields.error _

theorem parseIfStmt_wf (ih : StmtYields n) : Yields (parseIfStmt (n + 1)) WfBranch := by
  rw [parseIfStmt]
  refine (Yields.expectAndNext _).bind fun _ _ => (Yields.expectAndNext _).bind fun _ _ => (parseExpr_wf n).bind fun c hc =>
    (Yields.expectAndNext _).bind fun _ _ => ih.parseStmt.bind fun o₁ h₁ => Yields.curTok.bind fun t _ => ?_
  split
  · refine Yields.readNextToken.bind fun _ _ => ih.parseStmt.bind fun o₂ h₂ => Yields.pure ⟨?_, rfl⟩
    exact .ifStmt hc (fun s hs => (h₁ s hs).1) (fun s hs => (h₁ s hs).2) (fun s hs => (h₂ s hs).1)
      fun s hs => (h₂ s hs).2
  · refine Yields.pure ⟨?_, rfl⟩
    exact .ifStmt hc (fun s hs => (h₁ s hs).1) (fun s hs => (h₁ s hs).2) (fun s hs => (nomatch hs))
      fun s hs => (nomatch hs)

theorem parseWhileStmt_wf (ih : StmtYields n) : Yields (parseWhileStmt (n + 1)) WfBranch := by
  rw [parseWhileStmt]
  refine (Yields.expectAndNext _).bind fun _ _ => (Yields.expectAndNext _).bind fun _ _ => (parseExpr_wf n).bind fun c hc =>
    (Yields.expectAndNext _).bind fun _ _ => ih.parseStmt.bind fun o h => Yields.pure ⟨?_, rfl⟩
  exact .whileStmt hc (fun s hs => (h s hs).1) fun s hs => (h s hs).2

end StmtStep

theorem stmtYields (n : Nat) : StmtYields n := by
  induction n with
  | zero => constructor <;> intros <;> exact Yields.stop _
  | succ n ih =>
    constructor
    case parseBlock =>
      rw [Parser.parseBlock]
      exact (Yields.expectAndNext _).bind fun _ _ => ih.blockLoop (List.forall_mem_nil _)
    case blockLoop => exact blockLoop_wf ih
    case parseBlockStatement => exact parseBlockStatement_wf ih
    case parseStmt => exact parseStmt_wf ih
    case parseIfStmt => exact parseIfStmt_wf ih
    case parseWhileStmt => exact parseWhileStmt_wf ih

/-! ## Classes -/

theorem parseParameter_wf (n idx : Nat) : Yields (parseParameter n idx) fun p => WfParameter p ∧ p.idx = idx := by
  unfold parseParameter
  exact (parseType_wf n).bind fun type ht => Yields.expectIdent.bind fun x hx => Yields.pure ⟨⟨ht, hx⟩, rfl⟩

/-- Parameters with their indices. -/
def WfParameters (l : List Parameter) : Prop :=
  (∀ p ∈ l, WfParameter p) ∧ l.map Parameter.idx = List.range' 1 l.length

theorem WfParameters.concat {l : List Parameter} {p : Parameter} (hl : WfParameters l) (hp : WfParameter p)
    (hidx : p.idx = l.length + 1) : WfParameters (l ++ [p]) := by
  refine ⟨List.forall_mem_append.mpr ⟨hl.1, List.forall_mem_singleton.mpr hp⟩, ?_⟩
  rw [List.map_append, hl.2, List.length_append, List.map_singleton, List.length_singleton, List.range'_concat, hidx]
  congr 2
  omega

theorem parameterLoop_wf (n : Nat) {idx : Nat} {l : List Parameter} (hl : WfParameters l) (hidx : idx = l.length) :
    Yields (parameterLoop n idx l) WfParameters := by
  induction n generalizing idx l with
  | zero => exact Yields.stop _
  | succ n ih =>
    rw [parameterLoop]
    refine Yields.curTok.bind fun t _ => ?_
    split
    · refine Yields.readNextToken.bind fun _ _ => (parseParameter_wf n (idx + 1)).bind fun p hp => ih ?_ ?_
      · exact hl.concat hp.1 (by rw [hp.2, hidx])
      · rw [List.length_append, hidx]; rfl
    · exact Yields.pure hl

theorem parseParameterList_wf (n : Nat) : Yields (parseParameterList n) WfParameters := by
  have hnil : WfParameters [] := ⟨List.forall_mem_nil _, rfl⟩
  unfold parseParameterList
  refine Yields.curTok.bind fun t _ => ?_
  split
  all_goals first
    | exact (parseParameter_wf n 1).bind fun p hp => parameterLoop_wf n (hnil.concat hp.1 hp.2) rfl
    | exact Yields.pure hnil

theorem skipThrows_wf : Yields skipThrows fun _ => True := by
  unfold skipThrows
  refine Yields.curTok.bind fun t _ => ?_
  split
  · exact Yields.readNextToken.bind fun _ _ => Yields.expectAndNext _
  · exact Yields.pure trivial

theorem parseMainMethod_wf (n : Nat) : Yields (parseMainMethod n) WfMainMethod := by
  unfold parseMainMethod
  refine (Yields.expectAndNext _).bind fun _ _ => (Yields.expectAndNext _).bind fun _ _ =>
    (Yields.expectAndNext _).bind fun _ _ => Yields.expectIdent.bind fun x hx => (Yields.expectAndNext _).bind fun _ _ =>
      (Yields.expect _).bind fun _ _ => Yields.curTok.bind fun t _ => ?_
  split
  · exact Yields.error _
  · exact Yields.readNextToken.bind fun _ _ => (Yields.expectAndNext _).bind fun _ _ =>
      (Yields.expectAndNext _).bind fun _ _ => Yields.expectIdent.bind fun y hy => (Yields.expectAndNext _).bind fun _ _ =>
        skipThrows_wf.bind fun _ _ => (stmtYields n).parseBlock.bind fun b hb => Yields.pure ⟨hx, hy, hb⟩

def WfMember : Member → Prop
  | .field f => WfField f
  | .method m => WfRegularMethod m
  | .mainMethod m => WfMainMethod m

theorem parseFieldOrMethod_wf (n : Nat) : Yields (parseFieldOrMethod n) WfMember := by
  unfold parseFieldOrMethod
  refine (Yields.expectAndNext _).bind fun _ _ => (parseType_wf n).bind fun type ht => Yields.expectIdent.bind fun x hx =>
    Yields.curTok.bind fun t _ => ?_
  split
  · exact Yields.readNextToken.bind fun _ _ => Yields.pure ⟨ht, hx⟩
  · exact Yields.readNextToken.bind fun _ _ => (parseParameterList_wf n).bind fun l hl =>
      (Yields.expectAndNext _).bind fun _ _ => skipThrows_wf.bind fun _ _ => (stmtYields n).parseBlock.bind fun b hb =>
        Yields.pure ⟨ht, hx, hl.1, hl.2, hb⟩
  · exact Yields.error _

theorem parseClassMember_wf (n : Nat) : Yields (parseClassMember n) WfMember := by
  unfold parseClassMember
  refine (Yields.lookAhead 1).bind fun t _ => ?_
  split
  all_goals first
    | exact (parseMainMethod_wf n).map fun m hm => hm
    | exact parseFieldOrMethod_wf n
    | exact Yields.error _

theorem addMember_wf {c : Ast.Class} (hc : WfClass c) {m : Member} (hm : WfMember m) : WfClass (addMember c m) := by
  cases m with
  | field f => exact { hc with fields := List.forall_mem_append.mpr ⟨hc.fields, List.forall_mem_singleton.mpr hm⟩ }
  | method m => exact { hc with methods := List.forall_mem_append.mpr ⟨hc.methods, List.forall_mem_singleton.mpr hm⟩ }
  | mainMethod m =>
    exact { hc with mainMethods := List.forall_mem_append.mpr ⟨hc.mainMethods, List.forall_mem_singleton.mpr hm⟩ }

theorem memberLoop_wf (n : Nat) {c : Ast.Class} (hc : WfClass c) : Yields (memberLoop n c) WfClass := by
  induction n generalizing c with
  | zero => exact Yields.stop _
  | succ n ih =>
    rw [memberLoop]
    refine Yields.curTok.bind fun t _ => ?_
    split
    · exact Yields.readNextToken.bind fun _ _ => Yields.pure hc
    · exact (parseClassMember_wf n).bind fun m hm => ih (addMember_wf hc hm)
    · exact Yields.error _

theorem parseClassDeclaration_wf (n : Nat) : Yields (parseClassDeclaration n) WfClass := by
  unfold parseClassDeclaration
  refine (Yields.expectAndNext _).bind fun _ _ => Yields.expectIdent.bind fun x hx => (Yields.expectAndNext _).bind fun _ _ =>
    memberLoop_wf n ⟨hx, List.forall_mem_nil _, List.forall_mem_nil _, List.forall_mem_nil _⟩

theorem programLoop_wf (n : Nat) {cs : List Ast.Class} (hcs : ∀ c ∈ cs, WfClass c) :
    Yields (programLoop n cs) WfProgram := by
  induction n generalizing cs with
  | zero => exact Yields.stop _
  | succ n ih =>
    rw [programLoop]
    refine Yields.curTok.bind fun t _ => ?_
    split
    · exact (parseClassDeclaration_wf n).bind fun c hc =>
        ih (List.forall_mem_append.mpr ⟨hcs, List.forall_mem_singleton.mpr hc⟩)
    · exact Yields.pure hcs
    · exact Yields.error _

/-- The parser returns well-formed trees. -/
theorem parseProgram_wf {ts : List Token} {p : Program} (hts : Named ts) (h : parseProgram ts = .ok p) : WfProgram p := by
  unfold parseProgram at h
  split at h
  next program rest hrun =>
    obtain rfl := Except.ok.inj h
    exact (programLoop_wf _ (List.forall_mem_nil _) ts program rest hts hrun).1
  next => cases h

/-! ## Files -/

theorem named_lexFile (lineState : Lexer.LineState) (file : List UInt8) :
    Named ((Lexer.lexFile lineState file).1.map Prod.fst) := by
  intro t ht htype
  obtain ⟨e, -, htok⟩ := @Lexer.readAll_tokenises lineState [] file [] ⟨0, 0⟩ (file.length + 1) (Nat.lt_succ_self _)
  rw [← Lexer.lexFile_eq] at htok
  rcases htok.spelled t ht with rfl | hspelled
  · cases htype
  · obtain ⟨type, str⟩ := t
    obtain rfl : type = .Identifier := htype
    exact hspelled

end Mjc.Parser

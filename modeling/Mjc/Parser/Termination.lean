import Mjc.Parser.First
import Mjc.Parser.Soundness

/-!
# The parser terminates

With a step bound of 16 for each token still to be read, and a few more that depend on the function, no
function runs out of steps; on tokens of the lexer none stops with a `std::runtime_error` either.

* `ExprClean n`, `StmtClean n` : the functions with `n` steps are `Clean` where `n` is large enough. The
  constants count how many calls deep a function can get before it reads a token;
* `parseProgram_clean` : a program is parsed, or the parser raises a `ParseError`.
-/

namespace Mjc.Parser
open Mjc.Ast Mjc.Grammar

set_option autoImplicit false

section
variable {α β : Type} {ts rest : List Token}

theorem Reads.length_le {D : List Token → Prop} (h : Reads D ts rest) : rest.length ≤ ts.length := by
  obtain ⟨us, rfl, -⟩ := h
  simp

theorem Reads.length_lt {D : List Token → Prop} (h : Reads D ts rest) (hD : ∀ us, D us → us ≠ []) :
    rest.length < ts.length := by
  obtain ⟨us, rfl, hus⟩ := h
  have := List.length_pos_iff.2 (hD us hus)
  simp only [List.length_append]
  omega

/-- A text of a nonterminal that is not nullable has a token. -/
theorem Reads.length_lt_of_derives {nt : NT} (h : Reads (Derives nt) ts rest)
    (hn : nullable nt = false) : rest.length < ts.length :=
  h.length_lt fun _ hus => hus.ne_nil hn

theorem length_tail_lt {type : TT} (h : (headTok ts).type = type) (hne : type ≠ .Eof) :
    ts.tail.length < ts.length := by
  obtain ⟨t, us, rfl, -⟩ := eq_cons_of_headTok h hne
  simp

theorem Lex.of_tail (h : Lex ts) : Lex ts.tail := fun t ht => h t (List.mem_of_mem_tail ht)

theorem clean_expectAndNext_bind {type : TT} (hne : type ≠ .Eof) {f : Unit → P α} (hl : Lex ts)
    (hf : ∀ us, us.length < ts.length → Lex us → Clean ((f ()).run us)) :
    Clean ((expectAndNext type >>= f).run ts) := by
  refine clean_bind (clean_expectAndNext _ _) fun _ us h => ?_
  obtain ⟨t, rfl, -⟩ := (expectAndNext_eq_ok hne).1 h
  exact hf us (by simp) hl.tail

theorem clean_expectGetIdentAndNext_bind {f : String → P α} (hl : Lex ts)
    (hf : ∀ s us, us.length < ts.length → Lex us → Clean ((f s).run us)) :
    Clean ((expectGetIdentAndNext .Identifier >>= f).run ts) := by
  refine clean_bind (clean_expectGetIdentAndNext _ _) fun s us h => ?_
  obtain ⟨t, rfl, -⟩ := (expectGetIdentAndNext_eq_ok (by decide)).1 h
  exact hf s us (by simp) hl.tail

end

/-! ## Types -/

theorem clean_parseBasicType (ts : List Token) : Clean (parseBasicType.run ts) := by
  rw [parseBasicType, run_curTok_bind]
  split
  case h_5 => exact clean_parseError _
  case h_4 => exact clean_ok _
  all_goals
    next ht =>
    rw [run_readNextToken_bind, ht]
    exact clean_ok _

theorem clean_typeLoop {n k : Nat} {b : BasicType} {ts : List Token} (hl : Lex ts) (hn : 16 * ts.length < n) :
    Clean ((typeLoop n b k).run ts) := by
  induction n generalizing ts k with
  | zero => omega
  | succ n ih =>
    rw [typeLoop, run_curTok_bind]
    split
    · next ht =>
      have hlt := length_tail_lt ht (by decide)
      rw [run_readNextToken_bind]
      exact clean_expectAndNext_bind (by decide) (Lex.of_tail hl) fun us hus hl => ih hl (by omega)
    · exact clean_ok _

theorem clean_parseType {n : Nat} {ts : List Token} (hl : Lex ts) (hn : 16 * ts.length < n) :
    Clean ((parseType n).run ts) := by
  refine clean_bind (clean_parseBasicType ts) fun b us h => ?_
  obtain ⟨t, rfl, -⟩ := parseBasicType_eq_cons h
  exact clean_typeLoop hl.tail (by simp at hn; omega)

/-! ## Expressions -/

/-- The functions of expressions with `n` steps, where `n` is large enough. -/
structure ExprClean (n : Nat) : Prop where
  precedenceParse : ∀ {p : Int} {ts : List Token}, 0 ≤ p → Lex ts → 16 * ts.length + 6 ≤ n →
    Clean ((precedenceParse n p).run ts)
  precedenceLoop : ∀ {p : Int} {l : Expr} {ts : List Token}, 0 ≤ p → Lex ts → 16 * ts.length + 1 ≤ n →
    Clean ((precedenceLoop n p l).run ts)
  parseUnary : ∀ {ts : List Token}, Lex ts → 16 * ts.length + 5 ≤ n → Clean ((parseUnary n).run ts)
  unaryLoop : ∀ {us : List UnaryOp} {ts : List Token}, Lex ts → 16 * ts.length + 4 ≤ n →
    Clean ((unaryLoop n us).run ts)
  parsePostfixExpr : ∀ {ts : List Token}, Lex ts → 16 * ts.length + 3 ≤ n →
    Clean ((parsePostfixExpr n).run ts)
  negLiteral : ∀ {t : Token} {ts : List Token}, t.type = .IntLiteral → Lex (t :: ts) →
    16 * (ts.length + 1) + 3 ≤ n →
    Clean ((Parser.parsePostfixExpr n).run ({ t with str := "-" ++ t.str } :: ts))
  postfixLoop : ∀ {l : Expr} {ts : List Token}, Lex ts → 16 * ts.length + 2 ≤ n →
    Clean ((postfixLoop n l).run ts)
  parsePrimary : ∀ {ts : List Token}, Lex ts → 16 * ts.length + 2 ≤ n → Clean ((parsePrimary n).run ts)
  parseMemberAccess : ∀ {l : Expr} {ts : List Token}, Lex ts → 16 * ts.length + 1 ≤ n →
    Clean ((parseMemberAccess n l).run ts)
  parseArrayAccess : ∀ {l : Expr} {ts : List Token}, Lex ts → 16 * ts.length + 1 ≤ n →
    Clean ((parseArrayAccess n l).run ts)
  parseArguments : ∀ {ts : List Token}, Lex ts → 16 * ts.length + 7 ≤ n → Clean ((parseArguments n).run ts)
  argumentsLoop : ∀ {es : List Expr} {ts : List Token}, Lex ts → 16 * ts.length + 1 ≤ n →
    Clean ((argumentsLoop n es).run ts)
  parseNewExpr : ∀ {ts : List Token}, Lex ts → 16 * ts.length + 1 ≤ n → Clean ((parseNewExpr n).run ts)
  dimensionLoop : ∀ {d : Nat} {ts : List Token}, 16 * ts.length + 1 ≤ n → Clean ((dimensionLoop n d).run ts)

namespace ExprClean
variable {n : Nat} {ts : List Token}

theorem precedenceParse_succ (ih : ExprClean n) {p : Int} (hp : 0 ≤ p) (hl : Lex ts)
    (hn : 16 * ts.length + 6 ≤ n + 1) : Clean ((Parser.precedenceParse (n + 1) p).run ts) := by
  refine clean_bind (ih.parseUnary hl (by omega)) fun e us h => ?_
  have hu := (exprSound n).parseUnary hl h
  have := hu.length_lt_of_derives rfl
  exact ih.precedenceLoop hp (hu.lex hl) (by omega)

theorem precedenceLoop_succ (ih : ExprClean n) {p : Int} {l : Expr} (hp : 0 ≤ p) (hl : Lex ts)
    (hn : 16 * ts.length + 1 ≤ n + 1) : Clean ((Parser.precedenceLoop (n + 1) p l).run ts) := by
  rw [Parser.precedenceLoop, run_curTok_bind]
  dsimp only
  split
  · next hop =>
    have hne : (headTok ts).type ≠ .Eof := by
      intro he
      rw [he] at hop
      exact absurd (show (0 : Int) ≤ -1 from Int.le_trans hp hop) (by decide)
    have hlt := length_tail_lt rfl hne
    have hp' : 0 ≤ if (headTok ts).type ≠ .Eq then getOpPrec (headTok ts).type + 1
        else getOpPrec (headTok ts).type := by split <;> omega
    rw [run_readNextToken_bind]
    refine clean_bind (ih.precedenceParse hp' (Lex.of_tail hl) (by omega)) fun e us h => ?_
    have hu := (exprSound n).precedenceParse hp' (Lex.of_tail hl) h
    have := hu.length_le
    -- a token with a precedence has an operator
    have hsome : ∃ op, getOpForToken (headTok ts).type = some op := by
      generalize (headTok ts).type = type at hop
      cases type <;> first | exact ⟨_, rfl⟩ | exact absurd (Int.le_trans hp hop) (by decide)
    obtain ⟨op, hop'⟩ := hsome
    rw [hop']
    exact ih.precedenceLoop hp (hu.lex (Lex.of_tail hl)) (by omega)
  · exact clean_ok _

theorem unaryLoop_succ (ih : ExprClean n) {us : List UnaryOp} (hl : Lex ts)
    (hn : 16 * ts.length + 4 ≤ n + 1) : Clean ((Parser.unaryLoop (n + 1) us).run ts) := by
  rw [Parser.unaryLoop, run_curTok_bind]
  split
  · next ht =>
    have := length_tail_lt ht (by decide)
    exact ih.unaryLoop (Lex.of_tail hl) (by omega)
  · next ht =>
    have := length_tail_lt ht (by decide)
    exact ih.unaryLoop (Lex.of_tail hl) (by omega)
  · split
    · next hlit =>
      obtain ⟨t, us, rfl, ht⟩ := eq_cons_of_headTok hlit.1 (by decide)
      rw [run_setCurTokStr_bind]
      exact clean_bind (ih.negLiteral ht hl (by simp at hn ⊢; omega)) fun _ _ _ => clean_ok _
    · exact clean_bind (ih.parsePostfixExpr hl (by omega)) fun _ _ _ => clean_ok _

theorem parsePostfixExpr_succ (ih : ExprClean n) (hl : Lex ts) (hn : 16 * ts.length + 3 ≤ n + 1) :
    Clean ((Parser.parsePostfixExpr (n + 1)).run ts) := by
  refine clean_bind (ih.parsePrimary hl (by omega)) fun e us h => ?_
  have hu := (exprSound n).parsePrimary hl h
  have := hu.length_le
  exact ih.postfixLoop (hu.lex hl) (by omega)

theorem negLiteral_succ (ih : ExprClean n) {t : Token} (ht : t.type = .IntLiteral) (hl : Lex (t :: ts))
    (hn : 16 * (ts.length + 1) + 3 ≤ n + 1) :
    Clean ((Parser.parsePostfixExpr (n + 1)).run ({ t with str := "-" ++ t.str } :: ts)) := by
  obtain ⟨n, rfl⟩ : ∃ m, n = m + 1 := ⟨n - 1, by omega⟩
  rw [Parser.parsePostfixExpr, run_bind, Parser.parsePrimary, run_curTok_bind, headTok_cons]
  simp only [ht, stoiDigits_neg_of_isDecimal (hl.head.literal ht)]
  split
  · next h =>
    split at h
    · cases h
      exact ih.postfixLoop hl.tail (by simp; omega)
    · cases h
  · next h =>
    split at h
    · cases h
    · cases h
      exact clean_parseError _

theorem postfixLoop_succ (ih : ExprClean n) {l : Expr} (hl : Lex ts) (hn : 16 * ts.length + 2 ≤ n + 1) :
    Clean ((Parser.postfixLoop (n + 1) l).run ts) := by
  rw [Parser.postfixLoop, run_curTok_bind]
  split
  · refine clean_bind (ih.parseMemberAccess hl (by omega)) fun e us h => ?_
    have hu := (exprSound n).parseMemberAccess hl h
    have := hu.length_lt_of_derives rfl
    exact ih.postfixLoop (hu.lex hl) (by omega)
  · refine clean_bind (ih.parseArrayAccess hl (by omega)) fun e us h => ?_
    have hu := (exprSound n).parseArrayAccess hl h
    have := hu.length_lt_of_derives rfl
    exact ih.postfixLoop (hu.lex hl) (by omega)
  · exact clean_ok _

/-- The rest of a call after its opening parenthesis. -/
theorem callArguments (ih : ExprClean n) {f : List Expr → P Expr} (hl : Lex ts)
    (hn : 16 * ts.length + 7 ≤ n) (hf : ∀ es us, Clean ((f es).run us)) :
    Clean ((do let args ← Parser.parseArguments n; expectAndNext .RParen; f args).run ts) := by
  refine clean_bind (ih.parseArguments hl hn) fun es us h => ?_
  have hu := (exprSound n).parseArguments hl h
  exact clean_expectAndNext_bind (by decide) (hu.lex hl) fun vs _ _ => hf es vs

/-- An expression up to a closing token. -/
theorem expressionUntil (ih : ExprClean n) {type : TT} (hne : type ≠ .Eof) {f : Expr → P Expr} (hl : Lex ts)
    (hn : 16 * ts.length + 6 ≤ n)
    (hf : ∀ e us, us.length < ts.length → Lex us → Clean ((f e).run us)) :
    Clean ((do let e ← Parser.precedenceParse n 0; expectAndNext type; f e).run ts) := by
  refine clean_bind (ih.precedenceParse (Int.le_refl 0) hl hn) fun e us h => ?_
  have hu := (exprSound n).precedenceParse (Int.le_refl 0) hl h
  have := hu.length_le
  exact clean_expectAndNext_bind hne (hu.lex hl) fun vs hvs hl => hf e vs (by omega) hl

theorem parsePrimary_succ (ih : ExprClean n) (hl : Lex ts) (hn : 16 * ts.length + 2 ≤ n + 1) :
    Clean ((Parser.parsePrimary (n + 1)).run ts) := by
  rw [Parser.parsePrimary, run_curTok_bind]
  split
  case h_1 ht =>
    have := length_tail_lt ht (by decide)
    rw [run_readNextToken_bind]
    exact ih.expressionUntil (by decide) (Lex.of_tail hl) (by omega) fun _ _ _ _ => clean_ok _
  case h_6 ht =>
    obtain ⟨t, us, rfl, ht⟩ := eq_cons_of_headTok ht (by decide)
    rw [headTok_cons, stoiDigits_of_isDecimal (hl.head.literal ht)]
    dsimp only
    split
    · exact clean_ok _
    · exact clean_parseError _
  case h_7 ht =>
    have := length_tail_lt ht (by decide)
    rw [run_readNextToken_bind, run_curTok_bind]
    split
    · next ht' =>
      have := length_tail_lt ht' (by decide)
      rw [run_readNextToken_bind]
      exact ih.callArguments (Lex.of_tail (Lex.of_tail hl)) (by omega) fun _ _ => clean_ok _
    · exact clean_ok _
  case h_8 => exact ih.parseNewExpr hl (by omega)
  case h_9 => exact clean_parseError _
  all_goals exact clean_ok _

theorem parseMemberAccess_succ (ih : ExprClean n) {l : Expr} (hl : Lex ts)
    (hn : 16 * ts.length + 1 ≤ n + 1) : Clean ((Parser.parseMemberAccess (n + 1) l).run ts) := by
  rw [Parser.parseMemberAccess]
  refine clean_expectAndNext_bind (by decide) hl fun us hus hl => ?_
  refine clean_expectGetIdentAndNext_bind hl fun s vs hvs hl => ?_
  rw [run_curTok_bind]
  split
  · next ht =>
    have := length_tail_lt ht (by decide)
    rw [run_readNextToken_bind]
    exact ih.callArguments (Lex.of_tail hl) (by omega) fun _ _ => clean_ok _
  · exact clean_ok _

theorem parseArrayAccess_succ (ih : ExprClean n) {l : Expr} (hl : Lex ts)
    (hn : 16 * ts.length + 1 ≤ n + 1) : Clean ((Parser.parseArrayAccess (n + 1) l).run ts) := by
  rw [Parser.parseArrayAccess]
  refine clean_expectAndNext_bind (by decide) hl fun us hus hl => ?_
  exact ih.expressionUntil (by decide) hl (by omega) fun _ _ _ _ => clean_ok _

theorem parseArguments_succ (ih : ExprClean n) (hl : Lex ts) (hn : 16 * ts.length + 7 ≤ n + 1) :
    Clean ((Parser.parseArguments (n + 1)).run ts) := by
  rw [Parser.parseArguments, run_curTok_bind]
  split
  case h_11 => exact clean_ok _
  case h_12 => exact clean_parseError _
  all_goals
    refine clean_bind (ih.precedenceParse (Int.le_refl 0) hl (by omega)) fun e us h => ?_
    have hu := (exprSound n).precedenceParse (Int.le_refl 0) hl h
    have := hu.length_lt fun us hus => hus.ne_nil
    exact ih.argumentsLoop (hu.lex hl) (by omega)

theorem argumentsLoop_succ (ih : ExprClean n) {es : List Expr} (hl : Lex ts)
    (hn : 16 * ts.length + 1 ≤ n + 1) : Clean ((Parser.argumentsLoop (n + 1) es).run ts) := by
  rw [Parser.argumentsLoop, run_curTok_bind]
  split
  · next ht =>
    have := length_tail_lt ht (by decide)
    rw [run_readNextToken_bind]
    refine clean_bind (ih.precedenceParse (Int.le_refl 0) (Lex.of_tail hl) (by omega)) fun e us h => ?_
    have hu := (exprSound n).precedenceParse (Int.le_refl 0) (Lex.of_tail hl) h
    have := hu.length_le
    exact ih.argumentsLoop (hu.lex (Lex.of_tail hl)) (by omega)
  · exact clean_ok _

theorem parseNewExpr_succ (ih : ExprClean n) (hl : Lex ts) (hn : 16 * ts.length + 1 ≤ n + 1) :
    Clean ((Parser.parseNewExpr (n + 1)).run ts) := by
  rw [Parser.parseNewExpr]
  refine clean_expectAndNext_bind (by decide) hl fun us hus hl => ?_
  rw [run_lookAhead_bind]
  split
  · refine clean_expectGetIdentAndNext_bind hl fun s vs hvs hl => ?_
    rw [run_readNextToken_bind]
    exact clean_expectAndNext_bind (by decide) (Lex.of_tail hl) fun _ _ _ => clean_ok _
  · refine clean_bind (clean_parseBasicType us) fun b vs h => ?_
    obtain ⟨t, rfl, -⟩ := parseBasicType_eq_cons h
    have : vs.tail.length ≤ vs.length := by simp
    rw [run_readNextToken_bind]
    simp only [List.length_cons] at hus
    refine ih.expressionUntil (by decide) (Lex.of_tail hl.tail) (by omega) fun e ws hws hl => ?_
    exact clean_bind (ih.dimensionLoop (by omega)) fun _ _ _ => clean_ok _
  · exact clean_parseError _

theorem dimensionLoop_succ (ih : ExprClean n) {d : Nat} (hn : 16 * ts.length + 1 ≤ n + 1) :
    Clean ((Parser.dimensionLoop (n + 1) d).run ts) := by
  rw [Parser.dimensionLoop, run_curTok_bind, run_lookAhead_bind]
  split
  · next ht =>
    have := length_tail_lt ht.1 (by decide)
    have : ts.tail.tail.length ≤ ts.tail.length := by simp
    exact ih.dimensionLoop (by omega)
  · exact clean_ok _

end ExprClean

theorem exprClean (n : Nat) : ExprClean n := by
  induction n with
  | zero => constructor <;> intros <;> omega
  | succ n ih =>
    exact {
      precedenceParse := ih.precedenceParse_succ
      precedenceLoop := ih.precedenceLoop_succ
      parseUnary := fun hl hn => ih.unaryLoop hl (by omega)
      unaryLoop := ih.unaryLoop_succ
      parsePostfixExpr := ih.parsePostfixExpr_succ
      negLiteral := ih.negLiteral_succ
      postfixLoop := ih.postfixLoop_succ
      parsePrimary := ih.parsePrimary_succ
      parseMemberAccess := ih.parseMemberAccess_succ
      parseArrayAccess := ih.parseArrayAccess_succ
      parseArguments := ih.parseArguments_succ
      argumentsLoop := ih.argumentsLoop_succ
      parseNewExpr := ih.parseNewExpr_succ
      dimensionLoop := ih.dimensionLoop_succ }

theorem clean_parseExpr {n : Nat} {ts : List Token} (hl : Lex ts) (hn : 16 * ts.length + 6 ≤ n) :
    Clean ((parseExpr n).run ts) := (exprClean n).precedenceParse (Int.le_refl 0) hl hn

/-! ## Statements -/

section
variable {α : Type} {n : Nat} {ts : List Token}

/-- An expression up to a closing token, in a statement. -/
theorem clean_parseExpr_until {type : TT} (hne : type ≠ .Eof) {f : Expr → P α} (hl : Lex ts)
    (hn : 16 * ts.length + 6 ≤ n) (hf : ∀ e us, us.length < ts.length → Lex us → Clean ((f e).run us)) :
    Clean ((do let e ← parseExpr n; expectAndNext type; f e).run ts) := by
  refine clean_bind (clean_parseExpr hl hn) fun e us h => ?_
  have hu := parseExpr_sound hl h
  have := hu.length_le
  exact clean_expectAndNext_bind hne (hu.lex hl) fun vs hvs hl => hf e vs (by omega) hl

theorem clean_parseLocalVarDeclStmt (hl : Lex ts) (hn : 16 * ts.length < n) :
    Clean ((parseLocalVarDeclStmt n).run ts) := by
  refine clean_bind (clean_parseType hl hn) fun ty us h => ?_
  have hu := parseType_sound h
  have := hu.length_lt_of_derives rfl
  refine clean_expectGetIdentAndNext_bind (hu.lex hl) fun s vs hvs hl => ?_
  rw [run_curTok_bind]
  split
  · have : vs.tail.length ≤ vs.length := by simp
    rw [run_readNextToken_bind]
    exact clean_parseExpr_until (by decide) (Lex.of_tail hl) (by omega) fun _ _ _ _ => clean_ok _
  · exact clean_ok _
  · exact clean_parseError _

theorem clean_parseExprStmt (hl : Lex ts) (hn : 16 * ts.length + 6 ≤ n) :
    Clean ((parseExprStmt n).run ts) :=
  clean_parseExpr_until (by decide) hl hn fun _ _ _ _ => clean_ok _

theorem clean_parseReturnStmt (hl : Lex ts) (hn : 16 * ts.length ≤ n) :
    Clean ((parseReturnStmt n).run ts) := by
  refine clean_expectAndNext_bind (by decide) hl fun us hus hl => ?_
  rw [run_curTok_bind]
  split
  · exact clean_ok _
  · exact clean_parseExpr_until (by decide) hl (by omega) fun _ _ _ _ => clean_ok _

end

/-- The functions of statements with `n` steps, where `n` is large enough. -/
structure StmtClean (n : Nat) : Prop where
  parseBlock : ∀ {ts : List Token}, Lex ts → 16 * ts.length + 1 ≤ n → Clean ((parseBlock n).run ts)
  blockLoop : ∀ {ss : List Stmt} {ts : List Token}, Lex ts → 16 * ts.length + 10 ≤ n →
    Clean ((blockLoop n ss).run ts)
  parseBlockStatement : ∀ {ts : List Token}, Lex ts → 16 * ts.length + 9 ≤ n →
    Clean ((parseBlockStatement n).run ts)
  parseStmt : ∀ {ts : List Token}, Lex ts → 16 * ts.length + 8 ≤ n → Clean ((parseStmt n).run ts)
  parseIfStmt : ∀ {ts : List Token}, Lex ts → 16 * ts.length + 1 ≤ n → Clean ((parseIfStmt n).run ts)
  parseWhileStmt : ∀ {ts : List Token}, Lex ts → 16 * ts.length + 1 ≤ n → Clean ((parseWhileStmt n).run ts)

namespace StmtClean
variable {n : Nat} {ts : List Token}

theorem parseBlock_succ (ih : StmtClean n) (hl : Lex ts) (hn : 16 * ts.length + 1 ≤ n + 1) :
    Clean ((Parser.parseBlock (n + 1)).run ts) := by
  rw [Parser.parseBlock]
  exact clean_expectAndNext_bind (by decide) hl fun us hus hl => ih.blockLoop hl (by omega)

theorem blockLoop_succ (ih : StmtClean n) {ss : List Stmt} (hl : Lex ts) (hn : 16 * ts.length + 10 ≤ n + 1) :
    Clean ((Parser.blockLoop (n + 1) ss).run ts) := by
  rw [Parser.blockLoop, run_curTok_bind]
  split
  case h_1 => exact clean_ok _
  case h_20 => exact clean_parseError _
  all_goals
    next ht =>
    refine clean_bind (ih.parseBlockStatement hl (by omega)) fun s us h => ?_
    have hu := (stmtSound n).parseBlockStatement hl (by rw [ht]; decide) h
    have := hu.length_lt_of_derives rfl
    exact ih.blockLoop (hu.lex hl) (by omega)

theorem parseBlockStatement_succ (ih : StmtClean n) (hl : Lex ts) (hn : 16 * ts.length + 9 ≤ n + 1) :
    Clean ((Parser.parseBlockStatement (n + 1)).run ts) := by
  rw [Parser.parseBlockStatement, run_curTok_bind]
  split
  case h_18 =>
    rw [run_lookAhead_bind, run_lookAhead_bind]
    split
    · exact clean_map (clean_parseLocalVarDeclStmt hl (by omega))
    · exact ih.parseStmt hl (by omega)
  case h_19 => exact clean_ok _
  all_goals first
    | exact clean_map (clean_parseLocalVarDeclStmt hl (by omega))
    | exact ih.parseStmt hl (by omega)

theorem parseStmt_succ (ih : StmtClean n) (hl : Lex ts) (hn : 16 * ts.length + 8 ≤ n + 1) :
    Clean ((Parser.parseStmt (n + 1)).run ts) := by
  rw [Parser.parseStmt, run_curTok_bind]
  split
  case h_1 => exact clean_bind (ih.parseBlock hl (by omega)) fun _ _ _ => clean_ok _
  case h_2 => exact clean_ok _
  case h_3 => exact clean_map (ih.parseIfStmt hl (by omega))
  case h_4 => exact clean_map (clean_parseReturnStmt hl (by omega))
  case h_5 => exact clean_map (ih.parseWhileStmt hl (by omega))
  case h_16 => exact clean_parseError _
  all_goals exact clean_map (clean_parseExprStmt hl (by omega))

/-- The head of an `if` or a `while`. -/
theorem condition {type : TT} (hne : type ≠ .Eof) {f : Expr → P Stmt} (hl : Lex ts)
    (hn : 16 * ts.length ≤ n) (hf : ∀ e us, us.length + 2 < ts.length → Lex us → Clean ((f e).run us)) :
    Clean ((do
      expectAndNext type
      expectAndNext .LParen
      let e ← parseExpr n
      expectAndNext .RParen
      f e).run ts) := by
  refine clean_expectAndNext_bind hne hl fun us hus hl => ?_
  refine clean_expectAndNext_bind (by decide) hl fun vs hvs hl => ?_
  exact clean_parseExpr_until (by decide) hl (by omega) fun e ws hws hl => hf e ws (by omega) hl

theorem parseIfStmt_succ (ih : StmtClean n) (hl : Lex ts) (hn : 16 * ts.length + 1 ≤ n + 1) :
    Clean ((Parser.parseIfStmt (n + 1)).run ts) := by
  rw [Parser.parseIfStmt]
  refine condition (by decide) hl (by omega) fun e us hus hl => ?_
  refine clean_bind (ih.parseStmt hl (by omega)) fun s vs h => ?_
  have hu := (stmtSound n).parseStmt hl h
  have := hu.length_le
  rw [run_curTok_bind]
  split
  · next ht =>
    have := length_tail_lt ht (by decide)
    rw [run_readNextToken_bind]
    exact clean_bind (ih.parseStmt (Lex.of_tail (hu.lex hl)) (by omega)) fun _ _ _ => clean_ok _
  · exact clean_ok _

theorem parseWhileStmt_succ (ih : StmtClean n) (hl : Lex ts) (hn : 16 * ts.length + 1 ≤ n + 1) :
    Clean ((Parser.parseWhileStmt (n + 1)).run ts) := by
  rw [Parser.parseWhileStmt]
  refine condition (by decide) hl (by omega) fun e us hus hl => ?_
  exact clean_bind (ih.parseStmt hl (by omega)) fun _ _ _ => clean_ok _

end StmtClean

theorem stmtClean (n : Nat) : StmtClean n := by
  induction n with
  | zero => constructor <;> intros <;> omega
  | succ n ih =>
    exact {
      parseBlock := ih.parseBlock_succ
      blockLoop := ih.blockLoop_succ
      parseBlockStatement := ih.parseBlockStatement_succ
      parseStmt := ih.parseStmt_succ
      parseIfStmt := ih.parseIfStmt_succ
      parseWhileStmt := ih.parseWhileStmt_succ }

/-! ## Classes -/

section
variable {n : Nat} {ts : List Token}

theorem clean_parseParameter {idx : Nat} (hl : Lex ts) (hn : 16 * ts.length < n) :
    Clean ((parseParameter n idx).run ts) := by
  refine clean_bind (clean_parseType hl hn) fun ty us h => ?_
  exact clean_expectGetIdentAndNext_bind ((parseType_sound h).lex hl) fun _ _ _ _ => clean_ok _

theorem clean_parameterLoop {idx : Nat} {ps : List Parameter} (hl : Lex ts) (hn : 16 * ts.length < n) :
    Clean ((parameterLoop n idx ps).run ts) := by
  induction n generalizing ts idx ps with
  | zero => omega
  | succ n ih =>
    rw [parameterLoop, run_curTok_bind]
    split
    · next ht =>
      have := length_tail_lt ht (by decide)
      rw [run_readNextToken_bind]
      refine clean_bind (clean_parseParameter (Lex.of_tail hl) (by omega)) fun p us h => ?_
      have hu := parseParameter_sound h
      have := hu.length_le
      exact ih (hu.lex (Lex.of_tail hl)) (by omega)
    · exact clean_ok _

theorem clean_parseParameterList (hl : Lex ts) (hn : 16 * ts.length < n) :
    Clean ((parseParameterList n).run ts) := by
  rw [parseParameterList, run_curTok_bind]
  split
  case h_5 => exact clean_ok _
  all_goals
    refine clean_bind (clean_parseParameter hl hn) fun p us h => ?_
    have hu := parseParameter_sound h
    have := hu.length_le
    exact clean_parameterLoop (hu.lex hl) (by omega)

theorem clean_skipThrows (ts : List Token) : Clean (skipThrows.run ts) := by
  rw [skipThrows, run_curTok_bind]
  split
  · exact clean_expectAndNext _ _
  · exact clean_ok _

/-- The end of a method, from its closing parenthesis. -/
theorem clean_methodBody {α : Type} {f : Block → P α} (hl : Lex ts) (hn : 16 * ts.length < n)
    (hf : ∀ b us, Clean ((f b).run us)) :
    Clean ((do
      expectAndNext .RParen
      skipThrows
      let block ← parseBlock n
      f block).run ts) := by
  refine clean_expectAndNext_bind (by decide) hl fun us hus hl => ?_
  refine clean_bind (clean_skipThrows us) fun _ vs h => ?_
  have hu := skipThrows_sound h
  have := hu.length_le
  exact clean_bind ((stmtClean n).parseBlock (hu.lex hl) (by omega)) fun b ws _ => hf b ws

theorem clean_parseMainMethod (hl : Lex ts) (hn : 16 * ts.length < n) :
    Clean ((parseMainMethod n).run ts) := by
  refine clean_expectAndNext_bind (by decide) hl fun us₁ hus₁ hl => ?_
  refine clean_expectAndNext_bind (by decide) hl fun us₂ hus₂ hl => ?_
  refine clean_expectAndNext_bind (by decide) hl fun us₃ hus₃ hl => ?_
  refine clean_expectGetIdentAndNext_bind hl fun name us₄ hus₄ hl => ?_
  refine clean_expectAndNext_bind (by decide) hl fun us₅ hus₅ hl => ?_
  rw [run_expect_bind]
  split
  · exact clean_parseError _
  · rw [run_curTok_bind]
    split
    · exact clean_parseError _
    · rw [run_readNextToken_bind]
      have : us₅.tail.length ≤ us₅.length := by simp
      refine clean_expectAndNext_bind (by decide) (Lex.of_tail hl) fun us₆ hus₆ hl => ?_
      refine clean_expectAndNext_bind (by decide) hl fun us₇ hus₇ hl => ?_
      refine clean_expectGetIdentAndNext_bind hl fun arg us₈ hus₈ hl => ?_
      exact clean_methodBody hl (by omega) fun _ _ => clean_ok _

theorem clean_parseFieldOrMethod (hl : Lex ts) (hn : 16 * ts.length < n) :
    Clean ((parseFieldOrMethod n).run ts) := by
  refine clean_expectAndNext_bind (by decide) hl fun us hus hl => ?_
  refine clean_bind (clean_parseType hl (by omega)) fun ty vs h => ?_
  have hv := parseType_sound h
  have := hv.length_le
  refine clean_expectGetIdentAndNext_bind (hv.lex hl) fun name ws hws hl => ?_
  rw [run_curTok_bind]
  split
  · exact clean_ok _
  · have : ws.tail.length ≤ ws.length := by simp
    rw [run_readNextToken_bind]
    refine clean_bind (clean_parseParameterList (Lex.of_tail hl) (by omega)) fun ps xs h => ?_
    have hx := parseParameterList_sound h
    have := hx.length_le
    exact clean_methodBody (hx.lex (Lex.of_tail hl)) (by omega) fun _ _ => clean_ok _
  · exact clean_parseError _

theorem clean_parseClassMember (hl : Lex ts) (hn : 16 * ts.length < n) :
    Clean ((parseClassMember n).run ts) := by
  rw [parseClassMember, run_lookAhead_bind]
  split
  case h_1 => exact clean_map (clean_parseMainMethod hl hn)
  case h_6 => exact clean_parseError _
  all_goals exact clean_parseFieldOrMethod hl hn

theorem clean_memberLoop {c : Ast.Class} (hl : Lex ts) (hn : 16 * ts.length + 2 ≤ n) :
    Clean ((memberLoop n c).run ts) := by
  induction n generalizing ts c with
  | zero => omega
  | succ n ih =>
    rw [memberLoop, run_curTok_bind]
    split
    · exact clean_ok _
    · refine clean_bind (clean_parseClassMember hl (by omega)) fun m us h => ?_
      have hu := parseClassMember_sound hl h
      have := hu.length_lt_of_derives rfl
      exact ih (hu.lex hl) (by omega)
    · exact clean_parseError _

theorem clean_parseClassDeclaration (hl : Lex ts) (hn : 16 * ts.length ≤ n) :
    Clean ((parseClassDeclaration n).run ts) := by
  refine clean_expectAndNext_bind (by decide) hl fun us hus hl => ?_
  refine clean_expectGetIdentAndNext_bind hl fun name vs hvs hl => ?_
  exact clean_expectAndNext_bind (by decide) hl fun ws hws hl => clean_memberLoop hl (by omega)

theorem clean_programLoop {cs : List Ast.Class} (hl : Lex ts) (hn : 16 * ts.length < n) :
    Clean ((programLoop n cs).run ts) := by
  induction n generalizing ts cs with
  | zero => omega
  | succ n ih =>
    rw [programLoop, run_curTok_bind]
    split
    · refine clean_bind (clean_parseClassDeclaration hl (by omega)) fun c us h => ?_
      have hu := parseClassDeclaration_sound hl h
      have := hu.length_lt_of_derives rfl
      exact ih (hu.lex hl) (by omega)
    · exact clean_ok _
    · exact clean_parseError _

/-- `parseProgram` returns a program or raises a `ParseError`. -/
theorem clean_parseProgram (hl : Lex ts) : Clean (parseProgram ts) := by
  have h := @clean_programLoop (stepBound ts) ts [] hl (by unfold stepBound; omega)
  unfold parseProgram
  split
  · exact clean_ok _
  · next s hs =>
    obtain ⟨e, rfl⟩ := h s hs
    exact clean_parseError e

end

end Mjc.Parser

import Mjc.Parser.Returning
import Mjc.Printer.Derivable

/-!
# Printed expressions are read back

The printer puts parentheses around an operator expression or a negative literal where the flag asks for them. It does not
ask for them at a receiver, nor on the left of an assignment.

* `parenthesised b e` : with the flag `b` before, no receiver of `e` is an operator expression without parentheses, and no
  assignment is the left side of one;
* `Starts` : the first token of what is printed;
* `ReadsBack` : what an expression is read as, with the flag and without it; `exprPieces_readsBack`.
-/

namespace Mjc.Printer
open Mjc.Ast Mjc.Lexer Mjc.Grammar Mjc.Parser

set_option autoImplicit false

/-! ## Where parentheses are missing -/

/-- The expressions that `maybePlaceParenthesis` is called for, literals apart. -/
def isOperator : Expr → Bool
  | .binary _ _ _ | .unary _ _ => true
  | _ => false

def isAssignment : Expr → Bool
  | .binary .assign _ _ => true
  | _ => false

mutual

/-- Printed with the flag `b`, every operator expression that is a receiver stands in parentheses, and no assignment is the
left side of an assignment. -/
def parenthesised (b : Bool) : Expr → Bool
  | .intLiteral _ | .boolLiteral _ | .nullLiteral | .thisLiteral | .varRef _ | .newObject _ => true
  | .methodInvocation left _ arguments =>
    (b || !isOperator left) && parenthesised b left && argsParenthesised (after left) arguments
  | .fieldAccess left _ => (b || !isOperator left) && parenthesised b left
  | .arrayAccess array index => (b || !isOperator array) && parenthesised b array && parenthesised (after array) index
  | .newArray _ _ size => parenthesised false size
  | .binary op left right =>
    !(op = .assign && isAssignment left) && parenthesised (op ≠ .assign) left &&
      parenthesised (op ≠ .assign || after left) right
  | .unary _ expression => parenthesised true expression

/-- The arguments of a call, the first one printed with the flag `b`. -/
def argsParenthesised (b : Bool) : List Expr → Bool
  | [] => true
  | e :: l => parenthesised b e && argsParenthesised (after e) l

end

/-! ## First tokens -/

/-- The tokens start with one whose type is among these. -/
def Starts (types : List TT) (ts : List Token) : Prop := ∃ t us, ts = t :: us ∧ t.type ∈ types

theorem Starts.append {types : List TT} {ts : List Token} (h : Starts types ts) (vs : List Token) :
    Starts types (ts ++ vs) := by
  obtain ⟨t, us, rfl, ht⟩ := h
  exact ⟨t, us ++ vs, rfl, ht⟩

/-- An operand starts neither with a sign nor with a literal. -/
def operandStarts : List TT := [.LParen, .False, .True, .Null, .This, .Identifier, .New]

theorem exprPieces_starts {e : Expr} (h : WfExpr e) : Starts operandStarts (tokens (exprPieces true e)) := by
  induction h with
  | intLiteral | binary | unary => exact ⟨⟨.LParen, "("⟩, _, rfl, by decide⟩
  | boolLiteral value => cases value <;> exact ⟨_, _, rfl, by decide⟩
  | nullLiteral | thisLiteral | newObject => exact ⟨_, _, rfl, by decide⟩
  | newArray => exact ⟨⟨.New, "new"⟩, _, rfl, by decide⟩
  | varRef => exact ⟨_, _, rfl, (by decide : Token.Type.Identifier ∈ operandStarts)⟩
  | fieldAccess _ _ ihl =>
    rw [exprPieces, tokens_append]
    exact ihl.append _
  | methodInvocation _ _ _ ihl | arrayAccess _ _ ihl =>
    rw [exprPieces]
    simp only [List.append_assoc, tokens_append]
    exact ihl.append _

/-- What is printed for an expression starts like one. -/
theorem exprPieces_first {e : Expr} (h : WfExpr e) (b : Bool) : Starts firstExpression (tokens (exprPieces b e)) := by
  have hd := exprPieces_expression h b
  obtain ⟨t, us, ht⟩ := List.exists_cons_of_ne_nil (hd.ne_nil rfl)
  have hlex := (exprPieces_legible h b [] fun c hc => by cases hc).lex
  rw [ht] at hlex
  exact ⟨t, us, ht, hd.head_mem ht hlex.head⟩

/-! ## Primary expressions -/

section Primary

variable {rest : List Token}

theorem parsePrimary_bool (value : Bool) :
    Returns parsePrimary (tokens [if value then sym .True "true" else sym .False "false"]) (.boolLiteral value) rest := by
  refine .step (fun n => by rw [parsePrimary]) ?_
  cases value <;> refine .curTok_cons ?_ <;> dsimp only <;> exact .readNextToken (.pure _ _)

theorem parsePrimary_null : Returns parsePrimary [⟨.Null, "null"⟩] .nullLiteral rest := by
  refine .step (fun n => by rw [parsePrimary]) (.curTok_cons ?_)
  dsimp only
  exact .readNextToken (.pure _ _)

theorem parsePrimary_this : Returns parsePrimary [⟨.This, "this"⟩] .thisLiteral rest := by
  refine .step (fun n => by rw [parsePrimary]) (.curTok_cons ?_)
  dsimp only
  exact .readNextToken (.pure _ _)

theorem parsePrimary_varRef (x : String) (hr : AfterPrimary rest) :
    Returns parsePrimary [⟨.Identifier, x⟩] (.varRef x) rest := by
  refine .step (fun n => by rw [parsePrimary]) (.curTok_cons ?_)
  dsimp only
  refine .readNextToken (.curTok ?_)
  simp only [List.nil_append, if_neg hr.1]
  exact .pure _ _

theorem parsePrimary_literal {str : String} {value : Int} (hv : stoiDigits str = some value) (hrange : InIntRange value) :
    Returns parsePrimary [⟨.IntLiteral, str⟩] (.intLiteral value) rest := by
  refine .step (fun n => by rw [parsePrimary]) (.curTok_cons ?_)
  simp only [hv, if_pos hrange]
  exact .readNextToken (.pure _ _)

/-- An expression in parentheses. -/
theorem parsePrimary_parens {ts : List Token} {e : Expr} (h : ExprReturns ts e) :
    Returns parsePrimary (⟨.LParen, "("⟩ :: (ts ++ [⟨.RParen, ")"⟩])) e rest := by
  have hstop : StopAt 0 ([⟨.RParen, ")"⟩] ++ rest) := .cons rfl (by decide)
  refine .step (fun n => by rw [parsePrimary]) (.curTok_cons ?_)
  dsimp only
  refine .readNextToken (.bind (h (by decide : (0 : Int) ≤ 0) (by decide) hstop) ?_)
  refine .token ?_
  exact .pure _ _

theorem parsePrimary_newObject (x : String) :
    Returns parsePrimary [⟨.New, "new"⟩, ⟨.Identifier, x⟩, ⟨.LParen, "("⟩, ⟨.RParen, ")"⟩] (.newObject x) rest := by
  refine .step (fun n => by rw [parsePrimary]) (.curTok_cons ?_)
  dsimp only
  refine .step (fun n => by rw [parseNewExpr]) (.token (.lookAhead rfl ?_))
  dsimp only [List.cons_append, List.drop_succ_cons, List.drop_zero, headTok_cons]
  refine .identToken ?_
  refine .readNextToken ?_
  refine .token ?_
  exact .pure _ _

theorem parseBasicType_returns (b : BasicType) : Returns (fun _ => parseBasicType) [basicToken b] b rest := by
  unfold parseBasicType
  rcases b with (_ | _ | _) | name <;> refine .curTok_cons ?_ <;> exact ⟨0, fun _ _ => rfl⟩

theorem dimensionLoop_returns (k : Nat) {d : Nat} (hr : AfterPrimary rest) :
    Returns (fun n => dimensionLoop n d) (tokens (brackets k)) (d + k) rest := by
  induction k generalizing d with
  | zero =>
    refine .step (fun n => by rw [dimensionLoop]) (.curTok (.lookAhead rfl ?_))
    have hstop : ¬ ((headTok (tokens (brackets 0) ++ rest)).type = .LBracket ∧
        (headTok (List.drop 1 (tokens (brackets 0) ++ rest))).type = .RBracket) := hr.2
    simp only [if_neg hstop]
    exact .pure _ _
  | succ k ih =>
    refine .step (fun n => by rw [dimensionLoop]) (.curTok (.lookAhead rfl ?_))
    rw [← Nat.add_assoc, Nat.add_right_comm]
    exact .readNextToken (.readNextToken (@ih (d + 1)))

theorem parsePrimary_newArray {ts : List Token} {e : Expr} (b : BasicType) {dimension : Nat} (hd : 1 ≤ dimension)
    (h : ExprReturns ts e) (hr : AfterPrimary rest) :
    Returns parsePrimary (⟨.New, "new"⟩ :: basicToken b :: ⟨.LBracket, "["⟩ :: (ts ++ ⟨.RBracket, "]"⟩ ::
      tokens (brackets (dimension - 1)))) (.newArray b dimension e) rest := by
  refine .step (fun n => by rw [parsePrimary]) (.curTok_cons ?_)
  dsimp only
  refine .step (fun n => by rw [parseNewExpr]) (.token (.lookAhead rfl ?_))
  dsimp only [List.cons_append, List.drop_succ_cons, List.drop_zero, headTok_cons]
  refine @Returns.bind _ _ [basicToken b] _ _ _ _ _ _ (parseBasicType_returns b) (.readNextToken ?_)
  have hstop : StopAt 0 (⟨.RBracket, "]"⟩ :: tokens (brackets (dimension - 1)) ++ rest) := .cons rfl (by decide)
  refine .bind (h (by decide : (0 : Int) ≤ 0) (by decide) hstop) ?_
  refine .token ?_
  refine .last (dimensionLoop_returns _ hr) ?_
  rw [show 1 + (dimension - 1) = dimension by omega]
  exact .pure _ _

end Primary

/-! ## Reading expressions back -/

/-- The first operand of an expression: a postfix expression, with its sign if it starts with a negative literal. -/
inductive Leads : List Token → Expr → Prop where
  | plain {ts : List Token} {e : Expr} (h : PostfixReturns ts e) (hs : Starts (.IntLiteral :: operandStarts) ts) : Leads ts e
  | negative {m t : Token} {us : List Token} {e : Expr} (hm : m.type = .Minus) (ht : t.type = .IntLiteral)
      (h : PostfixReturns ({ t with str := "-" ++ t.str } :: us) e) : Leads (m :: t :: us) e

theorem Leads.unary {ts : List Token} {e : Expr} (h : Leads ts e) : UnaryReturns ts e := by
  cases h with
  | plain h hs =>
    obtain ⟨t, us, rfl, ht⟩ := hs
    refine h.unary ?_ ?_
    · rintro hb; rw [hb] at ht; exact absurd ht (by decide)
    · rintro hm; rw [hm] at ht; exact absurd ht (by decide)
  | negative hm ht h => exact h.negative hm ht

/-- A postfix operator goes on with the operand. -/
theorem Leads.append {ts us : List Token} {l e : Expr} (h : Leads ts l)
    (hop : ∀ ⦃vs⦄, PostfixReturns vs l → PostfixReturns (vs ++ us) e) : Leads (ts ++ us) e := by
  cases h with
  | plain h hs => exact .plain (hop h) (hs.append us)
  | negative hm ht h => exact .negative hm ht (hop h)

/-- What is printed for the expression is read back, at the level that the flag stands for. -/
def ReadsBack (b : Bool) (e : Expr) : Prop :=
  if b then PostfixReturns (tokens (exprPieces true e)) e
  else ExprReturns (tokens (exprPieces false e)) e ∧
    (isAssignment e = false → OperandReturns (tokens (exprPieces false e)) e) ∧
    (isOperator e = false → Leads (tokens (exprPieces false e)) e)

theorem readsBack_of_leads {e : Expr} (h : Leads (tokens (exprPieces false e)) e) : ReadsBack false e :=
  ⟨h.unary.operand.expr, fun _ => h.unary.operand, fun _ => h⟩

theorem unaryReturns_of_readsBack {e : Expr} (he : WfExpr e) (h : ReadsBack true e) :
    UnaryReturns (tokens (exprPieces true e)) e := by
  obtain ⟨t, us, hts, ht⟩ := exprPieces_starts he
  have hplain : Leads (tokens (exprPieces true e)) e := .plain h ⟨t, us, hts, List.mem_cons_of_mem _ ht⟩
  exact hplain.unary

theorem ReadsBack.expr {b : Bool} {e : Expr} (h : ReadsBack b e) (he : WfExpr e) :
    ExprReturns (tokens (exprPieces b e)) e := by
  cases b with
  | false => exact h.1
  | true => exact (unaryReturns_of_readsBack he h).operand.expr

/-- A postfix expression is read back at both levels, if it is with the tokens of its first operand. -/
theorem readsBack_postfix {b : Bool} {l e : Expr} (us : List Token) (hl : ReadsBack b l) (hb : (b || !isOperator l) = true)
    (htoks : ∀ b, tokens (exprPieces b e) = tokens (exprPieces b l) ++ us)
    (hop : ∀ ⦃vs⦄, PostfixReturns vs l → PostfixReturns (vs ++ us) e) : ReadsBack b e := by
  cases b with
  | true =>
    show PostfixReturns (tokens (exprPieces true e)) e
    rw [htoks]
    exact hop hl
  | false =>
    refine readsBack_of_leads ?_
    rw [htoks]
    refine Leads.append (hl.2.2 ?_) hop
    simpa using hb

/-- A primary expression is read back at both levels. -/
theorem readsBack_primary {e : Expr} (ts : List Token) (b : Bool) (htoks : ∀ b, tokens (exprPieces b e) = ts)
    (hs : Starts (.IntLiteral :: operandStarts) ts) (h : ∀ ⦃rest⦄, AfterPrimary rest → Returns parsePrimary ts e rest) :
    ReadsBack b e := by
  cases b with
  | true =>
    show PostfixReturns (tokens (exprPieces true e)) e
    rw [htoks]
    exact .primary h
  | false =>
    refine readsBack_of_leads ?_
    rw [htoks]
    exact .plain (.primary h) hs

/-- What is printed in parentheses where the flag asks for them. -/
theorem readsBack_parens {b : Bool} {e : Expr} {ps : List Piece} (hps : ∀ b, exprPieces b e = parens b ps)
    (h : ReadsBack false e) : ReadsBack b e := by
  cases b with
  | false => exact h
  | true =>
    have hexpr := h.1
    rw [hps] at hexpr
    show PostfixReturns (tokens (exprPieces true e)) e
    have htoks : tokens (parens true ps) = ⟨.LParen, "("⟩ :: (tokens ps ++ [⟨.RParen, ")"⟩]) := by simp [parens]
    rw [hps, htoks]
    exact .primary fun _ _ => parsePrimary_parens hexpr

theorem isDecimal_nat (n : Nat) : Token.IsDecimal (toString n) := (spelled_nat n).lexical.literal rfl

theorem intLiteral_readsBack {value : Int} (h : InIntRange value) (b : Bool) : ReadsBack b (.intLiteral value) := by
  refine @readsBack_parens b _ (intPieces value) (fun b => by rw [exprPieces]) (readsBack_of_leads ?_)
  rw [exprPieces]
  show Leads (tokens (intPieces value)) _
  unfold intPieces
  have hvalue := digitsValue_nat value.natAbs
  by_cases hneg : value < 0
  · rw [if_pos hneg]
    have hv : stoiDigits ("-" ++ toString value.natAbs) = some value := by
      rw [stoiDigits_neg_of_isDecimal (isDecimal_nat _), hvalue]
      exact congrArg some (by omega)
    exact .negative rfl rfl (.primary fun _ _ => parsePrimary_literal hv h)
  · rw [if_neg hneg]
    have hv : stoiDigits (toString value.natAbs) = some value := by
      rw [stoiDigits_of_isDecimal (isDecimal_nat _), hvalue]
      exact congrArg some (by omega)
    exact .plain (.primary fun _ _ => parsePrimary_literal hv h) ⟨_, _, rfl, List.mem_cons_self⟩

/-! ## Arguments -/

theorem stopAt_moreArgs {rest : List Token} (b : Bool) (l : List Expr) (hr : (headTok rest).type = .RParen) :
    StopAt 0 (tokens (moreArgPieces b l) ++ rest) := by
  cases l with
  | nil =>
    rw [moreArgPieces]
    exact .of_type hr (by decide)
  | cons e l =>
    rw [moreArgPieces]
    exact .cons rfl (by decide)

theorem argumentsLoop_returns {l : List Expr} {b : Bool} {acc : List Expr} {rest : List Token}
    (h : ∀ e ∈ l, ∀ b, parenthesised b e = true → ExprReturns (tokens (exprPieces b e)) e)
    (hl : argsParenthesised b l = true) (hr : (headTok rest).type = .RParen) :
    Returns (fun n => argumentsLoop n acc) (tokens (moreArgPieces b l)) (acc ++ l) rest := by
  induction l generalizing b acc with
  | nil =>
    refine .step (fun n => by rw [argumentsLoop]) (.curTok ?_)
    have hne : ¬ (headTok (tokens (moreArgPieces b []) ++ rest)).type = .Comma := by
      rw [moreArgPieces, tokens_nil, List.nil_append, hr]
      decide
    simp only [if_neg hne, List.append_nil]
    exact .pure _ _
  | cons e l ih =>
    rw [argsParenthesised, Bool.and_eq_true] at hl
    have htoks : tokens (moreArgPieces b (e :: l)) =
        ⟨.Comma, ","⟩ :: (tokens (exprPieces b e) ++ tokens (moreArgPieces (after e) l)) := by simp [moreArgPieces]
    rw [htoks]
    refine .step (fun n => by rw [argumentsLoop]) (.curTok_cons ?_)
    simp only [if_true]
    have hstop := stopAt_moreArgs (after e) l hr
    refine .readNextToken (.bind (h e List.mem_cons_self b hl.1 (by decide : (0 : Int) ≤ 0) (by decide) hstop) ?_)
    rw [List.append_cons acc e l]
    exact ih (fun e' he' => h e' (List.mem_cons_of_mem _ he')) hl.2

theorem argPieces_return {l : List Expr} {b : Bool} (hw : ∀ e ∈ l, WfExpr e)
    (h : ∀ e ∈ l, ∀ b, parenthesised b e = true → ExprReturns (tokens (exprPieces b e)) e)
    (hl : argsParenthesised b l = true) : ArgumentsReturn (tokens (argPieces b l)) l := by
  intro rest hr
  cases l with
  | nil =>
    refine .step (fun n => by rw [parseArguments]) (.curTok ?_)
    rw [argPieces, tokens_nil, List.nil_append]
    simp only [hr]
    exact .pure _ _
  | cons e l =>
    rw [argsParenthesised, Bool.and_eq_true] at hl
    have hstop := stopAt_moreArgs (after e) l hr
    have hargs : Returns (fun n => precedenceParse n 0 >>= fun argument => argumentsLoop n [argument])
        (tokens (argPieces b (e :: l))) (e :: l) rest := by
      rw [argPieces, tokens_append]
      refine .bind (h e List.mem_cons_self b hl.1 (by decide : (0 : Int) ≤ 0) (by decide) hstop) ?_
      exact argumentsLoop_returns (fun e' he' => h e' (List.mem_cons_of_mem _ he')) hl.2 hr
    obtain ⟨t, us, hts, ht⟩ := exprPieces_first (hw e List.mem_cons_self) b
    rw [argPieces, tokens_append, hts, List.cons_append] at hargs ⊢
    refine .step (fun n => by rw [parseArguments]) (.curTok_cons ?_)
    simp only [firstExpression, List.mem_cons, List.not_mem_nil, or_false] at ht
    rcases ht with ht | ht | ht | ht | ht | ht | ht | ht | ht | ht <;> simp only [ht] <;> exact hargs

/-! ## Expressions -/

theorem getOpForToken_opType (op : BinaryOp) : getOpForToken (opType op) = some op := by cases op <;> rfl

theorem opType_eq_iff (op : BinaryOp) : opType op = .Eq ↔ op = .assign := by cases op <;> decide

theorem binary_readsBack {op : BinaryOp} {l r : Expr} (hwl : WfExpr l) (hwr : WfExpr r)
    (ha : (op = .assign && isAssignment l) = false) (hl : ReadsBack (op ≠ .assign) l)
    (hr : ReadsBack (op ≠ .assign || after l) r) (b : Bool) : ReadsBack b (.binary op l r) := by
  refine readsBack_parens (fun b => by rw [exprPieces]) ?_
  have htoks : tokens (exprPieces false (.binary op l r)) = tokens (exprPieces (op ≠ .assign) l) ++
      ⟨opType op, binaryOperationToString op⟩ :: tokens (exprPieces (op ≠ .assign || after l) r) := by
    simp [exprPieces, parens, opPieces]
  unfold ReadsBack
  rw [htoks]
  by_cases hop : op = .assign
  · subst hop
    have hassign : ExprReturns (tokens (exprPieces false l) ++ ⟨.Eq, "="⟩ :: tokens (exprPieces (after l) r))
        (.binary .assign l r) := (hl.2.1 (by simpa using ha)).assign rfl (hr.expr hwr)
    exact ⟨hassign, fun h => Bool.noConfusion h, fun h => Bool.noConfusion h⟩
  · have hne : (decide (op ≠ .assign)) = true := decide_eq_true hop
    rw [hne, Bool.true_or] at hr
    rw [hne] at hl
    rw [hne, Bool.true_or]
    have hoperand := (unaryReturns_of_readsBack hwl hl).binary
      (show getOpForToken (⟨opType op, binaryOperationToString op⟩ : Token).type = some op from getOpForToken_opType op)
      (fun h => hop ((opType_eq_iff op).mp h)) (unaryReturns_of_readsBack hwr hr)
    exact ⟨hoperand.expr, fun _ => hoperand, fun h => by cases h⟩

theorem unary_readsBack {op : UnaryOp} {e : Expr} (hw : WfExpr e) (he : ReadsBack true e) (b : Bool) :
    ReadsBack b (.unary op e) := by
  refine readsBack_parens (fun b => by rw [exprPieces]) ?_
  obtain ⟨t, us, hts, ht⟩ := exprPieces_starts hw
  have hu : UnaryReturns (tokens (exprPieces false (.unary op e))) (.unary op e) := by
    have hpost : PostfixReturns (t :: us) e := hts ▸ he
    have hstart : ∀ type ∈ [Token.Type.Bang, .Minus, .IntLiteral], t.type ≠ type := by
      rintro type htype rfl
      exact absurd ht (by revert htype; cases t.type <;> decide)
    have htoks : tokens (exprPieces false (.unary op e)) = ⟨signType op, unaryOperationToString op⟩ :: t :: us := by
      rw [← hts]
      cases op <;> simp [exprPieces, parens, unaryPiece, signType, unaryOperationToString]
    rw [htoks]
    exact hpost.sign rfl (hstart _ (by simp)) (hstart _ (by simp)) (hstart _ (by simp))
  exact ⟨hu.operand.expr, fun _ => hu.operand, fun h => by cases h⟩

/-- An expression is read back as itself, if parentheses stand wherever they have to. -/
theorem exprPieces_readsBack {e : Expr} (h : WfExpr e) {b : Bool} (hp : parenthesised b e = true) : ReadsBack b e := by
  induction h generalizing b with
  | intLiteral hv => exact intLiteral_readsBack hv b
  | boolLiteral value =>
    refine readsBack_primary _ b (fun b => by rw [exprPieces]) ?_ fun _ _ => parsePrimary_bool value
    cases value <;> exact ⟨_, _, rfl, by decide⟩
  | nullLiteral =>
    exact readsBack_primary _ b (fun b => by rw [exprPieces]; rfl) ⟨_, _, rfl, by decide⟩ fun _ _ => parsePrimary_null
  | thisLiteral =>
    exact readsBack_primary _ b (fun b => by rw [exprPieces]; rfl) ⟨_, _, rfl, by decide⟩ fun _ _ => parsePrimary_this
  | varRef hn =>
    exact readsBack_primary _ b (fun b => by rw [exprPieces]; rfl) ⟨_, _, rfl, by simp [operandStarts]⟩
      fun _ hr => parsePrimary_varRef _ hr
  | @methodInvocation left name arguments hl hn ha ihl iha =>
    rw [parenthesised, Bool.and_eq_true, Bool.and_eq_true] at hp
    have hargs : ArgumentsReturn (tokens (argPieces (after left) arguments)) arguments :=
      argPieces_return ha (fun e he b hb => (iha e he hb).expr (ha e he)) hp.2
    refine readsBack_postfix (⟨.Dot, "."⟩ :: ⟨.Identifier, name⟩ :: ⟨.LParen, "("⟩ ::
      (tokens (argPieces (after left) arguments) ++ [⟨.RParen, ")"⟩])) (ihl hp.1.2) hp.1.1 (fun b => by simp [exprPieces])
      fun vs hvs => ?_
    exact hvs.member rfl fun _ _ => parseMemberAccess_call rfl rfl rfl hargs rfl
  | @fieldAccess left name hl hn ihl =>
    rw [parenthesised, Bool.and_eq_true] at hp
    refine readsBack_postfix [⟨.Dot, "."⟩, ⟨.Identifier, name⟩] (ihl hp.2) hp.1 (fun b => by simp [exprPieces])
      fun vs hvs => ?_
    exact hvs.member rfl fun _ hr => parseMemberAccess_field rfl rfl hr
  | @arrayAccess array index ha hi iha ihi =>
    rw [parenthesised, Bool.and_eq_true, Bool.and_eq_true] at hp
    have hindex := (ihi hp.2).expr hi
    refine readsBack_postfix (⟨.LBracket, "["⟩ :: (tokens (exprPieces (after array) index) ++ [⟨.RBracket, "]"⟩]))
      (iha hp.1.2) hp.1.1 (fun b => by simp [exprPieces]) fun vs hvs => ?_
    refine hvs.index rfl (by simp) ?_ fun _ => parseArrayAccess_returns rfl hindex rfl
    obtain ⟨t, us, hts, ht⟩ := exprPieces_first hi (after array)
    rw [hts, List.cons_append, headTok_cons]
    rintro hb
    rw [hb] at ht
    exact absurd ht (by decide)
  | newObject hn =>
    exact readsBack_primary _ b (fun b => by rw [exprPieces]; rfl) ⟨_, _, rfl, by simp [operandStarts]⟩
      fun _ _ => parsePrimary_newObject _
  | @newArray elementType dimension size ht hd hs ihs =>
    rw [parenthesised] at hp
    have hsize := (ihs hp).expr hs
    refine readsBack_primary (⟨.New, "new"⟩ :: basicToken elementType :: ⟨.LBracket, "["⟩ ::
      (tokens (exprPieces false size) ++ ⟨.RBracket, "]"⟩ :: tokens (brackets (dimension - 1)))) b
      (fun b => by simp [exprPieces]) ⟨_, _, rfl, by simp [operandStarts]⟩ fun _ hr => ?_
    exact parsePrimary_newArray elementType hd hsize hr
  | @binary op left right hl hr ihl ihr =>
    rw [parenthesised, Bool.and_eq_true, Bool.and_eq_true] at hp
    exact binary_readsBack hl hr (by simpa [← imp_iff_not_or] using hp.1.1) (ihl hp.1.2) (ihr hp.2) b
  | unary he ihe =>
    rw [parenthesised] at hp
    exact unary_readsBack he (ihe hp) b

end Mjc.Printer

import Mjc.Parser.Fuel
import Mjc.Parser.Soundness

/-!
# Integer literals under prefix operators

`parseUnary` folds a minus directly before a literal into its text.

* `prefixOp`, `foldedTree`, `unfoldedTree` : the operators before a literal, and the trees with and without that fold;
* `InRange ops v` : the literal is an `int`, or `2147483648` directly behind a unary minus;
* `value` : what a tree denotes modulo `2 ^ 32`, for any meaning of `!`;
* `parseUnary_literal` : when the literal is accepted, and what its tree denotes.
-/

namespace Mjc.Parser
open Mjc.Ast

set_option autoImplicit false

/-! ## Trees -/

/-- The operator of a `!` or a `-` token. -/
def prefixOp (t : Token) : UnaryOp := if t.type = .Minus then .neg else .not

/-- The token is a unary operator. -/
def UnaryTok (t : Token) : Prop := t.type = .Bang ∨ t.type = .Minus

/-- The operators around an expression, the first one outermost. -/
def applyOps (ops : List UnaryOp) (e : Expr) : Expr := ops.foldr Expr.unary e

/-- All operators stay operators. -/
def unfoldedTree (ops : List UnaryOp) (v : Nat) : Expr := applyOps ops (.intLiteral v)

/-- A minus directly before the literal is part of it. -/
def foldedTree (ops : List UnaryOp) (v : Nat) : Expr :=
  if ops.getLast? = some .neg then applyOps ops.dropLast (.intLiteral (-v)) else unfoldedTree ops v

/-- The literal with these operators before it is accepted. -/
def InRange (ops : List UnaryOp) (v : Nat) : Prop := v ≤ 2147483647 ∨ v = 2147483648 ∧ ops.getLast? = some .neg

/-- What a literal with operators denotes, modulo `2 ^ 32`; `not` is the meaning of `!`. -/
def value (not : BitVec 32 → BitVec 32) : Expr → Option (BitVec 32)
  | .intLiteral v => some (BitVec.ofInt 32 v)
  | .unary .neg e => (value not e).map fun w => -w
  | .unary .not e => (value not e).map not
  | _ => none

theorem value_applyOps (not : BitVec 32 → BitVec 32) {e e' : Expr} (h : value not e = value not e') (ops : List UnaryOp) :
    value not (applyOps ops e) = value not (applyOps ops e') := by
  induction ops with
  | nil => exact h
  | cons op ops ih =>
    cases op with
    | neg => exact congrArg (Option.map fun w => -w) ih
    | not => exact congrArg (Option.map not) ih

/-- Folding the minus into the literal keeps what the tree denotes. -/
theorem value_foldedTree (not : BitVec 32 → BitVec 32) (ops : List UnaryOp) (v : Nat) :
    value not (foldedTree ops v) = value not (unfoldedTree ops v) := by
  unfold foldedTree
  split
  · next hlast =>
    obtain ⟨init, rfl⟩ := List.getLast?_eq_some_iff.mp hlast
    rw [List.dropLast_concat]
    unfold unfoldedTree applyOps
    rw [List.foldr_append]
    refine value_applyOps not ?_ init
    show some (BitVec.ofInt 32 (-v)) = some (-BitVec.ofInt 32 v)
    rw [BitVec.ofInt_neg]
  · rfl

/-! ## Reading -/

/-- The token goes on with neither a member nor an index. -/
def EndsPostfix (rest : List Token) : Prop := (headTok rest).type ≠ .Dot ∧ (headTok rest).type ≠ .LBracket

section
variable {tok : Token} {v : Int} {rest : List Token}

theorem parsePrimary_literal (ht : tok.type = .IntLiteral) (hv : stoiDigits tok.str = some v) (n : Nat) :
    (parsePrimary (n + 1)).run (tok :: rest) =
      if InIntRange v then .ok (.intLiteral v, rest) else .error (.parseError ⟨tok, .outOfRange⟩) := by
  rw [parsePrimary, run_curTok_bind, headTok_cons]
  simp only [ht, hv]
  split
  · rfl
  · rfl

theorem parsePostfixExpr_literal (ht : tok.type = .IntLiteral) (hv : stoiDigits tok.str = some v) (hrange : InIntRange v)
    (hrest : EndsPostfix rest) : (parsePostfixExpr 2).run (tok :: rest) = .ok (.intLiteral v, rest) := by
  have hprimary : (parsePrimary 1).run (tok :: rest) = .ok (.intLiteral v, rest) := by
    rw [parsePrimary_literal ht hv 0, if_pos hrange]
  rw [parsePostfixExpr, run_bind_of_ok hprimary, postfixLoop, run_curTok_bind]
  split
  · next hdot => exact absurd hdot hrest.1
  · next hbracket => exact absurd hbracket hrest.2
  · rfl

theorem parsePostfixExpr_outOfRange (ht : tok.type = .IntLiteral) (hv : stoiDigits tok.str = some v)
    (hrange : ¬InIntRange v) : (parsePostfixExpr 2).run (tok :: rest) = .error (.parseError ⟨tok, .outOfRange⟩) := by
  rw [parsePostfixExpr, run_bind, parsePrimary_literal ht hv 0, if_neg hrange]

end

/-- The loop of `parseUnary` collects the operators. -/
theorem unaryLoop_chain {chain : List Token} (h : ∀ t ∈ chain, UnaryTok t) (n : Nat) (us : List UnaryOp) (ts : List Token) :
    (unaryLoop (n + chain.length) us).run (chain ++ ts) = (unaryLoop n ((chain.map prefixOp).reverse ++ us)).run ts := by
  induction chain generalizing us with
  | nil => rfl
  | cons t chain ih =>
    have hnext := ih fun u hu => h u (List.mem_cons_of_mem t hu)
    have hsum : n + (t :: chain).length = n + chain.length + 1 := rfl
    rw [hsum, List.cons_append, unaryLoop, run_curTok_bind, headTok_cons, List.map_cons, List.reverse_cons,
      List.append_assoc]
    rcases h t List.mem_cons_self with ht | ht
    · have hop : prefixOp t = .not := if_neg (by rw [ht]; decide)
      rw [ht, hop]
      exact hnext (.not :: us)
    · have hop : prefixOp t = .neg := if_pos ht
      rw [ht, hop]
      exact hnext (.neg :: us)

section
variable {ops : List UnaryOp} {lit : Token} {rest : List Token}

/-- The literal token as `parseUnary` passes it on. -/
def literalTok (ops : List UnaryOp) (lit : Token) : Token :=
  if ops.getLast? = some .neg then { lit with str := "-" ++ lit.str } else lit

/-- The value of the text that is passed on. -/
def literalValue (ops : List UnaryOp) (v : Nat) : Int := if ops.getLast? = some .neg then -v else v

/-- The operators that stay. -/
def outerOps (ops : List UnaryOp) : List UnaryOp := if ops.getLast? = some .neg then ops.dropLast else ops

theorem foldedTree_eq (ops : List UnaryOp) (v : Nat) :
    foldedTree ops v = applyOps (outerOps ops) (.intLiteral (literalValue ops v)) := by
  unfold foldedTree outerOps literalValue
  split
  · rfl
  · rfl

theorem literalTok_stoi (hdec : Token.IsDecimal lit.str) :
    stoiDigits (literalTok ops lit).str = some (literalValue ops (digitsValue lit.str.toList)) := by
  unfold literalTok literalValue
  split
  · exact stoiDigits_neg_of_isDecimal hdec
  · exact stoiDigits_of_isDecimal hdec

theorem literalTok_type (hlit : lit.type = .IntLiteral) : (literalTok ops lit).type = .IntLiteral := by
  unfold literalTok
  split
  · exact hlit
  · exact hlit

theorem inIntRange_literalValue (ops : List UnaryOp) (v : Nat) : InIntRange (literalValue ops v) ↔ InRange ops v := by
  unfold InIntRange InRange literalValue
  split
  · next hlast =>
    simp only [hlast, and_true]
    omega
  · next hlast =>
    simp only [hlast, and_false, or_false]
    omega

/-- Behind its operators, the literal is the operand of those that stay. -/
theorem unaryLoop_literal (hlit : lit.type = .IntLiteral) (n : Nat) :
    (unaryLoop (n + 1) ops.reverse).run (lit :: rest) =
      (do let e ← parsePostfixExpr n
          pure (applyOps (outerOps ops) e)).run (literalTok ops lit :: rest) := by
  have hfold : ∀ (ops : List UnaryOp) (e : Expr), ops.reverse.foldl (fun e op => Expr.unary op e) e = applyOps ops e := by
    intro ops e
    rw [List.foldl_reverse]
    rfl
  rw [unaryLoop, run_curTok_bind, headTok_cons]
  unfold outerOps literalTok
  simp only [hlit, List.head?_reverse, true_and]
  by_cases hlast : ops.getLast? = some .neg
  · simp only [if_pos hlast, run_setCurTokStr_bind, headTok_cons, List.tail_cons, List.tail_reverse, hfold]
    rw [hlit]
  · simp only [if_neg hlast, hfold]

theorem run_literal (hlit : lit.type = .IntLiteral) (hdec : Token.IsDecimal lit.str)
    (hrange : InRange ops (digitsValue lit.str.toList)) (hrest : EndsPostfix rest) :
    (unaryLoop 3 ops.reverse).run (lit :: rest) = .ok (foldedTree ops (digitsValue lit.str.toList), rest) := by
  rw [unaryLoop_literal hlit, run_bind_of_ok (parsePostfixExpr_literal (literalTok_type hlit) (literalTok_stoi hdec)
    ((inIntRange_literalValue ops _).mpr hrange) hrest), foldedTree_eq]
  rfl

theorem run_literal_outOfRange (hlit : lit.type = .IntLiteral) (hdec : Token.IsDecimal lit.str)
    (hrange : ¬InRange ops (digitsValue lit.str.toList)) :
    (unaryLoop 3 ops.reverse).run (lit :: rest) = .error (.parseError ⟨literalTok ops lit, .outOfRange⟩) := by
  rw [unaryLoop_literal hlit, run_bind, parsePostfixExpr_outOfRange (literalTok_type hlit) (literalTok_stoi hdec)
    (mt (inIntRange_literalValue ops _).mp hrange)]

end

section
variable {chain : List Token} {lit : Token} {rest : List Token}

theorem parseUnary_chain (hchain : ∀ t ∈ chain, UnaryTok t) (ts : List Token) :
    (parseUnary (3 + chain.length + 1)).run (chain ++ ts) = (unaryLoop 3 (chain.map prefixOp).reverse).run ts := by
  rw [parseUnary, unaryLoop_chain hchain 3 [] ts, List.append_nil]

/-- A literal that is out of range, with the operators before it, is an error wherever it is an operand. -/
theorem parseUnary_outOfRange (hchain : ∀ t ∈ chain, UnaryTok t) (hlit : lit.type = .IntLiteral)
    (hdec : Token.IsDecimal lit.str) (hrange : ¬InRange (chain.map prefixOp) (digitsValue lit.str.toList)) :
    ∃ N e, ∀ n ≥ N, (parseUnary n).run (chain ++ lit :: rest) = .error (.parseError e) := by
  refine ⟨3 + chain.length + 1, ⟨literalTok (chain.map prefixOp) lit, .outOfRange⟩, fun n hn => ?_⟩
  apply (exprLe hn).parseUnary.eq_parseError
  rw [parseUnary_chain hchain]
  exact run_literal_outOfRange hlit hdec hrange

/-- The same behind a binary minus. -/
theorem precedenceLoop_outOfRange (hchain : ∀ t ∈ chain, UnaryTok t) (hlit : lit.type = .IntLiteral)
    (hdec : Token.IsDecimal lit.str) (hrange : ¬InRange (chain.map prefixOp) (digitsValue lit.str.toList)) {minus : Token}
    (hminus : minus.type = .Minus) {p : Int} (hp : p ≤ 6) (left : Expr) :
    ∃ N e, ∀ n ≥ N, (precedenceLoop n p left).run (minus :: (chain ++ lit :: rest)) = .error (.parseError e) := by
  obtain ⟨N, e, hN⟩ := @parseUnary_outOfRange chain lit rest hchain hlit hdec hrange
  refine ⟨N + 2, e, fun n hn => ?_⟩
  obtain ⟨n, rfl⟩ : ∃ k, n = k + 2 := ⟨n - 2, by omega⟩
  have hprec : getOpPrec minus.type = 6 := by rw [hminus]; rfl
  have hright : ∀ q, (precedenceParse (n + 1) q).run (chain ++ lit :: rest) = .error (.parseError e) := by
    intro q
    rw [precedenceParse, run_bind, hN n (by omega)]
  rw [precedenceLoop, run_curTok_bind]
  dsimp only
  rw [headTok_cons, if_pos (by omega), run_readNextToken_bind, List.tail_cons, run_bind, hright]

/-- The same in parentheses, whatever stands before them. -/
theorem parentheses_outOfRange (hchain : ∀ t ∈ chain, UnaryTok t) (hlit : lit.type = .IntLiteral)
    (hdec : Token.IsDecimal lit.str) (hrange : ¬InRange (chain.map prefixOp) (digitsValue lit.str.toList))
    {outer : List Token} (houter : ∀ t ∈ outer, UnaryTok t) {paren : Token} (hparen : paren.type = .LParen) :
    ∃ N e, ∀ n ≥ N, (parseUnary n).run (outer ++ paren :: (chain ++ lit :: rest)) = .error (.parseError e) := by
  obtain ⟨N, e, hN⟩ := @parseUnary_outOfRange chain lit rest hchain hlit hdec hrange
  refine ⟨N + 4 + outer.length + 1, e, fun n hn => (exprLe hn).parseUnary.eq_parseError ?_⟩
  have hprimary : (parsePrimary (N + 2)).run (paren :: (chain ++ lit :: rest)) = .error (.parseError e) := by
    rw [parsePrimary, run_curTok_bind, headTok_cons]
    simp only [hparen]
    rw [run_readNextToken_bind, List.tail_cons, run_bind, precedenceParse, run_bind, hN N le_rfl]
  have hpostfix : (parsePostfixExpr (N + 3)).run (paren :: (chain ++ lit :: rest)) = .error (.parseError e) := by
    rw [parsePostfixExpr, run_bind, hprimary]
  rw [parseUnary, unaryLoop_chain houter (N + 4) [] _, unaryLoop, run_curTok_bind, headTok_cons]
  simp only [hparen, reduceCtorEq, false_and, if_false]
  rw [run_bind, hpostfix]

/-- `parseUnary` on a literal behind unary operators: it is read when it is in range, and an error otherwise; the tree
denotes what the text denotes. Neither a binary minus before the literal nor parentheses around it extend the range. -/
theorem parseUnary_literal (hchain : ∀ t ∈ chain, UnaryTok t) (hlit : lit.type = .IntLiteral)
    (hdec : Token.IsDecimal lit.str) :
    (InRange (chain.map prefixOp) (digitsValue lit.str.toList) → EndsPostfix rest →
        ∃ N, ∀ n ≥ N, (parseUnary n).run (chain ++ lit :: rest) =
          .ok (foldedTree (chain.map prefixOp) (digitsValue lit.str.toList), rest)) ∧
      (∀ not, value not (foldedTree (chain.map prefixOp) (digitsValue lit.str.toList)) =
        value not (unfoldedTree (chain.map prefixOp) (digitsValue lit.str.toList))) ∧
      (¬InRange (chain.map prefixOp) (digitsValue lit.str.toList) →
        (∃ N e, ∀ n ≥ N, (parseUnary n).run (chain ++ lit :: rest) = .error (.parseError e)) ∧
        (∀ (minus : Token) (p : Int) (left : Expr), minus.type = .Minus → p ≤ 6 → ∃ N e, ∀ n ≥ N,
          (precedenceLoop n p left).run (minus :: (chain ++ lit :: rest)) = .error (.parseError e)) ∧
        ∀ (outer : List Token) (paren : Token), (∀ t ∈ outer, UnaryTok t) → paren.type = .LParen → ∃ N e, ∀ n ≥ N,
          (parseUnary n).run (outer ++ paren :: (chain ++ lit :: rest)) = .error (.parseError e)) := by
  refine ⟨fun hrange hrest => ⟨3 + chain.length + 1, fun n hn => (exprLe hn).parseUnary.eq_ok ?_⟩,
    fun not => value_foldedTree not _ _, fun hrange => ⟨?_, ?_, ?_⟩⟩
  · rw [parseUnary_chain hchain]
    exact run_literal hlit hdec hrange hrest
  · exact parseUnary_outOfRange hchain hlit hdec hrange
  · exact fun minus p left hminus hp => precedenceLoop_outOfRange hchain hlit hdec hrange hminus hp left
  · exact fun outer paren houter hparen => parentheses_outOfRange hchain hlit hdec hrange houter hparen

/-- `!-2147483648;` -/
theorem parseUnary_literal_smallest :
    ∃ N, ∀ n ≥ N, (parseUnary n).run [⟨.Bang, ""⟩, ⟨.Minus, ""⟩, ⟨.IntLiteral, "2147483648"⟩, ⟨.Semicolon, ""⟩] =
      .ok (.unary .not (.intLiteral (-2147483648)), [⟨.Semicolon, ""⟩]) :=
  (@parseUnary_literal [⟨.Bang, ""⟩, ⟨.Minus, ""⟩] ⟨.IntLiteral, "2147483648"⟩ [⟨.Semicolon, ""⟩]
    (by simp [UnaryTok]) rfl (by decide)).1 (Or.inr ⟨by decide, rfl⟩) ⟨by decide, by decide⟩

end

end Mjc.Parser

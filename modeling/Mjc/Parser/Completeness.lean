import Mjc.Parser.Termination

/-!
# What is derivable is accepted

A text of a nonterminal, followed by tokens that cannot continue it, is read by the function of the
nonterminal up to its end.

* `Parses x us rest` : the function `x` reads `us` and leaves `rest`;
* `NoPostfix`, `Stop p`, `AfterPrimary` : the tokens left do not continue a postfix expression, an
  operand of precedence `p`, or a primary expression;
* `ExprComplete n`, `exprComplete` : completeness of the functions of expressions.
-/

namespace Mjc.Parser
open Mjc.Ast Mjc.Grammar

set_option autoImplicit false

/-! ## Reading a text -/

section
variable {α β : Type} {us vs rest : List Token}

/-- The function reads the tokens `us` and leaves `rest`. -/
def Parses (x : P α) (us rest : List Token) : Prop := ∃ a, x.run (us ++ rest) = .ok (a, rest)

theorem Parses.pure (a : α) (rest : List Token) : Parses (pure a) [] rest := ⟨a, rfl⟩

theorem Parses.bind {x : P α} {f : α → P β} (hx : Parses x us (vs ++ rest))
    (hf : ∀ a, Parses (f a) vs rest) : Parses (x >>= f) (us ++ vs) rest := by
  obtain ⟨a, ha⟩ := hx
  obtain ⟨b, hb⟩ := hf a
  refine ⟨b, ?_⟩
  rw [List.append_assoc, run_bind_of_ok ha, hb]

theorem Parses.map {x : P α} {f : α → β} (hx : Parses x us rest) : Parses (f <$> x) us rest := by
  obtain ⟨a, ha⟩ := hx
  exact ⟨f a, run_map_of_ok ha⟩

theorem Parses.expectAndNext {t : Token} {type : TT} (ht : t.type = type) {f : Unit → P α}
    (hf : Parses (f ()) us rest) : Parses (expectAndNext type >>= f) (t :: us) rest := by
  obtain ⟨a, ha⟩ := hf
  refine ⟨a, ?_⟩
  rw [List.cons_append, run_expectAndNext_bind_cons ht, ha]

theorem Parses.expect {t : Token} {type : TT} (ht : t.type = type) {f : Unit → P α}
    (hf : Parses (f ()) (t :: us) rest) : Parses (expect type >>= f) (t :: us) rest := by
  obtain ⟨a, ha⟩ := hf
  refine ⟨a, ?_⟩
  rw [List.cons_append, run_expect_bind_cons ht]
  exact ha

theorem Parses.expectGetIdentAndNext {t : Token} {type : TT} (ht : t.type = type) {f : String → P α}
    (hf : ∀ s, Parses (f s) us rest) : Parses (expectGetIdentAndNext type >>= f) (t :: us) rest := by
  obtain ⟨a, ha⟩ := hf t.str
  refine ⟨a, ?_⟩
  rw [List.cons_append, run_expectGetIdentAndNext_bind_cons ht, ha]

theorem Parses.readNextToken {t : Token} {f : Unit → P α} (hf : Parses (f ()) us rest) :
    Parses (readNextToken >>= f) (t :: us) rest := hf

theorem Parses.setCurTokStr {t : Token} {str : String} {f : Unit → P α}
    (hf : Parses (f ()) ({ t with str := str } :: us) rest) :
    Parses (setCurTokStr str >>= f) (t :: us) rest := hf

theorem Parses.lookAhead {k : Nat} {t : Token} {f : Token → P α} (ht : headTok ((us ++ rest).drop k) = t)
    (hf : Parses (f t) us rest) : Parses (lookAhead k >>= f) us rest := by
  subst ht
  exact hf

theorem Parses.curTok_nil {f : Token → P α} (hf : Parses (f (headTok rest)) [] rest) :
    Parses (curTok >>= f) [] rest := hf

theorem Parses.curTok_cons {t : Token} {f : Token → P α} (hf : Parses (f t) (t :: us) rest) :
    Parses (curTok >>= f) (t :: us) rest := hf

end

/-! ## Follow conditions -/

/-- The tokens do not continue a postfix expression. -/
def NoPostfix (rest : List Token) : Prop :=
  (headTok rest).type ≠ .Dot ∧ (headTok rest).type ≠ .LBracket ∧ (headTok rest).type ≠ .LParen

/-- The tokens do not continue an operand of the precedence. -/
def StopAt (p : Int) (rest : List Token) : Prop := NoPostfix rest ∧ getOpPrec (headTok rest).type < p

/-- The tokens do not continue a primary expression. -/
def AfterPrimary (rest : List Token) : Prop :=
  (headTok rest).type ≠ .LParen ∧
    ¬((headTok rest).type = .LBracket ∧ (headTok (rest.drop 1)).type = .RBracket)

/-- A token of this type ends an expression. -/
def Closes (type : TT) : Prop :=
  (type ≠ .Dot ∧ type ≠ .LBracket ∧ type ≠ .LParen) ∧ getOpPrec type < 0

instance (type : TT) : Decidable (Closes type) :=
  inferInstanceAs (Decidable ((type ≠ .Dot ∧ type ≠ .LBracket ∧ type ≠ .LParen) ∧ getOpPrec type < 0))

theorem StopAt.of_type {rest : List Token} {type : TT} (h : (headTok rest).type = type) (hc : Closes type) :
    StopAt 0 rest := by
  rw [StopAt, NoPostfix, h]
  exact hc

theorem StopAt.cons {t : Token} {rest : List Token} {type : TT} (h : t.type = type) (hc : Closes type) :
    StopAt 0 (t :: rest) := .of_type h hc

theorem NoPostfix.afterPrimary {rest : List Token} (h : NoPostfix rest) : AfterPrimary rest :=
  ⟨h.2.2, fun h' => h.2.1 h'.1⟩

theorem noPostfix_of_prec {type : TT} (h : 0 ≤ getOpPrec type) :
    type ≠ .Dot ∧ type ≠ .LBracket ∧ type ≠ .LParen := by
  revert h
  cases type <;> decide

/-- What follows a unary expression in a sequence of operators. -/
theorem Ops.noPostfix {k : Int} {us rest : List Token} (h : Ops k us) (hk : 0 ≤ k) (hr : NoPostfix rest) :
    NoPostfix (us ++ rest) := by
  cases h with
  | nil => exact hr
  | cons prec _ _ => exact noPostfix_of_prec (Int.le_trans hk prec)

/-- The operators that bind as tight as `p` at the start of a sequence, and what is left. -/
theorem Ops.span {k : Int} {ts : List Token} (h : Ops k ts) (p : Int) :
    ∃ us vs, ts = us ++ vs ∧ Ops p us ∧ Ops k vs ∧ ∀ t ∈ vs.head?, getOpPrec t.type < p := by
  induction h with
  | nil => exact ⟨[], [], rfl, .nil, .nil, by simp⟩
  | @cons op us vs prec unary ops ih =>
    by_cases hp : p ≤ getOpPrec op.type
    · obtain ⟨xs, ys, rfl, hxs, hys, hlt⟩ := ih
      exact ⟨op :: (us ++ xs), ys, by simp, .cons hp unary hxs, hys, hlt⟩
    · exact ⟨[], op :: (us ++ vs), rfl, .nil, .cons prec unary ops, by simpa using hp⟩

/-! ## Reading the productions of expressions backwards -/

section
variable {ts : List Token}

theorem derives_unary_iff {am : Bool} : Derives (.unaryExpression am) ts ↔
    (∃ t us, ts = t :: us ∧ t.type = .Minus ∧ Derives (.unaryExpression true) us) ∨
    (∃ t us, ts = t :: us ∧ t.type = .Bang ∧ Derives (.unaryExpression false) us) ∨
    Derives (.postfixExpression am) ts := by
  simp [@derives_iff (.unaryExpression am), rules, Terminal.Matches]

theorem derives_postfix_iff {am : Bool} : Derives (.postfixExpression am) ts ↔
    ∃ us vs, ts = us ++ vs ∧ Derives (.primaryExpression am) us ∧ Derives .postfixExpressionTail vs := by
  simp [@derives_iff (.postfixExpression am), rules]

theorem derives_postfixTail_iff : Derives .postfixExpressionTail ts ↔
    ts = [] ∨ ∃ us vs, ts = us ++ vs ∧ Derives .postfixOp us ∧ Derives .postfixExpressionTail vs := by
  rw [derives_iff]
  simp [rules]

theorem derives_postfixOp_iff : Derives .postfixOp ts ↔
    (∃ t i us, ts = t :: i :: us ∧ t.type = .Dot ∧ i.type = .Identifier ∧
      Derives .methodInvocationOrFieldAccess us) ∨ Derives .arrayAccess ts := by
  simp [@derives_iff .postfixOp, rules, Terminal.Matches]

theorem derives_call_iff {nt : NT} (hnt : rules nt = [[], [tok .LParen, .n .arguments, tok .RParen]]) :
    Derives nt ts ↔ ts = [] ∨ ∃ t us t', ts = t :: (us ++ [t']) ∧ t.type = .LParen ∧
      Derives .arguments us ∧ t'.type = .RParen := by
  simp [@derives_iff nt, hnt, Terminal.Matches]

theorem derives_arrayAccess_iff : Derives .arrayAccess ts ↔
    ∃ t us t', ts = t :: (us ++ [t']) ∧ t.type = .LBracket ∧ Derives .expression us ∧ t'.type = .RBracket := by
  simp [@derives_iff .arrayAccess, rules, Terminal.Matches]

theorem derives_arguments_iff : Derives .arguments ts ↔
    ts = [] ∨ ∃ us vs, ts = us ++ vs ∧ Derives .expression us ∧ Derives .argumentsTail vs := by
  simp [@derives_iff .arguments, rules]

theorem derives_argumentsTail_iff : Derives .argumentsTail ts ↔
    ts = [] ∨ ∃ t us vs, ts = t :: (us ++ vs) ∧ t.type = .Comma ∧ Derives .expression us ∧
      Derives .argumentsTail vs := by
  rw [derives_iff]
  simp [rules, Terminal.Matches]

theorem derives_newArrayTail_iff : Derives .newArrayExpressionTail ts ↔
    ts = [] ∨ ∃ t t' us, ts = t :: t' :: us ∧ t.type = .LBracket ∧ t'.type = .RBracket ∧
      Derives .newArrayExpressionTail us := by
  rw [derives_iff]
  simp [rules, Terminal.Matches]

theorem derives_newObject_iff : Derives .newObjectExpression ts ↔
    ∃ t₁ t₂ t₃ t₄, ts = [t₁, t₂, t₃, t₄] ∧ t₁.type = .New ∧ t₂.type = .Identifier ∧ t₃.type = .LParen ∧
      t₄.type = .RParen := by
  simp [@derives_iff .newObjectExpression, rules, Terminal.Matches]

theorem derives_basicType_iff : Derives .basicType ts ↔ ∃ t, ts = [t] ∧ t.type ∈ firstType := by
  simp [@derives_iff .basicType, rules, Terminal.Matches, firstType]
  aesop

theorem derives_newArray_iff : Derives .newArrayExpression ts ↔
    ∃ t₁ t₂ t₃ us t₄ vs, ts = t₁ :: t₂ :: t₃ :: (us ++ t₄ :: vs) ∧ t₁.type = .New ∧ t₂.type ∈ firstType ∧
      t₃.type = .LBracket ∧ Derives .expression us ∧ t₄.type = .RBracket ∧
      Derives .newArrayExpressionTail vs := by
  simp [@derives_iff .newArrayExpression, rules, Terminal.Matches, derives_basicType_iff]
  aesop

/-- The shapes of a primary expression. -/
theorem derives_primary_cases {am : Bool} (h : Derives (.primaryExpression am) ts) :
    (∃ t us t', ts = t :: (us ++ [t']) ∧ t.type = .LParen ∧ Derives .expression us ∧ t'.type = .RParen) ∨
    (∃ t, ts = [t] ∧ t.type ∈ [Token.Type.False, .True, .Null, .This]) ∨
    (∃ t us, ts = t :: us ∧ t.type = .Identifier ∧ Derives .primaryExpressionIdentTail us) ∨
    (∃ t, ts = [t] ∧ (Terminal.int am).Matches t) ∨
    (Derives .newObjectExpression ts ∨ Derives .newArrayExpression ts) := by
  simp [@derives_iff (.primaryExpression am), rules, Terminal.Matches] at h ⊢
  aesop

end

/-- What follows a primary expression in a postfix expression. -/
theorem afterPrimary_of_tail {us rest : List Token} (h : Derives .postfixExpressionTail us) (hl : Lex us)
    (hr : NoPostfix rest) : AfterPrimary (us ++ rest) := by
  rcases derives_postfixTail_iff.1 h with rfl | ⟨xs, ys, rfl, hop, -⟩
  · exact hr.afterPrimary
  rcases derives_postfixOp_iff.1 hop with ⟨t, i, vs, rfl, ht, -, -⟩ | hop
  · simp [AfterPrimary, ht]
  obtain ⟨t, vs, t', rfl, ht, hvs, -⟩ := derives_arrayAccess_iff.1 hop
  cases vs with
  | nil => exact absurd rfl (hvs.ne_nil rfl)
  | cons v vs =>
    have hv := hvs.head_mem rfl (hl v (by simp))
    refine ⟨by simp [ht], fun h => ?_⟩
    have hv' : v.type = .RBracket := by simpa using h.2
    rw [hv'] at hv
    exact absurd hv (by decide)

/-- A postfix expression that starts with a literal. -/
theorem derives_postfix_literal {am : Bool} {t : Token} {us : List Token}
    (h : Derives (.postfixExpression am) (t :: us)) (ht : t.type = .IntLiteral) :
    (Terminal.int am).Matches t ∧ Derives .postfixExpressionTail us := by
  obtain ⟨xs, ys, hsplit, hxs, hys⟩ := derives_postfix_iff.1 h
  rcases derives_primary_cases hxs with ⟨t', vs, t'', rfl, ht', -⟩ | ⟨t', rfl, ht'⟩ | ⟨t', vs, rfl, ht', -⟩ |
    ⟨t', rfl, hm⟩ | hnew | hnew
  · cases hsplit
    simp [ht] at ht'
  · cases hsplit
    simp [ht] at ht'
  · cases hsplit
    simp [ht] at ht'
  · cases hsplit
    exact ⟨hm, hys⟩
  · obtain ⟨t₁, t₂, t₃, t₄, rfl, ht', -⟩ := derives_newObject_iff.1 hnew
    cases hsplit
    simp [ht] at ht'
  · obtain ⟨t₁, t₂, t₃, vs, t₄, ws, rfl, ht', -⟩ := derives_newArray_iff.1 hnew
    cases hsplit
    simp [ht] at ht'

/-- The flag only matters for a literal. -/
theorem derives_postfix_of_not_literal {am am' : Bool} {t : Token} {us : List Token}
    (h : Derives (.postfixExpression am) (t :: us)) (ht : t.type ≠ .IntLiteral) :
    Derives (.postfixExpression am') (t :: us) := by
  rw [derives_postfix_iff] at h ⊢
  obtain ⟨xs, ys, hsplit, hxs, hys⟩ := h
  refine ⟨xs, ys, hsplit, ?_, hys⟩
  rw [derives_iff] at hxs ⊢
  obtain ⟨rhs, hmem, hrhs⟩ := hxs
  by_cases hint : rhs = [.t (.int am)]
  · subst hint
    obtain ⟨t', vs, rfl, hm, -⟩ := derivesAll_terminal.1 hrhs
    cases hsplit
    exact absurd hm.1 ht
  · refine ⟨rhs, ?_, hrhs⟩
    simp only [rules, List.mem_cons, List.not_mem_nil, or_false] at hmem ⊢
    tauto

/-! ## Expressions -/

/-- Completeness of the functions of expressions with `n` steps, where `n` is large enough. -/
structure ExprComplete (n : Nat) : Prop where
  precedenceParse : ∀ {p : Int} {us rest : List Token}, 0 ≤ p → OpSeq p us → Lex us → StopAt p rest →
    16 * us.length + 6 ≤ n → Parses (precedenceParse n p) us rest
  precedenceLoop : ∀ {p : Int} {l : Expr} {us rest : List Token}, 0 ≤ p → Ops p us → Lex us →
    StopAt p rest → 16 * us.length + 1 ≤ n → Parses (precedenceLoop n p l) us rest
  parseUnary : ∀ {us rest : List Token}, Derives (.unaryExpression false) us → Lex us → NoPostfix rest →
    16 * us.length + 5 ≤ n → Parses (parseUnary n) us rest
  unaryLoop : ∀ {ops : List UnaryOp} {us rest : List Token},
    Derives (.unaryExpression (decide (ops.head? = some .neg))) us → Lex us → NoPostfix rest →
    16 * us.length + 4 ≤ n → Parses (unaryLoop n ops) us rest
  parsePostfixExpr : ∀ {us rest : List Token}, Derives (.postfixExpression false) us → Lex us →
    NoPostfix rest → 16 * us.length + 3 ≤ n → Parses (parsePostfixExpr n) us rest
  negLiteral : ∀ {t : Token} {us rest : List Token}, (Terminal.int true).Matches t →
    Derives .postfixExpressionTail us → Lex (t :: us) → NoPostfix rest → 16 * (us.length + 1) + 3 ≤ n →
    Parses (Parser.parsePostfixExpr n) ({ t with str := "-" ++ t.str } :: us) rest
  postfixLoop : ∀ {l : Expr} {us rest : List Token}, Derives .postfixExpressionTail us → Lex us →
    NoPostfix rest → 16 * us.length + 2 ≤ n → Parses (postfixLoop n l) us rest
  parsePrimary : ∀ {us rest : List Token}, Derives (.primaryExpression false) us → Lex us →
    AfterPrimary rest → 16 * us.length + 2 ≤ n → Parses (parsePrimary n) us rest
  parseMemberAccess : ∀ {l : Expr} {t i : Token} {us rest : List Token}, t.type = .Dot →
    i.type = .Identifier → Derives .methodInvocationOrFieldAccess us → Lex us → AfterPrimary rest →
    16 * (us.length + 2) + 1 ≤ n → Parses (parseMemberAccess n l) (t :: i :: us) rest
  parseArrayAccess : ∀ {l : Expr} {us rest : List Token}, Derives .arrayAccess us → Lex us →
    16 * us.length + 1 ≤ n → Parses (parseArrayAccess n l) us rest
  parseArguments : ∀ {us rest : List Token}, Derives .arguments us → Lex us →
    (headTok rest).type = .RParen → 16 * us.length + 7 ≤ n → Parses (parseArguments n) us rest
  argumentsLoop : ∀ {es : List Expr} {us rest : List Token}, Derives .argumentsTail us → Lex us →
    (headTok rest).type = .RParen → 16 * us.length + 1 ≤ n → Parses (argumentsLoop n es) us rest
  parseNewExpr : ∀ {us rest : List Token}, Derives .newObjectExpression us ∨ Derives .newArrayExpression us →
    Lex us → AfterPrimary rest → 16 * us.length + 1 ≤ n → Parses (parseNewExpr n) us rest
  dimensionLoop : ∀ {d : Nat} {us rest : List Token}, Derives .newArrayExpressionTail us →
    AfterPrimary rest → 16 * us.length + 1 ≤ n → Parses (dimensionLoop n d) us rest

namespace ExprComplete
variable {n : Nat} {us rest : List Token}

theorem precedenceParse_succ (ih : ExprComplete n) {p : Int} (hp : 0 ≤ p) (h : OpSeq p us) (hl : Lex us)
    (hr : StopAt p rest) (hn : 16 * us.length + 6 ≤ n + 1) :
    Parses (Parser.precedenceParse (n + 1) p) us rest := by
  obtain ⟨xs, ys, rfl, hxs, hys⟩ := h
  have hpos := List.length_pos_iff.2 (hxs.ne_nil rfl)
  rw [List.length_append] at hn
  rw [Parser.precedenceParse]
  exact (ih.parseUnary hxs hl.of_append_left (Ops.noPostfix hys hp hr.1) (by omega)).bind
    fun e => ih.precedenceLoop hp hys hl.of_append hr (by omega)

theorem precedenceLoop_succ (ih : ExprComplete n) {p : Int} {l : Expr} (hp : 0 ≤ p) (h : Ops p us)
    (hl : Lex us) (hr : StopAt p rest) (hn : 16 * us.length + 1 ≤ n + 1) :
    Parses (Parser.precedenceLoop (n + 1) p l) us rest := by
  rw [Parser.precedenceLoop]
  cases h with
  | nil =>
    refine .curTok_nil ?_
    have : ¬ getOpPrec (headTok rest).type ≥ p := by have := hr.2; omega
    simp only [if_neg this]
    exact .pure l rest
  | @cons op xs ys prec hxs hys =>
    refine .curTok_cons ?_
    simp only [if_pos (show getOpPrec op.type ≥ p from prec)]
    generalize hq : (if op.type ≠ .Eq then getOpPrec op.type + 1 else getOpPrec op.type) = q
    have hq' : p ≤ q := by subst hq; split <;> omega
    obtain ⟨vs, ws, rfl, hvs, hws, hlt⟩ := Ops.span hys q
    have hrest : StopAt q (ws ++ rest) := by
      cases ws with
      | nil => exact ⟨hr.1, Int.lt_of_lt_of_le hr.2 hq'⟩
      | cons w ws => exact ⟨noPostfix_of_prec (Int.le_trans hp hws.head_prec), hlt w rfl⟩
    obtain ⟨o, ho⟩ : ∃ o, getOpForToken op.type = some o := by
      have := Int.le_trans hp prec
      revert this
      cases op.type <;> first | exact fun _ => ⟨_, rfl⟩ | exact fun h => absurd h (by decide)
    simp only [List.length_cons, List.length_append] at hn
    have hl' : Lex ((xs ++ vs) ++ ws) := by simpa using hl.tail
    refine .readNextToken ?_
    rw [← List.append_assoc]
    refine (ih.precedenceParse (Int.le_trans hp hq') ⟨xs, vs, rfl, hxs, hvs⟩ hl'.of_append_left hrest
      (by simp; omega)).bind fun e => ?_
    simp only [ho]
    exact ih.precedenceLoop hp hws hl'.of_append hr (by omega)

theorem unaryLoop_succ (ih : ExprComplete n) {ops : List UnaryOp}
    (h : Derives (.unaryExpression (decide (ops.head? = some .neg))) us) (hl : Lex us) (hr : NoPostfix rest)
    (hn : 16 * us.length + 4 ≤ n + 1) : Parses (Parser.unaryLoop (n + 1) ops) us rest := by
  rw [Parser.unaryLoop]
  rcases derives_unary_iff.1 h with ⟨t, vs, rfl, ht, hvs⟩ | ⟨t, vs, rfl, ht, hvs⟩ | h
  · refine .curTok_cons ?_
    simp only [ht]
    exact .readNextToken (ih.unaryLoop hvs hl.tail hr (by simp at hn; omega))
  · refine .curTok_cons ?_
    simp only [ht]
    exact .readNextToken (ih.unaryLoop hvs hl.tail hr (by simp at hn; omega))
  obtain ⟨t, vs, rfl⟩ : ∃ t vs, us = t :: vs := List.exists_cons_of_ne_nil (h.ne_nil rfl)
  have hhead : t.type ∈ firstPrimary := h.head_mem rfl hl.head
  have hbang : t.type ≠ .Bang := by rintro ht; rw [ht] at hhead; exact absurd hhead (by decide)
  have hminus : t.type ≠ .Minus := by rintro ht; rw [ht] at hhead; exact absurd hhead (by decide)
  refine .curTok_cons ?_
  split
  · exact absurd ‹_› hbang
  · exact absurd ‹_› hminus
  by_cases hlit : t.type = .IntLiteral ∧ ops.head? = some .neg
  · rw [if_pos hlit]
    rw [decide_eq_true hlit.2] at h
    obtain ⟨hm, hvs⟩ := derives_postfix_literal h hlit.1
    refine .setCurTokStr ?_
    rw [← List.append_nil (_ :: vs)]
    exact Parses.bind (ih.negLiteral hm hvs hl hr (by simp at hn; omega)) fun e => .pure _ _
  · rw [if_neg hlit]
    have h' : Derives (.postfixExpression false) (t :: vs) := by
      by_cases ht : t.type = .IntLiteral
      · rwa [decide_eq_false fun hneg => hlit ⟨ht, hneg⟩] at h
      · exact derives_postfix_of_not_literal h ht
    rw [← List.append_nil (t :: vs)]
    exact Parses.bind (ih.parsePostfixExpr h' hl hr (by omega)) fun e => .pure _ _

theorem parsePostfixExpr_succ (ih : ExprComplete n) (h : Derives (.postfixExpression false) us) (hl : Lex us)
    (hr : NoPostfix rest) (hn : 16 * us.length + 3 ≤ n + 1) :
    Parses (Parser.parsePostfixExpr (n + 1)) us rest := by
  obtain ⟨xs, ys, rfl, hxs, hys⟩ := derives_postfix_iff.1 h
  rw [List.length_append] at hn
  rw [Parser.parsePostfixExpr]
  exact (ih.parsePrimary hxs hl.of_append_left (afterPrimary_of_tail hys hl.of_append hr) (by omega)).bind
    fun e => ih.postfixLoop hys hl.of_append hr (by omega)

theorem negLiteral_succ (ih : ExprComplete n) {t : Token} (hm : (Terminal.int true).Matches t)
    (h : Derives .postfixExpressionTail us) (hl : Lex (t :: us)) (hr : NoPostfix rest)
    (hn : 16 * (us.length + 1) + 3 ≤ n + 1) :
    Parses (Parser.parsePostfixExpr (n + 1)) ({ t with str := "-" ++ t.str } :: us) rest := by
  obtain ⟨ht, hv⟩ := hm
  obtain ⟨n, rfl⟩ : ∃ m, n = m + 1 := ⟨n - 1, by omega⟩
  have hrange : InIntRange (-(digitsValue t.str.toList : Int)) := by
    unfold InIntRange
    simp only [true_and] at hv
    omega
  rw [Parser.parsePostfixExpr, Parser.parsePrimary]
  refine @Parses.bind _ _ [{ t with str := "-" ++ t.str }] us rest _ _ (.curTok_cons ?_) fun e =>
    ih.postfixLoop h hl.tail hr (by omega)
  simp only [ht, stoiDigits_neg_of_isDecimal (hl.head.literal ht), if_pos hrange]
  exact .readNextToken (.pure _ _)

theorem postfixLoop_succ (ih : ExprComplete n) {l : Expr} (h : Derives .postfixExpressionTail us)
    (hl : Lex us) (hr : NoPostfix rest) (hn : 16 * us.length + 2 ≤ n + 1) :
    Parses (Parser.postfixLoop (n + 1) l) us rest := by
  rw [Parser.postfixLoop]
  rcases derives_postfixTail_iff.1 h with rfl | ⟨xs, ys, rfl, hop, hys⟩
  · refine .curTok_nil ?_
    split
    · exact absurd ‹_› hr.1
    · exact absurd ‹_› hr.2.1
    · exact .pure l rest
  have hpos := List.length_pos_iff.2 (hop.ne_nil rfl)
  rw [List.length_append] at hn
  have again : ∀ e, Parses (Parser.postfixLoop n e) ys rest :=
    fun e => ih.postfixLoop hys hl.of_append hr (by omega)
  rcases derives_postfixOp_iff.1 hop with ⟨t, i, vs, rfl, ht, hi, hvs⟩ | hop
  · refine .curTok_cons ?_
    simp only [ht]
    exact (ih.parseMemberAccess ht hi hvs hl.of_append_left.tail.tail
      (afterPrimary_of_tail hys hl.of_append hr) (by simp at hn; omega)).bind again
  · obtain ⟨t, vs, t', rfl, ht, -, -⟩ := derives_arrayAccess_iff.1 hop
    refine .curTok_cons ?_
    simp only [ht]
    exact (ih.parseArrayAccess hop hl.of_append_left (by omega)).bind again

/-- An expression up to a closing token. -/
theorem expressionUntil {α : Type} (ih : ExprComplete n) {type : TT} {t : Token} {vs : List Token}
    {f : Expr → P α} (h : Derives .expression us) (hl : Lex us) (ht : t.type = type) (hc : Closes type)
    (hn : 16 * us.length + 6 ≤ n) (hf : ∀ e, Parses (f e) vs rest) :
    Parses (do let e ← Parser.precedenceParse n 0; expectAndNext type; f e) (us ++ t :: vs) rest :=
  (ih.precedenceParse (Int.le_refl 0) (derives_expression_iff.1 h) hl (.cons ht hc) hn).bind
    fun e => .expectAndNext ht (hf e)

/-- The rest of a call after its opening parenthesis. -/
theorem callArguments (ih : ExprComplete n) {t : Token} {f : List Expr → Expr} (h : Derives .arguments us)
    (hl : Lex us) (ht : t.type = .RParen) (hn : 16 * us.length + 7 ≤ n) :
    Parses (do let args ← Parser.parseArguments n; expectAndNext .RParen; pure (f args)) (us ++ [t]) rest :=
  (ih.parseArguments h hl (show (headTok (t :: rest)).type = .RParen from ht) hn).bind
    fun _ => .expectAndNext ht (.pure _ _)

theorem parsePrimary_succ (ih : ExprComplete n) (h : Derives (.primaryExpression false) us) (hl : Lex us)
    (hr : AfterPrimary rest) (hn : 16 * us.length + 2 ≤ n + 1) :
    Parses (Parser.parsePrimary (n + 1)) us rest := by
  rw [Parser.parsePrimary]
  rcases derives_primary_cases h with ⟨t, vs, t', rfl, ht, hvs, ht'⟩ | ⟨t, rfl, ht⟩ | ⟨t, vs, rfl, ht, hvs⟩ |
    ⟨t, rfl, ht, hv⟩ | hnew
  · refine .curTok_cons ?_
    simp only [ht]
    exact .readNextToken (ih.expressionUntil hvs hl.tail.of_append_left ht' (by decide) (by simp at hn; omega)
      fun _ => .pure _ _)
  · refine .curTok_cons ?_
    simp only [List.mem_cons, List.not_mem_nil, or_false] at ht
    rcases ht with ht | ht | ht | ht <;> simp only [ht] <;> exact .readNextToken (.pure _ _)
  · refine .curTok_cons ?_
    simp only [ht]
    refine .readNextToken ?_
    rcases (derives_call_iff rfl).1 hvs with rfl | ⟨t₁, ws, t₂, rfl, ht₁, hws, ht₂⟩
    · refine .curTok_nil ?_
      rw [if_neg hr.1]
      exact .pure _ _
    · refine .curTok_cons ?_
      rw [if_pos ht₁]
      exact .readNextToken (ih.callArguments hws hl.tail.tail.of_append_left ht₂ (by simp at hn; omega))
  · refine .curTok_cons ?_
    have hrange : InIntRange (digitsValue t.str.toList : Int) := by
      unfold InIntRange
      simp only [Bool.false_eq_true, false_and, or_false] at hv
      omega
    simp only [ht, stoiDigits_of_isDecimal (hl.head.literal ht), if_pos hrange]
    exact .readNextToken (.pure _ _)
  · obtain ⟨t, vs, rfl⟩ : ∃ t vs, us = t :: vs :=
      List.exists_cons_of_ne_nil (hnew.elim (fun h => h.ne_nil rfl) fun h => h.ne_nil rfl)
    have ht : t.type = .New := by
      rcases hnew with hnew | hnew
      · simpa [first] using hnew.head_mem rfl hl.head
      · simpa [first] using hnew.head_mem rfl hl.head
    refine .curTok_cons ?_
    simp only [ht]
    exact ih.parseNewExpr hnew hl hr (by omega)

theorem parseMemberAccess_succ (ih : ExprComplete n) {l : Expr} {t i : Token} (ht : t.type = .Dot)
    (hi : i.type = .Identifier) (h : Derives .methodInvocationOrFieldAccess us) (hl : Lex us)
    (hr : AfterPrimary rest) (hn : 16 * (us.length + 2) + 1 ≤ n + 1) :
    Parses (Parser.parseMemberAccess (n + 1) l) (t :: i :: us) rest := by
  rw [Parser.parseMemberAccess]
  refine .expectAndNext ht (.expectGetIdentAndNext hi fun s => ?_)
  rcases (derives_call_iff rfl).1 h with rfl | ⟨t₁, ws, t₂, rfl, ht₁, hws, ht₂⟩
  · refine .curTok_nil ?_
    rw [if_neg hr.1]
    exact .pure _ _
  · refine .curTok_cons ?_
    rw [if_pos ht₁]
    exact .readNextToken (ih.callArguments hws hl.tail.of_append_left ht₂ (by simp at hn; omega))

theorem parseArrayAccess_succ (ih : ExprComplete n) {l : Expr} (h : Derives .arrayAccess us) (hl : Lex us)
    (hn : 16 * us.length + 1 ≤ n + 1) : Parses (Parser.parseArrayAccess (n + 1) l) us rest := by
  obtain ⟨t, vs, t', rfl, ht, hvs, ht'⟩ := derives_arrayAccess_iff.1 h
  rw [Parser.parseArrayAccess]
  exact .expectAndNext ht (ih.expressionUntil hvs hl.tail.of_append_left ht' (by decide) (by simp at hn; omega)
    fun _ => .pure _ _)

/-- What may stand after an argument. -/
theorem stopAt_arguments (h : Derives .argumentsTail us) (hr : (headTok rest).type = .RParen) :
    StopAt 0 (us ++ rest) := by
  rcases derives_argumentsTail_iff.1 h with rfl | ⟨t, xs, ys, rfl, ht, -⟩
  · exact .of_type hr (by decide)
  · exact .cons ht (by decide)

theorem parseArguments_succ (ih : ExprComplete n) (h : Derives .arguments us) (hl : Lex us)
    (hr : (headTok rest).type = .RParen) (hn : 16 * us.length + 7 ≤ n + 1) :
    Parses (Parser.parseArguments (n + 1)) us rest := by
  rw [Parser.parseArguments]
  rcases derives_arguments_iff.1 h with rfl | ⟨xs, ys, rfl, hxs, hys⟩
  · refine .curTok_nil ?_
    simp only [hr]
    exact .pure _ _
  obtain ⟨t, vs, rfl⟩ : ∃ t vs, xs = t :: vs := List.exists_cons_of_ne_nil (hxs.ne_nil rfl)
  have ht : t.type ∈ firstExpression := hxs.head_mem rfl hl.head
  simp only [List.length_append, List.length_cons] at hn
  have hargs : Parses (Parser.precedenceParse n 0 >>= fun e => Parser.argumentsLoop n [e])
      ((t :: vs) ++ ys) rest :=
    (ih.precedenceParse (Int.le_refl 0) (derives_expression_iff.1 hxs) hl.of_append_left
      (stopAt_arguments hys hr) (by simp; omega)).bind
      fun e => ih.argumentsLoop hys hl.of_append hr (by omega)
  refine .curTok_cons ?_
  simp only [firstExpression, List.mem_cons, List.not_mem_nil, or_false] at ht
  rcases ht with ht | ht | ht | ht | ht | ht | ht | ht | ht | ht <;> simp only [ht] <;> exact hargs

theorem argumentsLoop_succ (ih : ExprComplete n) {es : List Expr} (h : Derives .argumentsTail us) (hl : Lex us)
    (hr : (headTok rest).type = .RParen) (hn : 16 * us.length + 1 ≤ n + 1) :
    Parses (Parser.argumentsLoop (n + 1) es) us rest := by
  rw [Parser.argumentsLoop]
  rcases derives_argumentsTail_iff.1 h with rfl | ⟨t, xs, ys, rfl, ht, hxs, hys⟩
  · refine .curTok_nil ?_
    rw [if_neg (by rw [hr]; decide)]
    exact .pure _ _
  · simp only [List.length_append, List.length_cons] at hn
    refine .curTok_cons ?_
    rw [if_pos ht]
    exact .readNextToken ((ih.precedenceParse (Int.le_refl 0) (derives_expression_iff.1 hxs)
      hl.tail.of_append_left (stopAt_arguments hys hr) (by omega)).bind
      fun e => ih.argumentsLoop hys hl.tail.of_append hr (by omega))

theorem parseBasicType_complete {t : Token} (ht : t.type ∈ firstType) : Parses parseBasicType [t] rest := by
  rw [parseBasicType]
  refine .curTok_cons ?_
  simp only [firstType, List.mem_cons, List.not_mem_nil, or_false] at ht
  rcases ht with ht | ht | ht | ht <;> simp only [ht] <;> exact .readNextToken (.pure _ _)

theorem parseNewExpr_succ (ih : ExprComplete n)
    (h : Derives .newObjectExpression us ∨ Derives .newArrayExpression us) (hl : Lex us)
    (hr : AfterPrimary rest) (hn : 16 * us.length + 1 ≤ n + 1) :
    Parses (Parser.parseNewExpr (n + 1)) us rest := by
  rw [Parser.parseNewExpr]
  rcases h with h | h
  · obtain ⟨t₁, t₂, t₃, t₄, rfl, ht₁, ht₂, ht₃, ht₄⟩ := derives_newObject_iff.1 h
    refine .expectAndNext ht₁ ?_
    refine Parses.lookAhead (k := 1) (t := t₃) rfl ?_
    simp only [ht₃]
    exact .expectGetIdentAndNext ht₂ fun s => .readNextToken (.expectAndNext ht₄ (.pure _ _))
  · obtain ⟨t₁, t₂, t₃, vs, t₄, ws, rfl, ht₁, ht₂, ht₃, hvs, ht₄, hws⟩ := derives_newArray_iff.1 h
    simp only [List.length_append, List.length_cons] at hn
    refine .expectAndNext ht₁ ?_
    refine Parses.lookAhead (k := 1) (t := t₃) rfl ?_
    simp only [ht₃]
    refine @Parses.bind _ _ [t₂] _ _ _ _ (parseBasicType_complete ht₂) fun b => .readNextToken ?_
    refine ih.expressionUntil hvs hl.tail.tail.tail.of_append_left ht₄ (by decide) (by omega) fun e => ?_
    rw [← List.append_nil ws]
    exact (ih.dimensionLoop hws hr (by omega)).bind fun _ => .pure _ _

theorem dimensionLoop_succ (ih : ExprComplete n) {d : Nat} (h : Derives .newArrayExpressionTail us)
    (hr : AfterPrimary rest) (hn : 16 * us.length + 1 ≤ n + 1) :
    Parses (Parser.dimensionLoop (n + 1) d) us rest := by
  rw [Parser.dimensionLoop]
  rcases derives_newArrayTail_iff.1 h with rfl | ⟨t, t', vs, rfl, ht, ht', hvs⟩
  · refine .curTok_nil (Parses.lookAhead (k := 1) (t := headTok (rest.drop 1)) rfl ?_)
    rw [if_neg hr.2]
    exact .pure _ _
  · refine .curTok_cons (Parses.lookAhead (k := 1) (t := t') rfl ?_)
    rw [if_pos ⟨ht, ht'⟩]
    exact .readNextToken (.readNextToken (ih.dimensionLoop hvs hr (by simp at hn; omega)))

end ExprComplete

theorem exprComplete (n : Nat) : ExprComplete n := by
  induction n with
  | zero => constructor <;> intros <;> omega
  | succ n ih =>
    exact {
      precedenceParse := ih.precedenceParse_succ
      precedenceLoop := ih.precedenceLoop_succ
      parseUnary := fun h hl hr hn => ih.unaryLoop h hl hr (by omega)
      unaryLoop := ih.unaryLoop_succ
      parsePostfixExpr := ih.parsePostfixExpr_succ
      negLiteral := ih.negLiteral_succ
      postfixLoop := ih.postfixLoop_succ
      parsePrimary := ih.parsePrimary_succ
      parseMemberAccess := ih.parseMemberAccess_succ
      parseArrayAccess := ih.parseArrayAccess_succ
      parseArguments := ih.parseArguments_succ
      argumentsLoop := ih.argumentsLoop_succ
      parseNewExpr := ih.parseNewExpr_succ
      dimensionLoop := ih.dimensionLoop_succ }

end Mjc.Parser

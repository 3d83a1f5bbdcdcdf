import Mjc.Parser.Correctness
import Mjc.Parser.ProgramFuel

/-!
# What the parser returns for a text

The completeness rules say that a text is read; these say what for.

* `Returns x us a rest` : with enough steps, `x` reads `us`, returns `a` and leaves `rest`; one rule for each way to go on;
* `PostfixReturns`, `UnaryReturns`, `OperandReturns`, `ExprReturns` : the texts of an expression at the four levels of the
  expression parser, each stated with what may follow;
* `parseBlockStatement_decl`, `parseBlockStatement_stmt` : the statements of a block;
* `parseProgram_of_returns` : what the loop of `parseProgram` returns with enough steps, `parseProgram` returns.
-/

namespace Mjc.Parser
open Mjc.Ast Mjc.Grammar

set_option autoImplicit false

/-! ## Reading a text -/

section
variable {α β : Type} {us vs rest : List Token}

/-- With enough steps, the function reads the tokens `us`, returns `a` and leaves `rest`. -/
def Returns (x : Nat → P α) (us : List Token) (a : α) (rest : List Token) : Prop :=
  ∃ N, ∀ n ≥ N, (x n).run (us ++ rest) = .ok (a, rest)

theorem Returns.pure (a : α) (rest : List Token) : Returns (fun _ => pure a) [] a rest := ⟨0, fun _ _ => rfl⟩

theorem Returns.bind {x : Nat → P α} {f : Nat → α → P β} {a : α} {b : β} (hx : Returns x us a (vs ++ rest))
    (hf : Returns (fun n => f n a) vs b rest) : Returns (fun n => x n >>= f n) (us ++ vs) b rest := by
  obtain ⟨M, hM⟩ := hx
  obtain ⟨N, hN⟩ := hf
  refine ⟨M + N, fun n hn => ?_⟩
  rw [List.append_assoc, run_bind_of_ok (hM n (by omega))]
  exact hN n (by omega)

/-- A function that reads the whole text. -/
theorem Returns.last {x : Nat → P α} {f : Nat → α → P β} {a : α} {b : β} (hx : Returns x us a rest)
    (hf : Returns (fun n => f n a) [] b rest) : Returns (fun n => x n >>= f n) us b rest := by
  rw [← List.append_nil us]
  exact .bind hx hf

theorem Returns.map {x : Nat → P α} {a : α} (hx : Returns x us a rest) (f : α → β) :
    Returns (fun n => f <$> x n) us (f a) rest := by
  obtain ⟨N, hN⟩ := hx
  exact ⟨N, fun n hn => run_map_of_ok (hN n hn)⟩

/-- The function spends a step. -/
theorem Returns.step {x y : Nat → P α} {a : α} (h : ∀ n, x (n + 1) = y n) (hy : Returns y us a rest) :
    Returns x us a rest := by
  obtain ⟨N, hN⟩ := hy
  refine ⟨N + 1, fun n hn => ?_⟩
  obtain ⟨n, rfl⟩ : ∃ k, n = k + 1 := ⟨n - 1, by omega⟩
  rw [h]
  exact hN n (by omega)

theorem Returns.expectAndNext {t : Token} {type : TT} (ht : t.type = type) {f : Nat → Unit → P α} {a : α}
    (hf : Returns (fun n => f n ()) us a rest) : Returns (fun n => expectAndNext type >>= f n) (t :: us) a rest := by
  obtain ⟨N, hN⟩ := hf
  refine ⟨N, fun n hn => ?_⟩
  rw [List.cons_append, run_expectAndNext_bind_cons ht]
  exact hN n hn

theorem Returns.token {type : TT} {str : String} {f : Nat → Unit → P α} {a : α} (hf : Returns (fun n => f n ()) us a rest) :
    Returns (fun n => Parser.expectAndNext type >>= f n) (⟨type, str⟩ :: us) a rest :=
  @Returns.expectAndNext _ _ _ ⟨type, str⟩ _ rfl _ _ hf

theorem Returns.expect {t : Token} {type : TT} (ht : t.type = type) {f : Nat → Unit → P α} {a : α}
    (hf : Returns (fun n => f n ()) (t :: us) a rest) : Returns (fun n => expect type >>= f n) (t :: us) a rest := by
  obtain ⟨N, hN⟩ := hf
  refine ⟨N, fun n hn => ?_⟩
  rw [List.cons_append, run_expect_bind_cons ht]
  exact hN n hn

theorem Returns.expectGetIdentAndNext {t : Token} {type : TT} (ht : t.type = type) {f : Nat → String → P α} {a : α}
    (hf : Returns (fun n => f n t.str) us a rest) :
    Returns (fun n => expectGetIdentAndNext type >>= f n) (t :: us) a rest := by
  obtain ⟨N, hN⟩ := hf
  refine ⟨N, fun n hn => ?_⟩
  rw [List.cons_append, run_expectGetIdentAndNext_bind_cons ht]
  exact hN n hn

theorem Returns.identToken {x : String} {f : Nat → String → P α} {a : α} (hf : Returns (fun n => f n x) us a rest) :
    Returns (fun n => Parser.expectGetIdentAndNext .Identifier >>= f n) (⟨.Identifier, x⟩ :: us) a rest :=
  @Returns.expectGetIdentAndNext _ _ _ ⟨.Identifier, x⟩ _ rfl _ _ hf

theorem Returns.readNextToken {t : Token} {f : Nat → Unit → P α} {a : α} (hf : Returns (fun n => f n ()) us a rest) :
    Returns (fun n => readNextToken >>= f n) (t :: us) a rest := hf

theorem Returns.setCurTokStr {t : Token} {str : String} {f : Nat → Unit → P α} {a : α}
    (hf : Returns (fun n => f n ()) ({ t with str := str } :: us) a rest) :
    Returns (fun n => setCurTokStr str >>= f n) (t :: us) a rest := hf

theorem Returns.lookAhead {k : Nat} {t : Token} {f : Nat → Token → P α} {a : α} (ht : headTok ((us ++ rest).drop k) = t)
    (hf : Returns (fun n => f n t) us a rest) : Returns (fun n => lookAhead k >>= f n) us a rest := by
  subst ht
  exact hf

theorem Returns.curTok {f : Nat → Token → P α} {a : α} (hf : Returns (fun n => f n (headTok (us ++ rest))) us a rest) :
    Returns (fun n => curTok >>= f n) us a rest := hf

theorem Returns.curTok_cons {t : Token} {f : Nat → Token → P α} {a : α} (hf : Returns (fun n => f n t) (t :: us) a rest) :
    Returns (fun n => Parser.curTok >>= f n) (t :: us) a rest := hf

end

/-! ## Types -/

theorem typeLoop_returns {b : BasicType} {k : Nat} {rest : List Token} (hr : (headTok rest).type ≠ .LBracket) :
    Returns (fun n => typeLoop n b k) [] (if k = 0 then .basic b else .array b k) rest := by
  refine .step (fun n => by rw [typeLoop]) (.curTok ?_)
  dsimp only [List.nil_append]
  split
  · exact absurd ‹_› hr
  · exact .pure _ _

theorem typeLoop_returns_cons {b : BasicType} {k : Nat} {t t' : Token} {us rest : List Token} {type : Ty}
    (ht : t.type = .LBracket) (ht' : t'.type = .RBracket) (h : Returns (fun n => typeLoop n b (k + 1)) us type rest) :
    Returns (fun n => typeLoop n b k) (t :: t' :: us) type rest := by
  refine .step (fun n => by rw [typeLoop]) (.curTok_cons ?_)
  simp only [ht]
  exact .readNextToken (.expectAndNext ht' h)

/-! ## Expressions -/

/-- The text of a postfix expression: what the loop makes of the tokens behind it, `parsePostfixExpr` makes of all. -/
def PostfixReturns (ts : List Token) (e : Expr) : Prop :=
  ∀ ⦃vs rest : List Token⦄ ⦃e' : Expr⦄, AfterPrimary (vs ++ rest) → Returns (fun n => postfixLoop n e) vs e' rest →
    Returns parsePostfixExpr (ts ++ vs) e' rest

/-- The text of a unary expression. -/
def UnaryReturns (ts : List Token) (e : Expr) : Prop :=
  ∀ ⦃rest : List Token⦄, NoPostfix rest → Returns parseUnary ts e rest

/-- The text of an expression that an assignment may follow: what the loop makes of the tokens behind it,
`precedenceParse` makes of all. -/
def OperandReturns (ts : List Token) (e : Expr) : Prop :=
  ∀ ⦃p : Int⦄ ⦃vs rest : List Token⦄ ⦃e' : Expr⦄, p ≤ 1 → StopAt 2 (vs ++ rest) →
    Returns (fun n => precedenceLoop n p e) vs e' rest → Returns (fun n => precedenceParse n p) (ts ++ vs) e' rest

/-- The text of an expression, as an argument of any function and as the right side of an assignment. -/
def ExprReturns (ts : List Token) (e : Expr) : Prop :=
  ∀ ⦃p : Int⦄ ⦃rest : List Token⦄, 0 ≤ p → p ≤ 1 → StopAt 0 rest → Returns (fun n => precedenceParse n p) ts e rest

section
variable {ts us vs rest : List Token} {e l r : Expr}

theorem StopAt.mono {p q : Int} (h : StopAt p rest) (hpq : p ≤ q) : StopAt q rest := ⟨h.1, Int.lt_of_lt_of_le h.2 hpq⟩

theorem postfixLoop_returns (h : NoPostfix rest) (e : Expr) : Returns (fun n => postfixLoop n e) [] e rest := by
  refine .step (fun n => by rw [postfixLoop]) (.curTok ?_)
  rw [List.nil_append]
  split
  · exact absurd ‹_› h.1
  · exact absurd ‹_› h.2.1
  · exact .pure _ _

theorem precedenceLoop_returns {p : Int} (h : StopAt p rest) (e : Expr) :
    Returns (fun n => precedenceLoop n p e) [] e rest := by
  refine .step (fun n => by rw [precedenceLoop]) (.curTok ?_)
  have hlt : ¬ getOpPrec (headTok rest).type ≥ p := by
    have := h.2
    omega
  simp only [List.nil_append, if_neg hlt]
  exact .pure _ _

theorem PostfixReturns.parse (h : PostfixReturns ts e) (hr : NoPostfix rest) : Returns parsePostfixExpr ts e rest := by
  rw [← List.append_nil ts]
  exact h hr.afterPrimary (postfixLoop_returns hr e)

/-- A primary expression. -/
theorem PostfixReturns.primary (h : ∀ ⦃rest⦄, AfterPrimary rest → Returns parsePrimary ts e rest) : PostfixReturns ts e :=
  fun _ _ _ hr hloop => .step (fun n => by rw [parsePostfixExpr]) (.bind (h hr) hloop)

/-- The postfix operator of a member. -/
theorem PostfixReturns.member {t : Token} (h : PostfixReturns ts l) (ht : t.type = .Dot)
    (hm : ∀ ⦃rest⦄, AfterPrimary rest → Returns (fun n => parseMemberAccess n l) (t :: us) e rest) :
    PostfixReturns (ts ++ t :: us) e := by
  intro vs rest e' hr hloop
  rw [List.append_assoc]
  refine h ⟨?_, ?_⟩ (.step (fun n => by rw [postfixLoop]) (.curTok_cons ?_))
  · rw [List.cons_append, List.cons_append, headTok_cons, ht]
    decide
  · rw [List.cons_append, List.cons_append, headTok_cons, ht]
    exact fun hb => absurd hb.1 (by decide)
  · simp only [ht]
    exact .bind (hm hr) hloop

/-- The postfix operator of an index. -/
theorem PostfixReturns.index {t : Token} (h : PostfixReturns ts l) (ht : t.type = .LBracket) (hne : us ≠ [])
    (hu : (headTok us).type ≠ .RBracket) (hm : ∀ ⦃rest⦄, Returns (fun n => parseArrayAccess n l) (t :: us) e rest) :
    PostfixReturns (ts ++ t :: us) e := by
  intro vs rest e' hr hloop
  rw [List.append_assoc]
  refine h ⟨?_, ?_⟩ (.step (fun n => by rw [postfixLoop]) (.curTok_cons ?_))
  · rw [List.cons_append, List.cons_append, headTok_cons, ht]
    decide
  · obtain ⟨u, us, rfl⟩ := List.exists_cons_of_ne_nil hne
    exact fun hb => hu hb.2
  · simp only [ht]
    exact .bind (@hm _) hloop

theorem parseMemberAccess_field {t i : Token} (ht : t.type = .Dot) (hi : i.type = .Identifier) (hr : AfterPrimary rest) :
    Returns (fun n => parseMemberAccess n l) [t, i] (.fieldAccess l i.str) rest := by
  refine .step (fun n => by rw [parseMemberAccess]) (.expectAndNext ht (.expectGetIdentAndNext hi (.curTok ?_)))
  simp only [List.nil_append, if_neg hr.1]
  exact .pure _ _

/-- The arguments of a call up to the closing parenthesis. -/
def ArgumentsReturn (ts : List Token) (es : List Expr) : Prop :=
  ∀ ⦃rest : List Token⦄, (headTok rest).type = .RParen → Returns parseArguments ts es rest

/-- The rest of a call after its opening parenthesis. -/
theorem ArgumentsReturn.call {es : List Expr} (h : ArgumentsReturn us es) {t : Token} (ht : t.type = .RParen)
    (f : List Expr → Expr) :
    Returns (fun n => do let args ← parseArguments n; expectAndNext .RParen; pure (f args)) (us ++ [t]) (f es) rest := by
  refine .bind (h ?_) (.expectAndNext ht (.pure _ _))
  rw [List.cons_append, headTok_cons, ht]

theorem parseMemberAccess_call {t i t₁ t₂ : Token} {es : List Expr} (ht : t.type = .Dot) (hi : i.type = .Identifier)
    (ht₁ : t₁.type = .LParen) (h : ArgumentsReturn us es) (ht₂ : t₂.type = .RParen) :
    Returns (fun n => parseMemberAccess n l) (t :: i :: t₁ :: (us ++ [t₂])) (.methodInvocation l i.str es) rest := by
  refine .step (fun n => by rw [parseMemberAccess]) (.expectAndNext ht (.expectGetIdentAndNext hi (.curTok_cons ?_)))
  simp only [if_pos ht₁]
  exact .readNextToken (h.call ht₂ _)

theorem parseArrayAccess_returns {t t' : Token} (ht : t.type = .LBracket) (h : ExprReturns us e)
    (ht' : t'.type = .RBracket) : Returns (fun n => parseArrayAccess n l) (t :: (us ++ [t'])) (.arrayAccess l e) rest :=
by
  have hstop : StopAt 0 ([t'] ++ rest) := .cons ht' (by decide)
  have hindex := h (by decide : (0 : Int) ≤ 0) (by decide) hstop
  refine .step (fun n => by rw [parseArrayAccess]) (.expectAndNext ht (.bind hindex ?_))
  refine .expectAndNext ht' ?_
  exact .pure _ _

/-- A postfix expression that does not start with a sign. -/
theorem PostfixReturns.unary {t : Token} (h : PostfixReturns (t :: us) e) (hb : t.type ≠ .Bang) (hm : t.type ≠ .Minus) :
    UnaryReturns (t :: us) e := by
  intro rest hr
  refine .step (fun n => by rw [parseUnary]) (.step (fun n => by rw [unaryLoop]) (.curTok_cons ?_))
  split
  · exact absurd ‹_› hb
  · exact absurd ‹_› hm
  · have hlit : ¬ (t.type = .IntLiteral ∧ ([] : List UnaryOp).head? = some .neg) := fun h => absurd h.2 (by decide)
    simp only [if_neg hlit]
    exact .last (h.parse hr) (.pure _ _)

/-- A postfix expression that starts with a negative literal: the sign becomes a part of the literal. -/
theorem PostfixReturns.negative {m t : Token} (h : PostfixReturns ({ t with str := "-" ++ t.str } :: us) e)
    (hm : m.type = .Minus) (ht : t.type = .IntLiteral) : UnaryReturns (m :: t :: us) e := by
  intro rest hr
  refine .step (fun n => by rw [parseUnary]) (.step (fun n => by rw [unaryLoop]) (.curTok_cons ?_))
  simp only [hm]
  refine .readNextToken (.step (fun n => by rw [unaryLoop]) (.curTok_cons ?_))
  simp only [ht, List.head?_cons, and_self, if_true]
  exact .setCurTokStr (.last (h.parse hr) (.pure _ _))

/-- The type of the token of a prefix operator. -/
def signType : UnaryOp → TT
  | .not => .Bang
  | .neg => .Minus

/-- A prefix operator before a postfix expression that starts neither with a sign nor with a literal. -/
theorem PostfixReturns.sign {s t : Token} {op : UnaryOp} (h : PostfixReturns (t :: us) e)
    (hs : s.type = signType op) (hb : t.type ≠ .Bang) (hm : t.type ≠ .Minus)
    (hi : t.type ≠ .IntLiteral) : UnaryReturns (s :: t :: us) (.unary op e) := by
  intro rest hr
  have hloop : Returns (fun n => unaryLoop n [op]) (t :: us) (.unary op e) rest := by
    refine .step (fun n => by rw [unaryLoop]) (.curTok_cons ?_)
    split
    · exact absurd ‹_› hb
    · exact absurd ‹_› hm
    · have hlit : ¬ (t.type = .IntLiteral ∧ [op].head? = some .neg) := fun h => hi h.1
      simp only [if_neg hlit]
      exact .last (h.parse hr) (.pure _ _)
  refine .step (fun n => by rw [parseUnary]) (.step (fun n => by rw [unaryLoop]) (.curTok_cons ?_))
  cases op <;> simp only [hs, signType] <;> exact .readNextToken hloop

theorem UnaryReturns.operand (h : UnaryReturns ts e) : OperandReturns ts e :=
  fun _ _ _ _ _ hr hloop => .step (fun n => by rw [precedenceParse]) (.bind (h hr.1) hloop)

theorem OperandReturns.expr (h : OperandReturns ts e) : ExprReturns ts e := by
  intro p rest hp hp' hr
  rw [← List.append_nil ts]
  exact h hp' (hr.mono (by decide)) (precedenceLoop_returns (hr.mono hp) e)

/-- A single operand in front of looser operators. -/
theorem UnaryReturns.parse (h : UnaryReturns ts e) {p : Int} (hr : StopAt p rest) :
    Returns (fun n => precedenceParse n p) ts e rest :=
  .step (fun n => by rw [precedenceParse]) (.last (h hr.1) (precedenceLoop_returns hr e))

/-- The loop reads one more operator. -/
theorem precedenceLoop_returns_cons {p : Int} {t : Token} {op : BinaryOp} {e' : Expr} (hop : getOpForToken t.type = some op)
    (hp : p ≤ getOpPrec t.type)
    (hr : Returns (fun n => precedenceParse n (if t.type ≠ .Eq then getOpPrec t.type + 1 else getOpPrec t.type)) us r
      (vs ++ rest))
    (hloop : Returns (fun n => precedenceLoop n p (.binary op l r)) vs e' rest) :
    Returns (fun n => precedenceLoop n p l) (t :: (us ++ vs)) e' rest := by
  refine .step (fun n => by rw [precedenceLoop]) (.curTok_cons ?_)
  simp only [if_pos (show getOpPrec t.type ≥ p from hp)]
  refine .readNextToken (.bind hr ?_)
  simp only [hop]
  exact hloop

/-- An operator other than the assignment between two unary expressions. -/
theorem UnaryReturns.binary {t : Token} {op : BinaryOp} (hl : UnaryReturns ts l) (hop : getOpForToken t.type = some op)
    (hne : t.type ≠ .Eq) (hu : UnaryReturns us r) : OperandReturns (ts ++ t :: us) (.binary op l r) := by
  have hprec : (2 : Int) ≤ getOpPrec t.type := by
    revert hop hne
    cases t.type <;> first | exact fun _ _ => by decide | exact fun _ h => absurd rfl h | (intro h; cases h)
  intro p vs rest e' hp hr hloop
  rw [List.append_assoc]
  refine .step (fun n => by rw [precedenceParse]) (.bind (hl ?_) (precedenceLoop_returns_cons hop (by omega) ?_ hloop))
  · refine noPostfix_of_prec ?_
    rw [List.cons_append, List.cons_append, headTok_cons]
    omega
  · simp only [if_pos hne]
    exact hu.parse (hr.mono (by omega))

/-- An assignment. -/
theorem OperandReturns.assign {t : Token} (hl : OperandReturns ts l) (ht : t.type = .Eq) (hu : ExprReturns us r) :
    ExprReturns (ts ++ t :: us) (.binary .assign l r) := by
  intro p rest _ hp' hr
  have hprec : getOpPrec t.type = 1 := by rw [ht]; rfl
  refine hl hp' ⟨noPostfix_of_prec ?_, ?_⟩ ?_
  · rw [List.cons_append, headTok_cons, hprec]
    decide
  · rw [List.cons_append, headTok_cons, hprec]
    decide
  · rw [← List.append_nil us]
    refine precedenceLoop_returns_cons (by rw [ht]; rfl) (by omega) ?_ (precedenceLoop_returns (hr.mono ‹_›) _)
    simp only [ht, ne_eq, not_true_eq_false, if_false]
    exact hu (by decide) (by decide) hr

end

/-! ## Statements -/

section
variable {us vs rest : List Token}

/-- The rest of a `parseBlockStatement` that is a declaration. -/
theorem parseBlockStatement_decl {s : Stmt} (h : Derives .localVariableDeclarationStatement us) (hl : Lex us)
    (hx : Returns parseLocalVarDeclStmt us s rest) : Returns parseBlockStatement us (some s) rest := by
  obtain ⟨t, us, rfl⟩ := List.exists_cons_of_ne_nil (h.ne_nil rfl)
  have hsome := hx.map some
  refine .step (fun n => by rw [parseBlockStatement]) (.curTok_cons ?_)
  have ht : t.type ∈ firstType := h.head_mem rfl hl.head
  simp only [firstType, List.mem_cons, List.not_mem_nil, or_false] at ht
  rcases ht with ht | ht | ht | ht
  · simpa only [ht] using hsome
  · simpa only [ht] using hsome
  · simpa only [ht] using hsome
  · simp only [ht]
    refine .lookAhead rfl (.lookAhead rfl ?_)
    have hd : (headTok (List.drop 1 (t :: us ++ rest))).type = .Identifier ∨
        (headTok (List.drop 1 (t :: us ++ rest))).type = .LBracket ∧
          (headTok (List.drop 2 (t :: us ++ rest))).type = .RBracket := by
      simpa [StartsDecl] using localVarDecl_startsDecl h rest
    simp only [if_pos hd]
    exact hsome

/-- A statement that starts with an identifier is an expression. -/
theorem statement_not_startsDecl {t : Token} (h : Derives .statement (t :: us)) (hl : Lex (t :: us))
    (hid : t.type = .Identifier) : ¬ StartsDecl (us ++ rest) := by
  have hfirst {nt : NT} (h : Derives nt (t :: us)) : Token.Type.Identifier ∈ first nt := hid ▸ h.head_mem rfl hl.head
  rcases derives_statement_cases h with (h | h | h | h) | h | h
  · exact absurd (hfirst h) (by decide)
  · exact absurd (hfirst h) (by decide)
  · obtain ⟨e, s, hsplit, he, hs⟩ := derives_exprStmt_iff.mp h
    obtain ⟨i, e, rfl⟩ := List.exists_cons_of_ne_nil (he.ne_nil rfl)
    obtain ⟨rfl, rfl⟩ : t = i ∧ us = e ++ [s] := by simpa using hsplit
    have hs' : (headTok (s :: rest)).type = .Semicolon := hs
    rw [List.append_assoc]
    exact expression_not_startsDecl he (Lex.of_append_left hl) hid (StopAt.of_type hs' (by decide)).1 (by simp [hs])
  · exact absurd (hfirst h) (by decide)
  · exact absurd (hfirst h) (by decide)
  · exact absurd (hfirst h) (by decide)

/-- The rest of a `parseBlockStatement` that is no declaration. -/
theorem parseBlockStatement_stmt {o : Option Stmt} (h : Derives .statement us) (hl : Lex us)
    (hx : Returns parseStmt us o rest) : Returns parseBlockStatement us o rest := by
  obtain ⟨t, us, rfl⟩ := List.exists_cons_of_ne_nil (h.ne_nil rfl)
  refine .step (fun n => by rw [parseBlockStatement]) (.curTok_cons ?_)
  have ht : t.type ∈ firstStatement := h.head_mem rfl hl.head
  by_cases hid : t.type = .Identifier
  · simp only [hid]
    refine .lookAhead rfl (.lookAhead rfl ?_)
    have hd : ¬ ((headTok (List.drop 1 (t :: us ++ rest))).type = .Identifier ∨
        (headTok (List.drop 1 (t :: us ++ rest))).type = .LBracket ∧
          (headTok (List.drop 2 (t :: us ++ rest))).type = .RBracket) := by
      simpa [StartsDecl] using @statement_not_startsDecl _ rest _ h hl hid
    simp only [if_neg hd]
    exact hx
  · generalize t.type = type at ht hid
    simp only [firstStatement, firstExpression, List.cons_append, List.nil_append, List.mem_cons,
      List.not_mem_nil, or_false] at ht
    rcases ht with rfl | rfl | rfl | rfl | rfl | rfl | rfl | rfl | rfl | rfl | rfl | rfl | rfl | rfl | rfl
    all_goals first
      | exact hx
      | exact absurd rfl hid

theorem blockLoop_returns {t : Token} (ht : t.type = .RBrace) (ss : List Stmt) :
    Returns (fun n => blockLoop n ss) [t] ⟨ss, isLonely ss⟩ rest := by
  refine .step (fun n => by rw [blockLoop]) (.curTok_cons ?_)
  simp only [ht]
  exact .readNextToken (.pure _ _)

/-- The loop reads one more statement. -/
theorem blockLoop_returns_cons {ss : List Stmt} {o : Option Stmt} {block : Block} (h : Derives .blockStatement us)
    (hl : Lex us) (hx : Returns parseBlockStatement us o (vs ++ rest))
    (hloop : Returns (fun n => blockLoop n (ss ++ o.toList)) vs block rest) :
    Returns (fun n => blockLoop n ss) (us ++ vs) block rest := by
  have hnext : Returns (fun n => parseBlockStatement n >>= fun s => blockLoop n (ss ++ s.toList)) (us ++ vs) block rest :=
    .bind hx hloop
  obtain ⟨t, us, rfl⟩ := List.exists_cons_of_ne_nil (h.ne_nil rfl)
  have ht := h.head_mem rfl hl.head
  refine .step (fun n => by rw [blockLoop]) (.curTok_cons ?_)
  generalize t.type = type at ht
  simp only [first, firstStatement, firstExpression, List.cons_append, List.nil_append, List.mem_cons,
    List.not_mem_nil, or_false] at ht
  rcases ht with rfl | rfl | rfl | rfl | rfl | rfl | rfl | rfl | rfl | rfl | rfl | rfl | rfl | rfl | rfl |
    rfl | rfl | rfl <;> exact hnext

theorem parseBlock_returns {t : Token} {block : Block} (ht : t.type = .LBrace)
    (h : Returns (fun n => blockLoop n []) us block rest) : Returns parseBlock (t :: us) block rest :=
  .step (fun n => by rw [parseBlock]) (.expectAndNext ht h)

theorem parseStmt_block {t : Token} {block : Block} (ht : t.type = .LBrace) (h : Returns parseBlock (t :: us) block rest) :
    Returns parseStmt (t :: us) (some (.block block.statements block.lonely)) rest := by
  refine .step (fun n => by rw [parseStmt]) (.curTok_cons ?_)
  simp only [ht]
  exact .last h (.pure _ _)

theorem parseStmt_expr {e : Expr} {t : Token} (hd : Derives .expression us) (hl : Lex us) (h : ExprReturns us e)
    (ht : t.type = .Semicolon) : Returns parseStmt (us ++ [t]) (some (.exprStmt e)) rest := by
  have hstop : StopAt 0 ([t] ++ rest) := .cons ht (by decide)
  have hstmt : Returns parseExprStmt (us ++ [t]) (.exprStmt e) rest := by
    unfold parseExprStmt
    refine .bind (h (by decide : (0 : Int) ≤ 0) (by decide) hstop) (.expectAndNext ht ?_)
    exact .pure _ _
  have hsome := hstmt.map some
  obtain ⟨u, us, rfl⟩ := List.exists_cons_of_ne_nil (hd.ne_nil rfl)
  have hu := hd.head_mem rfl hl.head
  refine .step (fun n => by rw [parseStmt]) (.curTok_cons ?_)
  simp only [first, firstExpression, List.mem_cons, List.not_mem_nil, or_false] at hu
  rcases hu with hu | hu | hu | hu | hu | hu | hu | hu | hu | hu <;> simp only [hu] <;> exact hsome

end

/-! ## Programs -/

/-- What the loop returns with enough steps, `parseProgram` returns. -/
theorem parseProgram_of_returns {ts : List Token} {eof : Token} {p : Program} (hl : Lex (ts ++ [eof]))
    (h : Returns (fun n => programLoop n []) ts p [eof]) : parseProgram (ts ++ [eof]) = .ok p := by
  obtain ⟨N, hN⟩ := h
  have hrun := hN (N + stepBound (ts ++ [eof])) (by omega)
  have hle := programLoop_le (n := N + stepBound (ts ++ [eof])) (m := stepBound (ts ++ [eof])) (by omega) []
  have hclean := clean_parseProgram hl
  unfold parseProgram at hclean ⊢
  cases hb : (programLoop (stepBound (ts ++ [eof])) []).run (ts ++ [eof]) with
  | ok r =>
    obtain ⟨p', rest⟩ := r
    rw [hle.eq_ok hb] at hrun
    obtain ⟨rfl, rfl⟩ := Prod.mk.inj (Except.ok.inj hrun)
    rfl
  | error s =>
    rw [hb] at hclean
    obtain ⟨e, rfl⟩ := hclean s rfl
    rw [hle.eq_parseError hb] at hrun
    cases hrun

end Mjc.Parser

import Mjc.Parser.Completeness

/-!
# The parser accepts exactly the MiniJava grammar

Completeness for statements and classes, and the two directions together.

* `Nested c us` : a statement whose `else` branches belong to the nearest `if`; with `c` set, an `else`
  after it cannot be taken for a part of it. Every statement of the grammar is one (`nested_of_derives`);
* `StmtComplete n`, `stmtComplete` : completeness of the functions of statements;
* `parseProgram_iff_grammar` : a text is accepted if and only if it is derivable from `program`; on every
  other one the parser raises a `ParseError`.
-/

namespace Mjc.Parser
open Mjc.Ast Mjc.Grammar

set_option autoImplicit false

/-! ## Types -/

theorem derives_typeAnnotations_iff {ts : List Token} : Derives .postfixTypeAnnotations ts ↔
    ts = [] ∨ ∃ t t' us, ts = t :: t' :: us ∧ t.type = .LBracket ∧ t'.type = .RBracket ∧
      Derives .postfixTypeAnnotations us := by
  rw [derives_iff]
  simp [rules, Terminal.Matches]

theorem derives_type_iff {ts : List Token} : Derives .type ts ↔
    ∃ t us, ts = t :: us ∧ t.type ∈ firstType ∧ Derives .postfixTypeAnnotations us := by
  simp [@derives_iff .type, rules, derives_basicType_iff]
  aesop

theorem typeLoop_complete {n k : Nat} {b : BasicType} {us rest : List Token}
    (h : Derives .postfixTypeAnnotations us) (hr : (headTok rest).type ≠ .LBracket) (hn : us.length < n) :
    Parses (typeLoop n b k) us rest := by
  induction n generalizing us k with
  | zero => omega
  | succ n ih =>
    rw [typeLoop]
    rcases derives_typeAnnotations_iff.1 h with rfl | ⟨t, t', vs, rfl, ht, ht', hvs⟩
    · refine .curTok_nil ?_
      split
      · exact absurd ‹_› hr
      · exact .pure _ _
    · refine .curTok_cons ?_
      simp only [ht]
      exact .readNextToken (.expectAndNext ht' (ih hvs (by simp at hn; omega)))

theorem parseType_complete {n : Nat} {us rest : List Token} (h : Derives .type us)
    (hr : (headTok rest).type ≠ .LBracket) (hn : us.length ≤ n) : Parses (parseType n) us rest := by
  obtain ⟨t, vs, rfl, ht, hvs⟩ := derives_type_iff.1 h
  exact Parses.bind (ExprComplete.parseBasicType_complete ht)
    fun b => typeLoop_complete hvs hr (by simp at hn; omega)

/-! ## The dangling else -/

/-- A statement other than `if` and `while`. -/
def Simple (us : List Token) : Prop :=
  Derives .block us ∨ Derives .emptyStatement us ∨ Derives .expressionStatement us ∨
    Derives .returnStatement us

/-- The keyword of a statement and the condition between parentheses. -/
def Head (type : TT) (us : List Token) : Prop :=
  ∃ t₁ t₂ vs t₃, us = t₁ :: t₂ :: (vs ++ [t₃]) ∧ t₁.type = type ∧ t₂.type = .LParen ∧
    Derives .expression vs ∧ t₃.type = .RParen

/-- A statement whose `else` branches belong to the nearest `if`; `closed` if no `else` can go on with it. -/
inductive Nested : Bool → List Token → Prop where
  | simple {closed : Bool} {us : List Token} (h : Simple us) : Nested closed us
  | whileStmt {closed : Bool} {hs us : List Token} (head : Head .While hs) (body : Nested closed us) :
      Nested closed (hs ++ us)
  | ifElse {closed : Bool} {hs us vs : List Token} {t : Token} (head : Head .If hs)
      (thenStmt : Nested true us) (ht : t.type = .Else) (elseStmt : Nested closed vs) :
      Nested closed (hs ++ (us ++ t :: vs))
  | ifThen {hs us : List Token} (head : Head .If hs) (thenStmt : Nested false us) : Nested false (hs ++ us)

/-- A statement is closed, or it takes an `else` branch that follows it. -/
theorem Nested.closed_or_takes {closed : Bool} {us : List Token} (h : Nested closed us) :
    Nested true us ∨ ∀ {t : Token} {vs : List Token}, t.type = .Else → Nested false vs →
      Nested false (us ++ t :: vs) := by
  induction h with
  | simple h => exact .inl (.simple h)
  | whileStmt head _ ih =>
    refine ih.imp (.whileStmt head) fun takes t vs ht hvs => ?_
    rw [List.append_assoc]
    exact .whileStmt head (takes ht hvs)
  | ifElse head thenStmt ht' _ _ ih =>
    refine ih.imp (.ifElse head thenStmt ht') fun takes t vs ht hvs => ?_
    rw [List.append_assoc, List.append_assoc, List.cons_append]
    exact .ifElse head thenStmt ht' (takes ht hvs)
  | ifThen head thenStmt ih =>
    refine .inr fun {t vs} ht hvs => ?_
    rw [List.append_assoc]
    rcases ih with ih | takes
    · exact .ifElse head ih ht hvs
    · exact .ifThen head (takes ht hvs)

theorem derives_while_iff {ts : List Token} : Derives .whileStatement ts ↔
    ∃ hs us, ts = hs ++ us ∧ Head .While hs ∧ Derives .statement us := by
  simp [@derives_iff .whileStatement, rules, Terminal.Matches, Head]
  aesop

theorem derives_ifTail_iff {ts : List Token} : Derives .ifStatementTail ts ↔
    ts = [] ∨ ∃ t us, ts = t :: us ∧ t.type = .Else ∧ Derives .statement us := by
  simp [@derives_iff .ifStatementTail, rules, Terminal.Matches]

theorem derives_if_iff {ts : List Token} : Derives .ifStatement ts ↔
    ∃ hs us vs, ts = hs ++ (us ++ vs) ∧ Head .If hs ∧ Derives .statement us ∧ Derives .ifStatementTail vs := by
  simp [@derives_iff .ifStatement, rules, Terminal.Matches, Head]
  aesop

theorem derives_statement_cases {ts : List Token} (h : Derives .statement ts) :
    Simple ts ∨ Derives .ifStatement ts ∨ Derives .whileStatement ts := by
  simp [@derives_iff .statement, rules] at h
  unfold Simple
  tauto

theorem Head.ne_nil {type : TT} {us : List Token} (h : Head type us) : us ≠ [] := by
  obtain ⟨t₁, t₂, vs, t₃, rfl, -⟩ := h
  simp

/-- Every statement can be read with its `else` branches at the nearest `if`. -/
theorem nested_of_derives {us : List Token} (h : Derives .statement us) : Nested false us := by
  induction hn : us.length using Nat.strongRecOn generalizing us with
  | ind n ih =>
    rcases derives_statement_cases h with h | h | h
    · exact .simple h
    · obtain ⟨hs, vs, ws, rfl, head, hvs, hws⟩ := derives_if_iff.1 h
      have hpos := List.length_pos_iff.2 head.ne_nil
      simp only [List.length_append] at hn
      have hthen := ih vs.length (by omega) hvs rfl
      rcases derives_ifTail_iff.1 hws with rfl | ⟨t, xs, rfl, ht, hxs⟩
      · rw [List.append_nil]
        exact .ifThen head hthen
      · simp only [List.length_cons] at hn
        have helse := ih xs.length (by omega) hxs rfl
        rcases hthen.closed_or_takes with hthen | takes
        · exact .ifElse head hthen ht helse
        · exact .ifThen head (takes ht helse)
    · obtain ⟨hs, vs, rfl, head, hvs⟩ := derives_while_iff.1 h
      have hpos := List.length_pos_iff.2 head.ne_nil
      simp only [List.length_append] at hn
      exact .whileStmt head (ih vs.length (by omega) hvs rfl)

/-! ## Declarations and expressions in a block -/

theorem derives_localVarDecl_iff {ts : List Token} : Derives .localVariableDeclarationStatement ts ↔
    ∃ us i vs, ts = us ++ i :: vs ∧ Derives .type us ∧ i.type = .Identifier ∧
      Derives .localVariableDeclarationStatementTail vs := by
  simp [@derives_iff .localVariableDeclarationStatement, rules, Terminal.Matches]

theorem derives_localVarDeclTail_iff {ts : List Token} :
    Derives .localVariableDeclarationStatementTail ts ↔
      (∃ t, ts = [t] ∧ t.type = .Semicolon) ∨
      ∃ t us t', ts = t :: (us ++ [t']) ∧ t.type = .Eq ∧ Derives .expression us ∧ t'.type = .Semicolon := by
  simp [@derives_iff .localVariableDeclarationStatementTail, rules, Terminal.Matches]

theorem derives_exprStmt_iff {ts : List Token} : Derives .expressionStatement ts ↔
    ∃ us t, ts = us ++ [t] ∧ Derives .expression us ∧ t.type = .Semicolon := by
  simp [@derives_iff .expressionStatement, rules, Terminal.Matches]

theorem derives_return_iff {ts : List Token} : Derives .returnStatement ts ↔
    (∃ t t', ts = [t, t'] ∧ t.type = .Return ∧ t'.type = .Semicolon) ∨
    ∃ t us t', ts = t :: (us ++ [t']) ∧ t.type = .Return ∧ Derives .expression us ∧ t'.type = .Semicolon := by
  simp [@derives_iff .returnStatement, @derives_iff .returnStatementTail, rules, Terminal.Matches]
  aesop

/-- The two tokens after an identifier make it the type of a declaration. -/
def StartsDecl (ts : List Token) : Prop :=
  (headTok ts).type = .Identifier ∨
    ((headTok ts).type = .LBracket ∧ (headTok (ts.drop 1)).type = .RBracket)

theorem not_startsDecl {ts : List Token} (h : AfterPrimary ts) (h' : (headTok ts).type ≠ .Identifier) :
    ¬ StartsDecl ts := fun hd => hd.elim h' h.2

/-- An expression that starts with an identifier does not look like a declaration. -/
theorem expression_not_startsDecl {i : Token} {us rest : List Token} (h : Derives .expression (i :: us))
    (hl : Lex (i :: us)) (hi : i.type = .Identifier) (hr : NoPostfix rest)
    (hr' : (headTok rest).type ≠ .Identifier) : ¬ StartsDecl (us ++ rest) := by
  obtain ⟨u, v, hsplit, hu, hv⟩ := derives_expression_iff.1 h
  have hv' : NoPostfix (v ++ rest) := Ops.noPostfix hv (Int.le_refl 0) hr
  have hv'' : (headTok (v ++ rest)).type ≠ .Identifier := by
    cases hv with
    | nil => exact hr'
    | cons prec _ _ =>
      intro hid
      rw [List.cons_append, headTok_cons] at hid
      rw [hid] at prec
      exact absurd prec (by decide)
  rcases derives_unary_iff.1 hu with ⟨t, w, rfl, ht, -⟩ | ⟨t, w, rfl, ht, -⟩ | hu
  · cases hsplit
    rw [hi] at ht
    cases ht
  · cases hsplit
    rw [hi] at ht
    cases ht
  obtain ⟨x, y, rfl, hx, hy⟩ := derives_postfix_iff.1 hu
  have after : ∀ {ys : List Token}, Derives .postfixExpressionTail ys → Lex ys →
      ¬ StartsDecl (ys ++ (v ++ rest)) := by
    intro ys hys hlys
    refine not_startsDecl (afterPrimary_of_tail hys hlys hv') ?_
    cases ys with
    | nil => exact hv''
    | cons y ys =>
      have := hys.head_mem rfl hlys.head
      intro hid
      rw [List.cons_append, headTok_cons] at hid
      rw [hid] at this
      exact absurd this (by decide)
  rw [hsplit] at hl
  have hly : Lex y := hl.of_append_left.of_append
  rcases derives_primary_cases hx with ⟨t, vs, t', rfl, ht, -⟩ | ⟨t, rfl, ht⟩ | ⟨t, w, rfl, ht, hw⟩ |
    ⟨t, rfl, ht, -⟩ | hnew | hnew
  · cases hsplit
    simp [hi] at ht
  · cases hsplit
    simp [hi] at ht
  · cases hsplit
    rcases (derives_call_iff rfl).1 hw with rfl | ⟨t₁, ws, t₂, rfl, ht₁, -, -⟩
    · simpa using after hy hly
    · simp [StartsDecl, ht₁]
  · cases hsplit
    simp [hi] at ht
  · obtain ⟨t₁, t₂, t₃, t₄, rfl, ht, -⟩ := derives_newObject_iff.1 hnew
    cases hsplit
    simp [hi] at ht
  · obtain ⟨t₁, t₂, t₃, vs, t₄, ws, rfl, ht, -⟩ := derives_newArray_iff.1 hnew
    cases hsplit
    simp [hi] at ht

/-- A declaration that starts with an identifier looks like one. -/
theorem localVarDecl_startsDecl {i : Token} {us : List Token}
    (h : Derives .localVariableDeclarationStatement (i :: us)) (rest : List Token) :
    StartsDecl (us ++ rest) := by
  obtain ⟨ty, j, vs, hsplit, hty, hj, -⟩ := derives_localVarDecl_iff.1 h
  obtain ⟨t, ann, rfl, -, hann⟩ := derives_type_iff.1 hty
  cases hsplit
  rcases derives_typeAnnotations_iff.1 hann with rfl | ⟨t₁, t₂, ws, rfl, ht₁, ht₂, -⟩
  · exact .inl hj
  · exact .inr ⟨ht₁, ht₂⟩

section
variable {n : Nat} {us rest : List Token}

theorem parseLocalVarDeclStmt_complete (h : Derives .localVariableDeclarationStatement us) (hl : Lex us)
    (hn : 16 * us.length ≤ n) : Parses (parseLocalVarDeclStmt n) us rest := by
  obtain ⟨ty, i, vs, rfl, hty, hi, hvs⟩ := derives_localVarDecl_iff.1 h
  have hpos := List.length_pos_iff.2 (hty.ne_nil rfl)
  simp only [List.length_append, List.length_cons] at hn
  rw [parseLocalVarDeclStmt]
  have hid : (headTok (i :: vs ++ rest)).type ≠ .LBracket := by simp [hi]
  refine (parseType_complete hty hid (by omega)).bind fun ty' => .expectGetIdentAndNext hi fun s => ?_
  rcases derives_localVarDeclTail_iff.1 hvs with ⟨t, rfl, ht⟩ | ⟨t, ws, t', rfl, ht, hws, ht'⟩
  · refine .curTok_cons ?_
    simp only [ht]
    exact .readNextToken (.pure _ _)
  · refine .curTok_cons ?_
    simp only [ht]
    simp only [List.length_append, List.length_cons] at hn
    exact .readNextToken ((exprComplete n).expressionUntil hws hl.of_append.tail.tail.of_append_left ht' (by decide)
      (by omega) fun _ => .pure _ _)

theorem parseExprStmt_complete (h : Derives .expressionStatement us) (hl : Lex us)
    (hn : 16 * us.length ≤ n) : Parses (parseExprStmt n) us rest := by
  obtain ⟨vs, t, rfl, hvs, ht⟩ := derives_exprStmt_iff.1 h
  exact (exprComplete n).expressionUntil hvs hl.of_append_left ht (by decide) (by simp at hn; omega) fun _ => .pure _ _

theorem parseReturnStmt_complete (h : Derives .returnStatement us) (hl : Lex us)
    (hn : 16 * us.length ≤ n) : Parses (parseReturnStmt n) us rest := by
  rw [parseReturnStmt]
  rcases derives_return_iff.1 h with ⟨t, t', rfl, ht, ht'⟩ | ⟨t, vs, t', rfl, ht, hvs, ht'⟩
  · refine .expectAndNext ht (.curTok_cons ?_)
    simp only [ht']
    exact .readNextToken (.pure _ _)
  · obtain ⟨v, ws, rfl⟩ : ∃ v ws, vs = v :: ws := List.exists_cons_of_ne_nil (hvs.ne_nil rfl)
    have hv : v.type ∈ firstExpression := hvs.head_mem rfl hl.tail.head
    refine .expectAndNext ht (.curTok_cons ?_)
    split
    · next hs =>
      rw [hs] at hv
      exact absurd hv (by decide)
    · exact (exprComplete n).expressionUntil hvs hl.tail.of_append_left ht' (by decide) (by simp at hn ⊢; omega)
        fun _ => .pure _ _

end

/-! ## Statements -/

theorem derives_block_iff {ts : List Token} : Derives .block ts ↔
    ∃ t us, ts = t :: us ∧ t.type = .LBrace ∧ DerivesAll [.n .blockInner, tok .RBrace] us := by
  simp only [@derives_iff .block, rules, List.mem_singleton, exists_eq_left, derivesAll_terminal,
    Terminal.Matches]

theorem derives_blockInner_cases {ts : List Token} (h : DerivesAll [.n .blockInner, tok .RBrace] ts) :
    (∃ t, ts = [t] ∧ t.type = .RBrace) ∨ ∃ us vs, ts = us ++ vs ∧ Derives .blockStatement us ∧
      DerivesAll [.n .blockInner, tok .RBrace] vs := by
  obtain ⟨us, vs, rfl, hus, hvs⟩ := derivesAll_nonterminal.1 h
  rw [derives_iff] at hus
  simp only [rules, List.mem_cons, List.not_mem_nil, or_false, exists_eq_or_imp, exists_eq_left,
    derivesAll_nil, derivesAll_nonterminal] at hus
  rcases hus with rfl | ⟨xs, ys, rfl, hxs, zs, ws, rfl, hzs, rfl⟩
  · left
    simpa [Terminal.Matches] using hvs
  · right
    exact ⟨xs, zs ++ vs, by simp, hxs, .nonterminal hzs hvs⟩

theorem derives_blockStatement_iff {ts : List Token} : Derives .blockStatement ts ↔
    Derives .localVariableDeclarationStatement ts ∨ Derives .statement ts := by
  simp [@derives_iff .blockStatement, rules]

/-- Completeness of the functions of statements with `n` steps, where `n` is large enough. -/
structure StmtComplete (n : Nat) : Prop where
  parseBlock : ∀ {us rest : List Token}, Derives .block us → Lex us → 16 * us.length + 1 ≤ n →
    Parses (parseBlock n) us rest
  blockLoop : ∀ {ss : List Stmt} {us rest : List Token}, DerivesAll [.n .blockInner, tok .RBrace] us →
    Lex us → 16 * us.length + 10 ≤ n → Parses (blockLoop n ss) us rest
  parseBlockStatement : ∀ {us rest : List Token}, Derives .blockStatement us → Lex us →
    (headTok rest).type ≠ .Else → 16 * us.length + 9 ≤ n → Parses (parseBlockStatement n) us rest
  parseStmt : ∀ {closed : Bool} {us rest : List Token}, Nested closed us → Lex us →
    (closed = true ∨ (headTok rest).type ≠ .Else) → 16 * us.length + 8 ≤ n → Parses (parseStmt n) us rest
  ifElse : ∀ {closed : Bool} {hs us vs rest : List Token} {t : Token}, Head .If hs → Nested true us →
    t.type = .Else → Nested closed vs → Lex (hs ++ (us ++ t :: vs)) →
    (closed = true ∨ (headTok rest).type ≠ .Else) → 16 * (hs ++ (us ++ t :: vs)).length + 1 ≤ n →
    Parses (parseIfStmt n) (hs ++ (us ++ t :: vs)) rest
  ifThen : ∀ {hs us rest : List Token}, Head .If hs → Nested false us → Lex (hs ++ us) →
    (headTok rest).type ≠ .Else → 16 * (hs ++ us).length + 1 ≤ n → Parses (parseIfStmt n) (hs ++ us) rest
  parseWhileStmt : ∀ {closed : Bool} {hs us rest : List Token}, Head .While hs → Nested closed us →
    Lex (hs ++ us) → (closed = true ∨ (headTok rest).type ≠ .Else) → 16 * (hs ++ us).length + 1 ≤ n →
    Parses (parseWhileStmt n) (hs ++ us) rest

namespace StmtComplete
variable {n : Nat} {us rest : List Token}

theorem parseBlock_succ (ih : StmtComplete n) (h : Derives .block us) (hl : Lex us)
    (hn : 16 * us.length + 1 ≤ n + 1) : Parses (Parser.parseBlock (n + 1)) us rest := by
  obtain ⟨t, vs, rfl, ht, hvs⟩ := derives_block_iff.1 h
  rw [Parser.parseBlock]
  exact .expectAndNext ht (ih.blockLoop hvs hl.tail (by simp at hn; omega))

/-- No block statement and no block's end starts with `else`. -/
theorem head_ne_else (h : DerivesAll [.n .blockInner, tok .RBrace] us) (hl : Lex us) :
    (headTok (us ++ rest)).type ≠ .Else := by
  obtain ⟨t, vs, rfl⟩ : ∃ t vs, us = t :: vs :=
    List.exists_cons_of_ne_nil (h.ne_nil ⟨tok .RBrace, by simp, rfl⟩)
  have ht := h.head_mem rfl hl.head
  intro he
  rw [List.cons_append, headTok_cons] at he
  rw [he] at ht
  exact absurd ht (by decide)

theorem blockLoop_succ (ih : StmtComplete n) {ss : List Stmt}
    (h : DerivesAll [.n .blockInner, tok .RBrace] us) (hl : Lex us) (hn : 16 * us.length + 10 ≤ n + 1) :
    Parses (Parser.blockLoop (n + 1) ss) us rest := by
  rw [Parser.blockLoop]
  rcases derives_blockInner_cases h with ⟨t, rfl, ht⟩ | ⟨xs, ys, rfl, hxs, hys⟩
  · refine .curTok_cons ?_
    simp only [ht]
    exact .readNextToken (.pure _ _)
  obtain ⟨t, vs, rfl⟩ : ∃ t vs, xs = t :: vs := List.exists_cons_of_ne_nil (hxs.ne_nil rfl)
  have ht := hxs.head_mem rfl hl.head
  simp only [List.length_append, List.length_cons] at hn
  have hnext : Parses (Parser.parseBlockStatement n >>= fun s => Parser.blockLoop n (ss ++ s.toList))
      ((t :: vs) ++ ys) rest :=
    (ih.parseBlockStatement hxs hl.of_append_left (head_ne_else hys hl.of_append) (by simp; omega)).bind
      fun s => ih.blockLoop hys hl.of_append (by omega)
  refine .curTok_cons ?_
  generalize t.type = type at ht
  simp only [first, firstStatement, firstExpression, List.cons_append, List.nil_append, List.mem_cons,
    List.not_mem_nil, or_false] at ht
  rcases ht with rfl | rfl | rfl | rfl | rfl | rfl | rfl | rfl | rfl | rfl | rfl | rfl | rfl | rfl | rfl |
    rfl | rfl | rfl <;> exact hnext

theorem parseBlockStatement_succ (ih : StmtComplete n) (h : Derives .blockStatement us) (hl : Lex us)
    (hr : (headTok rest).type ≠ .Else) (hn : 16 * us.length + 9 ≤ n + 1) :
    Parses (Parser.parseBlockStatement (n + 1)) us rest := by
  obtain ⟨t, vs, rfl⟩ : ∃ t vs, us = t :: vs := List.exists_cons_of_ne_nil (h.ne_nil rfl)
  rw [Parser.parseBlockStatement]
  refine .curTok_cons ?_
  rcases derives_blockStatement_iff.1 h with h | h
  · have hdecl : Parses (some <$> parseLocalVarDeclStmt n) (t :: vs) rest :=
      (parseLocalVarDeclStmt_complete h hl (by omega)).map
    have ht : t.type ∈ firstType := h.head_mem rfl hl.head
    simp only [firstType, List.mem_cons, List.not_mem_nil, or_false] at ht
    rcases ht with ht | ht | ht | ht
    · simpa only [ht] using hdecl
    · simpa only [ht] using hdecl
    · simpa only [ht] using hdecl
    · simp only [ht]
      refine Parses.lookAhead rfl (Parses.lookAhead rfl ?_)
      rw [if_pos (by simpa [StartsDecl] using localVarDecl_startsDecl h rest)]
      exact hdecl
  · have hstmt : Parses (Parser.parseStmt n) (t :: vs) rest :=
      ih.parseStmt (nested_of_derives h) hl (.inr hr) (by omega)
    have ht : t.type ∈ firstStatement := h.head_mem rfl hl.head
    by_cases hid : t.type = .Identifier
    · simp only [hid]
      refine Parses.lookAhead rfl (Parses.lookAhead rfl ?_)
      have hnot : ¬ StartsDecl (vs ++ rest) := by
        have hexpr : Derives .expressionStatement (t :: vs) := by
          have hfirst : ∀ {nt : NT}, Derives nt (t :: vs) → Token.Type.Identifier ∈ first nt :=
            fun h => hid ▸ h.head_mem rfl hl.head
          rcases derives_statement_cases h with (h | h | h | h) | h | h
          · exact absurd (hfirst h) (by decide)
          · exact absurd (hfirst h) (by decide)
          · exact h
          · exact absurd (hfirst h) (by decide)
          · exact absurd (hfirst h) (by decide)
          · exact absurd (hfirst h) (by decide)
        obtain ⟨e, s, hsplit, he, hs⟩ := derives_exprStmt_iff.1 hexpr
        obtain ⟨i, e, rfl⟩ : ∃ i e', e = i :: e' := List.exists_cons_of_ne_nil (he.ne_nil rfl)
        obtain ⟨rfl, rfl⟩ : t = i ∧ vs = e ++ [s] := by simpa using hsplit
        have hs' : (headTok (s :: rest)).type = .Semicolon := hs
        rw [List.append_assoc]
        exact expression_not_startsDecl he (Lex.of_append_left hl) hid (StopAt.of_type hs' (by decide)).1 (by simp [hs])
      rw [if_neg (by simpa [StartsDecl] using hnot)]
      exact hstmt
    · generalize t.type = type at ht hid
      simp only [firstStatement, firstExpression, List.cons_append, List.nil_append, List.mem_cons,
        List.not_mem_nil, or_false] at ht
      rcases ht with rfl | rfl | rfl | rfl | rfl | rfl | rfl | rfl | rfl | rfl | rfl | rfl | rfl | rfl | rfl
      all_goals first
        | exact hstmt
        | exact absurd rfl hid

theorem parseStmt_succ (ih : StmtComplete n) {closed : Bool} (h : Nested closed us) (hl : Lex us)
    (hr : closed = true ∨ (headTok rest).type ≠ .Else) (hn : 16 * us.length + 8 ≤ n + 1) :
    Parses (Parser.parseStmt (n + 1)) us rest := by
  rw [Parser.parseStmt]
  cases h with
  | simple h =>
    rcases h with h | h | h | h
    · obtain ⟨t, vs, rfl, ht, -⟩ := derives_block_iff.1 h
      refine .curTok_cons ?_
      simp only [ht]
      rw [← List.append_nil (t :: vs)]
      exact (ih.parseBlock h hl (by omega)).bind fun b => .pure _ _
    · simp only [@derives_iff .emptyStatement, rules, List.mem_singleton, exists_eq_left,
        derivesAll_terminal, Terminal.Matches, derivesAll_nil] at h
      obtain ⟨t, vs, rfl, ht, rfl⟩ := h
      refine .curTok_cons ?_
      simp only [ht]
      exact .readNextToken (.pure _ _)
    · obtain ⟨t, vs, rfl⟩ : ∃ t vs, us = t :: vs := List.exists_cons_of_ne_nil (h.ne_nil rfl)
      have ht : t.type ∈ firstExpression := h.head_mem rfl hl.head
      have hexpr : Parses (some <$> parseExprStmt n) (t :: vs) rest :=
        (parseExprStmt_complete h hl (by omega)).map
      refine .curTok_cons ?_
      simp only [firstExpression, List.mem_cons, List.not_mem_nil, or_false] at ht
      rcases ht with ht | ht | ht | ht | ht | ht | ht | ht | ht | ht <;> simp only [ht] <;> exact hexpr
    · obtain ⟨t, vs, rfl⟩ : ∃ t vs, us = t :: vs := List.exists_cons_of_ne_nil (h.ne_nil rfl)
      have ht : t.type = .Return := by simpa [first] using h.head_mem rfl hl.head
      refine .curTok_cons ?_
      simp only [ht]
      exact (parseReturnStmt_complete h hl (by omega)).map
  | @whileStmt _ hs vs head body =>
    have hwhile := ih.parseWhileStmt head body hl hr (by omega)
    obtain ⟨t₁, t₂, ws, t₃, rfl, ht₁, -⟩ := head
    refine .curTok_cons ?_
    simp only [ht₁]
    exact hwhile.map
  | @ifElse _ hs vs ws t head thenStmt ht elseStmt =>
    have hif := ih.ifElse head thenStmt ht elseStmt hl hr (by omega)
    obtain ⟨t₁, t₂, xs, t₃, rfl, ht₁, -⟩ := head
    refine .curTok_cons ?_
    simp only [ht₁]
    exact hif.map
  | @ifThen hs vs head thenStmt =>
    have hif := ih.ifThen head thenStmt hl (hr.resolve_left (by decide)) (by omega)
    obtain ⟨t₁, t₂, xs, t₃, rfl, ht₁, -⟩ := head
    refine .curTok_cons ?_
    simp only [ht₁]
    exact hif.map

/-- The head of an `if` or a `while`. -/
theorem condition {α : Type} {type : TT} {hs vs : List Token} {f : Expr → P α} (h : Head type hs) (hl : Lex hs)
    (hn : 16 * hs.length ≤ n) (hf : ∀ e, Parses (f e) vs rest) :
    Parses (do
      expectAndNext type
      expectAndNext .LParen
      let e ← parseExpr n
      expectAndNext .RParen
      f e) (hs ++ vs) rest := by
  obtain ⟨t₁, t₂, ws, t₃, rfl, ht₁, ht₂, hws, ht₃⟩ := h
  simp only [List.length_append, List.length_cons] at hn
  have hsplit : t₁ :: t₂ :: (ws ++ [t₃]) ++ vs = t₁ :: t₂ :: (ws ++ t₃ :: vs) := by simp
  rw [hsplit]
  exact .expectAndNext ht₁ (.expectAndNext ht₂ ((exprComplete n).expressionUntil hws
    hl.tail.tail.of_append_left ht₃ (by decide) (by omega) hf))

theorem ifElse_succ (ih : StmtComplete n) {closed : Bool} {hs vs : List Token} {t : Token}
    (head : Head .If hs) (hthen : Nested true us) (ht : t.type = .Else) (helse : Nested closed vs)
    (hl : Lex (hs ++ (us ++ t :: vs))) (hr : closed = true ∨ (headTok rest).type ≠ .Else)
    (hn : 16 * (hs ++ (us ++ t :: vs)).length + 1 ≤ n + 1) :
    Parses (Parser.parseIfStmt (n + 1)) (hs ++ (us ++ t :: vs)) rest := by
  have hpos := List.length_pos_iff.2 head.ne_nil
  simp only [List.length_append, List.length_cons] at hn
  rw [Parser.parseIfStmt]
  refine condition head hl.of_append_left (by omega) fun e => ?_
  refine (ih.parseStmt hthen hl.of_append.of_append_left (.inl rfl) (by omega)).bind fun s => .curTok_cons ?_
  rw [if_pos ht, ← List.append_nil vs]
  exact .readNextToken ((ih.parseStmt helse hl.of_append.of_append.tail (by simpa using hr) (by omega)).bind
    fun _ => .pure _ _)

theorem ifThen_succ (ih : StmtComplete n) {hs : List Token} (head : Head .If hs) (hthen : Nested false us)
    (hl : Lex (hs ++ us)) (hr : (headTok rest).type ≠ .Else) (hn : 16 * (hs ++ us).length + 1 ≤ n + 1) :
    Parses (Parser.parseIfStmt (n + 1)) (hs ++ us) rest := by
  have hpos := List.length_pos_iff.2 head.ne_nil
  simp only [List.length_append] at hn
  rw [Parser.parseIfStmt, ← List.append_nil us]
  refine condition head hl.of_append_left (by omega) fun e => ?_
  refine (ih.parseStmt hthen hl.of_append (.inr (by simpa using hr)) (by omega)).bind fun s => .curTok_nil ?_
  rw [if_neg hr]
  exact .pure _ _

theorem parseWhileStmt_succ (ih : StmtComplete n) {closed : Bool} {hs : List Token} (head : Head .While hs)
    (body : Nested closed us) (hl : Lex (hs ++ us)) (hr : closed = true ∨ (headTok rest).type ≠ .Else)
    (hn : 16 * (hs ++ us).length + 1 ≤ n + 1) : Parses (Parser.parseWhileStmt (n + 1)) (hs ++ us) rest := by
  have hpos := List.length_pos_iff.2 head.ne_nil
  simp only [List.length_append] at hn
  rw [Parser.parseWhileStmt, ← List.append_nil us]
  refine condition head hl.of_append_left (by omega) fun e => ?_
  exact (ih.parseStmt body hl.of_append (by simpa using hr) (by omega)).bind fun s => .pure _ _

end StmtComplete

theorem stmtComplete (n : Nat) : StmtComplete n := by
  induction n with
  | zero => constructor <;> intros <;> omega
  | succ n ih =>
    exact {
      parseBlock := ih.parseBlock_succ
      blockLoop := ih.blockLoop_succ
      parseBlockStatement := ih.parseBlockStatement_succ
      parseStmt := ih.parseStmt_succ
      ifElse := ih.ifElse_succ
      ifThen := ih.ifThen_succ
      parseWhileStmt := ih.parseWhileStmt_succ }

/-! ## Classes -/

theorem derives_parameter_iff {ts : List Token} : Derives .parameter ts ↔
    ∃ us i, ts = us ++ [i] ∧ Derives .type us ∧ i.type = .Identifier := by
  simp [@derives_iff .parameter, rules, Terminal.Matches]

theorem derives_parametersTail_iff {ts : List Token} : Derives .parametersTail ts ↔
    ts = [] ∨ ∃ t us vs, ts = t :: (us ++ vs) ∧ t.type = .Comma ∧ Derives .parameter us ∧
      Derives .parametersTail vs := by
  rw [derives_iff]
  simp [rules, Terminal.Matches]

theorem derives_parameters_iff {ts : List Token} : Derives .parameters ts ↔
    ts = [] ∨ ∃ us vs, ts = us ++ vs ∧ Derives .parameter us ∧ Derives .parametersTail vs := by
  simp [@derives_iff .parameters, rules]

theorem derives_throws_iff {ts : List Token} : Derives .throws ts ↔
    ts = [] ∨ ∃ t i, ts = [t, i] ∧ t.str = "throws" ∧ i.type = .Identifier := by
  simp [@derives_iff .throws, rules, Terminal.Matches]

/-- The end of a method: the closing parenthesis, `throws`, and the body. -/
def MethodBody (ts : List Token) : Prop :=
  ∃ t us vs, ts = t :: (us ++ vs) ∧ t.type = .RParen ∧ Derives .throws us ∧ Derives .block vs

theorem derives_fieldOrMethod_iff {ts : List Token} : Derives .fieldOrMethod ts ↔
    (∃ t, ts = [t] ∧ t.type = .Semicolon) ∨
    ∃ t us vs, ts = t :: (us ++ vs) ∧ t.type = .LParen ∧ Derives .parameters us ∧ MethodBody vs := by
  simp [@derives_iff .fieldOrMethod, rules, Terminal.Matches, MethodBody]

theorem derives_mainMethod_iff {ts : List Token} : Derives .mainMethod ts ↔
    ∃ t₁ t₂ t₃ t₄ t₅ t₆ t₇ us, ts = t₁ :: t₂ :: t₃ :: t₄ :: t₅ :: t₆ :: t₇ :: us ∧ t₁.type = .Void ∧
      t₂.type = .Identifier ∧ t₃.type = .LParen ∧ (t₄.type = .Identifier ∧ t₄.str = "String") ∧
      t₅.type = .LBracket ∧ t₆.type = .RBracket ∧ t₇.type = .Identifier ∧ MethodBody us := by
  simp [@derives_iff .mainMethod, rules, Terminal.Matches, MethodBody]

theorem derives_classMember_cases {ts : List Token} (h : Derives .classMember ts) :
    (∃ t t' us, ts = t :: t' :: us ∧ t.type = .Public ∧ t'.type = .Static ∧ Derives .mainMethod us) ∨
    ∃ t us i vs, ts = t :: (us ++ i :: vs) ∧ t.type = .Public ∧ Derives .type us ∧ i.type = .Identifier ∧
      Derives .fieldOrMethod vs := by
  simp [@derives_iff .classMember, @derives_iff .classMemberTail, rules, Terminal.Matches] at h
  aesop

theorem derives_classMembers_cases {ts : List Token} (h : DerivesAll [.n .classMembers, tok .RBrace] ts) :
    (∃ t, ts = [t] ∧ t.type = .RBrace) ∨ ∃ us vs, ts = us ++ vs ∧ Derives .classMember us ∧
      DerivesAll [.n .classMembers, tok .RBrace] vs := by
  obtain ⟨us, vs, rfl, hus, hvs⟩ := derivesAll_nonterminal.1 h
  rw [derives_iff] at hus
  simp only [rules, List.mem_cons, List.not_mem_nil, or_false, exists_eq_or_imp, exists_eq_left,
    derivesAll_nil, derivesAll_nonterminal] at hus
  rcases hus with rfl | ⟨xs, ys, rfl, hxs, zs, ws, rfl, hzs, rfl⟩
  · left
    simpa [Terminal.Matches] using hvs
  · right
    exact ⟨xs, zs ++ vs, by simp, hxs, .nonterminal hzs hvs⟩

theorem derives_classDeclaration_iff {ts : List Token} : Derives .classDeclaration ts ↔
    ∃ t₁ t₂ t₃ us, ts = t₁ :: t₂ :: t₃ :: us ∧ t₁.type = .Class ∧ t₂.type = .Identifier ∧
      t₃.type = .LBrace ∧ DerivesAll [.n .classMembers, tok .RBrace] us := by
  simp [@derives_iff .classDeclaration, rules, Terminal.Matches]

theorem derives_program_iff {ts : List Token} : Derives .program ts ↔
    ts = [] ∨ ∃ us vs, ts = us ++ vs ∧ Derives .classDeclaration us ∧ Derives .program vs := by
  rw [derives_iff]
  simp [rules, or_comm]

section
variable {n : Nat} {us rest : List Token}

theorem parseParameter_complete {idx : Nat} (h : Derives .parameter us) (hn : us.length ≤ n) :
    Parses (parseParameter n idx) us rest := by
  obtain ⟨ty, i, rfl, hty, hi⟩ := derives_parameter_iff.1 h
  have hid : (headTok ([i] ++ rest)).type ≠ .LBracket := by simp [hi]
  exact (parseType_complete hty hid (by simp at hn; omega)).bind
    fun _ => .expectGetIdentAndNext hi fun _ => .pure _ _

theorem parameterLoop_complete {idx : Nat} {ps : List Parameter} (h : Derives .parametersTail us)
    (hr : (headTok rest).type ≠ .Comma) (hn : us.length < n) : Parses (parameterLoop n idx ps) us rest := by
  induction n generalizing us idx ps with
  | zero => omega
  | succ n ih =>
    rw [parameterLoop]
    rcases derives_parametersTail_iff.1 h with rfl | ⟨t, xs, ys, rfl, ht, hxs, hys⟩
    · refine .curTok_nil ?_
      split
      · exact absurd ‹_› hr
      · exact .pure _ _
    · simp only [List.length_append, List.length_cons] at hn
      refine .curTok_cons ?_
      simp only [ht]
      exact .readNextToken ((parseParameter_complete hxs (by omega)).bind fun p => ih hys (by omega))

theorem parseParameterList_complete (h : Derives .parameters us) (hl : Lex us)
    (hr : (headTok rest).type = .RParen) (hn : us.length < n) : Parses (parseParameterList n) us rest := by
  rw [parseParameterList]
  rcases derives_parameters_iff.1 h with rfl | ⟨xs, ys, rfl, hxs, hys⟩
  · refine .curTok_nil ?_
    simp only [hr]
    exact .pure _ _
  obtain ⟨t, vs, rfl⟩ : ∃ t vs, xs = t :: vs := List.exists_cons_of_ne_nil (hxs.ne_nil rfl)
  have ht : t.type ∈ firstType := hxs.head_mem rfl hl.head
  simp only [List.length_append, List.length_cons] at hn
  have hlist : Parses (parseParameter n 1 >>= fun p => parameterLoop n 1 [p]) ((t :: vs) ++ ys) rest :=
    (parseParameter_complete hxs (by simp; omega)).bind
      fun p => parameterLoop_complete hys (by rw [hr]; decide) (by omega)
  refine .curTok_cons ?_
  simp only [firstType, List.mem_cons, List.not_mem_nil, or_false] at ht
  rcases ht with ht | ht | ht | ht <;> simp only [ht] <;> exact hlist

theorem skipThrows_complete (h : Derives .throws us) (hr : (headTok rest).str ≠ "throws") :
    Parses skipThrows us rest := by
  rw [skipThrows]
  rcases derives_throws_iff.1 h with rfl | ⟨t, i, rfl, ht, hi⟩
  · refine .curTok_nil ?_
    rw [if_neg hr]
    exact .pure _ _
  · refine .curTok_cons ?_
    rw [if_pos ht]
    exact ⟨(), (expectAndNext_eq_ok (by decide)).2 ⟨i, rfl, hi⟩⟩

theorem methodBody_complete {α : Type} {f : Block → α} (h : MethodBody us) (hl : Lex us)
    (hn : 16 * us.length ≤ n) :
    Parses (do
      expectAndNext .RParen
      skipThrows
      let block ← parseBlock n
      pure (f block)) us rest := by
  obtain ⟨t, xs, ys, rfl, ht, hxs, hys⟩ := h
  obtain ⟨b, bs, rfl, hb, -⟩ := derives_block_iff.1 hys
  have hstr : (headTok (b :: bs ++ rest)).str ≠ "throws" := by
    intro hs
    rw [(hl b (by simp)).throws hs] at hb
    cases hb
  refine .expectAndNext ht ((skipThrows_complete hxs hstr).bind fun _ => ?_)
  simp only [List.length_append, List.length_cons] at hn
  rw [← List.append_nil (b :: bs)]
  exact ((stmtComplete n).parseBlock hys hl.tail.of_append (by simp; omega)).bind fun _ => .pure _ _

theorem parseMainMethod_complete {t t' : Token} (ht : t.type = .Public) (ht' : t'.type = .Static)
    (h : Derives .mainMethod us) (hl : Lex us) (hn : 16 * us.length ≤ n) :
    Parses (parseMainMethod n) (t :: t' :: us) rest := by
  obtain ⟨t₁, t₂, t₃, t₄, t₅, t₆, t₇, vs, rfl, ht₁, ht₂, ht₃, ⟨ht₄, hstr⟩, ht₅, ht₆, ht₇, hvs⟩ :=
    derives_mainMethod_iff.1 h
  refine .expectAndNext ht (.expectAndNext ht' (.expectAndNext ht₁ (.expectGetIdentAndNext ht₂ fun name =>
    .expectAndNext ht₃ (.expect ht₄ (.curTok_cons ?_)))))
  rw [if_neg (by simp [hstr])]
  refine .readNextToken (.expectAndNext ht₅ (.expectAndNext ht₆ (.expectGetIdentAndNext ht₇ fun arg => ?_)))
  exact methodBody_complete hvs hl.tail.tail.tail.tail.tail.tail.tail (by simp at hn; omega)

theorem parseFieldOrMethod_complete {t i : Token} {vs : List Token} (ht : t.type = .Public)
    (hus : Derives .type us) (hi : i.type = .Identifier) (h : Derives .fieldOrMethod vs)
    (hl : Lex vs) (hn : 16 * (t :: (us ++ i :: vs)).length ≤ n) :
    Parses (parseFieldOrMethod n) (t :: (us ++ i :: vs)) rest := by
  simp only [List.length_append, List.length_cons] at hn
  have hid : (headTok (i :: vs ++ rest)).type ≠ .LBracket := by simp [hi]
  refine .expectAndNext ht ((parseType_complete hus hid (by omega)).bind fun ty =>
    .expectGetIdentAndNext hi fun name => ?_)
  rcases derives_fieldOrMethod_iff.1 h with ⟨s, rfl, hs⟩ | ⟨s, xs, ys, rfl, hs, hxs, hys⟩
  · refine .curTok_cons ?_
    simp only [hs]
    exact .readNextToken (.pure _ _)
  · refine .curTok_cons ?_
    simp only [hs]
    have hrp : (headTok (ys ++ rest)).type = .RParen := by
      obtain ⟨r, x, y, rfl, hr, -⟩ := hys
      exact hr
    simp only [List.length_append, List.length_cons] at hn
    exact .readNextToken ((parseParameterList_complete hxs hl.tail.of_append_left hrp (by omega)).bind
      fun ps => methodBody_complete hys hl.tail.of_append (by omega))

theorem parseClassMember_complete (h : Derives .classMember us) (hl : Lex us) (hn : 16 * us.length ≤ n) :
    Parses (parseClassMember n) us rest := by
  rw [parseClassMember]
  rcases derives_classMember_cases h with ⟨t, t', vs, rfl, ht, ht', hvs⟩ | ⟨t, ty, i, vs, rfl, ht, hty, hi, hvs⟩
  · refine Parses.lookAhead (k := 1) (t := t') rfl ?_
    simp only [ht']
    exact (parseMainMethod_complete ht ht' hvs hl.tail.tail (by simp at hn; omega)).map
  · have hmember := @parseFieldOrMethod_complete n ty rest t i vs ht hty hi hvs hl.tail.of_append.tail hn
    obtain ⟨b, ann, rfl, hb, -⟩ := derives_type_iff.1 hty
    refine Parses.lookAhead (k := 1) (t := b) rfl ?_
    simp only [firstType, List.mem_cons, List.not_mem_nil, or_false] at hb
    rcases hb with hb | hb | hb | hb <;> simp only [hb] <;> exact hmember

theorem memberLoop_complete {c : Ast.Class} (h : DerivesAll [.n .classMembers, tok .RBrace] us) (hl : Lex us)
    (hn : 16 * us.length < n) : Parses (memberLoop n c) us rest := by
  induction n generalizing us c with
  | zero => omega
  | succ n ih =>
    rw [memberLoop]
    rcases derives_classMembers_cases h with ⟨t, rfl, ht⟩ | ⟨xs, ys, rfl, hxs, hys⟩
    · refine .curTok_cons ?_
      simp only [ht]
      exact .readNextToken (.pure _ _)
    · obtain ⟨t, vs, rfl⟩ : ∃ t vs, xs = t :: vs := List.exists_cons_of_ne_nil (hxs.ne_nil rfl)
      have ht : t.type = .Public := by simpa [first] using hxs.head_mem rfl hl.head
      simp only [List.length_append, List.length_cons] at hn
      refine .curTok_cons ?_
      simp only [ht]
      exact (parseClassMember_complete hxs hl.of_append_left (by simp; omega)).bind
        fun m => ih hys hl.of_append (by omega)

theorem parseClassDeclaration_complete (h : Derives .classDeclaration us) (hl : Lex us)
    (hn : 16 * us.length ≤ n) : Parses (parseClassDeclaration n) us rest := by
  obtain ⟨t₁, t₂, t₃, vs, rfl, ht₁, ht₂, ht₃, hvs⟩ := derives_classDeclaration_iff.1 h
  exact .expectAndNext ht₁ (.expectGetIdentAndNext ht₂ fun name => .expectAndNext ht₃
    (memberLoop_complete hvs hl.tail.tail.tail (by simp at hn; omega)))

theorem programLoop_complete {cs : List Ast.Class} (h : Derives .program us) (hl : Lex us)
    (hr : (headTok rest).type = .Eof) (hn : 16 * us.length < n) : Parses (programLoop n cs) us rest := by
  induction n generalizing us cs with
  | zero => omega
  | succ n ih =>
    rw [programLoop]
    rcases derives_program_iff.1 h with rfl | ⟨xs, ys, rfl, hxs, hys⟩
    · refine .curTok_nil ?_
      simp only [hr]
      exact .pure _ _
    · obtain ⟨t, vs, rfl⟩ : ∃ t vs, xs = t :: vs := List.exists_cons_of_ne_nil (hxs.ne_nil rfl)
      have ht : t.type = .Class := by simpa [first] using hxs.head_mem rfl hl.head
      simp only [List.length_append, List.length_cons] at hn
      refine .curTok_cons ?_
      simp only [ht]
      exact (parseClassDeclaration_complete hxs hl.of_append_left (by simp; omega)).bind
        fun c => ih hys hl.of_append (by omega)

end

/-! ## Programs -/

/-- A token sequence up to its `Eof` is accepted if and only if it is derivable. -/
theorem parseProgram_eq_ok_iff {ts : List Token} {eof : Token} (hl : Lex (ts ++ [eof])) (heof : eof.type = .Eof)
    (hts : ∀ t ∈ ts, t.type ≠ .Eof) : (∃ p, parseProgram (ts ++ [eof]) = .ok p) ↔ Derives .program ts := by
  unfold parseProgram
  constructor
  · rintro ⟨p, h⟩
    split at h
    · next p' rest hrun =>
      obtain ⟨⟨us, hsplit, hus⟩, hrest⟩ := programLoop_sound hl hrun
      -- the parser has stopped at an `Eof`, and there is only the last one
      rcases List.append_eq_append_iff.1 hsplit with ⟨xs, rfl, hxs⟩ | ⟨xs, rfl, hxs⟩
      · rcases List.append_eq_cons_iff.1 hxs.symm with ⟨rfl, -⟩ | ⟨ys, rfl, hys⟩
        · simpa using hus
        · obtain ⟨rfl, -⟩ := List.append_eq_nil_iff.1 hys.symm
          exact absurd heof (hus.ne_eof eof (by simp) hl.of_append.head)
      · cases xs with
        | nil => simpa using hus
        | cons x xs =>
          subst hxs
          exact absurd hrest (hts x (by simp))
    · cases h
  · intro h
    have heof' : (headTok [eof]).type = .Eof := heof
    obtain ⟨p, hp⟩ := @programLoop_complete (stepBound (ts ++ [eof])) ts [eof] [] h hl.of_append_left heof'
      (by simp [stepBound]; omega)
    rw [hp]
    exact ⟨p, rfl⟩

/-- The parser accepts exactly the texts of the grammar, and raises a `ParseError` on all others. -/
theorem parseProgram_iff_grammar {ts : List Token} {eof : Token} (hl : Lex (ts ++ [eof]))
    (heof : eof.type = .Eof) (hts : ∀ t ∈ ts, t.type ≠ .Eof) :
    ((∃ p, parseProgram (ts ++ [eof]) = .ok p) ↔ Derives .program ts) ∧
      (¬ Derives .program ts → ∃ e, parseProgram (ts ++ [eof]) = .error (.parseError e)) := by
  refine ⟨parseProgram_eq_ok_iff hl heof hts, fun hnot => ?_⟩
  cases hrun : parseProgram (ts ++ [eof]) with
  | ok p => exact absurd ((parseProgram_eq_ok_iff hl heof hts).1 ⟨p, hrun⟩) hnot
  | error s =>
    obtain ⟨e, rfl⟩ := clean_parseProgram hl s hrun
    exact ⟨e, rfl⟩

/-- The tokens of `class A { public int x; }`. -/
def sampleClass : List Token :=
  [⟨.Class, "class"⟩, ⟨.Identifier, "A"⟩, ⟨.LBrace, "\x7b"⟩, ⟨.Public, "public"⟩, ⟨.Int, "int"⟩,
    ⟨.Identifier, "x"⟩, ⟨.Semicolon, ";"⟩, ⟨.RBrace, "\x7d"⟩]

theorem sampleClass_derives : Derives .program sampleClass := by
  have hl : Lex (sampleClass ++ [Token.eof]) := by
    intro t ht
    simp only [sampleClass, Token.eof, List.cons_append, List.nil_append, List.mem_cons, List.not_mem_nil,
      or_false] at ht
    rcases ht with rfl | rfl | rfl | rfl | rfl | rfl | rfl | rfl | rfl <;> exact ⟨by decide, by decide⟩
  exact (parseProgram_iff_grammar hl rfl (by decide)).1.1 ⟨_, rfl⟩

end Mjc.Parser

import Mjc.Parser.Layers

/-!
# First tokens of the nonterminals

* `nullable nt` : the empty text is derivable; `Derives.ne_nil` for the others;
* `first nt` : the types a text of `nt` can start with, `Derives.head_mem`;
* `rules_nullable`, `rules_first` : the two tables are closed under the productions. They are checked
  production by production, and the two theorems follow by induction on a derivation.
-/

namespace Mjc.Grammar
open Mjc.Parser (TT getOpPrec)

set_option autoImplicit false

/-- The empty text is derivable from the nonterminal. -/
def nullable : NT → Bool
  | .program | .classMembers | .throws | .parameters | .parametersTail | .postfixTypeAnnotations
  | .blockInner | .ifStatementTail | .layerTail _ | .postfixExpressionTail
  | .methodInvocationOrFieldAccess | .arguments | .argumentsTail | .primaryExpressionIdentTail
  | .newArrayExpressionTail => true
  | _ => false

def Sym.nullable : Sym → Bool
  | .t _ => false
  | .n nt => Grammar.nullable nt

/-- The types an expression can start with. -/
def firstExpression : List TT :=
  [.Bang, .False, .Identifier, .IntLiteral, .New, .Null, .True, .LParen, .Minus, .This]

/-- The types a primary expression can start with. -/
def firstPrimary : List TT := [.False, .Identifier, .IntLiteral, .New, .Null, .True, .LParen, .This]

/-- The types a type can start with. -/
def firstType : List TT := [.Boolean, .Int, .Void, .Identifier]

/-- The types a statement can start with. -/
def firstStatement : List TT := [.LBrace, .Semicolon, .If, .Return, .While] ++ firstExpression

/-- The types a text of the nonterminal can start with. -/
def first : NT → List TT
  | .program | .classDeclaration => [.Class]
  | .classMembers | .classMember => [.Public]
  | .classMemberTail => .Static :: firstType
  | .fieldOrMethod => [.Semicolon, .LParen]
  | .mainMethod => [.Void]
  | .throws => [.ReservedKeyword]
  | .parameters | .parameter | .type | .basicType | .localVariableDeclarationStatement => firstType
  | .parametersTail | .argumentsTail => [.Comma]
  | .postfixTypeAnnotations | .newArrayExpressionTail | .arrayAccess => [.LBracket]
  | .block => [.LBrace]
  | .blockInner | .blockStatement => [.Boolean, .Int, .Void] ++ firstStatement
  | .statement => firstStatement
  | .localVariableDeclarationStatementTail => [.Semicolon, .Eq]
  | .emptyStatement => [.Semicolon]
  | .whileStatement => [.While]
  | .ifStatement => [.If]
  | .ifStatementTail => [.Else]
  | .returnStatement => [.Return]
  | .returnStatementTail => .Semicolon :: firstExpression
  | .expressionStatement | .expression | .layer _ | .unaryExpression _ | .arguments => firstExpression
  | .layerTail l => l.ops
  | .postfixExpression _ | .primaryExpression _ => firstPrimary
  | .postfixExpressionTail | .postfixOp => [.Dot, .LBracket]
  | .methodInvocationOrFieldAccess | .primaryExpressionIdentTail => [.LParen]
  | .newObjectExpression | .newArrayExpression => [.New]

/-- The type of the tokens a terminal stands for. -/
def Terminal.type : Terminal → TT
  | .tok type => type
  | .ident _ => .Identifier
  | .throws => .ReservedKeyword
  | .int _ => .IntLiteral

/-- The types a text of the symbols can start with. -/
def firstAll : List Sym → List TT
  | [] => []
  | .t a :: _ => [a.type]
  | .n nt :: rhs => first nt ++ if nullable nt then firstAll rhs else []

theorem Terminal.Matches.type_eq {a : Terminal} {t : Token} (h : a.Matches t) (hl : t.Lexical) :
    t.type = a.type := by
  cases a with
  | tok type => exact h
  | ident str => exact h.1
  | throws => exact hl.throws h
  | int afterMinus => exact h.1

/-! ## The tables are closed under the productions -/

theorem rules_nullable (nt : NT) (hn : nullable nt = false) :
    ∀ rhs ∈ rules nt, ∃ s ∈ rhs, s.nullable = false := by
  cases nt with
  | layer l => cases l <;> decide
  | layerTail l => cases hn
  | _ => first | exact absurd hn (by decide) | decide +revert

theorem rules_first (nt : NT) : ∀ rhs ∈ rules nt, ∀ type ∈ firstAll rhs, type ∈ first nt := by
  cases nt with
  | layer l => cases l <;> decide
  | layerTail l => cases l <;> decide
  | _ => decide +revert

/-! ## Derivations -/

mutual

theorem Derives.ne_nil {nt : NT} {ts : List Token} (h : Derives nt ts) (hn : nullable nt = false) :
    ts ≠ [] :=
  match h with
  | .rule mem h => h.ne_nil (rules_nullable nt hn _ mem)

theorem DerivesAll.ne_nil {rhs : List Sym} {ts : List Token} (h : DerivesAll rhs ts)
    (hn : ∃ s ∈ rhs, s.nullable = false) : ts ≠ [] :=
  match h with
  | .nil => by simp at hn
  | .terminal _ _ => by simp
  | .nonterminal hd h => by
    rw [List.exists_mem_cons_iff] at hn
    rw [ne_eq, List.append_eq_nil_iff, not_and_or]
    rcases hn with hn | hn
    · exact .inl (hd.ne_nil hn)
    · exact .inr (h.ne_nil hn)

end

mutual

theorem Derives.head_mem {nt : NT} {ts : List Token} (h : Derives nt ts) {t : Token} {us : List Token}
    (hts : ts = t :: us) (hl : t.Lexical) : t.type ∈ first nt :=
  match h with
  | .rule mem h => rules_first nt _ mem _ (h.head_mem hts hl)

theorem DerivesAll.head_mem {rhs : List Sym} {ts : List Token} (h : DerivesAll rhs ts) {t : Token}
    {us : List Token} (hts : ts = t :: us) (hl : t.Lexical) : t.type ∈ firstAll rhs :=
  match h with
  | .nil => by cases hts
  | .terminal hm _ => by
    cases hts
    simp [firstAll, hm.type_eq hl]
  | .nonterminal hd h => by
    rw [firstAll, List.mem_append]
    rcases List.append_eq_cons_iff.1 hts with ⟨hnil, hts⟩ | ⟨vs, hts, -⟩
    · have hrest := h.head_mem hts hl
      cases hn : nullable _ with
      | true => exact .inr (by simpa [hn] using hrest)
      | false => exact absurd hnil (hd.ne_nil hn)
    · exact .inl (hd.head_mem hts hl)

end

/-! ## The end of the input -/

def Sym.isEof : Sym → Bool
  | .t a => a.type = .Eof
  | .n _ => false

theorem rules_isEof (nt : NT) : ∀ rhs ∈ rules nt, ∀ s ∈ rhs, s.isEof = false := by
  cases nt with
  | layer l => cases l <;> decide
  | layerTail l => cases l <;> decide
  | _ => decide +revert

mutual

/-- No derivable text holds an `Eof`. -/
theorem Derives.ne_eof {nt : NT} {ts : List Token} (h : Derives nt ts) (t : Token) (ht : t ∈ ts)
    (hl : t.Lexical) : t.type ≠ .Eof :=
  match h with
  | .rule mem h => h.ne_eof (rules_isEof nt _ mem) t ht hl

theorem DerivesAll.ne_eof {rhs : List Sym} {ts : List Token} (h : DerivesAll rhs ts)
    (hrhs : ∀ s ∈ rhs, s.isEof = false) (t : Token) (ht : t ∈ ts) (hl : t.Lexical) : t.type ≠ .Eof :=
  match h with
  | .nil => by cases ht
  | .terminal hm h => by
    rw [List.forall_mem_cons] at hrhs
    rcases List.mem_cons.1 ht with rfl | ht
    · rw [hm.type_eq hl]
      simpa [Sym.isEof] using hrhs.1
    · exact h.ne_eof hrhs.2 t ht hl
  | .nonterminal hd h => by
    rw [List.forall_mem_cons] at hrhs
    rcases List.mem_append.1 ht with ht | ht
    · exact hd.ne_eof t ht hl
    · exact h.ne_eof hrhs.2 t ht hl

end

/-! ## Operators -/

/-- No operator starts an expression's continuation by a postfix operator or a call. -/
theorem Ops.head_prec {k : Int} {t : Token} {ts : List Token} (h : Ops k (t :: ts)) :
    k ≤ getOpPrec t.type := by
  cases h with
  | cons prec _ _ => exact prec

theorem OpSeq.ne_nil {k : Int} {ts : List Token} (h : OpSeq k ts) : ts ≠ [] := by
  obtain ⟨us, vs, rfl, hus, -⟩ := h
  simp [hus.ne_nil rfl]

theorem OpSeq.head_mem {k : Int} {t : Token} {ts : List Token} (h : OpSeq k (t :: ts)) (hl : t.Lexical) :
    t.type ∈ firstExpression := by
  obtain ⟨us, vs, heq, hus, -⟩ := h
  cases us with
  | nil => exact absurd rfl (hus.ne_nil rfl)
  | cons u us =>
    cases heq
    exact hus.head_mem rfl hl

end Mjc.Grammar

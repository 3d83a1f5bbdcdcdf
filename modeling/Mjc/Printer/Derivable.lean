import Mjc.Parser.Correctness
import Mjc.Printer.Legible

/-!
# What is printed is a text of the grammar

* `Spelled.lexical`, `Legible.lex` : the tokens of legible pieces are tokens of the lexer;
* `OpSeq.join`, `OpSeq.tail` : sequences of operators and unary expressions, joined by an operator and continued by a
  postfix operator;
* `exprPieces_derives`, `stmtPieces_derives`, `programPieces_derives` : the tokens that are printed for a tree are
  derivable, with the flag `requireParenthesis` whatever it was before;
* `print_accepted` : the text that is printed for a well-formed program is accepted by the lexer and the parser.
-/

set_option autoImplicit false

/-! ## Tokens of the lexer -/

namespace Mjc.Lexer

theorem terminals_ne_literal : ∀ o ∈ terminals, o.2 ≠ .IntLiteral := by decide

theorem operators_ne_literal : ∀ p ∈ operators, p.2 ≠ .IntLiteral := by decide

theorem operators_ne_throws : ∀ p ∈ operators, bytes p.1 ≠ bytes "throws".toList := by decide

theorem classify_ne_literal (w : List UInt8) : classify w ≠ .IntLiteral := by
  rcases classify_cases w with h | h | ⟨o, ho, h⟩
  · rw [h]
    decide
  · rw [h]
    decide
  · rw [h]
    exact terminals_ne_literal o ho

theorem isDigit_of_digit {c : Char} (hc : c.toNat < 128) (h : Digit (UInt8.ofNat c.toNat)) : c.isDigit = true := by
  unfold Digit at h
  rw [UInt8.le_iff_toNat_le, UInt8.le_iff_toNat_le, UInt8.toNat_ofNat', Nat.mod_eq_of_lt (by omega)] at h
  unfold Char.isDigit
  rw [Bool.and_eq_true, decide_eq_true_eq, decide_eq_true_eq]
  exact ⟨UInt32.le_iff_toNat_le.mpr h.1, UInt32.le_iff_toNat_le.mpr h.2⟩

/-- A token that is spelled as a word of its type is a token of the lexer. -/
theorem Spelled.lexical {t : Token} (h : Spelled t) : t.Lexical := by
  constructor
  · intro htype
    have hdigits : ∀ b ∈ bytes t.str.toList, Digit b := by
      have hw := h.word
      rw [htype] at hw
      generalize bytes t.str.toList = bs at hw
      generalize hty : Token.Type.IntLiteral = type at hw
      cases hw with
      | identifier hc hcs => exact absurd hty.symm (classify_ne_literal _)
      | zero => exact List.forall_mem_singleton.mpr (by decide)
      | integer hc hz hcs => exact List.forall_mem_cons.mpr ⟨hc, hcs⟩
      | operator hop =>
        subst hty
        exact absurd rfl (operators_ne_literal _ hop)
    exact ⟨h.ne_nil, fun c hc => isDigit_of_digit (h.ascii c hc) (hdigits _ (List.mem_map_of_mem hc))⟩
  · intro hstr
    have hw := h.word
    rw [hstr] at hw
    generalize hbs : bytes "throws".toList = bs at hw
    generalize t.type = type at hw
    cases hw with
    | identifier hc hcs =>
      rw [← hbs]
      decide
    | zero => exact absurd hbs (by decide)
    | integer hc hz hcs =>
      rw [← (List.cons.inj hbs).1] at hc
      exact absurd hc (by decide)
    | operator hop => exact absurd hbs.symm (operators_ne_throws _ hop)

theorem Legible.spelled {ps : List Piece} {next : List Char} (h : Legible ps next) : ∀ t ∈ tokens ps, Spelled t := by
  intro t ht
  have hmem : Piece.tok t ∈ ps := by
    induction ps with
    | nil => cases ht
    | cons p ps ih =>
      cases p with
      | gap g => exact List.mem_cons_of_mem _ (ih ⟨fun q hq => h.valid q (List.mem_cons_of_mem _ hq), h.sep⟩ ht)
      | tok u =>
        rcases List.mem_cons.mp ht with rfl | ht
        · exact List.mem_cons_self
        · exact List.mem_cons_of_mem _ (ih ⟨fun q hq => h.valid q (List.mem_cons_of_mem _ hq), h.sep.2⟩ ht)
  exact h.valid _ hmem

theorem Legible.lex {ps : List Piece} {next : List Char} (h : Legible ps next) : Lex (tokens ps) :=
  fun t ht => (h.spelled t ht).lexical

end Mjc.Lexer

/-! ## Sequences of operators -/

namespace Mjc.Grammar
open Mjc.Parser (derives_unary_iff derives_postfix_iff derives_postfixTail_iff)

variable {k : Int} {us vs : List Token}

/-- Two sequences with an operator between them. -/
theorem OpSeq.join {op : Token} (hu : OpSeq k us) (hop : k ≤ Parser.getOpPrec op.type) (hv : OpSeq k vs) :
    OpSeq k (us ++ op :: vs) := by
  obtain ⟨u, xs, rfl, hu, hxs⟩ := hu
  obtain ⟨v, ys, rfl, hv, hys⟩ := hv
  refine ⟨u, xs ++ op :: (v ++ ys), by simp, hu, hxs.append (.cons hop hv hys)⟩

theorem opSeq_of_unary (h : Derives (.unaryExpression false) us) : OpSeq k us := ⟨us, [], by simp, h, .nil⟩

theorem postfixTail_append (hu : Derives .postfixExpressionTail us) (hv : Derives .postfixOp vs) :
    Derives .postfixExpressionTail (us ++ vs) := by
  induction hn : us.length using Nat.strongRecOn generalizing us with
  | ind n ih =>
    rw [derives_postfixTail_iff] at hu ⊢
    rcases hu with rfl | ⟨xs, ys, rfl, hx, hy⟩
    · exact .inr ⟨vs, [], by simp, hv, derives_postfixTail_iff.mpr (.inl rfl)⟩
    · have hpos := List.length_pos_iff.mpr (hx.ne_nil rfl)
      rw [List.length_append] at hn
      exact .inr ⟨xs, ys ++ vs, by simp, hx, ih ys.length (by omega) hy rfl⟩

theorem postfix_append {am : Bool} (hu : Derives (.postfixExpression am) us) (hv : Derives .postfixOp vs) :
    Derives (.postfixExpression am) (us ++ vs) := by
  obtain ⟨xs, ys, rfl, hx, hy⟩ := derives_postfix_iff.mp hu
  exact derives_postfix_iff.mpr ⟨xs, ys ++ vs, by simp, hx, postfixTail_append hy hv⟩

theorem unary_append {am : Bool} (hu : Derives (.unaryExpression am) us) (hv : Derives .postfixOp vs) :
    Derives (.unaryExpression am) (us ++ vs) := by
  induction hn : us.length using Nat.strongRecOn generalizing us am with
  | ind n ih =>
    rw [derives_unary_iff]
    rcases derives_unary_iff.mp hu with ⟨t, xs, rfl, ht, hx⟩ | ⟨t, xs, rfl, ht, hx⟩ | h
    · exact .inl ⟨t, xs ++ vs, rfl, ht, ih xs.length (by simp at hn; omega) hx rfl⟩
    · exact .inr (.inl ⟨t, xs ++ vs, rfl, ht, ih xs.length (by simp at hn; omega) hx rfl⟩)
    · exact .inr (.inr (postfix_append h hv))

theorem Ops.tail (hu : Ops k us) (hne : us ≠ []) (hv : Derives .postfixOp vs) : Ops k (us ++ vs) := by
  induction hu with
  | nil => exact absurd rfl hne
  | @cons op xs ys prec unary ops ih =>
    rw [List.cons_append, List.append_assoc]
    cases ys with
    | nil =>
      rw [List.nil_append, ← List.append_nil (xs ++ vs)]
      exact .cons prec (unary_append unary hv) .nil
    | cons y ys => exact .cons prec unary (ih (List.cons_ne_nil y ys))

/-- A postfix operator behind a sequence goes on with its last operand. -/
theorem OpSeq.tail (hu : OpSeq k us) (hv : Derives .postfixOp vs) : OpSeq k (us ++ vs) := by
  obtain ⟨u, xs, rfl, hu, hxs⟩ := hu
  cases xs with
  | nil => exact ⟨u ++ vs, [], by simp, unary_append hu hv, .nil⟩
  | cons x xs =>
    rw [List.append_assoc]
    exact ⟨u, _, rfl, hu, Ops.tail hxs (List.cons_ne_nil x xs) hv⟩

end Mjc.Grammar

namespace Mjc.Printer
open Mjc.Ast Mjc.Lexer Mjc.Grammar
open Mjc.Parser (WfExpr WfStmt WfBlock WfField WfParameter WfRegularMethod WfMainMethod WfClass WfProgram WfTy WfBasic
  InIntRange digitsValue derives_unary_iff derives_postfix_iff derives_postfix_mono derives_postfixTail_iff
  derives_postfixOp_iff derives_call_iff derives_arrayAccess_iff derives_arguments_iff derives_argumentsTail_iff
  derives_newArrayTail_iff derives_newArray_iff derives_newObject_iff derives_typeAnnotations_iff derives_type_iff
  derives_blockStatement_iff derives_ifTail_iff derives_if_iff derives_while_iff derives_localVarDecl_iff
  derives_localVarDeclTail_iff derives_exprStmt_iff derives_return_iff Head
  derives_parameter_iff derives_parametersTail_iff derives_parameters_iff derives_throws_iff MethodBody
  derives_fieldOrMethod_iff derives_mainMethod_iff derives_classDeclaration_iff derives_program_iff
  parseProgram_eq_ok_iff parseProgram_wf Named isDecl)
open Mjc.Sema (sortByName sortByName_perm)

/-! ## Expressions -/

section Tokens

variable {ps : List Piece}

@[simp] theorem tokens_sym (type : TT) (str : String) : tokens (sym type str :: ps) = ⟨type, str⟩ :: tokens ps := rfl

@[simp] theorem tokens_ident (x : String) : tokens (ident x :: ps) = ⟨.Identifier, x⟩ :: tokens ps := rfl

@[simp] theorem tokens_space : tokens (space :: ps) = tokens ps := rfl

@[simp] theorem tokens_line (i : Nat) : tokens (line i :: ps) = tokens ps := rfl

/-- The token of a basic type. -/
def basicToken : BasicType → Token
  | .primitive .boolean => ⟨.Boolean, "boolean"⟩
  | .primitive .int => ⟨.Int, "int"⟩
  | .primitive .void => ⟨.Void, "void"⟩
  | .classType name => ⟨.Identifier, name⟩

@[simp] theorem tokens_basicPiece (b : BasicType) : tokens (basicPiece b :: ps) = basicToken b :: tokens ps := by
  rcases b with (_ | _ | _) | name <;> rfl

theorem basicToken_mem (b : BasicType) : (basicToken b).type ∈ firstType := by
  rcases b with (_ | _ | _) | name <;> simp [basicToken, firstType]

end Tokens

/-- A postfix expression is one operand. -/
theorem postfix_opSeq {k : Int} {us : List Token} (h : Derives (.postfixExpression false) us) : OpSeq k us :=
  opSeq_of_unary (derives_unary_iff.mpr (.inr (.inr h)))

theorem postfix_of_primary {am : Bool} {us : List Token} (h : Derives (.primaryExpression am) us) :
    Derives (.postfixExpression am) us :=
  derives_postfix_iff.mpr ⟨us, [], by simp, h, derives_postfixTail_iff.mpr (.inl rfl)⟩

/-- What the tokens of an expression derive from: an operand where parentheses were asked for. -/
def ExprDerives (b : Bool) (us : List Token) : Prop :=
  if b then Derives (.postfixExpression false) us else OpSeq 0 us

theorem ExprDerives.opSeq {b : Bool} {us : List Token} (h : ExprDerives b us) : OpSeq 0 us := by
  cases b with
  | false => exact h
  | true => exact postfix_opSeq h

theorem ExprDerives.expression {b : Bool} {us : List Token} (h : ExprDerives b us) : Derives .expression us :=
  derives_expression_iff.mpr h.opSeq

theorem exprDerives_of_postfix {us : List Token} (h : Derives (.postfixExpression false) us) (b : Bool) :
    ExprDerives b us := by
  cases b with
  | false => exact postfix_opSeq h
  | true => exact h

theorem ExprDerives.tail {b : Bool} {us vs : List Token} (h : ExprDerives b us) (hv : Derives .postfixOp vs) :
    ExprDerives b (us ++ vs) := by
  cases b with
  | false => exact OpSeq.tail h hv
  | true => exact postfix_append h hv

/-- Parentheses where they are asked for. -/
theorem parens_derives {b : Bool} {ps : List Piece} (h : OpSeq 0 (tokens ps)) : ExprDerives b (tokens (parens b ps)) := by
  cases b with
  | false => exact h
  | true =>
    have hp : Derives (.primaryExpression false) (tokens (parens true ps)) := by
      refine .of [tok .LParen, .n .expression, tok .RParen] (by simp [rules]) ?_
      have htoks : tokens (parens true ps) = ⟨.LParen, "("⟩ :: (tokens ps ++ [⟨.RParen, ")"⟩]) := by simp [parens]
      rw [htoks]
      exact .terminal rfl (.nonterminal (derives_expression_iff.mpr h) (.terminal rfl .nil))
    exact postfix_of_primary hp

theorem digitsValue_nat (n : Nat) : digitsValue (toString n).toList = n := by
  have hstr : (toString n).toList = Nat.toDigits 10 n := Nat.toList_repr
  rw [hstr]
  exact Nat.ofDigitChars_ten_toDigits

theorem intPieces_derives {value : Int} (h : InIntRange value) : OpSeq 0 (tokens (intPieces value)) := by
  have hdigits := digitsValue_nat value.natAbs
  unfold InIntRange at h
  unfold intPieces
  by_cases hneg : value < 0
  · rw [if_pos hneg]
    refine opSeq_of_unary (derives_unary_iff.mpr (.inl ⟨_, _, rfl, rfl, derives_unary_iff.mpr (.inr (.inr ?_))⟩))
    refine postfix_of_primary (.of [.t (.int true)] (by simp [rules]) (.terminal ⟨rfl, ?_⟩ .nil))
    show digitsValue (toString value.natAbs).toList ≤ _ ∨ _ ∧ digitsValue (toString value.natAbs).toList = _
    rw [hdigits]
    simp only [true_and]
    omega
  · rw [if_neg hneg]
    refine postfix_opSeq (postfix_of_primary (.of [.t (.int false)] (by simp [rules]) (.terminal ⟨rfl, .inl ?_⟩ .nil)))
    show digitsValue (toString value.natAbs).toList ≤ _
    rw [hdigits]
    omega

/-- A primary expression, in parentheses or not. -/
theorem exprDerives_of_primary {us : List Token} (h : Derives (.primaryExpression false) us) (b : Bool) : ExprDerives b us :=
  exprDerives_of_postfix (postfix_of_primary h) b

/-- A primary expression of one token. -/
theorem exprDerives_of_token {type : TT} {t : Token} (h : [tok type] ∈ rules (.primaryExpression false))
    (ht : t.type = type) (b : Bool) : ExprDerives b [t] := exprDerives_of_primary (.of _ h (.terminal ht .nil)) b

theorem moreArgPieces_derives {l : List Expr} (h : ∀ e ∈ l, ∀ b, ExprDerives b (tokens (exprPieces b e))) (b : Bool) :
    Derives .argumentsTail (tokens (moreArgPieces b l)) := by
  induction l generalizing b with
  | nil => exact derives_argumentsTail_iff.mpr (.inl rfl)
  | cons e l ih =>
    refine derives_argumentsTail_iff.mpr (.inr ⟨⟨.Comma, ","⟩, tokens (exprPieces b e), _, ?_, rfl,
      (h e List.mem_cons_self b).expression, ih (fun e' he' => h e' (List.mem_cons_of_mem _ he')) (after e)⟩)
    simp [moreArgPieces]

theorem argPieces_derives {l : List Expr} (h : ∀ e ∈ l, ∀ b, ExprDerives b (tokens (exprPieces b e))) (b : Bool) :
    Derives .arguments (tokens (argPieces b l)) := by
  cases l with
  | nil => exact derives_arguments_iff.mpr (.inl rfl)
  | cons e l =>
    refine derives_arguments_iff.mpr (.inr ⟨tokens (exprPieces b e), _, ?_, (h e List.mem_cons_self b).expression,
      moreArgPieces_derives (fun e' he' => h e' (List.mem_cons_of_mem _ he')) (after e)⟩)
    simp [argPieces]

theorem brackets_derive (n : Nat) : Derives .newArrayExpressionTail (tokens (brackets n)) := by
  induction n with
  | zero => exact derives_newArrayTail_iff.mpr (.inl rfl)
  | succ n ih => exact derives_newArrayTail_iff.mpr (.inr ⟨⟨.LBracket, "["⟩, ⟨.RBracket, "]"⟩, _, rfl, rfl, rfl, ih⟩)

theorem opType_prec (op : BinaryOp) : 0 ≤ Parser.getOpPrec (opType op) := by cases op <;> decide

/-- What is printed for an expression is an expression, and an operand where parentheses were asked for. -/
theorem exprPieces_derives {e : Expr} (h : WfExpr e) (b : Bool) : ExprDerives b (tokens (exprPieces b e)) := by
  induction h generalizing b with
  | intLiteral hv => exact parens_derives (intPieces_derives hv)
  | boolLiteral value =>
    cases value with
    | true => exact @exprDerives_of_token .True _ (by simp [rules]) rfl b
    | false => exact @exprDerives_of_token .False _ (by simp [rules]) rfl b
  | nullLiteral => exact @exprDerives_of_token .Null _ (by simp [rules]) rfl b
  | thisLiteral => exact @exprDerives_of_token .This _ (by simp [rules]) rfl b
  | varRef hn =>
    refine exprDerives_of_primary (.of [tok .Identifier, .n .primaryExpressionIdentTail] (by simp [rules]) ?_) b
    exact .terminal rfl (.last ((derives_call_iff rfl).mpr (.inl rfl)))
  | @methodInvocation left name arguments hl hn ha ihl iha =>
    have hcall : Derives .postfixOp (⟨.Dot, "."⟩ :: ⟨.Identifier, name⟩ :: ⟨.LParen, "("⟩ ::
        (tokens (argPieces (after left) arguments) ++ [⟨.RParen, ")"⟩])) :=
      derives_postfixOp_iff.mpr (.inl ⟨_, _, _, rfl, rfl, rfl,
        (derives_call_iff rfl).mpr (.inr ⟨_, _, _, rfl, rfl, argPieces_derives iha _, rfl⟩)⟩)
    have htoks : tokens (exprPieces b (.methodInvocation left name arguments)) = tokens (exprPieces b left) ++
        ⟨.Dot, "."⟩ :: ⟨.Identifier, name⟩ :: ⟨.LParen, "("⟩ ::
          (tokens (argPieces (after left) arguments) ++ [⟨.RParen, ")"⟩]) := by simp [exprPieces]
    rw [htoks]
    exact (ihl b).tail hcall
  | @fieldAccess left name hl hn ihl =>
    have hfield : Derives .postfixOp [⟨.Dot, "."⟩, ⟨.Identifier, name⟩] :=
      derives_postfixOp_iff.mpr (.inl ⟨_, _, _, rfl, rfl, rfl, (derives_call_iff rfl).mpr (.inl rfl)⟩)
    have htoks : tokens (exprPieces b (.fieldAccess left name)) =
        tokens (exprPieces b left) ++ [⟨.Dot, "."⟩, ⟨.Identifier, name⟩] := by simp [exprPieces]
    rw [htoks]
    exact (ihl b).tail hfield
  | @arrayAccess array index ha hi iha ihi =>
    have hindex : Derives .postfixOp (⟨.LBracket, "["⟩ :: (tokens (exprPieces (after array) index) ++ [⟨.RBracket, "]"⟩])) :=
      derives_postfixOp_iff.mpr (.inr (derives_arrayAccess_iff.mpr ⟨_, _, _, rfl, rfl, (ihi _).expression, rfl⟩))
    have htoks : tokens (exprPieces b (.arrayAccess array index)) = tokens (exprPieces b array) ++
        ⟨.LBracket, "["⟩ :: (tokens (exprPieces (after array) index) ++ [⟨.RBracket, "]"⟩]) := by simp [exprPieces]
    rw [htoks]
    exact (iha b).tail hindex
  | newObject hn =>
    refine exprDerives_of_primary (.of [.n .newObjectExpression] (by simp [rules]) (.last ?_)) b
    exact derives_newObject_iff.mpr ⟨_, _, _, _, rfl, rfl, rfl, rfl, rfl⟩
  | @newArray elementType dimension size ht hd hs ihs =>
    refine exprDerives_of_primary (.of [.n .newArrayExpression] (by simp [rules]) (.last ?_)) b
    refine derives_newArray_iff.mpr ⟨⟨.New, "new"⟩, basicToken elementType, ⟨.LBracket, "["⟩, tokens (exprPieces false size),
      ⟨.RBracket, "]"⟩, tokens (brackets (dimension - 1)), ?_, rfl, basicToken_mem _, rfl, (ihs false).expression, rfl,
      brackets_derive _⟩
    simp [exprPieces]
  | @binary op left right hl hr ihl ihr =>
    refine parens_derives ?_
    have htoks : ∀ ps qs, tokens (ps ++ opPieces op ++ qs) =
        tokens ps ++ ⟨opType op, binaryOperationToString op⟩ :: tokens qs := by
      intro ps qs
      simp [opPieces]
    rw [htoks]
    exact (ihl _).opSeq.join (opType_prec op) (ihr _).opSeq
  | @unary op e he ihe =>
    refine parens_derives (opSeq_of_unary ?_)
    have hp : ∀ am, Derives (.unaryExpression am) (tokens (exprPieces true e)) :=
      fun am => derives_unary_iff.mpr (.inr (.inr (derives_postfix_mono (ihe true))))
    cases op with
    | neg => exact derives_unary_iff.mpr (.inl ⟨⟨.Minus, "-"⟩, _, rfl, rfl, hp true⟩)
    | not => exact derives_unary_iff.mpr (.inr (.inl ⟨⟨.Bang, "!"⟩, _, rfl, rfl, hp false⟩))

/-! ## Statements -/

theorem annotations_derive (n : Nat) : Derives .postfixTypeAnnotations (tokens (brackets n)) := by
  induction n with
  | zero => exact derives_typeAnnotations_iff.mpr (.inl rfl)
  | succ n ih => exact derives_typeAnnotations_iff.mpr (.inr ⟨⟨.LBracket, "["⟩, ⟨.RBracket, "]"⟩, _, rfl, rfl, rfl, ih⟩)

theorem typePieces_derives (type : Ty) : Derives .type (tokens (typePieces type)) := by
  cases type with
  | basic type => exact derives_type_iff.mpr ⟨_, _, tokens_basicPiece type, basicToken_mem type, annotations_derive 0⟩
  | array elementType dimension =>
    exact derives_type_iff.mpr ⟨_, _, tokens_basicPiece elementType, basicToken_mem elementType, annotations_derive dimension⟩

theorem exprPieces_expression {e : Expr} (h : WfExpr e) (b : Bool) : Derives .expression (tokens (exprPieces b e)) :=
  (exprPieces_derives h b).expression

def isBlock : Stmt → Bool
  | .block _ _ => true
  | _ => false

/-- The statement is a text of the grammar wherever it may stand, and a block is one of its own kind. -/
structure StmtDerives (s : Stmt) : Prop where
  blockStatement : ∀ i b, Derives .blockStatement (tokens (stmtPieces i b s))
  statement : isDecl s = false → ∀ i b, Derives .statement (tokens (stmtPieces i b s))
  block : isBlock s = true → ∀ i b, Derives .block (tokens (stmtPieces i b s))

theorem statement_of_block {us : List Token} (h : Derives .block us) : Derives .statement us :=
  .of [.n .block] (by simp [rules]) (.last h)

theorem StmtDerives.of_block {s : Stmt} (h : ∀ i b, Derives .block (tokens (stmtPieces i b s))) : StmtDerives s :=
  ⟨fun i b => derives_blockStatement_iff.mpr (.inr (statement_of_block (h i b))),
    fun _ i b => statement_of_block (h i b), fun _ => h⟩

theorem StmtDerives.of_statement {s : Stmt} (hs : isBlock s = false)
    (h : ∀ i b, Derives .statement (tokens (stmtPieces i b s))) : StmtDerives s :=
  ⟨fun i b => derives_blockStatement_iff.mpr (.inr (h i b)), fun _ => h, fun hb => by rw [hs] at hb; cases hb⟩

theorem stmtsPieces_derive {l : List Stmt} (h : ∀ s ∈ l, StmtDerives s) (i : Nat) (b : Bool) :
    Derives .blockInner (tokens (stmtsPieces i b l)) := by
  induction l generalizing b with
  | nil =>
    rw [stmtsPieces]
    exact .of [] (by simp [rules]) .nil
  | cons s l ih =>
    refine .of [.n .blockStatement, .n .blockInner] (by simp [rules]) ?_
    rw [stmtsPieces, List.cons_append, tokens_line, tokens_append]
    exact .nonterminal ((h s List.mem_cons_self).blockStatement i b)
      (.last (ih (fun s' hs' => h s' (List.mem_cons_of_mem _ hs')) _))

/-- Statements between braces. -/
theorem braces_derive {i : Nat} {ps : List Piece} (h : Derives .blockInner (tokens ps)) :
    Derives .block (tokens (braces i ps)) := by
  refine .of [tok .LBrace, .n .blockInner, tok .RBrace] (by simp [rules]) ?_
  have htoks : tokens (braces i ps) = ⟨.LBrace, "\x7b"⟩ :: (tokens ps ++ [⟨.RBrace, "\x7d"⟩]) := by simp [braces]
  rw [htoks]
  exact .terminal rfl (.nonterminal h (.terminal rfl .nil))

theorem emptyBraces_derive : Derives .block (tokens emptyBraces) :=
  .of [tok .LBrace, .n .blockInner, tok .RBrace] (by simp [rules])
    (.terminal rfl (@DerivesAll.nonterminal _ [] _ _ (.of [] (by simp [rules]) .nil) (.terminal rfl .nil)))

/-- One statement between braces. -/
theorem bracedStmt_derive {s : Stmt} (h : StmtDerives s) (i : Nat) (b : Bool) :
    Derives .block (tokens (braces i (line (i + 1) :: stmtPieces (i + 1) b s))) := by
  refine braces_derive (.of [.n .blockStatement, .n .blockInner] (by simp [rules]) ?_)
  rw [tokens_line, ← List.append_nil (tokens (stmtPieces (i + 1) b s))]
  exact .nonterminal (h.blockStatement (i + 1) b) (.last (.of [] (by simp [rules]) .nil))

theorem bodyPieces_derive {o : Option Stmt} (h : ∀ s ∈ o, StmtDerives s) (i : Nat) (b : Bool) :
    Derives .statement (tokens (bodyPieces i b o)) := by
  cases o with
  | none => rw [bodyPieces]; exact statement_of_block emptyBraces_derive
  | some s =>
    have hs := h s rfl
    cases s with
    | block l lonely => rw [bodyPieces]; exact statement_of_block (hs.block rfl i b)
    | _ => simp only [bodyPieces]; exact statement_of_block (bracedStmt_derive hs i b)

theorem elsePieces_derive {o : Option Stmt} (h : ∀ s ∈ o, StmtDerives s) (i : Nat) (b : Bool) :
    Derives .ifStatementTail (tokens (elsePieces i b o)) := by
  have helse {ps : List Piece} (hps : Derives .block (tokens ps)) :
      Derives .ifStatementTail (tokens (line i :: sym .Else "else" :: space :: ps)) :=
    derives_ifTail_iff.mpr (.inr ⟨⟨.Else, "else"⟩, tokens ps, rfl, rfl, statement_of_block hps⟩)
  cases o with
  | none => rw [elsePieces]; exact derives_ifTail_iff.mpr (.inl rfl)
  | some s =>
    have hs := h s rfl
    cases s with
    | block l lonely =>
      rw [elsePieces]
      cases lonely with
      | true => exact derives_ifTail_iff.mpr (.inl rfl)
      | false => exact helse (hs.block rfl i b)
    | _ => simp only [elsePieces]; exact helse (bracedStmt_derive hs i b)

/-- `if (c) ` and `while (c) `. -/
theorem condition_head {type : TT} (str : String) {c : Expr} (hc : WfExpr c) (b : Bool) :
    Head type (tokens ([sym type str, space, sym .LParen "("] ++ exprPieces b c ++ [sym .RParen ")", space])) :=
  ⟨⟨type, str⟩, ⟨.LParen, "("⟩, tokens (exprPieces b c), ⟨.RParen, ")"⟩, by simp, rfl, rfl, exprPieces_expression hc b, rfl⟩

theorem varDecl_derives {type : Ty} {name : String} {initializer : Option Expr} (hi : ∀ e ∈ initializer, WfExpr e)
    (i : Nat) (b : Bool) :
    Derives .localVariableDeclarationStatement (tokens (stmtPieces i b (.varDecl type name initializer))) := by
  refine derives_localVarDecl_iff.mpr ⟨tokens (typePieces type), ⟨.Identifier, name⟩,
    tokens (initPieces b initializer ++ [sym .Semicolon ";"]), ?_, typePieces_derives type, rfl, ?_⟩
  · rw [stmtPieces]
    simp
  · cases initializer with
    | none => exact derives_localVarDeclTail_iff.mpr (.inl ⟨⟨.Semicolon, ";"⟩, rfl, rfl⟩)
    | some e =>
      refine derives_localVarDeclTail_iff.mpr (.inr ⟨⟨.Eq, "="⟩, tokens (exprPieces b e), ⟨.Semicolon, ";"⟩, ?_, rfl,
        exprPieces_expression (hi e rfl) b, rfl⟩)
      simp [initPieces, opPieces, opType, binaryOperationToString]

theorem returnStmt_derives {expression : Option Expr} (h : ∀ e ∈ expression, WfExpr e) (i : Nat) (b : Bool) :
    Derives .returnStatement (tokens (stmtPieces i b (.returnStmt expression))) := by
  rw [stmtPieces]
  cases expression with
  | none => exact derives_return_iff.mpr (.inl ⟨⟨.Return, "return"⟩, ⟨.Semicolon, ";"⟩, rfl, rfl, rfl⟩)
  | some e =>
    refine derives_return_iff.mpr (.inr ⟨⟨.Return, "return"⟩, tokens (exprPieces b e), ⟨.Semicolon, ";"⟩, ?_, rfl,
      exprPieces_expression (h e rfl) b, rfl⟩)
    simp [returnPieces]

/-- What is printed for a statement is a statement. -/
theorem stmtPieces_derives {s : Stmt} (h : WfStmt s) : StmtDerives s := by
  induction h with
  | @block l lonely _ _ ih =>
    refine .of_block fun i b => ?_
    rw [stmtPieces]
    cases lonely with
    | true => exact emptyBraces_derive
    | false => exact braces_derive (stmtsPieces_derive ih (i + 1) b)
  | varDecl ht hn hi =>
    exact ⟨fun i b => derives_blockStatement_iff.mpr (.inl (varDecl_derives hi i b)), fun hd => Bool.noConfusion hd,
      fun hb => Bool.noConfusion hb⟩
  | @exprStmt e he =>
    refine .of_statement rfl fun i b => .of [.n .expressionStatement] (by simp [rules]) (.last ?_)
    refine derives_exprStmt_iff.mpr ⟨tokens (exprPieces b e), ⟨.Semicolon, ";"⟩, ?_, exprPieces_expression he b, rfl⟩
    rw [stmtPieces]
    simp
  | @ifStmt c thenStmt elseStmt hc _ _ _ _ ih₁ ih₂ =>
    refine .of_statement rfl fun i b => .of [.n .ifStatement] (by simp [rules]) (.last ?_)
    refine derives_if_iff.mpr ⟨_, _, _, ?_, condition_head "if" hc b, bodyPieces_derive ih₁ i (after c),
      elsePieces_derive ih₂ i (branchAfter (after c) thenStmt)⟩
    rw [stmtPieces, tokens_append, tokens_append, List.append_assoc]
  | @whileStmt c body hc _ _ ih =>
    refine .of_statement rfl fun i b => .of [.n .whileStatement] (by simp [rules]) (.last ?_)
    refine derives_while_iff.mpr ⟨_, _, ?_, condition_head "while" hc b, bodyPieces_derive ih i (after c)⟩
    rw [stmtPieces, tokens_append]
  | returnStmt he =>
    exact .of_statement rfl fun i b => .of [.n .returnStatement] (by simp [rules]) (.last (returnStmt_derives he i b))

/-! ## Classes and programs -/

theorem paramPieces_derives (p : Parameter) : Derives .parameter (tokens (paramPieces p)) :=
  derives_parameter_iff.mpr ⟨tokens (typePieces p.type), ⟨.Identifier, p.name⟩, by simp [paramPieces],
    typePieces_derives p.type, rfl⟩

theorem moreParams_derive (l : List Parameter) :
    Derives .parametersTail (tokens (l.flatMap fun p => sym .Comma "," :: space :: paramPieces p)) := by
  induction l with
  | nil => exact derives_parametersTail_iff.mpr (.inl rfl)
  | cons p l ih =>
    exact derives_parametersTail_iff.mpr (.inr ⟨⟨.Comma, ","⟩, tokens (paramPieces p), _, by simp, rfl,
      paramPieces_derives p, ih⟩)

theorem paramsPieces_derive (l : List Parameter) : Derives .parameters (tokens (paramsPieces l)) := by
  cases l with
  | nil => exact derives_parameters_iff.mpr (.inl rfl)
  | cons p l =>
    exact derives_parameters_iff.mpr (.inr ⟨tokens (paramPieces p), _, by simp [paramsPieces], paramPieces_derives p,
      moreParams_derive l⟩)

theorem blockPieces_derives {block : Block} (h : WfBlock block) (i : Nat) (b : Bool) :
    Derives .block (tokens (blockPieces i b block)) := (stmtPieces_derives h).block rfl i b

/-- The body of a method; no `throws` is printed. -/
theorem methodBody_derives {block : Block} (h : WfBlock block) (i : Nat) (b : Bool) :
    MethodBody (⟨.RParen, ")"⟩ :: tokens (blockPieces i b block)) :=
  ⟨_, [], _, rfl, rfl, derives_throws_iff.mpr (.inl rfl), blockPieces_derives h i b⟩

theorem classMember_of_type {us vs : List Token} {x : String} (hu : Derives .type us) (hv : Derives .fieldOrMethod vs) :
    Derives .classMember (⟨.Public, "public"⟩ :: (us ++ ⟨.Identifier, x⟩ :: vs)) :=
  .of [tok .Public, .n .classMemberTail] (by simp [rules]) (.terminal rfl (.last
    (.of [.n .type, tok .Identifier, .n .fieldOrMethod] (by simp [rules])
      (.nonterminal hu (.terminal rfl (.last hv))))))

theorem fieldPieces_derives (f : Ast.Field) : Derives .classMember (tokens (fieldPieces f)) := by
  have htoks : tokens (fieldPieces f) = ⟨.Public, "public"⟩ :: (tokens (typePieces f.type) ++
      ⟨.Identifier, f.name⟩ :: [⟨.Semicolon, ";"⟩]) := by simp [fieldPieces]
  rw [htoks]
  exact classMember_of_type (typePieces_derives f.type) (derives_fieldOrMethod_iff.mpr (.inl ⟨_, rfl, rfl⟩))

theorem methodPieces_derives {m : RegularMethod} (h : WfRegularMethod m) (b : Bool) :
    Derives .classMember (tokens (methodPieces b m)) := by
  have htoks : tokens (methodPieces b m) = ⟨.Public, "public"⟩ :: (tokens (typePieces m.returnType) ++
      ⟨.Identifier, m.name⟩ :: ⟨.LParen, "("⟩ :: (tokens (paramsPieces m.parameters) ++
        ⟨.RParen, ")"⟩ :: tokens (blockPieces 1 b m.block))) := by simp [methodPieces]
  rw [htoks]
  exact classMember_of_type (typePieces_derives m.returnType) (derives_fieldOrMethod_iff.mpr (.inr
    ⟨_, _, _, rfl, rfl, paramsPieces_derive m.parameters, methodBody_derives h.block 1 b⟩))

theorem mainMethodPieces_derives {m : MainMethod} (h : WfMainMethod m) (b : Bool) :
    Derives .classMember (tokens (mainMethodPieces b m)) := by
  refine .of [tok .Public, .n .classMemberTail] (by simp [rules]) ?_
  have htoks : tokens (mainMethodPieces b m) = ⟨.Public, "public"⟩ :: ⟨.Static, "static"⟩ :: ⟨.Void, "void"⟩ ::
      ⟨.Identifier, m.name⟩ :: ⟨.LParen, "("⟩ :: ⟨.Identifier, "String"⟩ :: ⟨.LBracket, "["⟩ :: ⟨.RBracket, "]"⟩ ::
        ⟨.Identifier, m.argName⟩ :: ⟨.RParen, ")"⟩ :: tokens (blockPieces 1 b m.block) := by simp [mainMethodPieces]
  rw [htoks]
  refine .terminal rfl (.last (.of [tok .Static, .n .mainMethod] (by simp [rules]) (.terminal rfl (.last ?_))))
  exact derives_mainMethod_iff.mpr ⟨_, _, _, _, _, _, _, _, rfl, rfl, rfl, rfl, ⟨rfl, rfl⟩, rfl, rfl, rfl,
    methodBody_derives h.block 1 b⟩

theorem classMembers_cons {us vs : List Token} (hu : Derives .classMember us) (hv : Derives .classMembers vs) :
    Derives .classMembers (us ++ vs) :=
  .of [.n .classMember, .n .classMembers] (by simp [rules]) (.nonterminal hu (.last hv))

theorem flatMap_members {α : Type} {pieces : α → List Piece} {l : List α} {vs : List Token}
    (h : ∀ x ∈ l, Derives .classMember (tokens (pieces x))) (hv : Derives .classMembers vs) :
    Derives .classMembers (tokens (l.flatMap pieces) ++ vs) := by
  induction l with
  | nil => exact hv
  | cons x l ih =>
    rw [List.flatMap_cons, tokens_append, List.append_assoc]
    exact classMembers_cons (h x List.mem_cons_self) (ih fun y hy => h y (List.mem_cons_of_mem _ hy))

theorem listPieces_members {α : Type} {pieces : Bool → α → List Piece} {next : Bool → α → Bool} {l : List α}
    {vs : List Token} (h : ∀ x ∈ l, ∀ b, Derives .classMember (tokens (pieces b x))) (hv : Derives .classMembers vs)
    (b : Bool) : Derives .classMembers (tokens (listPieces pieces next b l) ++ vs) := by
  induction l generalizing b with
  | nil => exact hv
  | cons x l ih =>
    rw [listPieces, tokens_append, List.append_assoc]
    exact classMembers_cons (h x List.mem_cons_self b) (ih (fun y hy => h y (List.mem_cons_of_mem _ hy)) _)

theorem classPieces_derives {c : Ast.Class} (h : WfClass c) (b : Bool) :
    Derives .classDeclaration (tokens (classPieces b c)) := by
  have hfields : ∀ f ∈ sortByName Ast.Field.name c.fields, Derives .classMember (tokens (fieldPieces f)) :=
    fun f _ => fieldPieces_derives f
  have hmethods : ∀ m ∈ sortByName RegularMethod.name c.methods, ∀ b, Derives .classMember (tokens (methodPieces b m)) :=
    fun m hm => methodPieces_derives (h.methods m ((sortByName_perm _ _).mem_iff.mp hm))
  have hmains : ∀ m ∈ sortByName MainMethod.name c.mainMethods, ∀ b,
      Derives .classMember (tokens (mainMethodPieces b m)) :=
    fun m hm => mainMethodPieces_derives (h.mainMethods m ((sortByName_perm _ _).mem_iff.mp hm))
  have hnil : Derives .classMembers [] := .of [] (by simp [rules]) .nil
  have hall := flatMap_members hfields (@listPieces_members _ _ methodAfter _ _ hmethods
    (@listPieces_members _ _ mainMethodAfter _ _ hmains hnil (methodsAfter b c)) b)
  refine derives_classDeclaration_iff.mpr ⟨⟨.Class, "class"⟩, ⟨.Identifier, c.name⟩, ⟨.LBrace, "\x7b"⟩, _, ?_, rfl, rfl,
    rfl, .nonterminal hall (.terminal (show (⟨.RBrace, "\x7d"⟩ : Token).type = .RBrace from rfl) .nil)⟩
  simp [classPieces]

theorem programPieces_derives {p : Program} (h : WfProgram p) : Derives .program (tokens (programPieces p)) := by
  unfold programPieces
  have hc : ∀ c ∈ sortByName Ast.Class.name p.classes, WfClass c :=
    fun c hc => h c ((sortByName_perm _ _).mem_iff.mp hc)
  generalize sortByName Ast.Class.name p.classes = l at hc
  generalize false = b
  induction l generalizing b with
  | nil => exact derives_program_iff.mpr (.inl rfl)
  | cons c l ih =>
    rw [listPieces, tokens_append]
    exact derives_program_iff.mpr (.inr ⟨_, _, rfl, classPieces_derives (hc c List.mem_cons_self) b,
      ih (fun d hd => hc d (List.mem_cons_of_mem _ hd)) _⟩)

/-! ## Files -/

theorem lex_programPieces {p : Program} (h : WfProgram p) : Lex (tokens (programPieces p) ++ [Token.eof]) := by
  intro t ht
  rcases List.mem_append.mp ht with ht | ht
  · exact (@programPieces_legible [] p h).lex t ht
  · rw [List.mem_singleton.mp ht]
    exact ⟨by decide, by decide⟩

/-- What the parser makes of the text that is printed for a program. -/
theorem parseFile_print {p : Program} (h : WfProgram p) :
    parseFile (bytes (written (programPieces p))) =
      (Parser.parseProgram (tokens (programPieces p) ++ [Token.eof])).toOption := by
  obtain ⟨e, hend, htok⟩ := @readAll_tokenises .normal [] (bytes (written (programPieces p))) [] ⟨0, 0⟩
    ((bytes (written (programPieces p))).length + 1) (Nat.lt_succ_self _)
  rw [← lexFile_eq] at hend htok
  obtain ⟨htoks, rfl⟩ := (print_tokenises h).unique htok
  unfold parseFile
  generalize lexFile .normal (bytes (written (programPieces p))) = r at hend htoks
  obtain ⟨ts, last⟩ := r
  cases last with
  | eof s => rw [htoks]
  | stopped e s => cases e <;> cases hend

/-- What is printed for a well-formed program is accepted by the lexer and the parser, whatever its expressions are. -/
theorem print_accepted {p : Program} (h : WfProgram p) :
    ∃ q, parseFile (bytes (written (programPieces p))) = some q ∧ WfProgram q := by
  have hlex := lex_programPieces h
  have hne : ∀ t ∈ tokens (programPieces p), t.type ≠ .Eof :=
    fun t ht => (programPieces_derives h).ne_eof t ht (hlex t (List.mem_append_left _ ht))
  obtain ⟨q, hq⟩ := (parseProgram_eq_ok_iff hlex rfl hne).mpr (programPieces_derives h)
  have hnamed : Named (tokens (programPieces p) ++ [Token.eof]) := by
    rintro ⟨type, str⟩ ht htype
    obtain rfl : type = .Identifier := htype
    rcases List.mem_append.mp ht with ht | ht
    · exact (@programPieces_legible [] p h).spelled _ ht
    · cases List.mem_singleton.mp ht
  refine ⟨q, ?_, parseProgram_wf hnamed hq⟩
  rw [parseFile_print h, hq]
  rfl

end Mjc.Printer

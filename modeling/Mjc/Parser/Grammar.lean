import Mjc.Parser.Basic

/-!
# The MiniJava grammar

`rules` is the grammar of `doc/grammar.txt`, production by production, with a comma separated
parameter list, an optional `throws IDENT` in a method header, and the range of integer literals.

* The six binary layers and the assignment layer have productions of one form; they are the
  nonterminals `layer l` and `layerTail l` for a `Level`.
* `unary`, `postfix` and `primary` carry a flag: the token directly before them is a unary minus. It
  only matters for the terminal `int`.
* `Derives nt ts` : the tokens `ts` are derivable from `nt`.
-/

namespace Mjc.Grammar
open Mjc.Parser (digitsValue TT)

inductive Terminal where
  /-- a token of this type -/
  | tok (type : TT)
  /-- the identifier with this text -/
  | ident (str : String)
  /-- the word `throws` -/
  | throws
  /-- an integer literal, `afterMinus` if a unary minus stands directly before it -/
  | int (afterMinus : Bool)

/-- The terminal stands for this token. -/
def Terminal.Matches : Terminal → Token → Prop
  | .tok type, t => t.type = type
  | .ident str, t => t.type = .Identifier ∧ t.str = str
  | .throws, t => t.str = "throws"
  | .int afterMinus, t => t.type = .IntLiteral ∧
      (digitsValue t.str.toList ≤ 2147483647 ∨ afterMinus = true ∧ digitsValue t.str.toList = 2147483648)

/-- The layers of binary expressions, loosest first. -/
inductive Level where
  | assignment | logicalOr | logicalAnd | equality | relational | additive | multiplicative
  deriving DecidableEq

def Level.ops : Level → List TT
  | .assignment => [.Eq]
  | .logicalOr => [.VBarVBar]
  | .logicalAnd => [.AmpAmp]
  | .equality => [.BangEq, .EqEq]
  | .relational => [.Lt, .LtEq, .Gt, .GtEq]
  | .additive => [.Minus, .Plus]
  | .multiplicative => [.Star, .Slash, .Percent]

inductive NT where
  | program | classDeclaration | classMembers | classMember | classMemberTail | fieldOrMethod
  | mainMethod | throws | parameters | parametersTail | parameter | type | postfixTypeAnnotations
  | basicType | block | blockInner | blockStatement | statement
  | localVariableDeclarationStatement | localVariableDeclarationStatementTail | emptyStatement
  | whileStatement | ifStatement | ifStatementTail | expressionStatement | returnStatement
  | returnStatementTail | expression | layer (l : Level) | layerTail (l : Level)
  | unaryExpression (afterMinus : Bool) | postfixExpression (afterMinus : Bool)
  | postfixExpressionTail | postfixOp | methodInvocationOrFieldAccess | arrayAccess | arguments
  | argumentsTail | primaryExpression (afterMinus : Bool) | primaryExpressionIdentTail
  | newObjectExpression | newArrayExpression | newArrayExpressionTail

/-- The layer below, or the unary expressions. -/
def Level.next : Level → NT
  | .assignment => .layer .logicalOr
  | .logicalOr => .layer .logicalAnd
  | .logicalAnd => .layer .equality
  | .equality => .layer .relational
  | .relational => .layer .additive
  | .additive => .layer .multiplicative
  | .multiplicative => .unaryExpression false

inductive Sym where
  | t (a : Terminal)
  | n (nt : NT)

/-- A terminal that is a token type. -/
abbrev tok (type : TT) : Sym := .t (.tok type)

def rules : NT → List (List Sym)
  | .program => [[.n .classDeclaration, .n .program], []]
  | .classDeclaration =>
    [[tok .Class, tok .Identifier, tok .LBrace, .n .classMembers, tok .RBrace]]
  | .classMembers => [[], [.n .classMember, .n .classMembers]]
  | .classMember => [[tok .Public, .n .classMemberTail]]
  | .classMemberTail =>
    [[tok .Static, .n .mainMethod], [.n .type, tok .Identifier, .n .fieldOrMethod]]
  | .fieldOrMethod =>
    [[tok .Semicolon], [tok .LParen, .n .parameters, tok .RParen, .n .throws, .n .block]]
  | .mainMethod =>
    [[tok .Void, tok .Identifier, tok .LParen, .t (.ident "String"), tok .LBracket, tok .RBracket,
      tok .Identifier, tok .RParen, .n .throws, .n .block]]
  | .throws => [[], [.t .throws, tok .Identifier]]
  | .parameters => [[], [.n .parameter, .n .parametersTail]]
  | .parametersTail => [[], [tok .Comma, .n .parameter, .n .parametersTail]]
  | .parameter => [[.n .type, tok .Identifier]]
  | .type => [[.n .basicType, .n .postfixTypeAnnotations]]
  | .postfixTypeAnnotations => [[], [tok .LBracket, tok .RBracket, .n .postfixTypeAnnotations]]
  | .basicType => [[tok .Boolean], [tok .Int], [tok .Void], [tok .Identifier]]
  | .block => [[tok .LBrace, .n .blockInner, tok .RBrace]]
  | .blockInner => [[], [.n .blockStatement, .n .blockInner]]
  | .blockStatement => [[.n .localVariableDeclarationStatement], [.n .statement]]
  | .statement =>
    [[.n .block], [.n .emptyStatement], [.n .expressionStatement], [.n .ifStatement],
      [.n .returnStatement], [.n .whileStatement]]
  | .localVariableDeclarationStatement =>
    [[.n .type, tok .Identifier, .n .localVariableDeclarationStatementTail]]
  | .localVariableDeclarationStatementTail =>
    [[tok .Semicolon], [tok .Eq, .n .expression, tok .Semicolon]]
  | .emptyStatement => [[tok .Semicolon]]
  | .whileStatement => [[tok .While, tok .LParen, .n .expression, tok .RParen, .n .statement]]
  | .ifStatement =>
    [[tok .If, tok .LParen, .n .expression, tok .RParen, .n .statement, .n .ifStatementTail]]
  | .ifStatementTail => [[], [tok .Else, .n .statement]]
  | .expressionStatement => [[.n .expression, tok .Semicolon]]
  | .returnStatement => [[tok .Return, .n .returnStatementTail]]
  | .returnStatementTail => [[tok .Semicolon], [.n .expression, tok .Semicolon]]
  | .expression => [[.n (.layer .assignment)]]
  | .layer l => [[.n l.next, .n (.layerTail l)]]
  | .layerTail l => [] :: l.ops.map fun op => [tok op, .n (.layer l)]
  | .unaryExpression afterMinus =>
    [[tok .Minus, .n (.unaryExpression true)], [tok .Bang, .n (.unaryExpression false)],
      [.n (.postfixExpression afterMinus)]]
  | .postfixExpression afterMinus =>
    [[.n (.primaryExpression afterMinus), .n .postfixExpressionTail]]
  | .postfixExpressionTail => [[], [.n .postfixOp, .n .postfixExpressionTail]]
  | .postfixOp =>
    [[tok .Dot, tok .Identifier, .n .methodInvocationOrFieldAccess], [.n .arrayAccess]]
  | .methodInvocationOrFieldAccess => [[], [tok .LParen, .n .arguments, tok .RParen]]
  | .arrayAccess => [[tok .LBracket, .n .expression, tok .RBracket]]
  | .arguments => [[], [.n .expression, .n .argumentsTail]]
  | .argumentsTail => [[], [tok .Comma, .n .expression, .n .argumentsTail]]
  | .primaryExpression afterMinus =>
    [[tok .LParen, .n .expression, tok .RParen], [tok .False], [tok .True], [tok .Null], [tok .This],
      [tok .Identifier, .n .primaryExpressionIdentTail], [.t (.int afterMinus)],
      [.n .newObjectExpression], [.n .newArrayExpression]]
  | .primaryExpressionIdentTail => [[], [tok .LParen, .n .arguments, tok .RParen]]
  | .newObjectExpression => [[tok .New, tok .Identifier, tok .LParen, tok .RParen]]
  | .newArrayExpression =>
    [[tok .New, .n .basicType, tok .LBracket, .n .expression, tok .RBracket,
      .n .newArrayExpressionTail]]
  | .newArrayExpressionTail => [[], [tok .LBracket, tok .RBracket, .n .newArrayExpressionTail]]

mutual

/-- The tokens are derivable from the nonterminal. -/
inductive Derives : NT → List Token → Prop where
  | rule {nt : NT} {rhs : List Sym} {ts : List Token} (mem : rhs ∈ rules nt)
      (derives : DerivesAll rhs ts) : Derives nt ts

/-- The tokens are derivable from the symbols, in order. -/
inductive DerivesAll : List Sym → List Token → Prop where
  | nil : DerivesAll [] []
  | terminal {a : Terminal} {t : Token} {rhs : List Sym} {ts : List Token} (matches_ : a.Matches t)
      (rest : DerivesAll rhs ts) : DerivesAll (.t a :: rhs) (t :: ts)
  | nonterminal {nt : NT} {us ts : List Token} {rhs : List Sym} (derives : Derives nt us)
      (rest : DerivesAll rhs ts) : DerivesAll (.n nt :: rhs) (us ++ ts)

end

/-- A nonterminal at the end of a right hand side. -/
theorem DerivesAll.last {nt : NT} {ts : List Token} (h : Derives nt ts) : DerivesAll [.n nt] ts := by
  rw [← List.append_nil ts]
  exact .nonterminal h .nil

theorem DerivesAll.append {rhs rhs' : List Sym} {us vs : List Token} (hu : DerivesAll rhs us)
    (hv : DerivesAll rhs' vs) : DerivesAll (rhs ++ rhs') (us ++ vs) := by
  induction rhs generalizing us with
  | nil => cases hu; exact hv
  | cons s rhs ih =>
    cases hu with
    | terminal hm h => exact .terminal hm (ih h)
    | nonterminal hd h =>
      rw [List.append_assoc]
      exact .nonterminal hd (ih h)

/-- Use a production, given by its right hand side. -/
theorem Derives.of {nt : NT} (rhs : List Sym) {ts : List Token} (mem : rhs ∈ rules nt)
    (h : DerivesAll rhs ts) : Derives nt ts := .rule mem h

/-! ## Reading a production -/

theorem derives_iff {nt : NT} {ts : List Token} : Derives nt ts ↔ ∃ rhs ∈ rules nt, DerivesAll rhs ts := by
  constructor
  · rintro ⟨mem, h⟩
    exact ⟨_, mem, h⟩
  · rintro ⟨rhs, mem, h⟩
    exact .rule mem h

@[simp] theorem derivesAll_nil {ts : List Token} : DerivesAll [] ts ↔ ts = [] := by
  constructor
  · rintro ⟨⟩; rfl
  · rintro rfl; exact .nil

@[simp] theorem derivesAll_terminal {a : Terminal} {rhs : List Sym} {ts : List Token} :
    DerivesAll (.t a :: rhs) ts ↔ ∃ t us, ts = t :: us ∧ a.Matches t ∧ DerivesAll rhs us := by
  constructor
  · rintro ⟨⟩
    exact ⟨_, _, rfl, ‹_›, ‹_›⟩
  · rintro ⟨t, us, rfl, hm, h⟩
    exact .terminal hm h

@[simp] theorem derivesAll_nonterminal {nt : NT} {rhs : List Sym} {ts : List Token} :
    DerivesAll (.n nt :: rhs) ts ↔ ∃ us vs, ts = us ++ vs ∧ Derives nt us ∧ DerivesAll rhs vs := by
  constructor
  · rintro ⟨⟩
    exact ⟨_, _, rfl, ‹_›, ‹_›⟩
  · rintro ⟨us, vs, rfl, hd, h⟩
    exact .nonterminal hd h

end Mjc.Grammar

import Mathlib.Data.List.Basic

/-!
# Tokens

`Token.Type` is the enumeration of `lexer.hpp`; a `Token` is a type and its text. Source positions
are left out: they only reach the error reports.

* `Token.eof` : what the lexer returns at the end of the input, and on every call after that;
* `Token.Lexical` : what every token of the lexer satisfies (the text of an integer literal is
  decimal, the word `throws` is a reserved keyword).
-/

namespace Mjc

inductive Token.Type where
  | none | Eof | Identifier | IntLiteral
  -- keywords
  | Boolean | Class | Else | False | If | Int | New | Null | Public | Return | Static | This | True
  | Void | While
  -- operators
  | Amp | AmpAmp | AmpEq | Bang | BangEq | Caret | CaretEq | Colon | Comma | Dot | Eq | EqEq | Gt
  | GtEq | GtGt | GtGtEq | GtGtGt | GtGtGtEq | LBrace | LBracket | LParen | LtEq | LtLt | Lt
  | LtLtEq | Minus | MinusEq | MinusMinus | VBar | VBarEq | VBarVBar | Percent | PercentEq | Plus
  | PlusEq | PlusPlus | QMark | RBrace | RBracket | RParen | Semicolon | Slash | SlashEq | Star
  | StarEq | Tilde
  | ReservedKeyword
  deriving DecidableEq, Repr

/-- A token: its type and its text (`Token::str`). -/
structure Token where
  type : Token.Type
  str : String
  deriving DecidableEq, Repr

namespace Token

/-- The token at the end of the input. -/
def eof : Token := ⟨.Eof, "EOF"⟩

/-- The text of an integer literal: decimal digits, at least one. -/
def IsDecimal (s : String) : Prop := s.toList ≠ [] ∧ ∀ c ∈ s.toList, c.isDigit

instance (s : String) : Decidable (IsDecimal s) :=
  @instDecidableAnd _ _ inferInstance (List.decidableBAll (fun c => c.isDigit = true) s.toList)

/-- What the lexer guarantees of a token's text. -/
structure Lexical (t : Token) : Prop where
  literal : t.type = .IntLiteral → IsDecimal t.str
  throws : t.str = "throws" → t.type = .ReservedKeyword

end Token

/-- Every token of the list comes from the lexer. -/
def Lex (ts : List Token) : Prop := ∀ t ∈ ts, t.Lexical

theorem Lex.of_append {us vs : List Token} (h : Lex (us ++ vs)) : Lex vs :=
  fun t ht => h t (List.mem_append_right _ ht)

theorem Lex.of_append_left {us vs : List Token} (h : Lex (us ++ vs)) : Lex us :=
  fun t ht => h t (List.mem_append_left _ ht)

theorem Lex.tail {t : Token} {ts : List Token} (h : Lex (t :: ts)) : Lex ts :=
  fun u hu => h u (List.mem_cons_of_mem _ hu)

theorem Lex.head {t : Token} {ts : List Token} (h : Lex (t :: ts)) : t.Lexical := h t List.mem_cons_self

end Mjc

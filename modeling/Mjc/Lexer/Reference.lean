import Mjc.Lexer.Basic
import Mjc.Munch

/-!
# The reference tokenisation

What the lexer of MiniJava is to do, as `test/minijava.l` states it: skip blanks and comments, then take the
longest word.

* `operators`, `keywords` : the fixed words of `test/minijava.l`;
* `Word` : the words, with the type of their token; `Words` : without it;
* `Opens`, `CommentBody` : how a comment starts, and what stands before the first `*/`;
* `Tokenises` : the tokens of an input, and how reading ends.
-/

namespace Mjc.Lexer
open Mjc.Munch

set_option autoImplicit false

/-! ## Words -/

/-- The bytes of an ASCII text. -/
def bytes (cs : List Char) : List UInt8 := cs.map fun c => UInt8.ofNat c.toNat

/-- The text of a list of bytes. -/
def text (bs : List UInt8) : List Char := bs.map fun b => Char.ofNat b.toNat

def Blank (b : UInt8) : Prop := b ∈ bytes [' ', '\t', '\r', '\n']

/-- `[_a-zA-Z]` -/
def Letter (b : UInt8) : Prop := (97 ≤ b ∧ b ≤ 122) ∨ (65 ≤ b ∧ b ≤ 90) ∨ b = 95

/-- `[0-9]` -/
def Digit (b : UInt8) : Prop := 48 ≤ b ∧ b ≤ 57

instance (b : UInt8) : Decidable (Blank b) := inferInstanceAs (Decidable (b ∈ bytes [' ', '\t', '\r', '\n']))

instance (b : UInt8) : Decidable (Letter b) :=
  inferInstanceAs (Decidable ((97 ≤ b ∧ b ≤ 122) ∨ (65 ≤ b ∧ b ≤ 90) ∨ b = 95))

instance (b : UInt8) : Decidable (Digit b) := inferInstanceAs (Decidable (48 ≤ b ∧ b ≤ 57))

/-- The operators of `test/minijava.l`. -/
def operators : List (List Char × TT) :=
  [(['!', '='], .BangEq), (['!'], .Bang), (['('], .LParen), ([')'], .RParen), (['*', '='], .StarEq),
    (['*'], .Star), (['+', '+'], .PlusPlus), (['+', '='], .PlusEq), (['+'], .Plus), (['-', '='], .MinusEq),
    (['-', '-'], .MinusMinus), (['-'], .Minus), (['.'], .Dot), ([','], .Comma), (['/', '='], .SlashEq),
    (['/'], .Slash), ([':'], .Colon), ([';'], .Semicolon), (['<', '<', '='], .LtLtEq), (['<', '<'], .LtLt),
    (['<', '='], .LtEq), (['<'], .Lt), (['=', '='], .EqEq), (['='], .Eq), (['>', '='], .GtEq),
    (['>', '>', '='], .GtGtEq), (['>', '>', '>', '='], .GtGtGtEq), (['>', '>', '>'], .GtGtGt),
    (['>', '>'], .GtGt), (['>'], .Gt), (['?'], .QMark), (['%', '='], .PercentEq), (['%'], .Percent),
    (['&', '='], .AmpEq), (['&', '&'], .AmpAmp), (['&'], .Amp), (['['], .LBracket), ([']'], .RBracket),
    (['^', '='], .CaretEq), (['^'], .Caret), (['\x7b'], .LBrace), (['\x7d'], .RBrace), (['~'], .Tilde),
    (['|', '='], .VBarEq), (['|', '|'], .VBarVBar), (['|'], .VBar)]

/-- The keywords of `test/minijava.l`. -/
def keywords : List String :=
  ["abstract", "assert", "boolean", "break", "byte", "case", "catch", "char", "class", "const", "continue", "default",
    "double", "do", "else", "enum", "extends", "false", "finally", "final", "float", "for", "goto", "if", "implements",
    "import", "instanceof", "interface", "int", "long", "native", "new", "null", "package", "private", "protected",
    "public", "return", "short", "static", "strictfp", "super", "switch", "synchronized", "this", "throws", "throw",
    "transient", "true", "try", "void", "volatile", "while"]

/-- The keywords that are terminals of `doc/grammar.txt`. The other ones are reserved. -/
def terminals : List (String × TT) :=
  [("class", .Class), ("public", .Public), ("static", .Static), ("void", .Void), ("boolean", .Boolean), ("int", .Int),
    ("while", .While), ("if", .If), ("else", .Else), ("return", .Return), ("false", .False), ("true", .True),
    ("null", .Null), ("this", .This), ("new", .New)]

/-- The type of an identifier-like word: keyword, reserved keyword or identifier. -/
def classify (w : List UInt8) : TT :=
  let word := String.ofList (text w)
  if keywords.contains word then (terminals.lookup word).getD .ReservedKeyword else .Identifier

theorem classify_cases (w : List UInt8) :
    classify w = .Identifier ∨ classify w = .ReservedKeyword ∨ ∃ o ∈ terminals, classify w = o.2 := by
  unfold classify
  by_cases hkey : keywords.contains (String.ofList (text w)) = true
  · rw [if_pos hkey]
    cases hlook : terminals.lookup (String.ofList (text w)) with
    | none => exact .inr (.inl rfl)
    | some t =>
      obtain ⟨l, l', hl, -⟩ := List.lookup_eq_some_iff.mp hlook
      exact .inr (.inr ⟨(_, t), by rw [hl]; exact List.mem_append_right _ List.mem_cons_self, rfl⟩)
  · rw [if_neg hkey]
    exact .inl rfl

/-- The words, and the type of the token each one gives. -/
inductive Word : List UInt8 → TT → Prop where
  | identifier {c : UInt8} {cs : List UInt8} (hc : Letter c) (hcs : ∀ d ∈ cs, Letter d ∨ Digit d) :
      Word (c :: cs) (classify (c :: cs))
  | zero : Word [48] .IntLiteral
  | integer {c : UInt8} {cs : List UInt8} (hc : Digit c) (hz : c ≠ 48) (hcs : ∀ d ∈ cs, Digit d) :
      Word (c :: cs) .IntLiteral
  | operator {cs : List Char} {t : TT} (h : (cs, t) ∈ operators) : Word (bytes cs) t

/-- The words alone. -/
def Words (w : List UInt8) : Prop := ∃ t, Word w t

/-! ## Comments -/

/-- The input starts with `/*`. -/
def Opens (bs : List UInt8) : Prop := bytes ['/', '*'] <+: bs

/-- What may stand between `/*` and the first `*/` after it: ASCII, with no `*/` in it. -/
structure CommentBody (u : List UInt8) : Prop where
  ascii : ∀ b ∈ u, b < 128
  first : ¬ bytes ['*', '/'] <:+: u

/-! ## Tokenisation -/

/-- How reading ends: with the end of the input, or with an error at a byte (or at the end). -/
inductive Ending where
  | eof
  | lexError (offset : Nat)
  deriving DecidableEq, Repr

/-- The tokens of the input from byte `n` on, and how reading it ends. -/
inductive Tokenises : Nat → List UInt8 → List Token → Ending → Prop where
  | eof {n : Nat} : Tokenises n [] [Token.eof] .eof
  | blank {n : Nat} {b : UInt8} {bs : List UInt8} {ts : List Token} {e : Ending} (hb : Blank b)
      (h : Tokenises (n + 1) bs ts e) : Tokenises n (b :: bs) ts e
  | comment {n : Nat} {u rest : List UInt8} {ts : List Token} {e : Ending} (hu : CommentBody u)
      (h : Tokenises (n + u.length + 4) rest ts e) :
      Tokenises n (bytes ['/', '*'] ++ u ++ bytes ['*', '/'] ++ rest) ts e
  | highByte {n : Nat} {u rest : List UInt8} {b : UInt8} (hu : CommentBody u) (hb : 128 ≤ b) :
      Tokenises n (bytes ['/', '*'] ++ u ++ b :: rest) [] (.lexError (n + u.length + 2))
  | unclosed {n : Nat} {u : List UInt8} (hu : CommentBody u) :
      Tokenises n (bytes ['/', '*'] ++ u) [] (.lexError (n + u.length + 2))
  | token {n : Nat} {w rest : List UInt8} {t : TT} {ts : List Token} {e : Ending}
      (hopen : ¬ Opens (w ++ rest)) (hw : Word w t) (hlong : Longest Words (w ++ rest) w)
      (h : Tokenises (n + w.length) rest ts e) :
      Tokenises n (w ++ rest) (⟨t, String.ofList (text w)⟩ :: ts) e
  | noToken {n : Nat} {b : UInt8} {rest : List UInt8} (hb : ¬ Blank b)
      (hw : ∀ w, Words w → ¬ w <+: b :: rest) : Tokenises n (b :: rest) [] (.lexError n)

/-! ## What is skipped -/

/-- A sequence of blanks and comments. -/
inductive Gap : List UInt8 → Prop where
  | nil : Gap []
  | blank {b : UInt8} {g : List UInt8} (hb : Blank b) (h : Gap g) : Gap (b :: g)
  | comment {u g : List UInt8} (hu : CommentBody u) (h : Gap g) :
      Gap (bytes ['/', '*'] ++ u ++ bytes ['*', '/'] ++ g)

theorem Gap.append {g g' : List UInt8} (hg : Gap g) (hg' : Gap g') : Gap (g ++ g') := by
  induction hg with
  | nil => exact hg'
  | blank hb _ ih => exact .blank hb ih
  | comment hu _ ih =>
    rw [List.append_assoc]
    exact .comment hu ih

theorem Gap.of_blanks {g : List UInt8} (hg : ∀ b ∈ g, Blank b) : Gap g := by
  induction g with
  | nil => exact .nil
  | cons b g ih => exact .blank (hg b (by simp)) (ih fun c hc => hg c (by simp [hc]))

/-- The reference skips it. -/
theorem Gap.tokenises {g rest : List UInt8} {n : Nat} {ts : List Token} {e : Ending} (hg : Gap g)
    (h : Tokenises (n + g.length) rest ts e) : Tokenises n (g ++ rest) ts e := by
  induction hg generalizing n with
  | nil => exact h
  | blank hb _ ih =>
    apply Tokenises.blank hb
    apply ih
    rwa [List.length_cons, Nat.add_comm _ 1, ← Nat.add_assoc] at h
  | @comment u g hu _ ih =>
    rw [List.append_assoc]
    apply Tokenises.comment hu
    apply ih
    have hlen : n + u.length + 4 + g.length
        = n + (bytes ['/', '*'] ++ u ++ bytes ['*', '/'] ++ g).length := by
      simp only [List.length_append, bytes, List.length_map, List.length_cons, List.length_nil]
      omega
    rwa [hlen]

theorem CommentBody.nil : CommentBody [] := ⟨by simp, by simp [bytes]⟩

theorem CommentBody.cons {b : UInt8} {u : List UInt8} (hu : CommentBody u) (hb : b < 128)
    (hfirst : b = 42 → u.head? ≠ some 47) : CommentBody (b :: u) := by
  refine ⟨?_, ?_⟩
  · intro c hc
    rcases List.mem_cons.mp hc with rfl | hc
    · exact hb
    · exact hu.ascii c hc
  · intro hin
    rcases List.infix_cons_iff.mp hin with hpre | hin
    · have hclose : bytes ['*', '/'] = [42, 47] := rfl
      rw [hclose, List.cons_prefix_cons] at hpre
      obtain ⟨hb, r, hr⟩ := hpre
      apply hfirst hb.symm
      rw [← hr]
      rfl
    · exact hu.first hin

/-! ## The words as a language -/

/-- The operators alone. -/
def opWords : List (List UInt8) := operators.map fun o => bytes o.1

theorem opWords_start : ∀ v ∈ opWords, ∃ c cs, v = c :: cs ∧ ¬ Letter c ∧ ¬ Digit c ∧ ¬ Blank c := by
  have h : ∀ v ∈ opWords, v.head?.any (fun c => decide (¬ Letter c ∧ ¬ Digit c ∧ ¬ Blank c)) = true := by decide
  intro v hv
  have hc := h v hv
  cases v with
  | nil => cases hc
  | cons c cs => exact ⟨c, cs, rfl, of_decide_eq_true hc⟩

theorem words_opWords {v : List UInt8} (hv : v ∈ opWords) : Words v := by
  obtain ⟨o, ho, rfl⟩ := List.mem_map.mp hv
  exact ⟨o.2, .operator ho⟩

theorem Digit.not_letter {b : UInt8} (hd : Digit b) : ¬ Letter b := by
  obtain ⟨h1, h2⟩ := hd
  unfold Letter
  simp only [UInt8.le_iff_toNat_le, ← UInt8.toNat_inj] at *
  simp only [UInt8.toNat_ofNat] at *
  omega

/-- A word that starts with a letter is an identifier. -/
theorem words_letter {b : UInt8} {w : List UInt8} (hb : Letter b) :
    Words (b :: w) ↔ ∀ d ∈ w, Letter d ∨ Digit d := by
  constructor
  · rintro ⟨t, ht⟩
    generalize hv : b :: w = v at ht
    cases ht with
    | identifier hc hcs =>
      obtain ⟨-, rfl⟩ := List.cons.inj hv
      exact hcs
    | zero =>
      obtain ⟨rfl, -⟩ := List.cons.inj hv
      exact absurd hb (Digit.not_letter (by decide))
    | integer hc =>
      obtain ⟨rfl, -⟩ := List.cons.inj hv
      exact absurd hb hc.not_letter
    | operator h =>
      obtain ⟨c, cs, hcs, hl, -⟩ := opWords_start _ (List.mem_map_of_mem h)
      obtain ⟨rfl, -⟩ := List.cons.inj (hv.trans hcs)
      exact absurd hb hl
  · intro hw
    exact ⟨_, .identifier hb hw⟩

/-- A word that starts with a digit is an integer. -/
theorem words_digit {b : UInt8} {w : List UInt8} (hb : Digit b) :
    Words (b :: w) ↔ (b = 48 ∧ w = []) ∨ (b ≠ 48 ∧ ∀ d ∈ w, Digit d) := by
  constructor
  · rintro ⟨t, ht⟩
    generalize hv : b :: w = v at ht
    cases ht with
    | identifier hc =>
      obtain ⟨rfl, -⟩ := List.cons.inj hv
      exact absurd hc hb.not_letter
    | zero =>
      obtain ⟨rfl, rfl⟩ := List.cons.inj hv
      exact .inl ⟨rfl, rfl⟩
    | integer hc hz hcs =>
      obtain ⟨rfl, rfl⟩ := List.cons.inj hv
      exact .inr ⟨hz, hcs⟩
    | operator h =>
      obtain ⟨c, cs, hcs, -, hd, -⟩ := opWords_start _ (List.mem_map_of_mem h)
      obtain ⟨rfl, -⟩ := List.cons.inj (hv.trans hcs)
      exact absurd hb hd
  · rintro (⟨rfl, rfl⟩ | ⟨hz, hw⟩)
    · exact ⟨_, .zero⟩
    · exact ⟨_, .integer hb hz hw⟩

/-- Any other word is an operator. -/
theorem words_other {b : UInt8} {w : List UInt8} (hl : ¬ Letter b) (hd : ¬ Digit b) :
    Words (b :: w) ↔ b :: w ∈ opWords := by
  constructor
  · rintro ⟨t, ht⟩
    generalize hv : b :: w = v at ht
    cases ht with
    | identifier hc =>
      obtain ⟨rfl, -⟩ := List.cons.inj hv
      exact absurd hc hl
    | zero =>
      obtain ⟨rfl, -⟩ := List.cons.inj hv
      exact absurd (by decide) hd
    | integer hc =>
      obtain ⟨rfl, -⟩ := List.cons.inj hv
      exact absurd hc hd
    | operator h => exact List.mem_map_of_mem h
  · exact words_opWords

theorem not_words_nil : ¬ Words [] := by
  rintro ⟨t, ht⟩
  generalize hv : ([] : List UInt8) = v at ht
  cases ht with
  | identifier => cases hv
  | zero => cases hv
  | integer => cases hv
  | operator h =>
    obtain ⟨c, cs, hcs, -⟩ := opWords_start _ (List.mem_map_of_mem h)
    exact absurd (hv.trans hcs) (by simp)

theorem opWords_parts : ∀ v ∈ opWords, ∀ u ∈ v.inits, u ≠ [] → u ∈ opWords := by decide

/-- Every part of a word that starts it is a word. -/
theorem partsAreWords : PartsAreWords Words := by
  intro u v hu hw
  cases u with
  | nil => exact absurd rfl hu
  | cons b u =>
    rw [List.cons_append] at hw
    by_cases hl : Letter b
    · rw [words_letter hl] at hw ⊢
      intro d hd
      exact hw d (List.mem_append_left v hd)
    · by_cases hd : Digit b
      · rw [words_digit hd] at hw ⊢
        rcases hw with ⟨hb, hnil⟩ | ⟨hb, hw⟩
        · exact .inl ⟨hb, (List.append_eq_nil_iff.mp hnil).1⟩
        · exact .inr ⟨hb, fun d hd => hw d (List.mem_append_left v hd)⟩
      · rw [words_other hl hd] at hw ⊢
        apply opWords_parts _ hw
        · rw [List.mem_inits]
          exact ⟨v, rfl⟩
        · simp

/-! ### Operators -/

/-- The bytes that continue an operator. -/
def continuations (w : List UInt8) : List UInt8 :=
  opWords.filterMap fun v => if v.dropLast = w then v.getLast? else none

theorem mem_continuations {w : List UInt8} {b : UInt8} (h : w ++ [b] ∈ opWords) : b ∈ continuations w := by
  unfold continuations
  rw [List.mem_filterMap]
  refine ⟨w ++ [b], h, ?_⟩
  rw [List.dropLast_concat, if_pos rfl, List.getLast?_concat]

/-- An operator that the next byte does not continue is the longest word. -/
theorem longest_operator {w rest : List UInt8} (hw : w ∈ opWords)
    (hstuck : ∀ b ∈ rest.head?, b ∉ continuations w) : Longest Words (w ++ rest) w := by
  apply longest_of_stuck partsAreWords (words_opWords hw)
  rintro b r rfl hword
  apply hstuck b rfl
  apply mem_continuations
  obtain ⟨c, cs, rfl, hl, hd, -⟩ := opWords_start w hw
  exact (words_other hl hd).mp hword

/-! ## The reference determines the tokens -/

/-- What may follow the body of a comment. -/
def CommentEnd (x : List UInt8) : Prop :=
  x = [] ∨ (∃ b r, x = b :: r ∧ 128 ≤ b) ∨ ∃ r, x = bytes ['*', '/'] ++ r

theorem CommentBody.append_eq_nil {u a x y : List UInt8} (hua : CommentBody (u ++ a)) (hx : CommentEnd x)
    (hy : CommentEnd y) (h : x = a ++ y) : a = [] := by
  cases a with
  | nil => rfl
  | cons c a =>
    exfalso
    have hc : c < 128 := hua.ascii c (by simp)
    rcases hx with rfl | ⟨b, r, rfl, hb⟩ | ⟨r, rfl⟩
    · exact absurd h (by simp)
    · obtain ⟨rfl, -⟩ := List.cons.inj h
      exact absurd hc (by simpa using hb)
    · obtain ⟨hc42, htail⟩ := List.cons.inj h
      cases a with
      | nil =>
        -- the end of the body would start with `/`
        rcases hy with rfl | ⟨b, r, rfl, hb⟩ | ⟨r, rfl⟩
        · exact absurd htail (by simp)
        · obtain ⟨rfl, -⟩ := List.cons.inj htail
          exact absurd hb (by decide)
        · obtain ⟨h47, -⟩ := List.cons.inj htail
          exact absurd h47 (by decide)
      | cons d a =>
        obtain ⟨hd47, -⟩ := List.cons.inj htail
        apply hua.first
        refine ⟨u, a, ?_⟩
        rw [List.append_assoc, ← hc42, ← hd47]
        rfl

/-- The body of a comment ends at one place only. -/
theorem CommentBody.unique {u v x y : List UInt8} (hu : CommentBody u) (hv : CommentBody v) (hx : CommentEnd x)
    (hy : CommentEnd y) (h : u ++ x = v ++ y) : u = v ∧ x = y := by
  rcases List.append_eq_append_iff.mp h with ⟨a, rfl, ha⟩ | ⟨a, rfl, ha⟩
  · obtain rfl := hv.append_eq_nil hx hy ha
    exact ⟨by simp, by simpa using ha⟩
  · obtain rfl := hu.append_eq_nil hy hx ha
    exact ⟨by simp, by simpa using ha.symm⟩

theorem Blank.not_start {b : UInt8} (hb : Blank b) : ¬ Letter b ∧ ¬ Digit b := by
  have h : ((bytes [' ', '\t', '\r', '\n']).all fun c => decide (¬ Letter c ∧ ¬ Digit c)) = true := by decide
  exact of_decide_eq_true (List.all_eq_true.mp h b hb)

theorem Words.not_blank {b : UInt8} {w : List UInt8} (hw : Words (b :: w)) : ¬ Blank b := by
  intro hb
  obtain ⟨hl, hd⟩ := hb.not_start
  obtain ⟨c, cs, hc, -, -, hnot⟩ := opWords_start _ ((words_other hl hd).mp hw)
  obtain ⟨rfl, -⟩ := List.cons.inj hc
  exact hnot hb

theorem words_slash : Words [47] := words_opWords (by decide)

theorem Opens.eq {bs : List UInt8} (h : Opens bs) : ∃ r, bs = bytes ['/', '*'] ++ r := by
  obtain ⟨r, hr⟩ := h
  exact ⟨r, hr.symm⟩

/-- A byte that is not blank and starts no word opens no comment. -/
theorem not_opens {bs : List UInt8} (hw : ∀ w, Words w → ¬ w <+: bs) : ¬ Opens bs := by
  intro h
  obtain ⟨r, rfl⟩ := h.eq
  exact hw [47] words_slash ⟨42 :: r, rfl⟩

section Inversion

variable {n : Nat} {b : UInt8} {bs : List UInt8} {ts : List Token} {e : Ending}

theorem Tokenises.nil_inv (h : Tokenises n [] ts e) : ts = [Token.eof] ∧ e = .eof := by
  generalize hbs : ([] : List UInt8) = bs at h
  cases h with
  | eof => exact ⟨rfl, rfl⟩
  | blank => cases hbs
  | comment => simp [bytes] at hbs
  | highByte => simp [bytes] at hbs
  | unclosed => simp [bytes] at hbs
  | token hopen hw =>
    obtain rfl := (List.append_eq_nil_iff.mp hbs.symm).1
    exact absurd ⟨_, hw⟩ not_words_nil
  | noToken => cases hbs

theorem Tokenises.blank_inv (hb : Blank b) (h : Tokenises n (b :: bs) ts e) : Tokenises (n + 1) bs ts e := by
  have hslash : b ≠ 47 := by
    rintro rfl
    exact absurd hb (by decide)
  generalize hbs : b :: bs = bs' at h
  cases h with
  | eof => cases hbs
  | blank _ h =>
    obtain ⟨rfl, rfl⟩ := List.cons.inj hbs
    exact h
  | comment => exact absurd (List.cons.inj hbs).1 hslash
  | highByte => exact absurd (List.cons.inj hbs).1 hslash
  | unclosed => exact absurd (List.cons.inj hbs).1 hslash
  | @token n w rest t ts e hopen hw =>
    cases w with
    | nil => exact absurd ⟨_, hw⟩ not_words_nil
    | cons c w =>
      obtain ⟨rfl, -⟩ := List.cons.inj hbs
      exact absurd hb (Words.not_blank ⟨_, hw⟩)
  | noToken hnot =>
    obtain ⟨rfl, -⟩ := List.cons.inj hbs
    exact absurd hb hnot

theorem Tokenises.open_inv {x : List UInt8} (h : Tokenises n (bytes ['/', '*'] ++ x) ts e) :
    ∃ u y, x = u ++ y ∧ CommentBody u ∧ CommentEnd y ∧
      ((∃ r, y = bytes ['*', '/'] ++ r ∧ Tokenises (n + u.length + 4) r ts e) ∨
       (ts = [] ∧ e = .lexError (n + u.length + 2) ∧ ∀ r, y ≠ bytes ['*', '/'] ++ r)) := by
  generalize hbs : bytes ['/', '*'] ++ x = bs at h
  cases h with
  | eof => simp [bytes] at hbs
  | blank hb =>
    obtain ⟨rfl, -⟩ := List.cons.inj hbs
    exact absurd hb (by decide)
  | @comment n u rest ts e hu h =>
    rw [List.append_assoc, List.append_assoc, List.append_cancel_left_eq] at hbs
    exact ⟨u, bytes ['*', '/'] ++ rest, hbs, hu, .inr (.inr ⟨rest, rfl⟩), .inl ⟨rest, rfl, h⟩⟩
  | @highByte n u rest b hu hb =>
    rw [List.append_assoc, List.append_cancel_left_eq] at hbs
    refine ⟨u, b :: rest, hbs, hu, .inr (.inl ⟨b, rest, rfl, hb⟩), .inr ⟨rfl, rfl, ?_⟩⟩
    intro r hr
    obtain ⟨rfl, -⟩ := List.cons.inj hr
    exact absurd hb (by decide)
  | @unclosed n u hu =>
    rw [List.append_cancel_left_eq] at hbs
    exact ⟨u, [], by simpa using hbs, hu, .inl rfl, .inr ⟨rfl, rfl, by simp [bytes]⟩⟩
  | token hopen => exact absurd ⟨x, hbs⟩ hopen
  | noToken hnot hw => exact absurd ⟨x, hbs⟩ (not_opens hw)

theorem Tokenises.token_inv {w rest : List UInt8} {t : TT} (hopen : ¬ Opens (w ++ rest)) (hw : Word w t)
    (hlong : Longest Words (w ++ rest) w) (h : Tokenises n (w ++ rest) ts e) :
    ∃ t' ts', Word w t' ∧ ts = ⟨t', String.ofList (text w)⟩ :: ts' ∧ Tokenises (n + w.length) rest ts' e := by
  generalize hbs : w ++ rest = bs at h
  cases h with
  | eof =>
    obtain rfl := (List.append_eq_nil_iff.mp hbs).1
    exact absurd ⟨t, hw⟩ not_words_nil
  | @blank n b bs ts e hb =>
    cases w with
    | nil => exact absurd ⟨t, hw⟩ not_words_nil
    | cons c w =>
      obtain ⟨rfl, -⟩ := List.cons.inj hbs
      exact absurd hb (Words.not_blank ⟨t, hw⟩)
  | @comment n u r =>
    rw [List.append_assoc, List.append_assoc] at hbs
    exact absurd ⟨_, hbs.symm⟩ hopen
  | @highByte n u r =>
    rw [List.append_assoc] at hbs
    exact absurd ⟨_, hbs.symm⟩ hopen
  | @unclosed n u hu => exact absurd ⟨_, hbs.symm⟩ hopen
  | @token n w' rest' t' ts' e hopen' hw' hlong' h =>
    rw [hbs] at hlong
    obtain rfl := hlong.unique hlong'
    rw [List.append_cancel_left_eq] at hbs
    subst hbs
    exact ⟨t', ts', hw', rfl, h⟩
  | noToken hnot hwords => exact absurd ⟨rest, hbs⟩ (hwords w ⟨t, hw⟩)

theorem Tokenises.noToken_inv (hb : ¬ Blank b) (hw : ∀ w, Words w → ¬ w <+: b :: bs)
    (h : Tokenises n (b :: bs) ts e) : ts = [] ∧ e = .lexError n := by
  generalize hbs : b :: bs = bs' at h
  cases h with
  | eof => cases hbs
  | blank hblank =>
    obtain ⟨rfl, -⟩ := List.cons.inj hbs
    exact absurd hblank hb
  | comment =>
    rw [List.append_assoc, List.append_assoc] at hbs
    exact absurd ⟨_, hbs.symm⟩ (not_opens hw)
  | highByte =>
    rw [List.append_assoc] at hbs
    exact absurd ⟨_, hbs.symm⟩ (not_opens hw)
  | unclosed => exact absurd ⟨_, hbs.symm⟩ (not_opens hw)
  | @token n w rest t ts e hopen hword => exact absurd ⟨rest, hbs.symm⟩ (hw w ⟨t, hword⟩)
  | noToken => exact ⟨rfl, rfl⟩

end Inversion

/-- The type of a word. -/
def wordType : List UInt8 → TT
  | [] => .none
  | b :: w =>
    if Letter b then classify (b :: w)
    else if Digit b then .IntLiteral
    else ((operators.find? fun o => bytes o.1 = b :: w).map Prod.snd).getD .none

theorem Word.type_eq {w : List UInt8} {t : TT} (h : Word w t) : t = wordType w := by
  cases h with
  | identifier hc => simp [wordType, hc]
  | zero => rfl
  | integer hc => simp [wordType, hc, hc.not_letter]
  | operator h =>
    have htable : ∀ o ∈ operators, o.2 = wordType (bytes o.1) := by decide
    exact htable _ h

/-- A word has one type. -/
theorem Word.unique {w : List UInt8} {t t' : TT} (h : Word w t) (h' : Word w t') : t = t' :=
  h.type_eq.trans h'.type_eq.symm

theorem Tokenises.unique {n : Nat} {bs : List UInt8} {ts ts' : List Token} {e e' : Ending}
    (h : Tokenises n bs ts e) (h' : Tokenises n bs ts' e') : ts = ts' ∧ e = e' := by
  induction h generalizing ts' e' with
  | eof =>
    obtain ⟨rfl, rfl⟩ := h'.nil_inv
    exact ⟨rfl, rfl⟩
  | blank hb _ ih => exact ih (h'.blank_inv hb)
  | @comment n u rest ts e hu h ih =>
    rw [List.append_assoc, List.append_assoc] at h'
    obtain ⟨v, y, hy, hv, hend, hcase⟩ := h'.open_inv
    obtain ⟨rfl, rfl⟩ := hu.unique hv (.inr (.inr ⟨rest, rfl⟩)) hend hy
    rcases hcase with ⟨r, hr, htok⟩ | ⟨-, -, hno⟩
    · obtain rfl := List.append_cancel_left hr
      exact ih htok
    · exact absurd rfl (hno rest)
  | @highByte n u rest b hu hb =>
    rw [List.append_assoc] at h'
    obtain ⟨v, y, hy, hv, hend, hcase⟩ := h'.open_inv
    obtain ⟨rfl, rfl⟩ := hu.unique hv (.inr (.inl ⟨b, rest, rfl, hb⟩)) hend hy
    rcases hcase with ⟨r, hr, -⟩ | ⟨rfl, rfl, -⟩
    · obtain ⟨rfl, -⟩ := List.cons.inj hr
      exact absurd hb (by decide)
    · exact ⟨rfl, rfl⟩
  | @unclosed n u hu =>
    obtain ⟨v, y, hy, hv, hend, hcase⟩ := h'.open_inv
    obtain ⟨rfl, rfl⟩ := hu.unique hv (.inl rfl) hend ((List.append_nil u).trans hy)
    rcases hcase with ⟨r, hr, -⟩ | ⟨rfl, rfl, -⟩
    · exact absurd hr (by simp [bytes])
    · exact ⟨rfl, rfl⟩
  | token hopen hw hlong _ ih =>
    obtain ⟨t', ts', hw', rfl, htok⟩ := h'.token_inv hopen hw hlong
    obtain ⟨rfl, rfl⟩ := ih htok
    exact ⟨by rw [hw.unique hw'], rfl⟩
  | noToken hb hw =>
    obtain ⟨rfl, rfl⟩ := h'.noToken_inv hb hw
    exact ⟨rfl, rfl⟩

end Mjc.Lexer

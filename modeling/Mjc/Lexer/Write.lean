import Mjc.Lexer.Correctness

/-!
# Written tokens

A text that is put together from tokens and gaps is read back as these tokens, if no token is continued by what stands
after it.

* `Piece`, `written`, `tokens` : a text in pieces, its characters and its tokens;
* `Spelled`, `Piece.Valid` : the text of a token is a word of its type, and a gap is skipped;
* `Tokenises.spelled` : the tokens of the lexer are spelled so;
* `Apart`, `Sep` : what stands after a token does not continue it;
* `Sep.tokenises` : the reference reads the tokens back.
-/

namespace Mjc.Lexer
open Mjc.Munch

set_option autoImplicit false

/-! ## Pieces -/

/-- A token, or something that the lexer skips. -/
inductive Piece where
  | tok (t : Token)
  | gap (g : List Char)
  deriving DecidableEq, Repr

def Piece.chars : Piece → List Char
  | .tok t => t.str.toList
  | .gap g => g

/-- The text of the pieces. -/
def written (ps : List Piece) : List Char := ps.flatMap Piece.chars

/-- The tokens of the pieces. -/
def tokens : List Piece → List Token
  | [] => []
  | .tok t :: ps => t :: tokens ps
  | .gap _ :: ps => tokens ps

@[simp] theorem written_nil : written [] = [] := rfl

@[simp] theorem written_cons (p : Piece) (ps : List Piece) : written (p :: ps) = p.chars ++ written ps := rfl

@[simp] theorem written_append (ps qs : List Piece) : written (ps ++ qs) = written ps ++ written qs :=
  List.flatMap_append

@[simp] theorem tokens_nil : tokens [] = [] := rfl

@[simp] theorem tokens_tok (t : Token) (ps : List Piece) : tokens (.tok t :: ps) = t :: tokens ps := rfl

@[simp] theorem tokens_gap (g : List Char) (ps : List Piece) : tokens (.gap g :: ps) = tokens ps := rfl

@[simp] theorem tokens_append (ps qs : List Piece) : tokens (ps ++ qs) = tokens ps ++ tokens qs := by
  induction ps with
  | nil => rfl
  | cons p ps ih => cases p <;> simp [ih]

/-- The text of the token is a word of its type. -/
structure Spelled (t : Token) : Prop where
  ascii : ∀ c ∈ t.str.toList, c.toNat < 128
  word : Word (bytes t.str.toList) t.type

def Piece.Valid : Piece → Prop
  | .tok t => Spelled t
  | .gap g => Gap (bytes g)

theorem bytes_append (cs ds : List Char) : bytes (cs ++ ds) = bytes cs ++ bytes ds := List.map_append

theorem Spelled.ne_nil {t : Token} (h : Spelled t) : t.str.toList ≠ [] := by
  intro hnil
  have hw := h.word
  rw [hnil] at hw
  exact hw.ne_nil rfl

/-! ## The tokens of the lexer -/

theorem Word.ascii {w : List UInt8} {t : TT} (h : Word w t) : ∀ b ∈ w, b.toNat < 128 := by
  cases h with
  | identifier hc hcs =>
    exact List.forall_mem_cons.mpr ⟨letter_or_digit_lt (.inl hc), fun b hb => letter_or_digit_lt (hcs b hb)⟩
  | zero => exact List.forall_mem_singleton.mpr (by decide)
  | integer hc _ hcs =>
    exact List.forall_mem_cons.mpr ⟨letter_or_digit_lt (.inr hc), fun b hb => letter_or_digit_lt (.inr (hcs b hb))⟩
  | operator h =>
    intro b hb
    obtain ⟨c, hc, rfl⟩ := List.mem_map.mp hb
    rw [UInt8.toNat_ofNat']
    exact lt_of_le_of_lt (Nat.mod_le _ _) (operators_ascii _ h c hc)

/-- A word is the text of its token. -/
theorem Word.spelled {w : List UInt8} {t : TT} (h : Word w t) : Spelled ⟨t, String.ofList (text w)⟩ := by
  have hbytes : bytes (text w) = w := by
    unfold bytes text
    rw [List.map_map]
    conv_rhs => rw [← List.map_id w]
    apply List.map_congr_left
    intro b _
    show UInt8.ofNat (Char.ofNat b.toNat).toNat = b
    rw [toNat_charOf, UInt8.ofNat_toNat]
  constructor
  · intro c hc
    rw [String.toList_ofList] at hc
    obtain ⟨b, hb, rfl⟩ := List.mem_map.mp hc
    rw [toNat_charOf]
    exact h.ascii b hb
  · rw [String.toList_ofList, hbytes]
    exact h

theorem Tokenises.spelled {n : Nat} {bs : List UInt8} {ts : List Token} {e : Ending} (h : Tokenises n bs ts e) :
    ∀ t ∈ ts, t = Token.eof ∨ Spelled t := by
  induction h with
  | eof => exact List.forall_mem_singleton.mpr (.inl rfl)
  | blank _ _ ih => exact ih
  | comment _ _ ih => exact ih
  | highByte | unclosed | noToken => exact List.forall_mem_nil _
  | token _ hw _ _ ih => exact List.forall_mem_cons.mpr ⟨.inr hw.spelled, ih⟩

/-! ## Tokens that stand apart -/

/-- What stands after the token does not continue it, and does not make it the start of a comment. -/
def Apart (t : Token) (next : List Char) : Prop :=
  ∀ c ∈ (bytes next).head?, ¬ Words (bytes t.str.toList ++ [c]) ∧ (t.str.toList = ['/'] → c ≠ 42)

/-- The characters after which no word goes on, and that continue no word. -/
def closers : List Char := [' ', '\n', '(', ')', '[', ']', '\x7b', '\x7d', '.', ',', ';']

/-- The text starts with a character that continues no word. -/
def Closed (next : List Char) : Prop := ∀ c ∈ (bytes next).head?, c ∈ bytes closers

theorem closers_not_word : ∀ c ∈ bytes closers, ¬ Letter c ∧ ¬ Digit c ∧ c ≠ 42 := by
  have h : ((bytes closers).all fun c => decide (¬ Letter c ∧ ¬ Digit c ∧ c ≠ 42)) = true := by decide
  exact fun c hc => of_decide_eq_true (List.all_eq_true.mp h c hc)

theorem opWords_getLast : ∀ v ∈ opWords, 2 ≤ v.length → ∀ c ∈ v.getLast?, c ∉ bytes closers := by
  have h : ∀ v ∈ opWords, 2 ≤ v.length → v.getLast?.all (fun c => decide (c ∉ bytes closers)) = true := by
    decide
  intro v hv hlen c hc
  have hall := h v hv hlen
  rw [hc] at hall
  exact of_decide_eq_true hall

theorem not_words_closer {w : List UInt8} {c : UInt8} (hw : w ≠ []) (hc : c ∈ bytes closers) :
    ¬ Words (w ++ [c]) := by
  intro hword
  obtain ⟨hcl, hcd, -⟩ := closers_not_word c hc
  cases w with
  | nil => exact hw rfl
  | cons b w =>
    rw [List.cons_append] at hword
    by_cases hl : Letter b
    · rcases (words_letter hl).mp hword c (by simp) with h | h
      · exact hcl h
      · exact hcd h
    · by_cases hd : Digit b
      · rcases (words_digit hd).mp hword with ⟨-, h⟩ | ⟨-, h⟩
        · simp at h
        · exact hcd (h c (by simp))
      · refine opWords_getLast _ ((words_other hl hd).mp hword) (by simp) c ?_ hc
        rw [← List.cons_append, List.getLast?_concat]
        exact rfl

theorem Closed.apart {t : Token} {next : List Char} (ht : Spelled t) (h : Closed next) : Apart t next := by
  intro c hc
  have hmem := h c hc
  refine ⟨not_words_closer ?_ hmem, fun _ => (closers_not_word c hmem).2.2⟩
  intro hnil
  exact ht.ne_nil (List.map_eq_nil_iff.mp hnil)

/-- An operator that the next character does not continue. -/
theorem apart_operator {t : Token} {cs next : List Char} (ht : t.str.toList = cs) (hop : bytes cs ∈ opWords)
    (hnext : ∀ c ∈ (bytes next).head?, c ∉ continuations (bytes cs) ∧ (cs = ['/'] → c ≠ 42)) : Apart t next := by
  intro c hc
  obtain ⟨hcont, hslash⟩ := hnext c hc
  rw [ht]
  refine ⟨fun hword => hcont (mem_continuations ?_), hslash⟩
  obtain ⟨b, bs, hbs, hl, hd, -⟩ := opWords_start _ hop
  rw [hbs, List.cons_append] at hword ⊢
  exact (words_other hl hd).mp hword

/-- The characters that make a token of their own wherever they stand. -/
def punctuation : List Char := ['(', ')', '[', ']', '\x7b', '\x7d', '.', ',', ';']

theorem apart_punctuation {t : Token} {c : Char} (ht : t.str.toList = [c]) (hc : c ∈ punctuation) (next : List Char) :
    Apart t next := by
  have hpunct : punctuation.all fun c =>
      decide (bytes [c] ∈ opWords ∧ continuations (bytes [c]) = [] ∧ [c] ≠ ['/']) := by decide
  obtain ⟨hop, hcont, hslash⟩ := of_decide_eq_true (List.all_eq_true.mp hpunct c hc)
  refine apart_operator ht hop fun d _ => ⟨?_, fun h => absurd h hslash⟩
  rw [hcont]
  exact List.not_mem_nil

/-- A prefix operator and an operand that does not start like one. -/
theorem apart_sign {t : Token} {c : Char} (ht : t.str.toList = [c]) (hc : c ∈ ['-', '!']) {next : List Char}
    (hnext : ∀ d ∈ (bytes next).head?, d ≠ 45 ∧ d ≠ 61) : Apart t next := by
  have hsign : ['-', '!'].all fun c => decide (bytes [c] ∈ opWords ∧
      ((continuations (bytes [c])).all fun b => decide (b = 45 ∨ b = 61)) = true ∧ [c] ≠ ['/']) := by decide
  obtain ⟨hop, hcont, hslash⟩ := of_decide_eq_true (List.all_eq_true.mp hsign c hc)
  refine apart_operator ht hop fun d hd => ⟨fun hmem => ?_, fun h => absurd h hslash⟩
  obtain ⟨hminus, heq⟩ := hnext d hd
  rcases of_decide_eq_true (List.all_eq_true.mp hcont d hmem) with h | h
  · exact hminus h
  · exact heq h

/-! ## Separated pieces -/

/-- Every token is apart from what stands after it, up to the text `next` after the last piece. -/
def Sep : List Piece → List Char → Prop
  | [], _ => True
  | .gap _ :: ps, next => Sep ps next
  | .tok t :: ps, next => Apart t (written ps ++ next) ∧ Sep ps next

@[simp] theorem sep_nil (next : List Char) : Sep [] next := trivial

@[simp] theorem sep_gap (g : List Char) (ps : List Piece) (next : List Char) : Sep (.gap g :: ps) next ↔ Sep ps next :=
  Iff.rfl

@[simp] theorem sep_tok (t : Token) (ps : List Piece) (next : List Char) :
    Sep (.tok t :: ps) next ↔ Apart t (written ps ++ next) ∧ Sep ps next :=
  Iff.rfl

@[simp] theorem sep_append (ps qs : List Piece) (next : List Char) :
    Sep (ps ++ qs) next ↔ Sep ps (written qs ++ next) ∧ Sep qs next := by
  induction ps with
  | nil => simp
  | cons p ps ih => cases p <;> simp [ih, and_assoc]

theorem Apart.not_opens {t : Token} {next : List Char} (ht : Spelled t) (h : Apart t next) :
    ¬ Opens (bytes t.str.toList ++ bytes next) := by
  have hslash : ∀ v ∈ opWords, ¬ [47, 42] <+: v := by decide
  rintro ⟨r, hr⟩
  have hw := ht.word
  cases hstr : t.str.toList with
  | nil => exact ht.ne_nil hstr
  | cons c cs =>
    rw [hstr] at hr hw
    obtain ⟨hc, hr⟩ : (47 : UInt8) = UInt8.ofNat c.toNat ∧ 42 :: r = bytes cs ++ bytes next := List.cons.inj hr
    cases cs with
    | nil =>
      refine (h 42 ?_).2 ?_ rfl
      · rw [show bytes next = 42 :: r from hr.symm]
        rfl
      · have htext : text (bytes [c]) = [c] := text_bytes fun d hd => ht.ascii d (by rw [hstr]; exact hd)
        rw [hstr, ← htext, show bytes [c] = [47] from congrArg (· :: []) hc.symm]
        rfl
    | cons d cs =>
      obtain ⟨hd, -⟩ : (42 : UInt8) = UInt8.ofNat d.toNat ∧ r = bytes cs ++ bytes next := List.cons.inj hr
      have hword : Words (UInt8.ofNat c.toNat :: UInt8.ofNat d.toNat :: bytes cs) := ⟨_, hw⟩
      rw [← hc, ← hd] at hword
      exact hslash _ ((words_other (by decide) (by decide)).mp hword) ⟨bytes cs, rfl⟩

/-- The reference reads the tokens of the pieces back. -/
theorem Sep.tokenises {ps : List Piece} {next : List Char} {ts : List Token} {e : Ending} {n : Nat}
    (hv : ∀ p ∈ ps, p.Valid) (hs : Sep ps next)
    (h : Tokenises (n + (written ps).length) (bytes next) ts e) :
    Tokenises n (bytes (written ps ++ next)) (tokens ps ++ ts) e := by
  induction ps generalizing n with
  | nil => exact h
  | cons p ps ih =>
    have hvalid := hv p List.mem_cons_self
    have hrest := fun q hq => hv q (List.mem_cons_of_mem _ hq)
    rw [written_cons, List.length_append, ← Nat.add_assoc] at h
    rw [written_cons, List.append_assoc, bytes_append]
    have hlen (cs : List Char) : (bytes cs).length = cs.length := List.length_map _
    cases p with
    | gap g =>
      refine Gap.tokenises hvalid (ih hrest hs ?_)
      rw [hlen]
      exact h
    | tok t =>
      obtain ⟨hapart, hs⟩ := hs
      have htext : t = ⟨t.type, String.ofList (text (bytes t.str.toList))⟩ := by
        rw [text_bytes hvalid.ascii, String.ofList_toList]
      rw [tokens_tok, List.cons_append]
      nth_rewrite 2 [htext]
      refine Tokenises.token (hapart.not_opens hvalid) hvalid.word ?_ (ih hrest hs ?_)
      · refine longest_of_stuck partsAreWords ⟨_, hvalid.word⟩ fun b r hb => ?_
        refine (hapart b ?_).1
        rw [hb]
        rfl
      · rw [hlen]
        exact h

/-! ## Legible pieces -/

/-- The pieces are read back as their tokens, if the text `next` follows. -/
structure Legible (ps : List Piece) (next : List Char) : Prop where
  valid : ∀ p ∈ ps, p.Valid
  sep : Sep ps next

section Rules

variable {t : Token} {ps qs : List Piece} {next : List Char}

theorem Legible.nil : Legible [] next := ⟨List.forall_mem_nil _, trivial⟩

theorem Legible.append (hp : Legible ps (written qs ++ next)) (hq : Legible qs next) : Legible (ps ++ qs) next :=
  ⟨List.forall_mem_append.mpr ⟨hp.valid, hq.valid⟩, (sep_append ps qs next).mpr ⟨hp.sep, hq.sep⟩⟩

theorem Legible.gap {g : List Char} (hg : Gap (bytes g)) (h : Legible ps next) : Legible (.gap g :: ps) next :=
  ⟨List.forall_mem_cons.mpr ⟨hg, h.valid⟩, h.sep⟩

theorem Legible.tok (ht : Spelled t) (ha : Apart t (written ps ++ next)) (h : Legible ps next) :
    Legible (.tok t :: ps) next :=
  ⟨List.forall_mem_cons.mpr ⟨ht, h.valid⟩, ha, h.sep⟩

theorem Legible.closed (ht : Spelled t) (hc : Closed (written ps ++ next)) (h : Legible ps next) :
    Legible (.tok t :: ps) next :=
  .tok ht (hc.apart ht) h

/-- The tokens whose text is a fixed word. -/
def isFixed (t : Token) : Bool :=
  (t.str.toList.all fun c => c.toNat < 128) &&
    (decide ((t.str.toList, t.type) ∈ operators) ||
      match bytes t.str.toList with
      | [] => false
      | c :: cs => decide (Letter c) && (cs.all fun d => decide (Letter d ∨ Digit d)) && classify (c :: cs) = t.type)

theorem spelled_of_isFixed (h : isFixed t = true) : Spelled t := by
  unfold isFixed at h
  rw [Bool.and_eq_true, List.all_eq_true, Bool.or_eq_true] at h
  obtain ⟨hascii, hword⟩ := h
  refine ⟨fun c hc => of_decide_eq_true (hascii c hc), ?_⟩
  rcases hword with hop | hid
  · exact .operator (of_decide_eq_true hop)
  · split at hid
    next => cases hid
    next c cs hbytes =>
      rw [Bool.and_eq_true, Bool.and_eq_true, List.all_eq_true] at hid
      obtain ⟨⟨hc, hcs⟩, htype⟩ := hid
      rw [hbytes, ← of_decide_eq_true htype]
      exact .identifier (of_decide_eq_true hc) fun d hd => of_decide_eq_true (hcs d hd)

/-- The tokens that nothing continues. -/
def isPunctuation (str : String) : Bool :=
  match str.toList with
  | [c] => decide (c ∈ punctuation)
  | _ => false

theorem Legible.punct {type : TT} {str : String} (ht : Spelled ⟨type, str⟩) (hp : isPunctuation str = true)
    (h : Legible ps next) : Legible (.tok ⟨type, str⟩ :: ps) next := by
  refine .tok ht ?_ h
  unfold isPunctuation at hp
  split at hp
  next c hc => exact apart_punctuation hc (of_decide_eq_true hp) _
  next => cases hp

/-- The text starts with a character that continues no word. -/
def startsClosed (p : Piece) : Bool :=
  match p.chars with
  | [] => false
  | c :: _ => decide (c ∈ closers)

theorem closed_cons {p : Piece} (h : startsClosed p = true) : Closed (written (p :: ps) ++ next) := by
  unfold startsClosed at h
  split at h
  next => cases h
  next c cs hc =>
    intro b hb
    rw [written_cons, hc] at hb
    obtain rfl : UInt8.ofNat c.toNat = b := Option.some.inj hb
    exact List.mem_map_of_mem (of_decide_eq_true h)

theorem Legible.tokenises (h : Legible ps []) : Tokenises 0 (bytes (written ps)) (tokens ps ++ [Token.eof]) .eof := by
  have hread : Tokenises 0 (bytes (written ps ++ [])) (tokens ps ++ [Token.eof]) .eof :=
    h.sep.tokenises h.valid .eof
  rwa [List.append_nil] at hread

end Rules

end Mjc.Lexer

import Mjc.Lexer.Reader
import Mjc.Lexer.Reference

/-!
# The lexer computes the reference tokenisation

Every function of the lexer runs through the states `here pre rest`: what it has read and what is left. One lemma
for each loop and each reader says where it stops.

* `skipComment_here`, `skip_here` : blanks and comments;
* `readToken_here` : one token, the longest word;
* `readNextToken_here` : one call;
* `readAll_tokenises`, `Tokenises.unique`, `lexer_reference` : a whole run gives what the reference gives, and nothing else.
-/

namespace Mjc.Lexer
open Mjc.Munch

set_option autoImplicit false

variable {ls : LineState} {pre rest : List UInt8} {b : UInt8} {str : List Char} {pos : TokenPos}
  {ahead : List (Token × TokenPos)}

/-! ## Characters and bytes -/

@[simp] theorem appendAndNext_here : appendAndNext (here ls pre (b :: rest) str pos ahead)
    = .ok () (here ls (pre ++ [b]) rest (str ++ [toChar (signed b)]) pos ahead) := by
  simp [appendAndNext, cur]

theorem toChar_signed (b : UInt8) : toChar (signed b) = Char.ofNat b.toNat := by
  have hb : b.toNat < 256 := b.toNat_lt
  unfold toChar signed
  congr 1
  split <;> omega

theorem signed_eq_ch {c : Char} (hc : c.toNat < 128) : signed b = ch c ↔ b = UInt8.ofNat c.toNat := by
  have hb : b.toNat < 256 := b.toNat_lt
  rw [← UInt8.toNat_inj]
  unfold signed ch
  simp
  split <;> omega

theorem isSpace_signed : isSpace (signed b) = decide (Blank b) := by
  rw [Bool.eq_iff_iff]
  simp only [isSpace, Bool.or_eq_true, decide_eq_true_eq, signed_eq_ch (by decide : ' '.toNat < 128),
    signed_eq_ch (by decide : '\r'.toNat < 128), signed_eq_ch (by decide : '\n'.toNat < 128),
    signed_eq_ch (by decide : '\t'.toNat < 128), Blank, bytes, List.map_cons, List.map_nil, List.mem_cons,
    List.not_mem_nil]
  tauto

theorem isDigit_signed : isDigit (signed b) = decide (Digit b) := by
  have hb : b.toNat < 256 := b.toNat_lt
  have h0 : ch '0' = 48 := rfl
  have h9 : ch '9' = 57 := rfl
  rw [Bool.eq_iff_iff]
  simp [isDigit, Digit, signed, h0, h9, UInt8.le_iff_toNat_le]
  split <;> omega

theorem isAlphaOrUnderscore_signed : isAlphaOrUnderscore (signed b) = decide (Letter b) := by
  have hb : b.toNat < 256 := b.toNat_lt
  have ha : ch 'a' = 97 := rfl
  have hz : ch 'z' = 122 := rfl
  have hA : ch 'A' = 65 := rfl
  have hZ : ch 'Z' = 90 := rfl
  have hu : ch '_' = 95 := rfl
  rw [Bool.eq_iff_iff]
  simp [isAlphaOrUnderscore, Letter, signed, ha, hz, hA, hZ, hu, UInt8.le_iff_toNat_le, ← UInt8.toNat_inj]
  split <;> omega

theorem isAlphaNumOrUnderscore_signed :
    isAlphaNumOrUnderscore (signed b) = decide (Letter b ∨ Digit b) := by
  have hor : ∀ c, isAlphaNumOrUnderscore c = (isAlphaOrUnderscore c || isDigit c) := by
    intro c
    unfold isAlphaNumOrUnderscore isAlphaOrUnderscore isDigit
    grind
  rw [hor, isAlphaOrUnderscore_signed, isDigit_signed, Bool.decide_or]

theorem highBit_signed : highBit (signed b) = decide (128 ≤ b) := by
  have hb : b.toNat < 256 := b.toNat_lt
  have h128 : (128 : UInt8).toNat = 128 := rfl
  unfold highBit signed
  rw [decide_eq_decide, UInt8.le_iff_toNat_le, h128]
  split <;> omega

/-! ## Blanks and comments -/

/-- The loops start with a bound above what is left. -/
theorem lt_bound (pre rest : List UInt8) : rest.length < (pre ++ rest).length + 1 := by
  rw [List.length_append]
  omega

theorem lt_bound_cons (pre : List UInt8) (b : UInt8) (rest : List UInt8) :
    rest.length < (pre ++ b :: rest).length + 1 := by
  rw [List.length_append, List.length_cons]
  omega

@[simp] theorem cur_cons : cur (b :: rest) = signed b := rfl

@[simp] theorem cur_nil : cur [] = EOF := rfl

/-- No ASCII character is the sentinel. -/
theorem cur_eq_ch {c : Char} (hc : c.toNat < 128) : cur rest = ch c ↔ rest.head? = some (UInt8.ofNat c.toNat) := by
  cases rest with
  | nil =>
    have hne : ¬ EOF = ch c := by
      unfold EOF ch
      omega
    simp [hne]
  | cons b rest => simp [signed_eq_ch hc]

theorem skipSpaces_here {n : Nat} (hn : rest.length < n) : ∃ g r, rest = g ++ r ∧ (∀ c ∈ g, Blank c) ∧
    skipSpaces n (here ls pre (b :: rest) str pos ahead) = .ok () (here ls (pre ++ b :: g) r str pos ahead) := by
  induction rest generalizing pre b n with
  | nil =>
    obtain ⟨n, rfl⟩ := Nat.exists_eq_add_of_lt hn
    exact ⟨[], [], rfl, by simp, by simp [skipSpaces, isSpace, EOF, ch]⟩
  | cons c rest ih =>
    obtain ⟨n, rfl⟩ : ∃ m, n = m + 1 := ⟨n - 1, by omega⟩
    by_cases hc : Blank c
    · obtain ⟨g, r, rfl, hg, hrun⟩ := @ih (pre ++ [b]) c n (by simpa using hn)
      refine ⟨c :: g, r, rfl, ?_, ?_⟩
      · simpa [hc] using hg
      · simp [skipSpaces, isSpace_signed, hc, hrun]
    · exact ⟨[], c :: rest, rfl, by simp, by simp [skipSpaces, isSpace_signed, hc]⟩

theorem error_run {α : Type} (msg : String) (s : State) : ∃ e, (error msg : L α) s = .error (.lexError e) s :=
  ⟨_, rfl⟩

theorem invalidCharError_run {α : Type} (c : Int) (s : State) :
    ∃ e, (invalidCharError c : L α) s = .error (.lexError e) s := by
  unfold invalidCharError
  split
  · exact error_run _ s
  · exact error_run _ s

/-- The comment loop stops after the first closing pair, at a byte that is not ASCII, or at the end. -/
theorem skipComment_here {n : Nat} (hn : rest.length < n) :
    (∃ u r, CommentBody u ∧ rest = u ++ bytes ['*', '/'] ++ r ∧
      skipComment n (here ls pre rest str pos ahead)
        = .ok () (here ls (pre ++ (u ++ bytes ['*', '/'])) r str pos ahead)) ∨
    (∃ u r e, CommentBody u ∧ rest = u ++ r ∧ (r = [] ∨ ∃ c r', r = c :: r' ∧ 128 ≤ c) ∧
      skipComment n (here ls pre rest str pos ahead)
        = .error (.lexError e) (here ls (pre ++ u) r str pos ahead)) := by
  induction n generalizing pre rest with
  | zero => omega
  | succ n ih =>
    cases rest with
    | nil =>
      obtain ⟨e, he⟩ := @error_run Unit "unexpected end of file in multi line comment" (here ls pre [] str pos ahead)
      refine .inr ⟨[], [], e, .nil, rfl, .inl rfl, ?_⟩
      simp [skipComment, he]
    | cons b rest =>
      by_cases hb : 128 ≤ b
      · obtain ⟨e, he⟩ := @invalidCharError_run Unit (signed b) (here ls pre (b :: rest) str pos ahead)
        refine .inr ⟨[], b :: rest, e, .nil, rfl, .inr ⟨b, rest, rfl, hb⟩, ?_⟩
        simp [skipComment, highBit_signed, hb, he]
      · have hascii : b < 128 := by simpa using hb
        have hstar : signed b = ch '*' ↔ b = 42 := signed_eq_ch (by decide)
        by_cases hclose : b = 42 ∧ rest.head? = some 47
        · -- the closing pair
          obtain ⟨rfl, hslash⟩ := hclose
          obtain ⟨r, rfl⟩ : ∃ r, rest = 47 :: r := by
            cases rest with
            | nil => simp at hslash
            | cons c r => exact ⟨r, by simpa using hslash⟩
          refine .inl ⟨[], r, .nil, rfl, ?_⟩
          have hc : signed 47 = ch '/' := rfl
          simp [skipComment, highBit_signed, hstar, hc, bytes]
        · -- one character of the comment
          have hstep : skipComment (n + 1) (here ls pre (b :: rest) str pos ahead)
              = skipComment n (here ls (pre ++ [b]) rest str pos ahead) := by
            by_cases hb42 : b = 42
            · have hnot : ¬ cur rest = ch '/' := fun hs => hclose ⟨hb42, (cur_eq_ch (by decide)).mp hs⟩
              simp [skipComment, highBit_signed, hb42, hnot]
            · simp [skipComment, highBit_signed, hb, hstar, hb42]
          have hfirst : ∀ u r, rest = u ++ r → b = 42 → u.head? ≠ some 47 := by
            intro u r hr hb42 hu
            apply hclose ⟨hb42, ?_⟩
            cases u with
            | nil => simp at hu
            | cons c u => simpa [hr] using hu
          rcases @ih (pre ++ [b]) rest (by simpa using hn) with ⟨u, r, hu, rfl, hrun⟩ | ⟨u, r, e, hu, rfl, hr, hrun⟩
          · refine .inl ⟨b :: u, r, hu.cons hascii (hfirst u _ (List.append_assoc _ _ _)), by simp, ?_⟩
            rw [hstep, hrun]
            simp
          · refine .inr ⟨b :: u, r, e, hu.cons hascii (hfirst u _ rfl), by simp, hr, ?_⟩
            rw [hstep, hrun]
            simp

/-- What the skipping loop finds: the first character of a token or the end, a `/` that opens no comment, or an
error in a comment. -/
inductive Skipped (ls : LineState) (pre rest : List UInt8) (ahead : List (Token × TokenPos)) :
    EStateM.Result Stop State Bool → Prop where
  | token {g r : List UInt8} {str : List Char} {pos : TokenPos} (hg : Gap g) (hr : rest = g ++ r)
      (hstart : ∀ c ∈ r.head?, ¬ Blank c ∧ c ≠ 47) :
      Skipped ls pre rest ahead (.ok false (here ls (pre ++ g) r str pos ahead))
  | slash {g r : List UInt8} (hg : Gap g) (hr : rest = g ++ 47 :: r) (hstart : r.head? ≠ some 42) :
      Skipped ls pre rest ahead
        (.ok true (here ls (pre ++ g ++ [47]) r [] (posAt ls (pre ++ rest) (pre ++ g).length) ahead))
  | error {g r : List UInt8} {e : LexError} {str : List Char} {pos : TokenPos} (hr : rest = g ++ r)
      (href : ∀ m, Tokenises m rest [] (.lexError (m + g.length))) :
      Skipped ls pre rest ahead (.error (.lexError e) (here ls (pre ++ g) r str pos ahead))

theorem Skipped.gap {g : List UInt8} {res : EStateM.Result Stop State Bool} (hg : Gap g)
    (h : Skipped ls (pre ++ g) rest ahead res) : Skipped ls pre (g ++ rest) ahead res := by
  cases h with
  | @token g' r str pos hg' hr hstart =>
    rw [List.append_assoc]
    exact .token (hg.append hg') (by rw [hr, List.append_assoc]) hstart
  | @slash g' r hg' hr hstart =>
    rw [List.append_assoc pre g rest, List.append_assoc pre g g']
    exact .slash (hg.append hg') (by rw [hr, List.append_assoc]) hstart
  | @error g' r e str pos hr href =>
    rw [List.append_assoc]
    refine .error (by rw [hr, List.append_assoc]) ?_
    intro m
    rw [List.length_append, ← Nat.add_assoc]
    exact hg.tokenises (href _)

/-- The loop at the start of a comment. -/
theorem skip_open {n : Nat} : skipCommentsAndWhitespaces (n + 1) (here ls pre (47 :: 42 :: rest) str pos ahead)
    = thenRun (skipComment ((pre ++ bytes ['/', '*'] ++ rest).length + 1)
        (here ls (pre ++ bytes ['/', '*']) rest [] (posAt ls (pre ++ 47 :: 42 :: rest) pre.length) ahead))
      fun _ => skipCommentsAndWhitespaces n := by
  have hpre : pre ++ bytes ['/', '*'] = pre ++ [47] ++ [42] := by simp [bytes]
  have hslash : signed 47 = ch '/' := rfl
  have hstar : signed 42 = ch '*' := rfl
  rw [hpre]
  simp [skipCommentsAndWhitespaces, hslash, hstar, -List.length_append, -List.append_assoc]

theorem skip_here {n : Nat} (hn : rest.length < n) :
    Skipped ls pre rest ahead (skipCommentsAndWhitespaces n (here ls pre rest str pos ahead)) := by
  induction n generalizing pre rest str pos with
  | zero => omega
  | succ n ih =>
    cases rest with
    | nil =>
      have hstep : skipCommentsAndWhitespaces (n + 1) (here ls pre [] str pos ahead)
          = .ok false (here ls (pre ++ []) [] str pos ahead) := by
        simp [skipCommentsAndWhitespaces, EOF, ch, isSpace]
      rw [hstep]
      exact .token .nil rfl (by simp)
    | cons b rest =>
      have hslash : signed b = ch '/' ↔ b = 47 := signed_eq_ch (by decide)
      have hstar : cur rest = ch '*' ↔ rest.head? = some 42 := cur_eq_ch (by decide)
      by_cases hb : b = 47
      · have hb' : signed b = ch '/' := hslash.mpr hb
        by_cases hopen : rest.head? = some 42
        · -- a comment
          obtain ⟨r, rfl⟩ : ∃ r, rest = 42 :: r := by
            cases rest with
            | nil => simp at hopen
            | cons c r => exact ⟨r, by simpa using hopen⟩
          subst hb
          have hskip := @skipComment_here ls (pre ++ bytes ['/', '*']) r []
            (posAt ls (pre ++ 47 :: 42 :: r) pre.length) ahead ((pre ++ bytes ['/', '*'] ++ r).length + 1)
            (lt_bound _ r)
          rw [skip_open]
          rcases hskip with ⟨u, r', hu, rfl, hrun⟩ | ⟨u, r', e, hu, rfl, hr', hrun⟩
          · rw [hrun]
            have hgap : 47 :: 42 :: (u ++ bytes ['*', '/'] ++ r') = bytes ['/', '*'] ++ u ++ bytes ['*', '/'] ++ [] ++ r' := by
              simp [bytes]
            rw [hgap]
            apply Skipped.gap (.comment hu .nil)
            have hpre : pre ++ bytes ['/', '*'] ++ (u ++ bytes ['*', '/'])
                = pre ++ (bytes ['/', '*'] ++ u ++ bytes ['*', '/'] ++ []) := by simp
            rw [hpre]
            apply ih
            simp at hn
            omega
          · rw [hrun, List.append_assoc]
            refine .error (by simp [bytes]) ?_
            intro m
            have hlen : m + (bytes ['/', '*'] ++ u).length = m + u.length + 2 := by
              simp [bytes]
              omega
            rw [hlen]
            rcases hr' with rfl | ⟨c, r, rfl, hc⟩
            · rw [List.append_nil]
              exact .unclosed hu
            · exact .highByte hu hc
        · have hstep : skipCommentsAndWhitespaces (n + 1) (here ls pre (b :: rest) str pos ahead)
              = .ok true (here ls (pre ++ [] ++ [47]) rest []
                  (posAt ls (pre ++ b :: rest) (pre ++ []).length) ahead) := by
            simp [skipCommentsAndWhitespaces, hb', hstar, hopen]
            rw [hb]
          rw [hstep]
          exact .slash .nil (by simp [hb]) hopen
      · by_cases hblank : Blank b
        · -- blanks
          obtain ⟨g, r, rfl, hg, hrun⟩ := @skipSpaces_here ls pre rest b str pos ahead
            ((pre ++ b :: rest).length + 1) (lt_bound_cons pre b rest)
          have hstep : skipCommentsAndWhitespaces (n + 1) (here ls pre (b :: (g ++ r)) str pos ahead)
              = skipCommentsAndWhitespaces n (here ls (pre ++ b :: g) r str pos ahead) := by
            simp [skipCommentsAndWhitespaces, hslash, hb, isSpace_signed, hblank, hrun, -List.length_append]
          rw [hstep]
          exact Skipped.gap (g := b :: g) (.blank hblank (Gap.of_blanks hg)) (ih (by simp at hn; omega))
        · have hstep : skipCommentsAndWhitespaces (n + 1) (here ls pre (b :: rest) str pos ahead)
              = .ok false (here ls (pre ++ []) (b :: rest) str pos ahead) := by
            simp [skipCommentsAndWhitespaces, hslash, hb, isSpace_signed, hblank]
          rw [hstep]
          exact .token .nil rfl (by simpa using ⟨hblank, hb⟩)

/-! ## Tokens -/

theorem text_bytes {cs : List Char} (h : ∀ c ∈ cs, c.toNat < 128) : text (bytes cs) = cs := by
  unfold text bytes
  rw [List.map_map]
  conv_rhs => rw [← List.map_id cs]
  apply List.map_congr_left
  intro c hc
  have hlt : c.toNat < 256 := lt_trans (h c hc) (by decide)
  simp [Nat.mod_eq_of_lt hlt]

theorem letter_or_digit_lt {b : UInt8} (h : Letter b ∨ Digit b) : b.toNat < 128 := by
  unfold Letter Digit at h
  simp only [UInt8.le_iff_toNat_le, ← UInt8.toNat_inj] at h
  change ((97 ≤ b.toNat ∧ b.toNat ≤ 122) ∨ (65 ≤ b.toNat ∧ b.toNat ≤ 90) ∨ b.toNat = 95) ∨
    (48 ≤ b.toNat ∧ b.toNat ≤ 57) at h
  omega

theorem toNat_charOf (b : UInt8) : (Char.ofNat b.toNat).toNat = b.toNat := by
  have hlt := b.toNat_lt
  have hvalid : b.toNat.isValidChar := Or.inl (by omega)
  unfold Char.ofNat
  rw [dif_pos hvalid]
  rfl

theorem operators_ascii : ∀ o ∈ operators, ∀ c ∈ o.1, c.toNat < 128 := by
  have htable : (operators.all fun o => o.1.all fun c => decide (c.toNat < 128)) = true := by decide
  intro o ho c hc
  exact of_decide_eq_true (List.all_eq_true.mp (List.all_eq_true.mp htable o ho) c hc)

/-- What reading a token from its first character on gives: the longest word, the end of the input, or an error at
a byte that starts no word. -/
inductive Read (ls : LineState) (pre rest : List UInt8) (ahead : List (Token × TokenPos)) :
    EStateM.Result Stop State (Token × TokenPos) → Prop where
  | token {w r : List UInt8} {t : TT} (hr : rest = w ++ r) (hw : Word w t) (hlong : Longest Words rest w) :
      Read ls pre rest ahead
        (.ok (⟨t, String.ofList (text w)⟩, posAt ls (pre ++ rest) pre.length)
          (here ls (pre ++ w) r (text w) (posAt ls (pre ++ rest) pre.length) ahead))
  | eof (hr : rest = []) :
      Read ls pre rest ahead
        (.ok (Token.eof, posAt ls (pre ++ rest) pre.length)
          (here ls pre [] ['E', 'O', 'F'] (posAt ls (pre ++ rest) pre.length) ahead))
  | error {e : LexError} {str : List Char} {pos : TokenPos} (hne : rest ≠ [])
      (hbad : ∀ w, Words w → ¬ w <+: rest) :
      Read ls pre rest ahead (.error (.lexError e) (here ls pre rest str pos ahead))

section Operators

variable {r : List UInt8} {cs : List Char} {t : TT}

/-- An operator that is not continued. -/
theorem Read.operator (h : (cs, t) ∈ operators) (hrest : rest = bytes cs ++ r)
    (hstuck : ∀ b ∈ r.head?, b ∉ continuations (bytes cs)) :
    Read ls pre rest ahead
      (makeToken t (here ls (pre ++ bytes cs) r cs (posAt ls (pre ++ rest) pre.length) ahead)) := by
  have htext : text (bytes cs) = cs := text_bytes (operators_ascii _ h)
  have hlong : Longest Words rest (bytes cs) := by
    rw [hrest]
    exact longest_operator (List.mem_map_of_mem h) hstuck
  have hread := @Read.token ls pre rest ahead (bytes cs) r t hrest (.operator h) hlong
  rwa [htext] at hread

/-- One more character of an operator. -/
theorem appendAndNext_char {c : Char} (hc : c.toNat < 128) :
    appendAndNext (here ls (pre ++ bytes cs) (UInt8.ofNat c.toNat :: r) cs pos ahead)
      = .ok () (here ls (pre ++ bytes (cs ++ [c])) r (cs ++ [c]) pos ahead) := by
  have htext : text (bytes [c]) = [c] := text_bytes (by simpa using hc)
  have hchar : Char.ofNat (UInt8.ofNat c.toNat).toNat = c := (List.cons.inj htext).1
  rw [appendAndNext_here, toChar_signed, hchar]
  simp [bytes]

/-- The next character of the input is a given one, or an operator that only it continues is at its end. -/
theorem next_cases {c : Char} (hc : c.toNat < 128) (r : List UInt8) :
    (∃ r', r = UInt8.ofNat c.toNat :: r' ∧ cur r = ch c) ∨
    (¬ cur r = ch c ∧ ∀ b ∈ r.head?, b ≠ UInt8.ofNat c.toNat) := by
  have hcur : cur r = ch c ↔ r.head? = some (UInt8.ofNat c.toNat) := cur_eq_ch hc
  by_cases hr : r.head? = some (UInt8.ofNat c.toNat)
  · obtain ⟨r', hr'⟩ := List.head?_eq_some_iff.mp hr
    exact .inl ⟨r', hr', hcur.mpr hr⟩
  · refine .inr ⟨fun h => hr (hcur.mp h), ?_⟩
    rintro b hb rfl
    exact hr hb

/-- Neither of the two characters that continue it follows. -/
theorem not_continued {c d : Char} {w : List UInt8} (hcont : continuations w ⊆ bytes [c, d])
    (hc : ∀ b ∈ r.head?, b ≠ UInt8.ofNat c.toNat) (hd : ∀ b ∈ r.head?, b ≠ UInt8.ofNat d.toNat) :
    ∀ b ∈ r.head?, b ∉ continuations w := by
  intro b hb hmem
  have hbytes := hcont hmem
  simp [bytes, hc b hb, hd b hb] at hbytes

/-- The rest of an operator that may end with `=`. -/
theorem readWithEq_here {withEq : TT} (h : (cs, t) ∈ operators) (heq : (cs ++ ['='], withEq) ∈ operators)
    (hcont : continuations (bytes cs) = bytes ['=']) (hlast : continuations (bytes (cs ++ ['='])) = [])
    (hrest : rest = bytes cs ++ r) :
    Read ls pre rest ahead
      (readWithEq t withEq (here ls (pre ++ bytes cs) r cs (posAt ls (pre ++ rest) pre.length) ahead)) := by
  unfold readWithEq
  rcases next_cases (by decide : '='.toNat < 128) r with ⟨r', rfl, hcur⟩ | ⟨hcur, hne⟩
  · simp only [bind_run, lastChar_here, thenRun_ok, hcur, if_true, appendAndNext_char (by decide : '='.toNat < 128)]
    exact Read.operator heq (by simp [hrest, bytes]) (by simp [hlast])
  · simp only [bind_run, lastChar_here, thenRun_ok, ite_run, hcur, if_false]
    apply Read.operator h hrest
    rw [hcont]
    simpa [bytes] using hne

/-- The operator readers put their first character into the token and read on. -/
theorem first_run {f : Char} (k : Int → L (Token × TokenPos)) :
    (do setTokenString [f]; let next ← nextChar; k next : L (Token × TokenPos))
        (here ls pre (UInt8.ofNat f.toNat :: r) str pos ahead)
      = k (cur r) (here ls (pre ++ bytes [f]) r [f] pos ahead) := by
  simp [bytes]

theorem readOptEq_here {f : Char} {plain withEq : TT}
    (h : ([f], plain) ∈ operators) (heq : ([f, '='], withEq) ∈ operators)
    (hcont : continuations (bytes [f]) = bytes ['=']) (hlast : continuations (bytes [f, '=']) = [])
    (hrest : rest = UInt8.ofNat f.toNat :: r) :
    Read ls pre rest ahead
      (readOptEq f plain withEq (here ls pre rest str (posAt ls (pre ++ rest) pre.length) ahead)) := by
  unfold readOptEq
  conv in here _ _ _ _ _ _ => rw [hrest]
  rw [first_run, ← hrest]
  exact readWithEq_here h heq hcont hlast (by simp [hrest, bytes])

theorem readEither_here {f c d : Char} {cType dType plain : TT} (hc : c.toNat < 128)
    (hd : d.toNat < 128) (h : ([f], plain) ∈ operators) (hcop : ([f, c], cType) ∈ operators)
    (hdop : ([f, d], dType) ∈ operators) (hcont : continuations (bytes [f]) ⊆ bytes [c, d])
    (hlast : continuations (bytes [f, c]) = []) (hlast' : continuations (bytes [f, d]) = [])
    (hrest : rest = UInt8.ofNat f.toNat :: r) :
    Read ls pre rest ahead
      (readEither f c cType d dType plain (here ls pre rest str (posAt ls (pre ++ rest) pre.length) ahead)) := by
  unfold readEither
  conv in here _ _ _ _ _ _ => rw [hrest]
  rw [first_run, ← hrest]
  rcases next_cases hc r with ⟨r', rfl, hcur⟩ | ⟨hcur, hne⟩
  · simp only [hcur, if_true, bind_run, appendAndNext_char hc, thenRun_ok]
    exact Read.operator hcop (by simp [hrest, bytes]) (by simp [hlast])
  · rcases next_cases hd r with ⟨r', rfl, hcur'⟩ | ⟨hcur', hne'⟩
    · rw [hcur'] at hcur
      simp only [ite_run, hcur', hcur, if_true, if_false, bind_run, appendAndNext_char hd, thenRun_ok]
      exact Read.operator hdop (by simp [hrest, bytes]) (by simp [hlast'])
    · simp only [ite_run, hcur, hcur', if_false]
      exact Read.operator h (by simp [hrest, bytes]) (not_continued hcont hne hne')

theorem readLT_here (hrest : rest = 60 :: r) :
    Read ls pre rest ahead (readLT (here ls pre rest str (posAt ls (pre ++ rest) pre.length) ahead)) := by
  have hfirst : (60 : UInt8) = UInt8.ofNat '<'.toNat := rfl
  unfold readLT
  conv in here _ _ _ _ _ _ => rw [hrest, hfirst]
  rw [first_run, ← hfirst, ← hrest]
  rcases next_cases (by decide : '='.toNat < 128) r with ⟨r', rfl, hcur⟩ | ⟨hcur, hne⟩
  · simp only [hcur, if_true, bind_run, appendAndNext_char (by decide : '='.toNat < 128), thenRun_ok]
    exact Read.operator (by decide) (by simp [hrest, bytes])
      (by simp [show continuations (bytes ['<', '=']) = [] by decide])
  · rcases next_cases (by decide : '<'.toNat < 128) r with ⟨r', rfl, hcur'⟩ | ⟨hcur', hne'⟩
    · rw [hcur'] at hcur
      simp only [ite_run, hcur', hcur, if_true, if_false, bind_run, appendAndNext_char (by decide : '<'.toNat < 128),
        thenRun_ok]
      exact readWithEq_here (by decide) (by decide) (by decide) (by decide) (by simp [hrest, bytes])
    · simp only [ite_run, hcur, hcur', if_false]
      exact Read.operator (by decide) (by simp [hrest, bytes]) (not_continued (by decide) hne hne')

theorem readGT_here (hrest : rest = 62 :: r) :
    Read ls pre rest ahead (readGT (here ls pre rest str (posAt ls (pre ++ rest) pre.length) ahead)) := by
  have hfirst : (62 : UInt8) = UInt8.ofNat '>'.toNat := rfl
  unfold readGT
  conv in here _ _ _ _ _ _ => rw [hrest, hfirst]
  rw [first_run, ← hfirst, ← hrest]
  rcases next_cases (by decide : '='.toNat < 128) r with ⟨r', rfl, hcur⟩ | ⟨hcur, hne⟩
  · simp only [hcur, if_true, bind_run, appendAndNext_char (by decide : '='.toNat < 128), thenRun_ok]
    exact Read.operator (by decide) (by simp [hrest, bytes])
      (by simp [show continuations (bytes ['>', '=']) = [] by decide])
  · rcases next_cases (by decide : '>'.toNat < 128) r with ⟨r', rfl, hcur'⟩ | ⟨hcur', hne'⟩
    · rw [hcur'] at hcur
      simp only [ite_run, hcur', hcur, if_true, if_false, bind_run, appendAndNext_char (by decide : '>'.toNat < 128),
        thenRun_ok, lastChar_here]
      -- a second `>` has been read
      rcases next_cases (by decide : '='.toNat < 128) r' with ⟨r, rfl, hcur⟩ | ⟨hcur, hne⟩
      · simp only [hcur, if_true, appendAndNext_char (by decide : '='.toNat < 128), thenRun_ok]
        exact Read.operator (by decide) (by simp [hrest, bytes])
          (by simp [show continuations (bytes ['>', '>', '=']) = [] by decide])
      · rcases next_cases (by decide : '>'.toNat < 128) r' with ⟨r, rfl, hcur'⟩ | ⟨hcur', hne'⟩
        · rw [hcur'] at hcur
          simp only [hcur', hcur, if_true, if_false, appendAndNext_char (by decide : '>'.toNat < 128), thenRun_ok]
          exact readWithEq_here (by decide) (by decide) (by decide) (by decide) (by simp [hrest, bytes])
        · simp only [hcur, hcur', if_false]
          exact Read.operator (by decide) (by simp [hrest, bytes]) (not_continued (by decide) hne hne')
    · simp only [ite_run, hcur, hcur', if_false]
      exact Read.operator (by decide) (by simp [hrest, bytes]) (not_continued (by decide) hne hne')

end Operators

/-! ### Identifiers and numbers -/

theorem readWhile_here {q : Int → Bool} {P : UInt8 → Prop} [DecidablePred P] {n : Nat}
    (hq : ∀ b, q (signed b) = decide (P b)) (heof : q EOF = false) (hn : rest.length < n) :
    ∃ g r, rest = g ++ r ∧ (∀ c ∈ g, P c) ∧ (∀ c ∈ r.head?, ¬ P c) ∧
      readWhile q n (here ls pre (b :: rest) str pos ahead)
        = .ok () (here ls (pre ++ b :: g) r (str ++ text g) pos ahead) := by
  induction rest generalizing pre b n str with
  | nil =>
    obtain ⟨n, rfl⟩ : ∃ m, n = m + 1 := ⟨n - 1, by simp at hn; omega⟩
    exact ⟨[], [], rfl, by simp, by simp, by simp [readWhile, heof, text]⟩
  | cons c rest ih =>
    obtain ⟨n, rfl⟩ : ∃ m, n = m + 1 := ⟨n - 1, by omega⟩
    by_cases hc : P c
    · obtain ⟨g, r, rfl, hg, hr, hrun⟩ := @ih (pre ++ [b]) c (str ++ [toChar (signed c)]) n (by simpa using hn)
      refine ⟨c :: g, r, rfl, by simpa [hc] using hg, hr, ?_⟩
      simp only [readWhile, bind_run, nextChar_here, thenRun_ok, cur_cons, hq, hc, decide_true, if_true, append_here,
        hrun]
      simp [toChar_signed, text]
    · exact ⟨[], c :: rest, rfl, by simp, by simpa using hc, by simp [readWhile, hq, hc, text]⟩

/-- The table of the lexer knows the words of the reference, and no other one. -/
theorem identifierTokens_lookup (w : List UInt8) :
    (identifierTokens.lookup (String.ofList (text w))).getD .Identifier = classify w := by
  have htable : ∀ word ∈ keywords,
      (identifierTokens.lookup word).getD .Identifier = (terminals.lookup word).getD .ReservedKeyword := by decide
  have hkeywords : ∀ o ∈ identifierTokens, o.1 ∈ keywords := by decide
  unfold classify
  by_cases hkey : String.ofList (text w) ∈ keywords
  · rw [htable _ hkey, if_pos (List.contains_iff_mem.mpr hkey)]
  · rw [if_neg (fun h => hkey (List.contains_iff_mem.mp h))]
    have hnone : identifierTokens.lookup (String.ofList (text w)) = none := by
      rw [List.lookup_eq_none_iff]
      intro o ho
      rw [bne_iff_ne]
      rintro h
      exact hkey (h ▸ hkeywords o ho)
    rw [hnone, Option.getD_none]

theorem readIdentifier_here (hb : Letter b) :
    Read ls pre (b :: rest) ahead
      (readIdentifier (here ls pre (b :: rest) str (posAt ls (pre ++ b :: rest) pre.length) ahead)) := by
  obtain ⟨g, r, rfl, hg, hr, hrun⟩ := @readWhile_here ls pre rest b [Char.ofNat b.toNat]
    (posAt ls (pre ++ b :: rest) pre.length) ahead isAlphaNumOrUnderscore (fun c => Letter c ∨ Digit c) _
    ((pre ++ b :: rest).length + 1) (fun c => isAlphaNumOrUnderscore_signed) (by decide) (lt_bound_cons pre b rest)
  have hlong : Longest Words ((b :: g) ++ r) (b :: g) := by
    apply longest_of_stuck partsAreWords ((words_letter hb).mpr hg)
    rintro c r' rfl hword
    have := (words_letter hb).mp hword c (by simp)
    exact hr c rfl this
  have hread := @Read.token ls pre (b :: (g ++ r)) ahead (b :: g) r _ rfl (.identifier hb hg) hlong
  have hstr : [Char.ofNat b.toNat] ++ text g = text (b :: g) := rfl
  unfold readIdentifier
  simp only [bind_run, lastChar_here, thenRun_ok, cur_cons, toChar_signed, setTokenString_here, bound_here, hrun,
    get_run, here_tokenString, hstr]
  rw [← identifierTokens_lookup] at hread
  cases hlook : identifierTokens.lookup (String.ofList (text (b :: g))) with
  | none =>
    rw [hlook] at hread
    exact hread
  | some t =>
    rw [hlook] at hread
    exact hread

theorem readDecNumber_here (hb : Digit b) :
    Read ls pre (b :: rest) ahead
      (readDecNumber (here ls pre (b :: rest) str (posAt ls (pre ++ b :: rest) pre.length) ahead)) := by
  have hzero : ch '0' = signed b ↔ b = 48 := eq_comm.trans (signed_eq_ch (by decide))
  by_cases hz : b = 48
  · subst hz
    have hlong : Longest Words ([48] ++ rest) [48] := by
      apply longest_of_stuck partsAreWords ((words_digit hb).mpr (.inl ⟨rfl, rfl⟩))
      rintro c r' rfl hword
      have := (words_digit hb).mp hword
      simp at this
    have hread := @Read.token ls pre (48 :: rest) ahead [48] rest _ rfl .zero hlong
    have hstep : readDecNumber (here ls pre (48 :: rest) str (posAt ls (pre ++ 48 :: rest) pre.length) ahead)
        = makeToken .IntLiteral (here ls (pre ++ [48]) rest (text [48]) (posAt ls (pre ++ 48 :: rest) pre.length) ahead) := by
      simp [readDecNumber, hzero, toChar_signed, text]
    rw [hstep]
    exact hread
  · obtain ⟨g, r, rfl, hg, hr, hrun⟩ := @readWhile_here ls pre rest b [Char.ofNat b.toNat]
      (posAt ls (pre ++ b :: rest) pre.length) ahead isDigit Digit _
      ((pre ++ b :: rest).length + 1) (fun c => isDigit_signed) (by decide) (lt_bound_cons pre b rest)
    have hlong : Longest Words ((b :: g) ++ r) (b :: g) := by
      apply longest_of_stuck partsAreWords ((words_digit hb).mpr (.inr ⟨hz, hg⟩))
      rintro c r' rfl hword
      rcases (words_digit hb).mp hword with ⟨h48, -⟩ | ⟨-, hall⟩
      · exact hz h48
      · exact hr c rfl (hall c (by simp))
    have hread := @Read.token ls pre (b :: (g ++ r)) ahead (b :: g) r _ rfl (.integer hb hz hg) hlong
    have hstr : [Char.ofNat b.toNat] ++ text g = text (b :: g) := rfl
    unfold readDecNumber
    simp only [bind_run, lastChar_here, thenRun_ok, cur_cons, toChar_signed, setTokenString_here, hzero, hz, if_false,
      bound_here, hrun, hstr]
    exact hread

/-! ### Single characters, and all tokens -/

/-- The first characters of the operators that have a reader of their own. -/
def readerStarts : List UInt8 := bytes ['/', '*', '%', '+', '-', '<', '>', '&', '|', '^', '=', '!']

/-- The characters of `getSingleCharOpToken`. -/
def singleChars : List Char := ['(', ')', '[', ']', '\x7b', '\x7d', '?', ',', '.', ':', ';', '~']

theorem getSingleCharOpToken_cases (c : Int) (h : getSingleCharOpToken c ≠ .none) :
    ∃ d ∈ singleChars, c = ch d := by
  by_contra hnot
  have hne : ∀ d ∈ singleChars, c ≠ ch d := fun d hd hc => hnot ⟨d, hd, hc⟩
  simp only [singleChars, List.forall_mem_cons] at hne
  simp [getSingleCharOpToken, hne] at h

theorem singleChars_table : ∀ d ∈ singleChars, d.toNat < 128 ∧
    ([d], getSingleCharOpToken (ch d)) ∈ operators ∧ continuations (bytes [d]) = [] := by
  have htable : (singleChars.all fun d => decide (d.toNat < 128 ∧
      ([d], getSingleCharOpToken (ch d)) ∈ operators ∧ continuations (bytes [d]) = [])) = true := by decide
  intro d hd
  exact of_decide_eq_true (List.all_eq_true.mp htable d hd)

/-- A byte that starts an operator has a reader, or is in the table. -/
theorem opWords_head : ∀ v ∈ opWords, ∀ b ∈ v.head?, b ∈ readerStarts ∨ getSingleCharOpToken (signed b) ≠ .none := by
  have h : ∀ v ∈ opWords,
      v.head?.all (fun b => decide (b ∈ readerStarts ∨ getSingleCharOpToken (signed b) ≠ .none)) = true := by
    decide
  intro v hv b hb
  have hall := h v hv
  rw [hb] at hall
  exact of_decide_eq_true hall

theorem readSingle_here (hl : ∀ c ∈ rest.head?, ¬ Letter c ∧ ¬ Digit c ∧ c ∉ readerStarts) :
    Read ls pre rest ahead (readSingle (here ls pre rest str (posAt ls (pre ++ rest) pre.length) ahead)) := by
  cases rest with
  | nil =>
    have hstep : readSingle (here ls pre [] str (posAt ls (pre ++ []) pre.length) ahead)
        = .ok (Token.eof, posAt ls (pre ++ []) pre.length)
            (here ls pre [] ['E', 'O', 'F'] (posAt ls (pre ++ []) pre.length) ahead) := by
      simp [readSingle, Token.eof]
    rw [hstep]
    exact .eof rfl
  | cons b r =>
    obtain ⟨hletter, hdigit, hstarts⟩ := hl b rfl
    by_cases ht : getSingleCharOpToken (signed b) = .none
    · obtain ⟨e, he⟩ := @invalidCharError_run (Token × TokenPos) (signed b)
        (here ls pre (b :: r) [toChar (signed b)] (posAt ls (pre ++ b :: r) pre.length) ahead)
      have hstep : readSingle (here ls pre (b :: r) str (posAt ls (pre ++ b :: r) pre.length) ahead)
          = .error (.lexError e)
              (here ls pre (b :: r) [toChar (signed b)] (posAt ls (pre ++ b :: r) pre.length) ahead) := by
        simp [readSingle, ht, he]
      rw [hstep]
      refine .error (by simp) ?_
      intro w hw hpre
      cases w with
      | nil => exact not_words_nil hw
      | cons c w =>
        obtain ⟨rfl, -⟩ := List.cons_prefix_cons.mp hpre
        rcases opWords_head _ ((words_other hletter hdigit).mp hw) c rfl with hc | hc
        · exact hstarts hc
        · exact hc ht
    · obtain ⟨d, hd, hbd⟩ := getSingleCharOpToken_cases _ ht
      obtain ⟨hascii, hop, hcont⟩ := singleChars_table d hd
      obtain rfl : b = UInt8.ofNat d.toNat := (signed_eq_ch hascii).mp hbd
      have hchar : toChar (ch d) = d := by
        have htext : text (bytes [d]) = [d] := text_bytes (by simpa using hascii)
        rw [← hbd, toChar_signed]
        exact (List.cons.inj htext).1
      have hstep : readSingle (here ls pre (UInt8.ofNat d.toNat :: r) str
            (posAt ls (pre ++ UInt8.ofNat d.toNat :: r) pre.length) ahead)
          = makeToken (getSingleCharOpToken (ch d)) (here ls (pre ++ bytes [d]) r [d]
              (posAt ls (pre ++ UInt8.ofNat d.toNat :: r) pre.length) ahead) := by
        rw [hbd] at ht
        simp [readSingle, hbd, ht, hchar, bytes]
      rw [hstep]
      exact Read.operator hop rfl (by simp [hcont])

/-- A token from its first character on. -/
theorem readToken_here (hstart : ∀ c ∈ rest.head?, c ≠ 47) :
    Read ls pre rest ahead (readToken (here ls pre rest str pos ahead)) := by
  cases rest with
  | nil =>
    have hstep : readToken (here ls pre [] str pos ahead)
        = readSingle (here ls pre [] [] (posAt ls (pre ++ []) pre.length) ahead) := by
      simp [readToken, EOF, ch, isAlphaOrUnderscore, isDigit]
    rw [hstep]
    exact readSingle_here (by simp)
  | cons b r =>
    have hb : b ≠ 47 := hstart b rfl
    unfold readToken
    simp only [bind_run, initToken_here, thenRun_ok, lastChar_here, cur_cons, ite_run, isAlphaOrUnderscore_signed,
      isDigit_signed, decide_eq_true_eq]
    by_cases hl : Letter b
    · rw [if_pos hl]
      exact readIdentifier_here hl
    rw [if_neg hl]
    by_cases hd : Digit b
    · rw [if_pos hd]
      exact readDecNumber_here hd
    rw [if_neg hd]
    have hstar : signed b = ch '*' ↔ b = 42 := signed_eq_ch (by decide)
    have hpercent : signed b = ch '%' ↔ b = 37 := signed_eq_ch (by decide)
    have hplus : signed b = ch '+' ↔ b = 43 := signed_eq_ch (by decide)
    have hminus : signed b = ch '-' ↔ b = 45 := signed_eq_ch (by decide)
    have hlt : signed b = ch '<' ↔ b = 60 := signed_eq_ch (by decide)
    have hgt : signed b = ch '>' ↔ b = 62 := signed_eq_ch (by decide)
    have hamp : signed b = ch '&' ↔ b = 38 := signed_eq_ch (by decide)
    have hvbar : signed b = ch '|' ↔ b = 124 := signed_eq_ch (by decide)
    have hcaret : signed b = ch '^' ↔ b = 94 := signed_eq_ch (by decide)
    have heq : signed b = ch '=' ↔ b = 61 := signed_eq_ch (by decide)
    have hbang : signed b = ch '!' ↔ b = 33 := signed_eq_ch (by decide)
    by_cases h1 : signed b = ch '*'
    · rw [if_pos h1]
      exact readOptEq_here (by decide) (by decide) (by decide) (by decide) (congrArg (· :: r) (hstar.mp h1))
    rw [if_neg h1]
    by_cases h2 : signed b = ch '%'
    · rw [if_pos h2]
      exact readOptEq_here (by decide) (by decide) (by decide) (by decide) (congrArg (· :: r) (hpercent.mp h2))
    rw [if_neg h2]
    by_cases h3 : signed b = ch '+'
    · rw [if_pos h3]
      exact readEither_here (by decide) (by decide) (by decide) (by decide) (by decide) (by decide) (by decide)
        (by decide) (congrArg (· :: r) (hplus.mp h3))
    rw [if_neg h3]
    by_cases h4 : signed b = ch '-'
    · rw [if_pos h4]
      exact readEither_here (by decide) (by decide) (by decide) (by decide) (by decide) (by decide) (by decide)
        (by decide) (congrArg (· :: r) (hminus.mp h4))
    rw [if_neg h4]
    by_cases h5 : signed b = ch '<'
    · rw [if_pos h5]
      exact readLT_here (congrArg (· :: r) (hlt.mp h5))
    rw [if_neg h5]
    by_cases h6 : signed b = ch '>'
    · rw [if_pos h6]
      exact readGT_here (congrArg (· :: r) (hgt.mp h6))
    rw [if_neg h6]
    by_cases h7 : signed b = ch '&'
    · rw [if_pos h7]
      exact readEither_here (by decide) (by decide) (by decide) (by decide) (by decide) (by decide) (by decide)
        (by decide) (congrArg (· :: r) (hamp.mp h7))
    rw [if_neg h7]
    by_cases h8 : signed b = ch '|'
    · rw [if_pos h8]
      exact readEither_here (by decide) (by decide) (by decide) (by decide) (by decide) (by decide) (by decide)
        (by decide) (congrArg (· :: r) (hvbar.mp h8))
    rw [if_neg h8]
    by_cases h9 : signed b = ch '^'
    · rw [if_pos h9]
      exact readOptEq_here (by decide) (by decide) (by decide) (by decide) (congrArg (· :: r) (hcaret.mp h9))
    rw [if_neg h9]
    by_cases h10 : signed b = ch '='
    · rw [if_pos h10]
      exact readOptEq_here (by decide) (by decide) (by decide) (by decide) (congrArg (· :: r) (heq.mp h10))
    rw [if_neg h10]
    by_cases h11 : signed b = ch '!'
    · rw [if_pos h11]
      exact readOptEq_here (by decide) (by decide) (by decide) (by decide) (congrArg (· :: r) (hbang.mp h11))
    rw [if_neg h11]
    apply readSingle_here
    have hnot : b ∉ readerStarts := by
      simp [readerStarts, bytes, hb, hstar.not.mp h1, hpercent.not.mp h2, hplus.not.mp h3, hminus.not.mp h4,
        hlt.not.mp h5, hgt.not.mp h6, hamp.not.mp h7, hvbar.not.mp h8, hcaret.not.mp h9, heq.not.mp h10,
        hbang.not.mp h11]
    simpa using ⟨hl, hd, hnot⟩

/-! ## One call -/

/-- What one call of `readNextToken` gives: a token, the end of the input, or a lexical error. -/
inductive Next (ls : LineState) (pre rest : List UInt8) (ahead : List (Token × TokenPos)) :
    EStateM.Result Stop State (Token × TokenPos) → Prop where
  | token {g w r : List UInt8} {t : TT} (hg : Gap g) (hr : rest = g ++ (w ++ r)) (hopen : ¬ Opens (w ++ r))
      (hw : Word w t) (hlong : Longest Words (w ++ r) w) :
      Next ls pre rest ahead
        (.ok (⟨t, String.ofList (text w)⟩, posAt ls (pre ++ rest) (pre ++ g).length)
          (here ls (pre ++ g ++ w) r (text w) (posAt ls (pre ++ rest) (pre ++ g).length) ahead))
  | eof (hg : Gap rest) :
      Next ls pre rest ahead
        (.ok (Token.eof, posAt ls (pre ++ rest) (pre ++ rest).length)
          (here ls (pre ++ rest) [] ['E', 'O', 'F'] (posAt ls (pre ++ rest) (pre ++ rest).length) ahead))
  | error {g r : List UInt8} {e : LexError} {str : List Char} {pos : TokenPos} (hr : rest = g ++ r)
      (href : ∀ m, Tokenises m rest [] (.lexError (m + g.length))) :
      Next ls pre rest ahead (.error (.lexError e) (here ls (pre ++ g) r str pos ahead))

/-- A token read after a gap. -/
theorem Next.of_read {g r : List UInt8} {res : EStateM.Result Stop State (Token × TokenPos)} (hg : Gap g)
    (hr : rest = g ++ r) (hblank : ∀ c ∈ r.head?, ¬ Blank c) (hopen : ¬ Opens r)
    (h : Read ls (pre ++ g) r ahead res) : Next ls pre rest ahead res := by
  subst hr
  cases h with
  | @token w r' t hr' hw hlong =>
    subst hr'
    rw [List.append_assoc pre g]
    exact .token hg rfl hopen hw hlong
  | eof hr' =>
    subst hr'
    simp only [List.append_nil]
    exact .eof hg
  | @error e str pos hne hbad =>
    refine .error rfl ?_
    intro m
    apply hg.tokenises
    cases r with
    | nil => exact absurd rfl hne
    | cons b r => exact .noToken (hblank b rfl) hbad

theorem readNextToken_here : Next ls pre rest ahead (readNextToken (here ls pre rest str pos ahead)) := by
  have hskip := @skip_here ls pre rest str pos ahead ((pre ++ rest).length + 1) (lt_bound pre rest)
  unfold readNextToken
  simp only [bind_run, bound_here, thenRun_ok]
  generalize skipCommentsAndWhitespaces ((pre ++ rest).length + 1) (here ls pre rest str pos ahead) = res at hskip
  cases hskip with
  | @token g r str' pos' hg hr hstart =>
    simp only [thenRun_ok, Bool.false_eq_true, if_false]
    have hopen : ¬ Opens r := by
      rintro ⟨r', hr'⟩
      exact (hstart 47 (by rw [← hr']; rfl)).2 rfl
    exact Next.of_read hg hr (fun c hc => (hstart c hc).1) hopen (readToken_here fun c hc => (hstart c hc).2)
  | @slash g r hg hr hstart =>
    simp only [thenRun_ok, if_true]
    have hopen : ¬ Opens (47 :: r) := by
      rintro ⟨r', hr'⟩
      obtain ⟨-, rfl⟩ := List.cons.inj hr'
      exact hstart rfl
    apply Next.of_read hg hr (by simp [Blank, bytes]) hopen
    have hread := @readWithEq_here ls (pre ++ g) (47 :: r) ahead r ['/'] .Slash .SlashEq (by decide) (by decide)
      (by decide) (by decide) rfl
    rw [show pre ++ g ++ 47 :: r = pre ++ rest by rw [hr, List.append_assoc]] at hread
    exact hread
  | @error g r e str' pos' hr href =>
    simp only [thenRun_error]
    exact .error hr href

/-! ## Whole runs -/

/-- How a run ends, in the terms of the reference. -/
def Finish.ending : Finish → Option Ending
  | .eof _ => some .eof
  | .stopped (.lexError _) s => some (.lexError s.offset)
  | .stopped _ _ => none

theorem offset_here : (here ls pre rest str pos ahead).offset = pre.length := by
  simp only [State.offset, here, stateAt]
  rw [← Nat.add_assoc, Nat.div_add_mod, Nat.add_sub_cancel]

theorem Word.ne_eof {w : List UInt8} {t : TT} (h : Word w t) : t ≠ .Eof := by
  cases h with
  | @identifier c cs =>
    have htable : ∀ o ∈ terminals, o.2 ≠ .Eof := by decide
    rcases classify_cases (c :: cs) with h | h | ⟨o, ho, h⟩
    · rw [h]
      decide
    · rw [h]
      decide
    · rw [h]
      exact htable o ho
  | zero => decide
  | integer => decide
  | operator h =>
    have htable : ∀ o ∈ operators, o.2 ≠ .Eof := by decide
    exact htable _ h

theorem Word.ne_nil {w : List UInt8} {t : TT} (h : Word w t) : w ≠ [] := by
  rintro rfl
  exact not_words_nil ⟨t, h⟩

/-- The run gives what the reference gives. -/
theorem readAll_tokenises {n : Nat} (hn : rest.length < n) : ∃ e,
    (readAll n (here ls pre rest str pos [])).2.ending = some e ∧
    Tokenises pre.length rest ((readAll n (here ls pre rest str pos [])).1.map Prod.fst) e := by
  induction n generalizing pre rest str pos with
  | zero => omega
  | succ n ih =>
    have hnext := @readNextToken_here ls pre rest str pos []
    have hcall : nextToken (here ls pre rest str pos []) = readNextToken (here ls pre rest str pos []) := rfl
    unfold readAll
    rw [hcall]
    generalize readNextToken (here ls pre rest str pos []) = res at hnext
    cases hnext with
    | @token g w r t hg hr hopen hw hlong =>
      subst hr
      have hpos : 0 < w.length := List.length_pos_iff.mpr hw.ne_nil
      obtain ⟨e, hend, htok⟩ := @ih (pre ++ g ++ w) r (text w) (posAt ls (pre ++ (g ++ (w ++ r))) (pre ++ g).length)
        (by simp at hn; omega)
      refine ⟨e, by simpa [hw.ne_eof] using hend, ?_⟩
      simp only [hw.ne_eof, if_false, List.map_cons]
      apply hg.tokenises
      apply Tokenises.token hopen hw hlong
      have hlen : pre.length + g.length + w.length = (pre ++ g ++ w).length := by simp [Nat.add_assoc]
      rw [hlen]
      exact htok
    | eof hg =>
      refine ⟨.eof, rfl, ?_⟩
      have h := @Gap.tokenises rest [] pre.length _ _ hg .eof
      rw [List.append_nil] at h
      exact h
    | @error g r e str' pos' hr href =>
      refine ⟨.lexError (pre.length + g.length), ?_, href _⟩
      simp [Finish.ending, offset_here]

/-- A run that returns `Eof` has read the whole file, and the next call returns `Eof` again without reading. -/
theorem readAll_eof {n : Nat} {s : State} (h : (readAll n (here ls pre rest str pos [])).2 = .eof s) :
    s.offset = (pre ++ rest).length ∧ s.isEof = true ∧ nextToken s = .ok (Token.eof, s.tokenPos) s := by
  induction n generalizing pre rest str pos with
  | zero => cases h
  | succ n ih =>
    have hnext := @readNextToken_here ls pre rest str pos []
    have hcall : nextToken (here ls pre rest str pos []) = readNextToken (here ls pre rest str pos []) := rfl
    unfold readAll at h
    rw [hcall] at h
    generalize readNextToken (here ls pre rest str pos []) = res at hnext h
    cases hnext with
    | @token g w r t hg hr hopen hw hlong =>
      subst hr
      simp only [hw.ne_eof, if_false] at h
      have hlen : (pre ++ (g ++ (w ++ r))).length = ((pre ++ g ++ w) ++ r).length := by simp
      rw [hlen]
      exact ih h
    | eof hg =>
      simp only [Token.eof, if_true, Finish.eof.injEq] at h
      subst h
      refine ⟨offset_here, by simp, ?_⟩
      show readNextToken _ = _
      simp [readNextToken, skipCommentsAndWhitespaces, readToken, readSingle, EOF, ch, isSpace, isAlphaOrUnderscore,
        isDigit, Token.eof]
    | error => cases h

theorem lexFile_eq (file : List UInt8) :
    lexFile ls file = readAll (file.length + 1) (here ls [] file [] ⟨0, 0⟩ []) := by
  unfold lexFile
  rw [construct_here]

/-- Over every byte string the lexer returns the tokens of the reference and ends as the reference does; once it
has returned `Eof`, at the end of the file, it returns `Eof` again on every call and leaves its state as it is. -/
theorem lexer_reference (lineState : LineState) (file : List UInt8) :
    (∀ ts e, Tokenises 0 file ts e ↔
      (lexFile lineState file).1.map Prod.fst = ts ∧ (lexFile lineState file).2.ending = some e) ∧
    (∀ s, (lexFile lineState file).2 = .eof s →
      s.offset = file.length ∧ s.isEof = true ∧ nextToken s = .ok (Token.eof, s.tokenPos) s) := by
  rw [lexFile_eq]
  refine ⟨?_, fun s hs => readAll_eof hs⟩
  intro ts e
  obtain ⟨e', hend, htok⟩ := @readAll_tokenises lineState [] file [] ⟨0, 0⟩ (file.length + 1) (Nat.lt_succ_self _)
  constructor
  · intro h
    obtain ⟨rfl, rfl⟩ := h.unique htok
    exact ⟨rfl, hend⟩
  · rintro ⟨rfl, he⟩
    rw [hend] at he
    obtain rfl := Option.some.inj he
    exact htok

end Mjc.Lexer

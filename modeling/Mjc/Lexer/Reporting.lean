import Mjc.Lexer.Highlight
import Mjc.Lexer.Positions

/-!
# Lexical errors are reported, unless the line is too long

`LexError::writeErrorLineHighlight` prints the text of the line, of which no more than 1023 bytes are kept, or the part of it
around the column of the error, which grows without a bound.

* `length_shown` : the text of some bytes has a byte for each of their columns, and one more for each that cannot be printed;
* `Stuck.initial` : what stands before an error is the start of its line;
* `write_isSome_iff` : when there is no exception; `shownIndex`, `write_caret_iff` : when the caret is at the right place;
* `reportable_iff` : both, for every error of every run.
-/

namespace Mjc.Lexer

set_option autoImplicit false

/-! ## The length of a text -/

/-- A byte that is shown as a middle dot, which takes two bytes. -/
def Unprintable (b : UInt8) : Prop := b ≠ 9 ∧ isprint b.toNat = false

instance (b : UInt8) : Decidable (Unprintable b) := inferInstanceAs (Decidable (b ≠ 9 ∧ isprint b.toNat = false))

/-- The text of some bytes. -/
def shown (bs : List UInt8) : List UInt8 := bs.flatMap shownChar

theorem length_shown (bs : List UInt8) :
    (shown bs).length = widths bs + bs.countP fun b => Unprintable b := by
  induction bs with
  | nil => rfl
  | cons b bs ih =>
    have hb : (shownChar b).length = width b + if Unprintable b then 1 else 0 := by
      unfold shownChar width Unprintable
      by_cases htab : b = 9
      · simp [htab]
      · by_cases hprint : isprint b.toNat = true
        · simp [htab, hprint]
        · simp [htab, hprint]
    have hshown : shown (b :: bs) = shownChar b ++ shown bs := rfl
    have hwidths : widths (b :: bs) = width b + widths bs := List.sum_cons
    rw [hshown, hwidths, List.length_append, ih, hb, List.countP_cons]
    by_cases h : Unprintable b
    · simp only [h, if_true, decide_true]
      omega
    · simp only [h, if_false, decide_false, Bool.false_eq_true]
      omega

theorem widths_append (bs cs : List UInt8) : widths (bs ++ cs) = widths bs + widths cs := by
  unfold widths
  rw [List.map_append, List.sum_append]

/-! ## The start of the line -/

section
variable {file : List UInt8} {p q : Nat}

/-- No line ends inside of a line. -/
theorem not_endsLine (hstart : lineStart file p ≤ q) (hq : q < p) : ¬ EndsLine file q := by
  induction p with
  | zero => omega
  | succ p ih =>
    by_cases hend : EndsLine file p
    · rw [lineStart_succ_of_endsLine hend] at hstart
      omega
    · rw [lineStart_succ hend] at hstart
      rcases Nat.lt_succ_iff_lt_or_eq.mp hq with hq | rfl
      · exact ih hstart hq
      · exact hend

theorem length_lineBefore (hp : p ≤ file.length) : (lineBefore file p).length = p - lineStart file p := by
  unfold lineBefore
  rw [List.length_drop, List.length_take_of_le hp]

theorem lineBefore_eq : lineBefore file p = (file.drop (lineStart file p)).take (p - lineStart file p) := by
  unfold lineBefore
  rw [List.drop_take]

/-- What stands in the line before a byte other than LF has no line end in it. -/
theorem lineBefore_inside (hp : p ≤ file.length) (hlf : file[p]? ≠ some 10) :
    ∀ b ∈ lineBefore file p, decide (b ≠ 13 ∧ b ≠ 10) = true := by
  intro b hb
  obtain ⟨i, hi, hget⟩ := List.mem_iff_getElem.mp hb
  rw [length_lineBefore hp] at hi
  have hb : file[lineStart file p + i]? = some b := by
    rw [← hget, List.getElem_eq_getElem?_get]
    simp only [lineBefore_eq, List.getElem?_take_of_lt hi, List.getElem?_drop]
    simp
  have hend := not_endsLine (Nat.le_add_right (lineStart file p) i) (show lineStart file p + i < p by omega)
  rw [decide_eq_true_eq]
  constructor
  · -- a carriage return has to be followed by a line feed, inside of the line or at `p`
    rintro rfl
    refine hend (.inr ⟨hb, fun hnext => ?_⟩)
    by_cases hlast : lineStart file p + i + 1 = p
    · rw [hlast] at hnext
      exact hlf hnext
    · exact not_endsLine (Nat.le_add_right (lineStart file p) (i + 1))
        (show lineStart file p + (i + 1) < p by omega) (.inl hnext)
  · rintro rfl
    exact hend (.inl hb)

/-- It is the start of the line then. -/
theorem lineBefore_initial (hinside : ∀ b ∈ lineBefore file p, decide (b ≠ 13 ∧ b ≠ 10) = true) :
    lineBefore file p <+: lineAt file (lineStart file p) := by
  unfold lineAt
  rw [← List.take_append_drop (p - lineStart file p) (file.drop (lineStart file p)), ← lineBefore_eq,
    List.takeWhile_append_of_pos hinside]
  exact List.prefix_append _ _

/-- So it is before an error, and the byte of the error belongs to the line. -/
theorem Stuck.initial (hp : p ≤ file.length) (h : Stuck file p) :
    lineBefore file p <+: lineAt file (lineStart file p) ∧
      (p < file.length → (lineBefore file p).length < (lineAt file (lineStart file p)).length) := by
  have hlf : file[p]? ≠ some 10 := fun hb => h 10 hb (by decide)
  have hinside := lineBefore_inside hp hlf
  refine ⟨lineBefore_initial hinside, fun hlt => ?_⟩
  obtain ⟨b, hb⟩ : ∃ b, file[p]? = some b := ⟨_, List.getElem?_eq_getElem hlt⟩
  have hblank := h b hb
  have hend : ¬ EndsLine file p := by
    rintro (hb' | ⟨hb', -⟩)
    · exact h 10 hb' (by decide)
    · exact h 13 hb' (by decide)
  have hnext : lineBefore file (p + 1) = lineBefore file p ++ [b] := lineBefore_succ hend hb
  have hinit : lineBefore file (p + 1) <+: lineAt file (lineStart file (p + 1)) := by
    refine lineBefore_initial fun c hc => ?_
    rw [hnext] at hc
    rcases List.mem_append.mp hc with hc | hc
    · exact hinside c hc
    · rw [List.mem_singleton.mp hc, decide_eq_true_eq]
      exact ⟨fun h13 => hblank (h13 ▸ by decide), fun h10 => hblank (h10 ▸ by decide)⟩
  rw [lineStart_succ hend, hnext] at hinit
  have hlength := hinit.length_le
  rw [List.length_append] at hlength
  exact hlength

end

/-! ## The exception -/

section
variable {e : LexError} {before line : List UInt8}

theorem write_eq (e : LexError) (text : List UInt8) : e.writeErrorLineHighlight text =
    if 200 < e.col then (if e.col - 191 ≤ text.length then
      some ((window (e.col - 191) text.length).text text, List.replicate 191 '~' ++ ['^']) else none)
    else some (text, List.replicate (e.col - 1) '~' ++ ['^']) := by
  unfold LexError.writeErrorLineHighlight
  have hmax : maxErrorLineLength = 200 := rfl
  by_cases hlong : 200 < e.col
  · have hoffset : e.col - (200 - 8) + 1 = e.col - 191 := by omega
    rw [hmax, if_pos hlong, if_pos hlong]
    simp only [hoffset]
    rw [← hmax, truncatedErrorLine_eq]
    by_cases hle : e.col - 191 ≤ text.length
    · rw [if_pos hle, if_pos hle]
      rfl
    · rw [if_neg hle, if_neg hle]
      rfl
  · rw [hmax, if_neg hlong, if_neg hlong]

/-- The text of a line is not shorter than what stands before an error, as far as that is kept. -/
theorem shownLine_eq (hne : line ≠ []) :
    shownLine line = shown (line.take 1023) ++ if line.length ≤ 1023 then [] else [46, 46, 46] := by
  unfold shownLine
  rw [if_neg hne]
  rfl

/-- There is no exception exactly when the characters from the 1024th on up to the error take no more than 193 columns,
apart from those that a wider text makes up for. -/
theorem write_isSome_iff (hinit : before <+: line) (hcol : e.col = 1 + widths before) :
    (e.writeErrorLineHighlight (shownLine line)).isSome = true ↔
      widths (before.drop 1023) ≤ 193 + (before.take 1023).countP fun b => Unprintable b := by
  obtain ⟨rest, rfl⟩ := hinit
  have hsplit : widths before = widths (before.take 1023) + widths (before.drop 1023) := by
    rw [← widths_append, List.take_append_drop]
  have hsome : (e.writeErrorLineHighlight (shownLine (before ++ rest))).isSome = true ↔
      e.col ≤ 200 ∨ e.col - 191 ≤ (shownLine (before ++ rest)).length := by
    rw [write_eq]
    by_cases hlong : 200 < e.col
    · rw [if_pos hlong]
      by_cases hle : e.col - 191 ≤ (shownLine (before ++ rest)).length
      · rw [if_pos hle]
        exact iff_of_true rfl (.inr hle)
      · rw [if_neg hle]
        exact iff_of_false (by simp) (by omega)
    · rw [if_neg hlong]
      exact iff_of_true rfl (.inl (by omega))
  rw [hsome]
  have hlength := length_shown (before.take 1023)
  by_cases hshort : before.length ≤ 1023
  · -- all of it is kept
    have htake : before.take 1023 = before := List.take_of_length_le hshort
    have hdrop : widths (before.drop 1023) = 0 := by
      rw [List.drop_eq_nil_of_le hshort]
      rfl
    refine iff_of_true ?_ (by omega)
    by_cases hempty : before = []
    · subst hempty
      have hzero : widths [] = 0 := rfl
      omega
    · rw [shownLine_eq (by simp [hempty]), List.length_append]
      have hkept : (before ++ rest).take 1023 = before ++ rest.take (1023 - before.length) := by
        rw [List.take_append, htake]
      have hshown : shown (before ++ rest.take (1023 - before.length)) =
          shown before ++ shown (rest.take (1023 - before.length)) := List.flatMap_append
      rw [hkept, hshown, List.length_append]
      rw [htake] at hlength
      omega
  · -- the line is cut
    have hkept : (before ++ rest).take 1023 = before.take 1023 := List.take_append_of_le_length (by omega)
    have hcut : ¬ (before ++ rest).length ≤ 1023 := by
      rw [List.length_append]
      omega
    have htext : (shownLine (before ++ rest)).length = widths (before.take 1023) +
        ((before.take 1023).countP fun b => Unprintable b) + 3 := by
      rw [shownLine_eq (by rintro hnil; rw [hnil] at hcut; exact hcut (Nat.zero_le _)), hkept, if_neg hcut,
        List.length_append, hlength]
      rfl
    have hwide : ∀ bs : List UInt8, bs.length ≤ widths bs := by
      intro bs
      induction bs with
      | nil => exact Nat.le_refl 0
      | cons b bs ih =>
        have hone : 1 ≤ width b := by
          unfold width
          split <;> omega
        have hcons : widths (b :: bs) = width b + widths bs := List.sum_cons
        rw [hcons, List.length_cons]
        omega
    have htake := hwide (before.take 1023)
    rw [List.length_take_of_le (by omega)] at htake
    omega

/-! ## The caret -/

/-- Where the character `i` of a line stands in its text, if it is kept. -/
def shownIndex (line : List UInt8) (i : Nat) : Option Nat :=
  if i < 1023 then some (shown (line.take i)).length else none

/-- The caret is below the character `i` of the line. -/
def Caret (e : LexError) (line : List UInt8) (i : Nat) : Prop :=
  ∃ w c j, Prints e.writeErrorLineHighlight (shownLine line).length w (List.replicate c '~' ++ ['^']) ∧
    shownIndex line i = some j ∧ w.Shows c j

theorem prints_write {n j : Nat} (hcol : e.col = 1 + j) (hj : j < n) : ∃ w c,
    Prints e.writeErrorLineHighlight n w (List.replicate c '~' ++ ['^']) ∧ w.Shows c j := by
  by_cases hlong : 200 < e.col
  · refine ⟨window (e.col - 191) n, 191, fun line hline => ?_, ?_⟩
    · rw [write_eq, hline, if_pos hlong, if_pos (by omega)]
    · unfold window
      rw [if_pos (by omega)]
      split
      · exact ⟨show e.col - 191 ≤ j by omega, show j < e.col - 191 + 198 by omega,
          show 191 = j - (e.col - 191) + 1 by omega⟩
      · exact ⟨show e.col - 191 ≤ j by omega, show j < e.col - 191 + 199 by omega,
          show 191 = j - (e.col - 191) + 1 by omega⟩
  · refine ⟨⟨false, 0, n, false⟩, e.col - 1, fun line hline => ?_, Nat.zero_le _, ?_, ?_⟩
    · rw [write_eq, if_neg hlong, ← hline, text_whole]
    · show j < 0 + n
      omega
    · show e.col - 1 = j
      omega

/-- In a line of printable characters and tabs, the caret is at the right place if the character is kept. -/
theorem write_caret_iff (hinit : before <+: line) (hcol : e.col = 1 + widths before) (hlt : before.length < line.length)
    (hprintable : ∀ b ∈ line, b = 9 ∨ isprint b.toNat = true) : Caret e line before.length ↔ before.length < 1023 := by
  obtain ⟨rest, rfl⟩ := hinit
  have htake : (before ++ rest).take before.length = before := List.take_left
  have hindex : (shown before).length = widths before := by
    have hzero : (before.countP fun b => Unprintable b) = 0 := by
      rw [List.countP_eq_zero]
      intro b hb
      rw [decide_eq_true_eq]
      rintro ⟨htab, hnot⟩
      rcases hprintable b (List.mem_append_left rest hb) with h | h
      · exact htab h
      · rw [hnot] at h
        cases h
    rw [length_shown, hzero, Nat.add_zero]
  constructor
  · rintro ⟨w, c, j, -, hj, -⟩
    unfold shownIndex at hj
    by_contra hnot
    rw [if_neg hnot] at hj
    cases hj
  · intro hshort
    have hkept : widths before < (shownLine (before ++ rest)).length := by
      obtain ⟨b, rest, rfl⟩ : ∃ b r, rest = b :: r := by
        cases rest with
        | nil => simp at hlt
        | cons b r => exact ⟨b, r, rfl⟩
      obtain ⟨k, hk⟩ : ∃ k, 1023 - before.length = k + 1 := ⟨1022 - before.length, by omega⟩
      have htext : shown ((before ++ b :: rest).take 1023) = shown before ++ (shownChar b ++ shown (rest.take k)) := by
        rw [List.take_append, List.take_of_length_le (Nat.le_of_lt hshort), hk, List.take_succ_cons]
        exact List.flatMap_append
      have hpos : 0 < (shownChar b).length := List.length_pos_iff.mpr (shownChar_ne_nil b)
      rw [shownLine_eq (by simp), htext, List.length_append, List.length_append, List.length_append, hindex]
      omega
    obtain ⟨w, c, hprints, hshows⟩ := prints_write hcol hkept
    refine ⟨w, c, widths before, hprints, ?_, hshows⟩
    unfold shownIndex
    rw [if_pos hshort, htake, hindex]

end

/-! ## Errors of the lexer -/

/-- The error can be reported in the state `s`: there is no exception, and in a line of printable characters and tabs the
caret is below the character at which the lexer stands. -/
structure Reportable (file : List UInt8) (s : State) (e : LexError) : Prop where
  completes : ∃ text, s.getCurrentLineFromInput e.line = some text ∧ (e.writeErrorLineHighlight text).isSome = true
  caret : (∀ b ∈ lineAt file (lineStart file s.offset), b = 9 ∨ isprint b.toNat = true) → s.offset < file.length →
    Caret e (lineAt file (lineStart file s.offset)) (s.offset - lineStart file s.offset)

/-- The line is not too long for an error at `p`: the characters from the 1024th on up to `p` take no more than 193 columns,
apart from one for each unprintable character among the first 1023; and in a line of printable characters and tabs the
character at `p` is one of the first 1023. -/
structure InReach (file : List UInt8) (p : Nat) : Prop where
  columns : widths ((lineBefore file p).drop 1023) ≤ 193 + ((lineBefore file p).take 1023).countP fun b => Unprintable b
  kept : (∀ b ∈ lineAt file (lineStart file p), b = 9 ∨ isprint b.toNat = true) → p < file.length →
    (lineBefore file p).length < 1023

theorem At.reportable {file : List UInt8} {p : Nat} {s : State} {e : LexError} (h : At .normal file p s)
    (hstuck : Stuck file p) (hline : e.line = lineOf file p) (hcol : e.col = columnOf file p) :
    Reportable file s e ↔ InReach file p := by
  obtain ⟨hinit, hlt⟩ := hstuck.initial h.le
  have htext := h.getCurrentLine (Nat.le_refl p)
  rw [← hline] at htext
  have hcompletes : (∃ text, s.getCurrentLineFromInput e.line = some text ∧ (e.writeErrorLineHighlight text).isSome = true) ↔
      widths ((lineBefore file p).drop 1023) ≤ 193 + ((lineBefore file p).take 1023).countP fun b => Unprintable b := by
    rw [← write_isSome_iff hinit hcol, htext]
    constructor
    · rintro ⟨text, hsame, hsome⟩
      obtain rfl := Option.some.inj hsame
      exact hsome
    · intro hsome
      exact ⟨_, rfl, hsome⟩
  have hoffset := h.offset
  have hlength := length_lineBefore h.le
  constructor
  · intro hr
    refine ⟨hcompletes.mp hr.completes, fun hprintable hp => ?_⟩
    have hcaret := hr.caret
    rw [hoffset, ← hlength] at hcaret
    exact (write_caret_iff hinit hcol (hlt hp) hprintable).mp (hcaret hprintable hp)
  · intro hr
    refine ⟨hcompletes.mpr hr.columns, ?_⟩
    rw [hoffset, ← hlength]
    intro hprintable hp
    exact (write_caret_iff hinit hcol (hlt hp) hprintable).mpr (hr.kept hprintable hp)

/-- A lexical error of a run can be reported if and only if its line is not too long. -/
theorem reportable_iff (file : List UInt8) {s s' : State} {ts : List (Token × TokenPos)} {c : Call} {e : LexError}
    (h : Ran file s ts) (hc : c ≠ .nextChar) (hrun : c.run s = .error (.lexError e) s') :
    Reportable file s' e ↔ InReach file s'.offset := by
  obtain ⟨p, hat, hstuck, hline, hcol, -⟩ := h.error hc hrun
  rw [hat.offset]
  exact hat.reportable hstuck hline hcol

/-- The first call stops at the first byte that starts no token. -/
theorem nextToken_stops {file : List UInt8} {k : Nat} (h : Tokenises 0 file [] (.lexError k)) :
    ∃ e s', Call.run .nextToken (opened .normal file) = .error (.lexError e) s' ∧ s'.offset = k := by
  obtain ⟨e, hend, htokens⟩ := @readAll_tokenises .normal [] file [] ⟨0, 0⟩ (file.length + 1) (Nat.lt_succ_self _)
  obtain ⟨hnone, rfl⟩ := htokens.unique h
  have hopened : opened .normal file = here .normal [] file [] ⟨0, 0⟩ [] := by
    unfold opened
    rw [construct_here]
  rw [call_nextToken, hopened]
  unfold readAll at hend hnone
  cases hnext : nextToken (here .normal [] file [] ⟨0, 0⟩ []) with
  | ok t s' =>
    rw [hnext] at hnone
    by_cases ht : t.1.type = .Eof
    · simp [ht] at hnone
    · simp [ht] at hnone
  | error e s' =>
    rw [hnext] at hend
    cases e with
    | lexError e => exact ⟨e, s', rfl, Ending.lexError.inj (Option.some.inj hend)⟩
    | pastSentinel => cases hend
    | outOfSteps => cases hend

/-- Some blanks and a hash sign. -/
theorem tokenises_hash (n : Nat) : Tokenises 0 (List.replicate n 32 ++ [35]) [] (.lexError n) := by
  have hgap : Gap (List.replicate n 32) := Gap.of_blanks fun b hb => by
    rw [List.eq_of_mem_replicate hb]
    decide
  refine hgap.tokenises ?_
  rw [List.length_replicate, Nat.zero_add]
  refine .noToken (by decide) fun w hw hinit => ?_
  cases w with
  | nil => exact not_words_nil hw
  | cons b w =>
    obtain ⟨rfl, hw'⟩ := List.cons_prefix_cons.mp hinit
    obtain rfl := List.prefix_nil.mp hw'
    have hnot : ¬ [35] ∈ opWords := by decide
    exact hnot ((words_other (by decide) (by decide)).mp hw)

/-- A hash sign alone. -/
theorem reportable_sample : ∃ s' e, Call.run .nextToken (opened .normal [35]) = .error (.lexError e) s' ∧
    Reportable [35] s' e := by
  obtain ⟨e, s', hrun, hoffset⟩ := nextToken_stops (tokenises_hash 0)
  refine ⟨s', e, hrun, (reportable_iff [35] (.opened : Ran [35] _ []) (by decide) hrun).mpr ?_⟩
  rw [hoffset]
  exact ⟨by decide, fun _ _ => by decide⟩

/-- A hash sign behind 1300 blanks. -/
theorem not_reportable_long : ¬∀ (file : List UInt8) (s s' : State) (ts : List (Token × TokenPos)) (c : Call) (e : LexError),
    Ran file s ts → c ≠ .nextChar → c.run s = .error (.lexError e) s' → Reportable file s' e := by
  intro h
  obtain ⟨e, s', hrun, hoffset⟩ := nextToken_stops (tokenises_hash 1300)
  have hran : Ran (List.replicate 1300 32 ++ [35]) (opened .normal (List.replicate 1300 32 ++ [35])) [] := .opened
  have hreport := h _ _ s' [] .nextToken e hran (by decide) hrun
  obtain ⟨p, hat, hstuck, hline, hcol, -⟩ := hran.error (by decide) hrun
  obtain rfl : 1300 = p := hoffset.symm.trans hat.offset
  have hstart : ∀ q, lineStart (List.replicate 1300 32 ++ [35]) q = 0 := by
    intro q
    induction q with
    | zero => rfl
    | succ q ih =>
      refine (lineStart_succ ?_).trans ih
      have hbyte : ∀ b : UInt8, (List.replicate 1300 32 ++ [35])[q]? = some b → b ≠ 10 ∧ b ≠ 13 := by
        intro b hb
        rcases List.mem_append.mp (List.mem_of_getElem? hb) with hb | hb
        · rw [List.eq_of_mem_replicate hb]
          decide
        · rw [List.mem_singleton.mp hb]
          decide
      rintro (hend | ⟨hend, -⟩)
      · exact (hbyte 10 hend).1 rfl
      · exact (hbyte 13 hend).2 rfl
  have hbefore : lineBefore (List.replicate 1300 32 ++ [35]) 1300 = List.replicate 1300 32 := by
    unfold lineBefore
    rw [hstart, List.drop_zero, List.take_left' List.length_replicate]
  have hcolumns := ((hat.reportable hstuck hline hcol).mp hreport).columns
  have hwidths : ∀ n, widths (List.replicate n 32) = n := by
    intro n
    induction n with
    | zero => rfl
    | succ n ih =>
      have hcons : widths (List.replicate (n + 1) 32) = 1 + widths (List.replicate n 32) := List.sum_cons
      rw [hcons, ih, Nat.add_comm]
  have hprintable : ∀ n, ((List.replicate n 32).countP fun b => Unprintable b) = 0 := by
    intro n
    rw [List.countP_replicate, if_neg (by decide)]
  rw [hbefore, List.drop_replicate, List.take_replicate, hwidths, hprintable] at hcolumns
  omega

end Mjc.Lexer

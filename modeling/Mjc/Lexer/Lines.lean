import Mathlib.Algebra.GroupWithZero.Nat
import Mjc.Lexer.Reader

/-!
# Lines and columns

What the line and the column of a byte are, and that the counters of `nextChar` hold them.

* `EndsLine` : a byte is the last one of a line end, which is LF, CR or the pair;
* `lineStarts`, `lineStart`, `lineOf`, `columnOf` : the starts of the lines up to a byte, the line it is in, its column;
* `LineState.After` : what the line-break machine knows, namely the character before;
* `track_eq` : the counters at a byte are its line, its column and the starts of the lines up to it.
-/

namespace Mjc.Lexer

set_option autoImplicit false

/-! ## The definition -/

/-- The byte at `p` ends a line: it is LF, or CR without LF behind it. -/
def EndsLine (file : List UInt8) (p : Nat) : Prop :=
  file[p]? = some 10 ∨ (file[p]? = some 13 ∧ file[p + 1]? ≠ some 10)

instance (file : List UInt8) (p : Nat) : Decidable (EndsLine file p) :=
  inferInstanceAs (Decidable (file[p]? = some 10 ∨ (file[p]? = some 13 ∧ file[p + 1]? ≠ some 10)))

/-- The line ends that lie completely before `p`, by their last bytes. -/
def lineEnds (file : List UInt8) (p : Nat) : List Nat := (List.range p).filter fun q => EndsLine file q

/-- The first bytes of the lines that start at `p` or before. -/
def lineStarts (file : List UInt8) (p : Nat) : List Nat := 0 :: (lineEnds file p).map (· + 1)

/-- The line of `p`. -/
def lineOf (file : List UInt8) (p : Nat) : Nat := 1 + (lineEnds file p).length

/-- The first byte of the line of `p`. -/
def lineStart (file : List UInt8) (p : Nat) : Nat := (lineStarts file p).getLastD 0

/-- The columns a byte takes: a tab is shown as two blanks. -/
def width (b : UInt8) : Nat := if b = 9 then 2 else 1

/-- The columns some bytes take. -/
def widths (bs : List UInt8) : Nat := (bs.map width).sum

/-- The bytes of the line of `p` that stand before it. -/
def lineBefore (file : List UInt8) (p : Nat) : List UInt8 := (file.take p).drop (lineStart file p)

/-- The column of `p`. -/
def columnOf (file : List UInt8) (p : Nat) : Nat := 1 + widths (lineBefore file p)

/-- The position of `p`. -/
def positionOf (file : List UInt8) (p : Nat) : TokenPos := ⟨lineOf file p, columnOf file p⟩

section
variable {file : List UInt8} {p : Nat}

theorem lineEnds_succ : lineEnds file (p + 1) = lineEnds file p ++ if EndsLine file p then [p] else [] := by
  unfold lineEnds
  rw [List.range_succ, List.filter_append]
  by_cases h : EndsLine file p
  · simp [h]
  · simp [h]

theorem lineStarts_succ :
    lineStarts file (p + 1) = lineStarts file p ++ if EndsLine file p then [p + 1] else [] := by
  unfold lineStarts
  rw [lineEnds_succ]
  by_cases h : EndsLine file p
  · simp [h]
  · simp [h]

theorem length_lineStarts : (lineStarts file p).length = lineOf file p := by
  unfold lineStarts lineOf
  rw [List.length_cons, List.length_map, Nat.add_comm]

/-- The table only grows. -/
theorem lineStarts_initial {q : Nat} (h : p ≤ q) : lineStarts file p <+: lineStarts file q := by
  induction q with
  | zero =>
    obtain rfl := Nat.le_zero.mp h
    exact List.prefix_rfl
  | succ q ih =>
    rcases Nat.le_succ_iff.mp h with h | rfl
    · refine (ih h).trans ?_
      rw [lineStarts_succ]
      exact List.prefix_append _ _
    · exact List.prefix_rfl

theorem lineStart_le : lineStart file p ≤ p := by
  induction p with
  | zero => exact Nat.le_refl 0
  | succ p ih =>
    unfold lineStart at ih ⊢
    rw [lineStarts_succ]
    by_cases h : EndsLine file p
    · have hlast : (lineStarts file p ++ [p + 1]).getLastD 0 = p + 1 := List.getLastD_concat
      rw [if_pos h]
      exact Nat.le_of_eq hlast
    · rw [if_neg h, List.append_nil]
      exact Nat.le_succ_of_le ih

theorem lineStart_succ_of_endsLine (h : EndsLine file p) : lineStart file (p + 1) = p + 1 := by
  unfold lineStart
  rw [lineStarts_succ, if_pos h, List.getLastD_concat]

theorem lineStart_succ (h : ¬ EndsLine file p) : lineStart file (p + 1) = lineStart file p := by
  unfold lineStart
  rw [lineStarts_succ, if_neg h, List.append_nil]

/-- A line starts in its first column. -/
theorem columnOf_succ_of_endsLine (h : EndsLine file p) : columnOf file (p + 1) = 1 := by
  unfold columnOf lineBefore
  rw [lineStart_succ_of_endsLine h, List.drop_eq_nil_of_le]
  · rfl
  · rw [List.length_take]
    exact Nat.min_le_left _ _

theorem lineBefore_succ {b : UInt8} (h : ¬ EndsLine file p) (hb : file[p]? = some b) :
    lineBefore file (p + 1) = lineBefore file p ++ [b] := by
  have hlt : p < file.length := (List.getElem?_eq_some_iff.mp hb).1
  have htake : file.take (p + 1) = file.take p ++ [b] := by
    rw [List.take_add_one, hb]
    rfl
  have hle : lineStart file p ≤ (file.take p).length := by
    rw [List.length_take_of_le (Nat.le_of_lt hlt)]
    exact lineStart_le
  unfold lineBefore
  rw [lineStart_succ h, htake, List.drop_append_of_le_length hle]

/-- Inside of a line the column grows by the width of the byte. -/
theorem columnOf_succ {b : UInt8} (h : ¬ EndsLine file p) (hb : file[p]? = some b) :
    columnOf file (p + 1) = columnOf file p + width b := by
  unfold columnOf widths
  rw [lineBefore_succ h hb, List.map_append, List.sum_append, Nat.add_assoc]
  simp

theorem widths_le (bs : List UInt8) : widths bs ≤ 2 * bs.length := by
  unfold widths
  induction bs with
  | nil => exact Nat.le_refl 0
  | cons b bs ih =>
    have hb : width b ≤ 2 := by unfold width; split <;> omega
    rw [List.map_cons, List.sum_cons, List.length_cons]
    omega

theorem columnOf_le (hp : p ≤ file.length) : columnOf file p ≤ 1 + 2 * p := by
  have hlength : (lineBefore file p).length ≤ p := by
    unfold lineBefore
    rw [List.length_drop, List.length_take_of_le hp]
    exact Nat.sub_le _ _
  have := widths_le (lineBefore file p)
  unfold columnOf
  omega

theorem lineOf_le : lineOf file p ≤ 1 + p := by
  have hends : (lineEnds file p).length ≤ (List.range p).length := List.length_filter_le _ _
  rw [List.length_range] at hends
  unfold lineOf
  omega

end

/-! ## The line-break machine -/

/-- The machine stands behind the character `c`. -/
def LineState.After : LineState → Int → Prop
  | .normal, c => c ≠ ch '\r' ∧ c ≠ ch '\n'
  | .cr, c => c = ch '\r'
  | .lf, c => c = ch '\n'
  | .crlf, c => c = ch '\n'

theorem LineState.next_after (s : LineState) (c : Int) : (s.next c).1.After c := by
  have hne : ch '\n' ≠ ch '\r' := by decide
  by_cases hcr : c = ch '\r'
  · subst hcr
    cases s <;> simp [LineState.next, LineState.After]
  · by_cases hlf : c = ch '\n'
    · subst hlf
      cases s <;> simp [LineState.next, LineState.After, hne]
    · cases s <;> simp [LineState.next, LineState.After, hcr, hlf]

theorem LineState.normal_newline (c : Int) : (LineState.normal.next c).2 = false := by
  by_cases hcr : c = ch '\r'
  · simp [LineState.next, hcr]
  · by_cases hlf : c = ch '\n'
    · simp [LineState.next, hlf, ch]
    · simp [LineState.next, hcr, hlf]

/-- A line starts behind LF, and behind CR unless LF follows. -/
theorem LineState.next_newline {s : LineState} {last : Int} (h : s.After last) (c : Int) :
    (s.next c).2 = true ↔ last = ch '\n' ∨ (last = ch '\r' ∧ c ≠ ch '\n') := by
  have hne : ch '\n' ≠ ch '\r' := by decide
  have hkind : c = ch '\r' ∨ c = ch '\n' ∨ (c ≠ ch '\r' ∧ c ≠ ch '\n') := by tauto
  cases s with
  | normal =>
    obtain ⟨hcr, hlf⟩ := h
    rcases hkind with rfl | rfl | ⟨hc, hc'⟩
    · simp [LineState.next, hcr, hlf]
    · simp [LineState.next, hcr, hlf, hne]
    · simp [LineState.next, hcr, hlf, hc, hc']
  | cr =>
    obtain rfl : last = ch '\r' := h
    rcases hkind with rfl | rfl | ⟨hc, hc'⟩
    · simp [LineState.next, hne.symm]
    · simp [LineState.next, hne, hne.symm]
    · simp [LineState.next, hc, hc']
  | lf =>
    obtain rfl : last = ch '\n' := h
    rcases hkind with rfl | rfl | ⟨hc, hc'⟩
    · simp [LineState.next]
    · simp [LineState.next, hne]
    · simp [LineState.next, hc, hc']
  | crlf =>
    obtain rfl : last = ch '\n' := h
    rcases hkind with rfl | rfl | ⟨hc, hc'⟩
    · simp [LineState.next]
    · simp [LineState.next, hne]
    · simp [LineState.next, hc, hc']

/-! ## The counters -/

theorem Track.count_newline {t : Track} {c : Int} (h : (t.lineState.next c).2 = true) (last : Int) (p : Nat) :
    t.count last c p = ⟨(t.lineState.next c).1, t.line + 1, 1, t.lineStartFileOffsets ++ [p]⟩ := by
  unfold Track.count
  exact if_pos h

theorem Track.count_same {t : Track} {c : Int} (h : ¬(t.lineState.next c).2 = true) (last : Int) (p : Nat) :
    t.count last c p = ⟨(t.lineState.next c).1, t.line, (if last = ch '\t' then t.column + 1 else t.column) + 1,
      t.lineStartFileOffsets⟩ := by
  unfold Track.count
  exact if_neg h

section
variable {file : List UInt8} {p : Nat}

theorem charAt_eq_ch {c : Char} (hc : c.toNat < 128) : charAt file p = ch c ↔ file[p]? = some (UInt8.ofNat c.toNat) := by
  have hb : ∀ b : UInt8, signed b = ch c ↔ b = UInt8.ofNat c.toNat := by
    intro b
    have hlt : b.toNat < 256 := b.toNat_lt
    rw [← UInt8.toNat_inj]
    unfold signed ch
    simp
    split <;> omega
  unfold charAt
  cases hget : file[p]? with
  | none =>
    have hne : ¬ EOF = ch c := by
      unfold EOF ch
      omega
    simp [hne]
  | some b => simp [hb]

/-- The next character starts a line exactly behind a line end. -/
theorem newline_iff {s : LineState} (h : s.After (charAt file p)) :
    (s.next (charAt file (p + 1))).2 = true ↔ EndsLine file p := by
  have hlf : ∀ q, charAt file q = ch '\n' ↔ file[q]? = some 10 := fun q => charAt_eq_ch (by decide)
  have hcr : charAt file p = ch '\r' ↔ file[p]? = some 13 := charAt_eq_ch (by decide)
  rw [LineState.next_newline h, hlf, hcr, ne_eq, hlf]
  rfl

/-- At every byte, and at the end of the file, the counters of the first lexer of the process hold the line and the column
of the byte and the starts of the lines up to it. -/
theorem track_eq (hp : p ≤ file.length) : (track .normal file p).lineState.After (charAt file p) ∧
    (track .normal file p).line = lineOf file p ∧ (track .normal file p).column = columnOf file p ∧
    (track .normal file p).lineStartFileOffsets = lineStarts file p := by
  induction p with
  | zero =>
    unfold track
    rw [Track.count_same (by simp [LineState.normal_newline])]
    exact ⟨LineState.next_after .normal _, rfl, by simp [columnOf, widths, lineBefore, ch], rfl⟩
  | succ p ih =>
    obtain ⟨hstate, hline, hcolumn, hstarts⟩ := ih (Nat.le_of_succ_le hp)
    have hnewline := newline_iff hstate
    obtain ⟨b, hb⟩ : ∃ b, file[p]? = some b := ⟨_, List.getElem?_eq_getElem hp⟩
    unfold track
    by_cases hend : EndsLine file p
    · rw [Track.count_newline (hnewline.mpr hend)]
      refine ⟨LineState.next_after _ _, ?_, (columnOf_succ_of_endsLine hend).symm, ?_⟩
      · rw [hline, ← length_lineStarts, ← length_lineStarts, lineStarts_succ, if_pos hend, List.length_append]
        rfl
      · rw [hstarts, lineStarts_succ, if_pos hend]
    · rw [Track.count_same (hnewline.not.mpr hend)]
      refine ⟨LineState.next_after _ _, ?_, ?_, ?_⟩
      · rw [hline, ← length_lineStarts, ← length_lineStarts, lineStarts_succ, if_neg hend, List.append_nil]
      · have htab : charAt file p = ch '\t' ↔ b = 9 := by
          rw [charAt_eq_ch (by decide), hb]
          exact Option.some_inj
        rw [columnOf_succ hend hb, hcolumn]
        unfold width
        by_cases h9 : b = 9
        · rw [if_pos (htab.mpr h9), if_pos h9]
        · rw [if_neg (htab.not.mpr h9), if_neg h9]
      · rw [hstarts, lineStarts_succ, if_neg hend, List.append_nil]

/-- The position a token gets is that of its first byte. -/
theorem posAt_eq (hp : p ≤ file.length) : posAt .normal file p = positionOf file p := by
  obtain ⟨-, hline, hcolumn, -⟩ := track_eq hp
  unfold posAt positionOf
  rw [hline, hcolumn]

end

end Mjc.Lexer

import Mjc.Lexer.ErrorLine

/-!
# The marks under an error line

Where the marks of `SourceLocation::writeErrorLineHighlight` stand. A line of more than 200 characters is cut: what is printed
is a part of it, with an ellipsis where something is left out.

* `Window` : a part of a line; `Window.Shows` : the column in which a character of the line is printed;
* `truncatedErrorLine_eq` : the window that is printed;
* `Highlights` : the marks stand below the highlighted characters, and no difference wraps;
* `highlights_iff` : they do if the line is not cut, and else unless the first character is highlighted, or one of the
  last two.
-/

namespace Mjc.Lexer

set_option autoImplicit false

/-! ## Windows -/

/-- A part of a line, with an ellipsis on the left or on the right. -/
structure Window where
  lead : Bool
  first : Nat
  count : Nat
  trail : Bool
  deriving DecidableEq, Repr

/-- What is printed of a line. -/
def Window.text (w : Window) (line : List UInt8) : List UInt8 :=
  (if w.lead then UTF8Ellipsis else []) ++ (line.drop w.first).take w.count ++ (if w.trail then UTF8Ellipsis else [])

/-- The character `i` of a line of characters with one column each is printed in column `c`, from 0 on. -/
def Window.Shows (w : Window) (c i : Nat) : Prop :=
  w.first ≤ i ∧ i < w.first + w.count ∧ c = i - w.first + if w.lead then 1 else 0

/-- A line of the length `n` is printed through the window `w`, with `marks` below it. -/
def Prints (print : List UInt8 → Option (List UInt8 × List Char)) (n : Nat) (w : Window) (marks : List Char) : Prop :=
  ∀ line, line.length = n → print line = some (w.text line, marks)

/-- A line that is not cut. -/
theorem text_whole (line : List UInt8) : (Window.mk false 0 line.length false).text line = line := by
  simp [Window.text]

/-- The part of the line that `truncatedErrorLine` prints, unless it starts behind the end. -/
def window (lineOffset n : Nat) : Window :=
  if 0 < lineOffset then
    if 199 + lineOffset < n then ⟨true, lineOffset, 198, true⟩ else ⟨true, lineOffset, 199, false⟩
  else if 200 < n then ⟨false, 0, 199, true⟩ else ⟨false, 0, 200, false⟩

theorem truncatedErrorLine_eq (line : List UInt8) (lineOffset : Nat) :
    truncatedErrorLine line lineOffset maxErrorLineLength =
      if lineOffset ≤ line.length then some ((window lineOffset line.length).text line) else none := by
  have hmax : maxErrorLineLength = 200 := rfl
  have hsubstr : ∀ len, substr line lineOffset len =
      if lineOffset ≤ line.length then some ((line.drop lineOffset).take len) else none := by
    intro len
    unfold substr
    by_cases h : lineOffset ≤ line.length
    · rw [if_neg (Nat.not_lt.mpr h), if_pos h]
    · rw [if_pos (Nat.not_le.mp h), if_neg h]
  unfold truncatedErrorLine window
  by_cases hpos : 0 < lineOffset
  · simp only [hpos, if_true, hmax]
    by_cases hlong : 199 + lineOffset < line.length
    · by_cases hle : lineOffset ≤ line.length
      · simp [hlong, hle, hsubstr, Window.text]
      · simp [hlong, hle, hsubstr]
    · by_cases hle : lineOffset ≤ line.length
      · simp [hlong, hle, hsubstr, Window.text]
      · simp [hlong, hle, hsubstr]
  · obtain rfl : lineOffset = 0 := by omega
    by_cases hlong : 200 < line.length
    · simp [hlong, hsubstr, hmax, Window.text]
    · simp [hlong, hsubstr, hmax, Window.text]

/-! ## Locations -/

namespace SourceLocation

/-- The character that is to be highlighted first. -/
def highlighted (loc : SourceLocation) (highlightEndToken : Bool) : Nat :=
  if highlightEndToken then loc.endToken.col - 1 else loc.startToken.col - 1

/-- The differences that are computed for a line of the length `n`. -/
def differences (loc : SourceLocation) (n : Nat) (highlightEndToken : Bool) : List (Nat × Nat) :=
  let highlightStart := loc.highlighted highlightEndToken
  let offset := min highlightStart (n - maxErrorLineLength)
  [(loc.startToken.col, 1), (loc.endToken.col, 1)] ++
    if maxErrorLineLength < n then
      (if 0 < offset then [(highlightStart, offset - 1)] else []) ++
        [(offset, 1), (loc.endToken.col - 1, sizeSub offset 1)]
    else []

/-- Below a line of `n` characters, the first mark stands below the character that is to be highlighted, all marks below
characters up to the end column, and no difference wraps. -/
def Highlights (loc : SourceLocation) (n : Nat) (highlightEndToken : Bool) : Prop :=
  ∃ w marks c, Prints (fun line => loc.writeErrorLineHighlight line highlightEndToken) n w marks ∧
    marks.take c = List.replicate c '~' ∧ marks[c]? = some '^' ∧ w.Shows c (loc.highlighted highlightEndToken) ∧
    (∀ i, marks[i]? = some '^' → ∃ j < loc.endToken.col, w.Shows i j) ∧
    ∀ d ∈ loc.differences n highlightEndToken, d.2 ≤ d.1

/-- `a` times the tilde, then `b` marks. -/
def underline (a b : Nat) : List Char := List.replicate a '~' ++ List.replicate b '^'

theorem underline_mark {a b i : Nat} : (underline a b)[i]? = some '^' ↔ a ≤ i ∧ i < a + b := by
  unfold underline
  by_cases hi : i < a
  · rw [List.getElem?_append_left (by rwa [List.length_replicate]), List.getElem?_replicate, if_pos hi]
    have hne : ¬ some '~' = some '^' := by decide
    exact iff_of_false hne (by omega)
  · rw [List.getElem?_append_right (by rw [List.length_replicate]; omega), List.length_replicate, List.getElem?_replicate]
    by_cases hb : i - a < b
    · rw [if_pos hb]
      exact iff_of_true rfl (by omega)
    · rw [if_neg hb]
      exact iff_of_false (by simp) (by omega)

theorem underline_take (a b : Nat) : (underline a b).take a = List.replicate a '~' := by
  unfold underline
  rw [List.take_append_of_le_length (Nat.le_of_eq List.length_replicate.symm), List.take_replicate, Nat.min_self]

/-- A line that is cut, and the first character: the offset is zero, and the difference of it and one wraps. -/
theorem not_highlights_first {loc : SourceLocation} {n : Nat} {highlightEndToken : Bool}
    (hn : maxErrorLineLength < n) (hfirst : loc.highlighted highlightEndToken = 0) : ¬ loc.Highlights n highlightEndToken := by
  rintro ⟨w, marks, c, -, -, -, -, -, hwrap⟩
  have hone : (1 : Nat) ≤ 0 := by
    refine hwrap (0, 1) ?_
    unfold differences
    simp [hfirst, hn]
  omega

section
variable {loc : SourceLocation} {n : Nat} {highlightEndToken : Bool} (hstart : 1 ≤ loc.startToken.col)
  (hle : loc.startToken.col ≤ loc.endToken.col)
include hstart hle

theorem start_eq : (if highlightEndToken then sizeSub loc.endToken.col 1 else sizeSub loc.startToken.col 1) =
    loc.highlighted highlightEndToken := by
  unfold highlighted sizeSub
  rw [if_pos hstart, if_pos (Nat.le_trans hstart hle)]

theorem highlighted_lt : loc.highlighted highlightEndToken < loc.endToken.col := by
  unfold highlighted
  split
  · omega
  · omega

variable (hline : loc.startToken.line = loc.endToken.line)
include hline

/-- The marks are drawn below the line, if it is not cut. -/
theorem write_short (hn : n ≤ maxErrorLineLength) :
    Prints (fun line => loc.writeErrorLineHighlight line highlightEndToken) n ⟨false, 0, n, false⟩
      (underline (loc.highlighted highlightEndToken) (loc.endToken.col - loc.highlighted highlightEndToken)) := by
  intro line hlength
  have hstop : sizeSub loc.endToken.col 1 + 1 = loc.endToken.col := by
    unfold sizeSub
    rw [if_pos (Nat.le_trans hstart hle)]
    omega
  subst hlength
  unfold writeErrorLineHighlight
  rw [text_whole]
  simp only [start_eq hstart hle]
  simp only [if_neg (Nat.not_lt.mpr hn), hline, if_true, hstop]
  rfl

/-- The marks below a line that is cut. -/
theorem write_long (hn : maxErrorLineLength < n) :
    let start := loc.highlighted highlightEndToken
    let offset := min start (n - maxErrorLineLength)
    let first := if 0 < offset then start - (offset - 1) else start
    Prints (fun line => loc.writeErrorLineHighlight line highlightEndToken) n (window offset n)
      (underline first (min (sizeSub (loc.endToken.col - 1) (sizeSub offset 1)) 198 + 1 - first)) := by
  intro start offset first line hlength
  have hstop : sizeSub loc.endToken.col 1 = loc.endToken.col - 1 := by
    unfold sizeSub
    rw [if_pos (Nat.le_trans hstart hle)]
  have hfirst : (if 0 < offset then sizeSub start (sizeSub offset 1) else start) = first := by
    show _ = if 0 < offset then start - (offset - 1) else start
    by_cases hpos : 0 < offset
    · have hone : sizeSub offset 1 = offset - 1 := by
        unfold sizeSub
        exact if_pos hpos
      have hmin : offset ≤ start := Nat.min_le_left _ _
      rw [if_pos hpos, if_pos hpos, hone]
      unfold sizeSub
      rw [if_pos (by omega)]
    · rw [if_neg hpos, if_neg hpos]
  have hoffset : offset ≤ line.length := by
    have hmin : offset ≤ n - maxErrorLineLength := Nat.min_le_right _ _
    omega
  subst hlength
  unfold writeErrorLineHighlight
  simp only [start_eq hstart hle]
  simp only [if_pos hn, hline, if_true, hstop]
  show (truncatedErrorLine line offset maxErrorLineLength).bind (fun text => some (text, List.replicate
    (if 0 < offset then sizeSub start (sizeSub offset 1) else start) '~' ++ _)) = _
  rw [truncatedErrorLine_eq, if_pos hoffset, hfirst]
  rfl

/-- A line that is not cut. -/
theorem highlights_short (hend : loc.endToken.col ≤ n) (hn : n ≤ maxErrorLineLength) :
    loc.Highlights n highlightEndToken := by
  have hlt := @highlighted_lt loc highlightEndToken hstart hle
  refine ⟨_, _, loc.highlighted highlightEndToken, write_short hstart hle hline hn, underline_take _ _,
    underline_mark.mpr ⟨Nat.le_refl _, by omega⟩, ⟨Nat.zero_le _, ?_, rfl⟩, fun i hi => ?_, ?_⟩
  · show _ < 0 + n
    omega
  · obtain ⟨-, hi⟩ := underline_mark.mp hi
    refine ⟨i, by omega, Nat.zero_le _, ?_, rfl⟩
    show _ < 0 + n
    omega
  · unfold differences
    simp only [if_neg (Nat.not_lt.mpr hn), List.append_nil]
    intro d hd
    rcases List.mem_cons.mp hd with rfl | hd
    · exact hstart
    · rw [List.mem_singleton.mp hd]
      exact Nat.le_trans hstart hle

/-- A line that is cut, with the first mark in it. -/
theorem highlights_long (hn : maxErrorLineLength < n)
    (hfirst : 0 < loc.highlighted highlightEndToken) (hlast : loc.highlighted highlightEndToken + 2 < n) :
    loc.Highlights n highlightEndToken := by
  have hmax : maxErrorLineLength = 200 := rfl
  have hlt := @highlighted_lt loc highlightEndToken hstart hle
  have hprints := @write_long loc n highlightEndToken hstart hle hline hn
  generalize hS : loc.highlighted highlightEndToken = start at *
  -- the window starts with the ellipsis, and the characters from `offset` on follow
  obtain ⟨offset, hoffset⟩ : ∃ offset, offset = min start (n - maxErrorLineLength) := ⟨_, rfl⟩
  have hpos : 0 < offset := by omega
  have hle' : offset ≤ start := by omega
  have hroom : 199 + offset < n := by omega
  have hin : start < offset + 198 := by omega
  have hone : sizeSub offset 1 = offset - 1 := if_pos hpos
  have hstop : sizeSub (loc.endToken.col - 1) (sizeSub offset 1) = loc.endToken.col - offset := by
    rw [hone]
    unfold sizeSub
    rw [if_pos (by omega)]
    omega
  have hwindow : window offset n = ⟨true, offset, 198, true⟩ := by
    unfold window
    rw [if_pos hpos, if_pos hroom]
  simp only [← hoffset, if_pos hpos, hstop, hwindow] at hprints
  refine ⟨_, _, start - (offset - 1), hprints, underline_take _ _, underline_mark.mpr ⟨Nat.le_refl _, by omega⟩,
    ⟨hS ▸ hle', hS ▸ hin, ?_⟩, fun i hi => ?_, ?_⟩
  · show _ = loc.highlighted highlightEndToken - offset + 1
    omega
  · obtain ⟨hlow, hhigh⟩ := underline_mark.mp hi
    refine ⟨offset + i - 1, by omega, ?_, ?_, ?_⟩
    · show offset ≤ _
      omega
    · show _ < offset + 198
      omega
    · show _ = offset + i - 1 - offset + 1
      omega
  · unfold differences
    simp only [hS, ← hoffset, if_pos hpos, if_pos hn]
    intro d hd
    simp only [List.mem_append, List.mem_cons, List.not_mem_nil, or_false, or_assoc] at hd
    rcases hd with rfl | rfl | rfl | rfl | rfl
    · exact hstart
    · exact Nat.le_trans hstart hle
    · show offset - 1 ≤ start
      omega
    · exact hpos
    · show sizeSub offset 1 ≤ loc.endToken.col - 1
      omega

/-- A line that is cut, and one of its last two characters: no mark is drawn. -/
theorem not_highlights_last (hend : loc.endToken.col ≤ n) (hn : maxErrorLineLength < n)
    (hlast : n ≤ loc.highlighted highlightEndToken + 2) : ¬ loc.Highlights n highlightEndToken := by
  have hmax : maxErrorLineLength = 200 := rfl
  have hlt := @highlighted_lt loc highlightEndToken hstart hle
  rintro ⟨w, marks, c, hprints, -, hmark, -⟩
  have hprints' := @write_long loc n highlightEndToken hstart hle hline hn
  have hsame := (hprints (List.replicate n 32) List.length_replicate).symm.trans
    (hprints' (List.replicate n 32) List.length_replicate)
  have hmarks := (Prod.mk.inj (Option.some.inj hsame)).2
  rw [hmarks, underline_mark, if_pos (by omega)] at hmark
  omega

end

end SourceLocation

/-- A location on one line is highlighted at the right place if and only if the line is not cut, or the character is not its
first one, nor one of the last two. -/
theorem highlights_iff (loc : SourceLocation) (n : Nat) (highlightEndToken : Bool) (hstart : 1 ≤ loc.startToken.col)
    (hle : loc.startToken.col ≤ loc.endToken.col) (hend : loc.endToken.col ≤ n)
    (hline : loc.startToken.line = loc.endToken.line) :
    loc.Highlights n highlightEndToken ↔ n ≤ maxErrorLineLength ∨
      (0 < loc.highlighted highlightEndToken ∧ loc.highlighted highlightEndToken + 2 < n) := by
  constructor
  · intro h
    by_contra hnot
    rw [not_or, not_and_or, Nat.not_le, Nat.not_lt, Nat.not_lt] at hnot
    obtain ⟨hn, hfirst | hlast⟩ := hnot
    · exact SourceLocation.not_highlights_first hn (Nat.le_zero.mp hfirst) h
    · exact SourceLocation.not_highlights_last hstart hle hline hend hn hlast h
  · rintro (hn | ⟨hfirst, hlast⟩)
    · exact SourceLocation.highlights_short hstart hle hline hend hn
    · by_cases hn : n ≤ maxErrorLineLength
      · exact SourceLocation.highlights_short hstart hle hline hend hn
      · exact SourceLocation.highlights_long hstart hle hline (Nat.not_le.mp hn) hfirst hlast

/-- The tenth character of a line of 300. -/
theorem highlights_sample : (SourceLocation.mk ⟨1, 10⟩ ⟨1, 10⟩).Highlights 300 false :=
  (highlights_iff ⟨⟨1, 10⟩, ⟨1, 10⟩⟩ 300 false (by decide) (by decide) (by decide) rfl).mpr (.inr (by decide))

/-- The last character of a line of 201. -/
theorem not_highlights_end : ¬∀ (loc : SourceLocation) (n : Nat) (highlightEndToken : Bool),
    1 ≤ loc.startToken.col → loc.startToken.col ≤ loc.endToken.col → loc.endToken.col ≤ n →
      loc.startToken.line = loc.endToken.line → loc.Highlights n highlightEndToken := by
  intro h
  have hlast := h ⟨⟨1, 201⟩, ⟨1, 201⟩⟩ 201 false (by decide) (by decide) (by decide) rfl
  exact SourceLocation.not_highlights_last (by decide) (by decide) rfl (by decide) (by decide) (by decide) hlast

end Mjc.Lexer

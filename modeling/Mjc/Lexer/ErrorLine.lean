import Mathlib.Algebra.GroupWithZero.Nat
import Mjc.Lexer.Basic

/-!
# Error lines

The text of a line that an error is reported with, and the marks under it: `getCurrentLineFromInput`, the two functions
`writeErrorLineHighlight`, and `truncatedErrorLine`. A text is a list of bytes; what is printed is a text and its marks,
`none` the exception of `substr` or `at`. The colours of the printed text are left out, and `size_t` differences wrap.
-/

namespace Mjc.Lexer

set_option autoImplicit false

/-! ## The text of a line -/

def maxLineLength : Nat := 1024

/-- What the loop of `getCurrentLineFromInput` appends for a character: two spaces for a tab, a middle dot for a character
that cannot be printed. -/
def shownChar (c : UInt8) : List UInt8 :=
  if c = 9 then [32, 32]
  else if !isprint c.toNat then [0xC2, 0xB7]
  else [c]

/-- The loop of `getCurrentLineFromInput`, from the character `c` on, and what comes behind it. -/
def readLine (lineLength : Nat) : List UInt8 → List UInt8
  | [] => []
  | c :: rest =>
    if c = 13 ∨ c = 10 then []
    else if lineLength + 1 < maxLineLength then shownChar c ++ readLine (lineLength + 1) rest
    else [46, 46, 46]

/-- `\empty-line`, in cyan. -/
def emptyLine : List UInt8 :=
  ("\x1b[0;36m\\empty-line\x1b[00m".toList).map fun c => UInt8.ofNat c.toNat

/-- `getCurrentLineFromInput`: `at` throws for a line without an entry. What it does to the stream is left out. -/
def State.getCurrentLineFromInput (s : State) : Nat → Option (List UInt8)
  | 0 => none
  | k + 1 => do
    let offset ← s.lineStartFileOffsets[k]?
    let res := readLine 0 (s.file.drop offset)
    some (if res.isEmpty then emptyLine else res)

/-! ## The marks -/

/-- `UTF8Ellipsis`. -/
def UTF8Ellipsis : List UInt8 := [0xE2, 0x80, 0xA6]

def maxErrorLineLength : Nat := 200

def substr (str : List UInt8) (pos len : Nat) : Option (List UInt8) :=
  if str.length < pos then none else some ((str.drop pos).take len)

def truncatedErrorLine (line : List UInt8) (lineOffset maxLen : Nat) : Option (List UInt8) := do
  let res := if 0 < lineOffset then UTF8Ellipsis else []
  let maxLen := if 0 < lineOffset then maxLen - 1 else maxLen
  if maxLen + lineOffset < line.length then
    return res ++ (← substr line lineOffset (maxLen - 1)) ++ UTF8Ellipsis
  else
    return res ++ (← substr line lineOffset maxLen)

/-- `LexError::writeErrorLineHighlight`: the line and the marks below it. -/
def LexError.writeErrorLineHighlight (e : LexError) (errorLine : List UInt8) : Option (List UInt8 × List Char) :=
  if maxErrorLineLength < e.col then do
    let highlightPos := maxErrorLineLength - 8
    let line ← truncatedErrorLine errorLine (e.col - highlightPos + 1) maxErrorLineLength
    some (line, List.replicate (highlightPos - 1) '~' ++ ['^'])
  else some (errorLine, List.replicate (e.col - 1) '~' ++ ['^'])

structure SourceLocation where
  startToken : TokenPos
  endToken : TokenPos
  deriving DecidableEq, Repr

/-- A difference of two values of type `size_t`. -/
def sizeSub (a b : Nat) : Nat := if b ≤ a then a - b else a + 2 ^ 64 - b

/-- `SourceLocation::writeErrorLineHighlight`: the line and the marks below it. -/
def SourceLocation.writeErrorLineHighlight (loc : SourceLocation) (errorLine : List UInt8) (highlightEndToken : Bool) :
    Option (List UInt8 × List Char) := do
  let highlightStart := if highlightEndToken then sizeSub loc.endToken.col 1 else sizeSub loc.startToken.col 1
  let highlightEnd := sizeSub loc.endToken.col 1
  let marks := fun highlightStart highlightEnd => List.replicate highlightStart '~' ++
    if loc.startToken.line = loc.endToken.line then List.replicate (highlightEnd + 1 - highlightStart) '^' else ['^']
  if maxErrorLineLength < errorLine.length then
    let offset := min highlightStart (errorLine.length - maxErrorLineLength)
    -- -1 because of leading ellipsis
    let highlightStart := if 0 < offset then sizeSub highlightStart (sizeSub offset 1) else highlightStart
    let highlightEnd := min (sizeSub highlightEnd (sizeSub offset 1)) (maxErrorLineLength - 2)
    let line ← truncatedErrorLine errorLine offset maxErrorLineLength
    return (line, marks highlightStart highlightEnd)
  else return (errorLine, marks highlightStart highlightEnd)

end Mjc.Lexer

import Mjc.Token

/-!
# The lexer

The functions of `lexer.cpp` and the inline ones of `lexer.hpp`, over an explicit state: the fields of
`Lexer`, its input stream, and the variable `lineState`, which is `static` in `nextChar` and so belongs to the
process and not to the object.

* `nextChar` : the buffered reader and the line counter; reading past the sentinel is the fault `pastSentinel`;
* `readNextToken` : blanks and comments, then one token;
* the loops of the source count down `State.bound`, which is never used up (`Lexer.Correctness`).

The name of the file and the text of the line an error is reported with are left out.
-/

namespace Mjc.Lexer

set_option autoImplicit false

abbrev TT := Token.Type

/-- The states of the line-break machine of `nextChar`. -/
inductive LineState where
  | normal | cr | lf | crlf
  deriving DecidableEq, Repr

/-- `TokenPos`. Its fields are `int`s, like the counters of the lexer: `State.InRange` says when they stay in range. -/
structure TokenPos where
  line : Nat
  col : Nat
  deriving DecidableEq, Repr

/-- `LexError`: where it is reported, and its message. -/
structure LexError where
  line : Nat
  col : Nat
  message : String
  deriving DecidableEq, Repr

/-- A lexer with its input stream (the bytes of the file and the position of the next read), and `lineState`. -/
structure State where
  file : List UInt8
  tellg : Nat
  lastChar : Int
  buffer : List Int
  nextCharPos : Nat
  curBufferSize : Nat
  streamIsEof : Bool
  bufferStartOffset : Nat
  tokenString : List Char
  line : Nat
  column : Nat
  tokenPos : TokenPos
  lineStartFileOffsets : List Nat
  tokenLookahead : List (Token × TokenPos)
  lineState : LineState
  deriving DecidableEq, Repr

/-- Why a lexer function does not return. -/
inductive Stop where
  | lexError (e : LexError)
  /-- a read of `buffer` past its last valid character -/
  | pastSentinel
  | outOfSteps
  deriving DecidableEq, Repr

/-- A member function of the lexer. A function that stops leaves the state it has reached. -/
abbrev L := EStateM Stop State

/-! ## The reader -/

/-- A character constant as an `int`. -/
def ch (c : Char) : Int := c.toNat

/-- A byte read as a `char`, which is signed. -/
def signed (b : UInt8) : Int := if b.toNat < 128 then b.toNat else (b.toNat : Int) - 256

/-- The `char` of an `int`, as a character of a string of bytes. -/
def toChar (c : Int) : Char := Char.ofNat (c % 256).toNat

/-- The sentinel after the last character of the file. -/
def EOF : Int := -1

def maxBufferSize : Nat := 1024

/-- `readIntoBuffer`: `read` sets `eof` when fewer bytes are left than it was asked for. -/
def State.readIntoBuffer (s : State) : State :=
  let chunk := (s.file.drop s.tellg).take maxBufferSize
  { s with
    bufferStartOffset := s.tellg
    tellg := s.tellg + chunk.length
    streamIsEof := chunk.length < maxBufferSize
    curBufferSize := chunk.length
    nextCharPos := 0
    buffer := chunk.map signed ++ (if chunk.length < maxBufferSize then [EOF] else []) }

def State.isEof (s : State) : Bool := s.streamIsEof && s.nextCharPos == s.curBufferSize + 1

/-- The switch of `nextChar`: the next state, and whether the character starts a new line. -/
def LineState.next : LineState → Int → LineState × Bool
  | .normal, c => if c = ch '\r' then (.cr, false) else if c = ch '\n' then (.lf, false) else (.normal, false)
  | .cr, c => if c = ch '\r' then (.cr, true) else if c = ch '\n' then (.crlf, false) else (.normal, true)
  | .lf, c => if c = ch '\r' then (.cr, true) else if c = ch '\n' then (.lf, true) else (.normal, true)
  | .crlf, c => if c = ch '\r' then (.cr, true) else if c = ch '\n' then (.lf, true) else (.normal, true)

/-- What `nextChar` does with the character it has just read. -/
def State.countLine (s : State) : State :=
  let next := s.lineState.next s.lastChar
  if next.2 then
    { s with
      lineState := next.1
      column := 1
      line := s.line + 1
      lineStartFileOffsets := s.lineStartFileOffsets ++ [s.bufferStartOffset + s.nextCharPos - 1] }
  else { s with lineState := next.1, column := s.column + 1 }

/-- The start of `nextChar`: one column more after a tab, which is printed as two spaces, and a new block when the
buffer is used up. -/
def State.prepare (s : State) : State :=
  let s := if s.lastChar = ch '\t' then { s with column := s.column + 1 } else s
  if !s.streamIsEof && s.nextCharPos == s.curBufferSize then s.readIntoBuffer else s

def nextChar : L Int := fun s =>
  let s := s.prepare
  match s.buffer[s.nextCharPos]? with
  | none => .error .pastSentinel s
  | some c =>
    let s := { s with lastChar := c, nextCharPos := s.nextCharPos + 1 }.countLine
    .ok s.lastChar s

def lastChar : L Int := fun s => .ok s.lastChar s

/-- The assignment `tokenString = str`. -/
def setTokenString (str : List Char) : L Unit := fun s => .ok () { s with tokenString := str }

/-- `tokenString += c`. -/
def append (c : Int) : L Unit := fun s => .ok () { s with tokenString := s.tokenString ++ [toChar c] }

def appendAndNext : L Unit := do
  append (← lastChar)
  let _ ← nextChar
  pure ()

def initToken : L Unit := fun s => .ok () { s with tokenString := [], tokenPos := ⟨s.line, s.column⟩ }

def makeToken (type : TT) : L (Token × TokenPos) := fun s =>
  .ok (⟨type, String.ofList s.tokenString⟩, s.tokenPos) s

def error {α : Type} (msg : String) : L α := fun s => .error (.lexError ⟨s.line, s.column, msg⟩) s

/-- `std::isprint` in the "C" locale. -/
def isprint (c : Int) : Bool := 0x20 ≤ c && c ≤ 0x7e

def invalidCharError {α : Type} (errorChar : Int) : L α :=
  if isprint errorChar then
    error ("Invalid input character: '" ++ String.singleton (toChar errorChar) ++ "'")
  else
    error ("Invalid input character: '" ++ "\\0x" ++
      String.ofList (Nat.toDigits 16 (errorChar % 256).toNat) ++ "'")

/-- What bounds the loops: the characters of the file and the sentinel. -/
def bound : L Nat := fun s => .ok (s.file.length + 1) s

def outOfSteps {α : Type} : L α := fun s => .error .outOfSteps s

/-! ## Characters -/

def isSpace (c : Int) : Bool := c = ch ' ' || c = ch '\r' || c = ch '\n' || c = ch '\t'

def isAlphaOrUnderscore (c : Int) : Bool :=
  (ch 'a' ≤ c && c ≤ ch 'z') || (ch 'A' ≤ c && c ≤ ch 'Z') || c = ch '_'

def isAlphaNumOrUnderscore (c : Int) : Bool :=
  (ch 'a' ≤ c && c ≤ ch 'z') || (ch 'A' ≤ c && c ≤ ch 'Z') || (ch '0' ≤ c && c ≤ ch '9') || c = ch '_'

def isDigit (c : Int) : Bool := ch '0' ≤ c && c ≤ ch '9'

/-- `lastChar & 0b1000'0000`. -/
def highBit (c : Int) : Bool := 128 ≤ c % 256

def identifierTokens : List (String × TT) :=
  [("boolean", .Boolean), ("class", .Class), ("else", .Else), ("false", .False), ("if", .If), ("int", .Int),
    ("new", .New), ("null", .Null), ("public", .Public), ("return", .Return), ("static", .Static),
    ("this", .This), ("true", .True), ("void", .Void), ("while", .While),
    -- reserved but unused keywords
    ("abstract", .ReservedKeyword), ("assert", .ReservedKeyword), ("break", .ReservedKeyword),
    ("byte", .ReservedKeyword), ("case", .ReservedKeyword), ("catch", .ReservedKeyword),
    ("char", .ReservedKeyword), ("const", .ReservedKeyword), ("continue", .ReservedKeyword),
    ("default", .ReservedKeyword), ("double", .ReservedKeyword), ("do", .ReservedKeyword),
    ("enum", .ReservedKeyword), ("extends", .ReservedKeyword), ("finally", .ReservedKeyword),
    ("final", .ReservedKeyword), ("float", .ReservedKeyword), ("for", .ReservedKeyword),
    ("goto", .ReservedKeyword), ("implements", .ReservedKeyword), ("import", .ReservedKeyword),
    ("instanceof", .ReservedKeyword), ("interface", .ReservedKeyword), ("long", .ReservedKeyword),
    ("native", .ReservedKeyword), ("package", .ReservedKeyword), ("private", .ReservedKeyword),
    ("protected", .ReservedKeyword), ("short", .ReservedKeyword), ("strictfp", .ReservedKeyword),
    ("super", .ReservedKeyword), ("switch", .ReservedKeyword), ("synchronized", .ReservedKeyword),
    ("throws", .ReservedKeyword), ("throw", .ReservedKeyword), ("transient", .ReservedKeyword),
    ("try", .ReservedKeyword), ("volatile", .ReservedKeyword)]

def getSingleCharOpToken (c : Int) : TT :=
  if c = ch '(' then .LParen
  else if c = ch ')' then .RParen
  else if c = ch '[' then .LBracket
  else if c = ch ']' then .RBracket
  else if c = ch '\x7b' then .LBrace
  else if c = ch '\x7d' then .RBrace
  else if c = ch '?' then .QMark
  else if c = ch ',' then .Comma
  else if c = ch '.' then .Dot
  else if c = ch ':' then .Colon
  else if c = ch ';' then .Semicolon
  else if c = ch '~' then .Tilde
  else .none

/-! ## Blanks and comments -/

/-- `do nextChar(); while (isSpace(lastChar));` -/
def skipSpaces : Nat → L Unit
  | 0 => outOfSteps
  | n + 1 => do
    let c ← nextChar
    if isSpace c then skipSpaces n else pure ()

/-- The loop over the characters of a comment; it returns after the closing `*/`. -/
def skipComment : Nat → L Unit
  | 0 => outOfSteps
  | n + 1 => do
    let s ← get
    if s.isEof then error "unexpected end of file in multi line comment"
    else if highBit s.lastChar then invalidCharError s.lastChar
    else if s.lastChar = ch '*' then
      let c ← nextChar
      if c = ch '/' then do
        let _ ← nextChar
        pure ()
      else skipComment n
    else do
      let _ ← nextChar
      skipComment n

/-- `skipCommentsAndWhitespaces`: true if a `/` that starts no comment has just been read. -/
def skipCommentsAndWhitespaces : Nat → L Bool
  | 0 => outOfSteps
  | n + 1 => do
    let c ← lastChar
    if c = ch '/' then do
      initToken
      let d ← nextChar
      if d = ch '*' then do
        let _ ← nextChar
        skipComment (← bound)
        skipCommentsAndWhitespaces n
      else pure true
    else if isSpace c then do
      skipSpaces (← bound)
      skipCommentsAndWhitespaces n
    else pure false

/-! ## Tokens -/

/-- `while (p(nextChar())) tokenString += lastChar;` -/
def readWhile (p : Int → Bool) : Nat → L Unit
  | 0 => outOfSteps
  | n + 1 => do
    let c ← nextChar
    if p c then do
      append c
      readWhile p n
    else pure ()

/-- An operator that may be followed by `=`; its first character has been read. -/
def readWithEq (plain withEq : TT) : L (Token × TokenPos) := do
  if (← lastChar) = ch '=' then do
    appendAndNext
    makeToken withEq
  else makeToken plain

/-- An operator of one character, or of two: `plain`, or one of two given second characters. -/
def readEither (first : Char) (c : Char) (cType : TT) (d : Char) (dType : TT) (plain : TT) :
    L (Token × TokenPos) := do
  setTokenString [first]
  let next ← nextChar
  if next = ch c then do
    appendAndNext
    makeToken cType
  else if next = ch d then do
    appendAndNext
    makeToken dType
  else makeToken plain

/-- An operator of one character, or that character and `=`. -/
def readOptEq (first : Char) (plain withEq : TT) : L (Token × TokenPos) := do
  setTokenString [first]
  let _ ← nextChar
  readWithEq plain withEq

/-- `readSlashFromSecondCharOn`: the `/` has been read already. -/
def readSlashFromSecondCharOn : L (Token × TokenPos) := do
  setTokenString ['/']
  readWithEq .Slash .SlashEq

def readDecNumber : L (Token × TokenPos) := do
  let c ← lastChar
  setTokenString [toChar c]
  if ch '0' = c then do
    let _ ← nextChar
    makeToken .IntLiteral
  else do
    readWhile isDigit (← bound)
    makeToken .IntLiteral

def readStar : L (Token × TokenPos) := readOptEq '*' .Star .StarEq
def readPercent : L (Token × TokenPos) := readOptEq '%' .Percent .PercentEq
def readPlus : L (Token × TokenPos) := readEither '+' '=' .PlusEq '+' .PlusPlus .Plus
def readMinus : L (Token × TokenPos) := readEither '-' '=' .MinusEq '-' .MinusMinus .Minus

def readLT : L (Token × TokenPos) := do
  setTokenString ['<']
  let next ← nextChar
  if next = ch '=' then do
    appendAndNext
    makeToken .LtEq
  else if next = ch '<' then do
    appendAndNext
    readWithEq .LtLt .LtLtEq
  else makeToken .Lt

def readGT : L (Token × TokenPos) := do
  setTokenString ['>']
  let next ← nextChar
  if next = ch '=' then do
    appendAndNext
    makeToken .GtEq
  else if next = ch '>' then do
    appendAndNext
    if (← lastChar) = ch '=' then do
      appendAndNext
      makeToken .GtGtEq
    else if (← lastChar) = ch '>' then do
      appendAndNext
      readWithEq .GtGtGt .GtGtGtEq
    else makeToken .GtGt
  else makeToken .Gt

def readEq : L (Token × TokenPos) := readOptEq '=' .Eq .EqEq
def readBang : L (Token × TokenPos) := readOptEq '!' .Bang .BangEq
def readAmp : L (Token × TokenPos) := readEither '&' '&' .AmpAmp '=' .AmpEq .Amp
def readVBar : L (Token × TokenPos) := readEither '|' '|' .VBarVBar '=' .VBarEq .VBar
def readCaret : L (Token × TokenPos) := readOptEq '^' .Caret .CaretEq

/-- The identifier branch of `readNextToken`. -/
def readIdentifier : L (Token × TokenPos) := do
  setTokenString [toChar (← lastChar)]
  readWhile isAlphaNumOrUnderscore (← bound)
  let s ← get
  match identifierTokens.lookup (String.ofList s.tokenString) with
  | some type => makeToken type
  | none => makeToken .Identifier

/-- The end of `readNextToken`: end of file, or a single character. -/
def readSingle : L (Token × TokenPos) := do
  let s ← get
  if s.isEof then do
    setTokenString ['E', 'O', 'F']
    makeToken .Eof
  else do
    setTokenString [toChar s.lastChar]
    if getSingleCharOpToken s.lastChar = .none then invalidCharError s.lastChar
    else do
      let _ ← nextChar
      makeToken (getSingleCharOpToken s.lastChar)

/-- `readNextToken` from the first character of the token on. -/
def readToken : L (Token × TokenPos) := do
  initToken
  let c ← lastChar
  if isAlphaOrUnderscore c then readIdentifier
  else if isDigit c then readDecNumber
  else if c = ch '*' then readStar
  else if c = ch '%' then readPercent
  else if c = ch '+' then readPlus
  else if c = ch '-' then readMinus
  else if c = ch '<' then readLT
  else if c = ch '>' then readGT
  else if c = ch '&' then readAmp
  else if c = ch '|' then readVBar
  else if c = ch '^' then readCaret
  else if c = ch '=' then readEq
  else if c = ch '!' then readBang
  else readSingle

def readNextToken : L (Token × TokenPos) := do
  if (← skipCommentsAndWhitespaces (← bound)) then readSlashFromSecondCharOn
  else readToken

def nextToken : L (Token × TokenPos) := fun s =>
  match s.tokenLookahead with
  | [] => readNextToken s
  | res :: rest => .ok res { s with tokenLookahead := rest }

/-- `for (i = tokenLookahead.size(); i <= numTokens; ++i) tokenLookahead.push_back(readNextToken());`, `n` times. -/
def pushLookahead : Nat → L Unit
  | 0 => pure ()
  | n + 1 => do
    let t ← readNextToken
    modify fun s => { s with tokenLookahead := s.tokenLookahead ++ [t] }
    pushLookahead n

/-- `lookAhead`; the deque then holds one token more than was asked for. -/
def lookAhead (numTokens : Nat) : L (Token × TokenPos) := do
  let s ← get
  if s.tokenLookahead.length < numTokens then
    pushLookahead (numTokens + 1 - s.tokenLookahead.length)
  let s ← get
  pure (s.tokenLookahead.getD (numTokens - 1) (Token.eof, ⟨0, 0⟩))

/-- The fields of a `Lexer` before its constructor runs. -/
def State.init (lineState : LineState) (file : List UInt8) : State where
  file := file
  tellg := 0
  lastChar := 0
  buffer := []
  nextCharPos := 0
  curBufferSize := 0
  streamIsEof := false
  bufferStartOffset := 0
  tokenString := []
  line := 1
  column := 0
  tokenPos := ⟨0, 0⟩
  lineStartFileOffsets := [0]
  tokenLookahead := []
  lineState := lineState

/-- The constructor `Lexer::Lexer`, over an open stream. -/
def construct (lineState : LineState) (file : List UInt8) : EStateM.Result Stop State Int :=
  nextChar (State.init lineState file).readIntoBuffer

/-! ## Reading a whole input -/

/-- The offset of the last character read. -/
def State.offset (s : State) : Nat := s.bufferStartOffset + s.nextCharPos - 1

/-- How a run ends: after the `Eof` token, or where a function has stopped. -/
inductive Finish where
  | eof (s : State)
  | stopped (e : Stop) (s : State)
  deriving DecidableEq, Repr

/-- Calls of `nextToken` until it returns `Eof`. -/
def readAll : Nat → State → List (Token × TokenPos) × Finish
  | 0, s => ([], .stopped .outOfSteps s)
  | n + 1, s =>
    match nextToken s with
    | .ok t s' => if t.1.type = .Eof then ([t], .eof s') else (t :: (readAll n s').1, (readAll n s').2)
    | .error e s' => ([], .stopped e s')

/-- A lexer over a file, read to the end. -/
def lexFile (lineState : LineState) (file : List UInt8) : List (Token × TokenPos) × Finish :=
  match construct lineState file with
  | .ok _ s => readAll (file.length + 1) s
  | .error e s => ([], .stopped e s)

end Mjc.Lexer

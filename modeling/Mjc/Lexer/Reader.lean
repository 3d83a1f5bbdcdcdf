import Mjc.Lexer.Basic

/-!
# The buffered reader

After the constructor and `p` more calls of `nextChar` the lexer's state is a function of the input and `p`: the
character at `p` is read, the buffer holds the block of the file `p` lies in, and the line counter has seen the
characters up to `p`.

* `charAt` : the character at an offset of the file, the sentinel at its end;
* `Track`, `track` : what `nextChar` counts;
* `stateAt` : the state; `construct_eq`, `nextChar_stateAt`, `isEof_stateAt` : the reader moves through these states.
-/

namespace Mjc.Lexer

set_option autoImplicit false

/-! ## Running a function -/

/-- Go on from the result of a function. -/
def thenRun {α β : Type} (r : EStateM.Result Stop State α) (f : α → L β) : EStateM.Result Stop State β :=
  match r with
  | .ok a s => f a s
  | .error e s => .error e s

@[simp] theorem thenRun_ok {α β : Type} (a : α) (s : State) (f : α → L β) : thenRun (.ok a s) f = f a s := rfl

@[simp] theorem thenRun_error {α β : Type} (e : Stop) (s : State) (f : α → L β) :
    thenRun (.error e s) f = .error e s := rfl

@[simp] theorem bind_run {α β : Type} (x : L α) (f : α → L β) (s : State) : (x >>= f) s = thenRun (x s) f := by
  show EStateM.bind x f s = _
  unfold EStateM.bind thenRun
  cases x s <;> rfl

@[simp] theorem map_run {α β : Type} (f : α → β) (x : L α) (s : State) :
    (f <$> x) s = thenRun (x s) fun a => pure (f a) := by
  show EStateM.map f x s = _
  unfold EStateM.map thenRun
  cases x s <;> rfl

@[simp] theorem pure_run {α : Type} (a : α) (s : State) : (pure a : L α) s = .ok a s := rfl

@[simp] theorem get_run (s : State) : (get : L State) s = .ok s s := rfl

@[simp] theorem ite_run {α : Type} {c : Prop} [Decidable c] (x y : L α) (s : State) :
    (if c then x else y) s = if c then x s else y s := by split <;> rfl

/-! ## The states of the reader -/

/-- The character at offset `p`, and the sentinel at the end of the file. -/
def charAt (file : List UInt8) (p : Nat) : Int := (file[p]?.map signed).getD EOF

/-- What `nextChar` counts. -/
structure Track where
  lineState : LineState
  line : Nat
  column : Nat
  lineStartFileOffsets : List Nat
  deriving DecidableEq, Repr

/-- Count the character `c` at offset `p`, after the character `last`. -/
def Track.count (t : Track) (last c : Int) (p : Nat) : Track :=
  let next := t.lineState.next c
  if next.2 then ⟨next.1, t.line + 1, 1, t.lineStartFileOffsets ++ [p]⟩
  else ⟨next.1, t.line, (if last = ch '\t' then t.column + 1 else t.column) + 1, t.lineStartFileOffsets⟩

/-- The counters when the character at offset `p` is the last one read. -/
def track (lineState : LineState) (file : List UInt8) : Nat → Track
  | 0 => Track.count ⟨lineState, 1, 0, [0]⟩ 0 (charAt file 0) 0
  | p + 1 => (track lineState file p).count (charAt file p) (charAt file (p + 1)) (p + 1)

/-- The block of the file with offset `p`. -/
def chunkAt (file : List UInt8) (p : Nat) : List UInt8 :=
  (file.drop (maxBufferSize * (p / maxBufferSize))).take maxBufferSize

/-- The state of a lexer that has read the characters up to offset `p`, with the token under construction and the
lookahead. -/
def stateAt (ls : LineState) (file : List UInt8) (p : Nat) (str : List Char) (pos : TokenPos)
    (ahead : List (Token × TokenPos)) : State where
  file := file
  tellg := maxBufferSize * (p / maxBufferSize) + (chunkAt file p).length
  lastChar := charAt file p
  buffer := (chunkAt file p).map signed ++ (if (chunkAt file p).length < maxBufferSize then [EOF] else [])
  nextCharPos := p % maxBufferSize + 1
  curBufferSize := (chunkAt file p).length
  streamIsEof := (chunkAt file p).length < maxBufferSize
  bufferStartOffset := maxBufferSize * (p / maxBufferSize)
  tokenString := str
  line := (track ls file p).line
  column := (track ls file p).column
  tokenPos := pos
  lineStartFileOffsets := (track ls file p).lineStartFileOffsets
  tokenLookahead := ahead
  lineState := (track ls file p).lineState

variable {ls : LineState} {file : List UInt8} {p : Nat} {str : List Char} {pos : TokenPos}
  {ahead : List (Token × TokenPos)}

/-! ## Blocks of the file -/

theorem length_chunkAt : (chunkAt file p).length =
    min maxBufferSize (file.length - maxBufferSize * (p / maxBufferSize)) := by
  unfold chunkAt
  rw [List.length_take, List.length_drop]

/-- The character at `p` stands in the buffer that holds its block. -/
theorem buffer_getElem (hp : p ≤ file.length) :
    ((chunkAt file p).map signed ++
      (if (chunkAt file p).length < maxBufferSize then [EOF] else []))[p % maxBufferSize]?
      = some (charAt file p) := by
  have hsize : (chunkAt file p).length =
      min maxBufferSize (file.length - maxBufferSize * (p / maxBufferSize)) := length_chunkAt
  have hmax : maxBufferSize = 1024 := rfl
  have hdiv := Nat.div_add_mod p maxBufferSize
  have hmod : p % maxBufferSize < maxBufferSize := Nat.mod_lt _ (by decide)
  by_cases hlt : p < file.length
  · -- inside the file
    have hin : p % maxBufferSize < (chunkAt file p).length := by omega
    rw [List.getElem?_append_left (by simpa using hin)]
    unfold chunkAt charAt
    rw [List.getElem?_map, List.getElem?_take_of_lt hmod, List.getElem?_drop, hdiv]
    simp [List.getElem?_eq_getElem hlt]
  · -- the sentinel
    have heq : p % maxBufferSize = (chunkAt file p).length := by omega
    have hshort : (chunkAt file p).length < maxBufferSize := by omega
    have hnone : file[p]? = none := List.getElem?_eq_none (by omega)
    rw [heq, if_pos hshort, List.getElem?_append_right (by simp)]
    simp [charAt, hnone]

/-- Reading the next block, from the end of a full one. -/
theorem chunkAt_next (hp : p % maxBufferSize + 1 = maxBufferSize) :
    (p + 1) / maxBufferSize = p / maxBufferSize + 1 ∧ (p + 1) % maxBufferSize = 0 := by
  unfold maxBufferSize at *
  omega

theorem chunkAt_same (hp : p % maxBufferSize + 1 ≠ maxBufferSize) :
    (p + 1) / maxBufferSize = p / maxBufferSize ∧ (p + 1) % maxBufferSize = p % maxBufferSize + 1 := by
  unfold maxBufferSize at *
  omega

/-! ## The reader -/

/-- The end of `nextChar`: the character at `p` has just been taken from the buffer. -/
theorem countLine_eq (t : Track) (last : Int) (s : State) (hc : s.lastChar = charAt file p)
    (hoff : s.bufferStartOffset + s.nextCharPos - 1 = p) (hls : s.lineState = t.lineState)
    (hline : s.line = t.line) (hcol : s.column = if last = ch '\t' then t.column + 1 else t.column)
    (hoffs : s.lineStartFileOffsets = t.lineStartFileOffsets) :
    s.countLine = { s with
      lineState := (t.count last (charAt file p) p).lineState
      line := (t.count last (charAt file p) p).line
      column := (t.count last (charAt file p) p).column
      lineStartFileOffsets := (t.count last (charAt file p) p).lineStartFileOffsets } := by
  unfold State.countLine Track.count
  rw [hc, hls, hoff, hline, hcol, hoffs]
  by_cases h : (t.lineState.next (charAt file p)).2 = true
  · simp [h]
  · simp [h, ← hline, ← hoffs]

/-- The state just before the character at `p + 1` is taken from the buffer. -/
def readyAt (ls : LineState) (file : List UInt8) (p : Nat) (str : List Char) (pos : TokenPos)
    (ahead : List (Token × TokenPos)) : State :=
  { stateAt ls file (p + 1) str pos ahead with
    lastChar := charAt file p
    nextCharPos := (p + 1) % maxBufferSize
    lineState := (track ls file p).lineState
    line := (track ls file p).line
    column := if charAt file p = ch '\t' then (track ls file p).column + 1 else (track ls file p).column
    lineStartFileOffsets := (track ls file p).lineStartFileOffsets }

theorem prepare_stateAt (hp : p < file.length) :
    (stateAt ls file p str pos ahead).prepare = readyAt ls file p str pos ahead := by
  have hsize : (chunkAt file p).length =
      min maxBufferSize (file.length - maxBufferSize * (p / maxBufferSize)) := length_chunkAt
  have hdiv := Nat.div_add_mod p maxBufferSize
  have hmax : maxBufferSize = 1024 := rfl
  by_cases hfull : p % maxBufferSize + 1 = maxBufferSize
  · -- the last character of a full block: read the next one
    obtain ⟨hq, hr⟩ := chunkAt_next hfull
    have hlen : (chunkAt file p).length = maxBufferSize := by omega
    have hnext : maxBufferSize * (p / maxBufferSize) + maxBufferSize = maxBufferSize * ((p + 1) / maxBufferSize) := by
      rw [hq, Nat.mul_add, Nat.mul_one]
    have hchunk : (file.drop (maxBufferSize * ((p + 1) / maxBufferSize))).take maxBufferSize = chunkAt file (p + 1) := rfl
    by_cases htab : charAt file p = ch '\t'
    · simp [State.prepare, stateAt, readyAt, htab, hlen, hfull, State.readIntoBuffer, hnext, hchunk, hr]
    · simp [State.prepare, stateAt, readyAt, htab, hlen, hfull, State.readIntoBuffer, hnext, hchunk, hr]
  · -- the block stays
    obtain ⟨hq, hr⟩ := chunkAt_same hfull
    have hchunk : chunkAt file (p + 1) = chunkAt file p := by unfold chunkAt; rw [hq]
    by_cases htab : charAt file p = ch '\t'
    · simp [State.prepare, stateAt, readyAt, htab, hq, hr, hchunk]
      omega
    · simp [State.prepare, stateAt, readyAt, htab, hq, hr, hchunk]
      omega

/-- One call of `nextChar`, before the end of the file. -/
theorem nextChar_stateAt (hp : p < file.length) :
    nextChar (stateAt ls file p str pos ahead)
      = .ok (charAt file (p + 1)) (stateAt ls file (p + 1) str pos ahead) := by
  have hread : (readyAt ls file p str pos ahead).buffer[(readyAt ls file p str pos ahead).nextCharPos]?
      = some (charAt file (p + 1)) := buffer_getElem (p := p + 1) hp
  have hdiv := Nat.div_add_mod (p + 1) maxBufferSize
  unfold nextChar
  simp only [prepare_stateAt hp, hread]
  rw [@countLine_eq file (p + 1) (track ls file p) (charAt file p)]
  · rfl
  · rfl
  · simp only [readyAt, stateAt]
    omega
  all_goals rfl

/-- The constructor. -/
theorem construct_eq : construct ls file = .ok (charAt file 0) (stateAt ls file 0 [] ⟨0, 0⟩ []) := by
  have hread : ((chunkAt file 0).map signed ++
      (if (chunkAt file 0).length < maxBufferSize then [EOF] else []))[0]? = some (charAt file 0) :=
    buffer_getElem (p := 0) (Nat.zero_le _)
  have hinit : (State.init ls file).readIntoBuffer = { State.init ls file with
      tellg := (chunkAt file 0).length
      streamIsEof := (chunkAt file 0).length < maxBufferSize
      curBufferSize := (chunkAt file 0).length
      buffer := (chunkAt file 0).map signed ++
        (if (chunkAt file 0).length < maxBufferSize then [EOF] else []) } := by
    simp [State.readIntoBuffer, State.init, chunkAt]
  have hprep : (State.init ls file).readIntoBuffer.prepare = (State.init ls file).readIntoBuffer := by
    rw [hinit]
    by_cases hz : (chunkAt file 0).length = 0
    · simp [State.prepare, State.init, hz, maxBufferSize, ch]
    · simp [State.prepare, State.init, beq_false_of_ne (Ne.symm hz), ch]
  unfold construct nextChar
  simp only [hprep]
  rw [hinit]
  simp only [State.init, hread]
  rw [@countLine_eq file 0 ⟨ls, 1, 0, [0]⟩ 0]
  · simp [stateAt, track]
  all_goals rfl

theorem isEof_stateAt (hp : p ≤ file.length) :
    (stateAt ls file p str pos ahead).isEof = decide (p = file.length) := by
  have hsize : (chunkAt file p).length =
      min maxBufferSize (file.length - maxBufferSize * (p / maxBufferSize)) := length_chunkAt
  have hdiv := Nat.div_add_mod p maxBufferSize
  have hmod : p % maxBufferSize < maxBufferSize := Nat.mod_lt _ (by decide)
  simp only [State.isEof, stateAt]
  rw [Bool.eq_iff_iff]
  simp only [Bool.and_eq_true, decide_eq_true_eq, beq_iff_eq, Nat.add_right_cancel_iff]
  omega

/-! ## Before and after the character

The same state by what has been read and what is left: the head of `rest` is the last character read. -/

/-- The first character of what is left. -/
def cur (rest : List UInt8) : Int := (rest.head?.map signed).getD EOF

/-- The state with `pre` behind the last character read. -/
def here (ls : LineState) (pre rest : List UInt8) (str : List Char) (pos : TokenPos)
    (ahead : List (Token × TokenPos)) : State := stateAt ls (pre ++ rest) pre.length str pos ahead

/-- The position a token gets that starts with the byte at offset `p`. -/
def posAt (ls : LineState) (file : List UInt8) (p : Nat) : TokenPos :=
  ⟨(track ls file p).line, (track ls file p).column⟩

section Here

variable {pre rest : List UInt8} {b : UInt8}

theorem charAt_append : charAt (pre ++ rest) pre.length = cur rest := by
  unfold charAt cur
  rw [List.getElem?_append_right (Nat.le_refl _), Nat.sub_self, List.head?_eq_getElem?]

@[simp] theorem here_lastChar : (here ls pre rest str pos ahead).lastChar = cur rest := charAt_append

@[simp] theorem here_tokenString : (here ls pre rest str pos ahead).tokenString = str := rfl

@[simp] theorem here_tokenPos : (here ls pre rest str pos ahead).tokenPos = pos := rfl

@[simp] theorem here_file : (here ls pre rest str pos ahead).file = pre ++ rest := rfl

@[simp] theorem here_isEof : (here ls pre rest str pos ahead).isEof = rest.isEmpty := by
  unfold here
  rw [isEof_stateAt (by simp)]
  cases rest with
  | nil => simp
  | cons b rest => simp

theorem construct_here : construct ls rest = .ok (cur rest) (here ls [] rest [] ⟨0, 0⟩ []) := by
  rw [construct_eq]
  rw [show charAt rest 0 = cur rest from @charAt_append [] rest]
  rfl

@[simp] theorem nextChar_here : nextChar (here ls pre (b :: rest) str pos ahead)
    = .ok (cur rest) (here ls (pre ++ [b]) rest str pos ahead) := by
  have hfile : pre ++ b :: rest = (pre ++ [b]) ++ rest := by simp
  have hlen : pre.length + 1 = (pre ++ [b]).length := by simp
  unfold here
  rw [nextChar_stateAt (by simp), hlen, hfile, charAt_append]

@[simp] theorem lastChar_here :
    lastChar (here ls pre rest str pos ahead) = .ok (cur rest) (here ls pre rest str pos ahead) := by
  unfold lastChar
  rw [here_lastChar]

@[simp] theorem setTokenString_here {str' : List Char} :
    setTokenString str' (here ls pre rest str pos ahead) = .ok () (here ls pre rest str' pos ahead) := rfl

@[simp] theorem append_here {c : Int} :
    append c (here ls pre rest str pos ahead) = .ok () (here ls pre rest (str ++ [toChar c]) pos ahead) := rfl

@[simp] theorem initToken_here : initToken (here ls pre rest str pos ahead)
    = .ok () (here ls pre rest [] (posAt ls (pre ++ rest) pre.length) ahead) := rfl

@[simp] theorem makeToken_here {type : TT} : makeToken type (here ls pre rest str pos ahead)
    = .ok (⟨type, String.ofList str⟩, pos) (here ls pre rest str pos ahead) := rfl

@[simp] theorem bound_here : bound (here ls pre rest str pos ahead)
    = .ok ((pre ++ rest).length + 1) (here ls pre rest str pos ahead) := rfl

end Here

end Mjc.Lexer

import Mjc.Lexer.Closed

/-!
# One lexer after another

`lineState` is a static variable of `nextChar`: a lexer starts in the state in which the one before it stopped.

* `Call`, `Session`, `Session.run` : a lexer over one input, used for some calls and then left;
* `leave`, `process` : several lexers one after the other in one process;
* `Primitive` : a relation between two lexer states that the small functions keep; all that read a token keep it then;
* `Parametric` : a relation that every function keeps, once `nextChar` keeps it;
* `report_eq_iff` : the last lexer reports what it would report alone, exactly when the one before it has not
  stopped at a line end, or at a CR that the new input goes on with LF.
-/

namespace Mjc.Lexer

set_option autoImplicit false

/-! ## Sessions -/

/-- A use of a lexer. `nextChar` stands for being left in the middle of a token. -/
inductive Call where
  | nextToken
  /-- `lookAhead(k + 1)` -/
  | lookAhead (k : Nat)
  | nextChar
  deriving DecidableEq, Repr

def Call.run : Call → L (Option (Token × TokenPos))
  | .nextToken => some <$> Lexer.nextToken
  | .lookAhead k => some <$> Lexer.lookAhead (k + 1)
  | .nextChar => (fun _ => none) <$> Lexer.nextChar

/-- The calls one after the other, up to the first that does not return: the tokens, the reason, the last state. -/
def runCalls : List Call → State → List (Token × TokenPos) × Option Stop × State
  | [], s => ([], none, s)
  | c :: cs, s =>
    match c.run s with
    | .ok t s' => (t.toList ++ (runCalls cs s').1, (runCalls cs s').2)
    | .error e s' => ([], some e, s')

/-- An input, and the calls made before the lexer is left. -/
structure Session where
  file : List UInt8
  calls : List Call
  deriving DecidableEq, Repr

def Session.run (x : Session) (lineState : LineState) : List (Token × TokenPos) × Option Stop × State :=
  match construct lineState x.file with
  | .ok _ s => runCalls x.calls s
  | .error e s => ([], some e, s)

/-- What the session shows: the tokens with their positions, the error, and the starts of the lines. -/
def Session.report (x : Session) (lineState : LineState) : List (Token × TokenPos) × Option Stop × List Nat :=
  let r := x.run lineState
  (r.1, r.2.1, r.2.2.lineStartFileOffsets)

/-- The static variable, given the last lexer of the process. -/
def lineStateAfter : Option State → LineState
  | none => .normal
  | some s => s.lineState

/-- The next session of the process. -/
def leave (prev : Option State) (x : Session) : Option State := some (x.run (lineStateAfter prev)).2.2

/-- The lexer that was left last, after some sessions. -/
def process (history : List Session) : Option State := history.foldl leave none

/-! ## Two lexers in step -/

/-- Two results with the same value or the same error, and related states. -/
inductive Agreed {α : Type} (R : State → State → Prop) :
    EStateM.Result Stop State α → EStateM.Result Stop State α → Prop where
  | ok {a : α} {s s' : State} (h : R s s') : Agreed R (.ok a s) (.ok a s')
  | error {e : Stop} {s s' : State} (h : R s s') : Agreed R (.error e s) (.error e s')

/-- A function that related states run alike. -/
def Agree {α : Type} (R : State → State → Prop) (f : L α) : Prop := ∀ s s', R s s' → Agreed R (f s) (f s')

/-- A relation that the functions of the lexer keep: the states differ in `lineState` at most, the token under
construction and the lookahead do not matter, and `nextChar` keeps it. -/
structure Parametric (R : State → State → Prop) : Prop where
  same : ∀ s s', R s s' → ∃ x, s' = { s with lineState := x }
  token : ∀ s s', R s s' → ∀ str pos ahead,
    R { s with tokenString := str, tokenPos := pos, tokenLookahead := ahead }
      { s' with tokenString := str, tokenPos := pos, tokenLookahead := ahead }
  next : Agree R nextChar

section Agree

variable {α β : Type} {R : State → State → Prop}

theorem Agree.pure (a : α) : Agree R (pure a : L α) := fun _ _ h => .ok h

theorem Agreed.thenRun {r r' : EStateM.Result Stop State α} {f : α → L β} (h : Agreed R r r')
    (hf : ∀ a, Agree R (f a)) : Agreed R (thenRun r f) (Lexer.thenRun r' f) := by
  cases h with
  | @ok a t t' ht => exact hf a t t' ht
  | error ht => exact .error ht

theorem Agree.bind {x : L α} {f : α → L β} (hx : Agree R x) (hf : ∀ a, Agree R (f a)) : Agree R (x >>= f) := by
  intro s s' h
  rw [bind_run, bind_run]
  exact (hx s s' h).thenRun hf

theorem Agree.map {x : L α} (f : α → β) (hx : Agree R x) : Agree R (f <$> x) := by
  intro s s' h
  rw [map_run, map_run]
  exact (hx s s' h).thenRun fun a => .pure (f a)

theorem Agree.ite {c : Prop} [Decidable c] {x y : L α} (hx : Agree R x) (hy : Agree R y) :
    Agree R (if c then x else y) := by
  split
  · exact hx
  · exact hy

theorem Agree.outOfSteps : Agree R (outOfSteps : L α) := fun _ _ h => .error h

end Agree

/-- The functions that read the file, the characters and the token, as far as the others are made of them. -/
structure Primitive (R : State → State → Prop) : Prop where
  view : ∀ s s', R s s' → SameView s s'
  next : Agree R nextChar
  lastChar : Agree R lastChar
  setTokenString : ∀ str, Agree R (setTokenString str)
  append : ∀ c, Agree R (append c)
  initToken : Agree R initToken
  makeToken : ∀ type, Agree R (makeToken type)
  error : ∀ {α : Type} (msg : String), Agree R (error msg : L α)
  bound : Agree R bound

/-- A function that reads the state, and does the same in related ones. -/
theorem Agree.get {α : Type} {R : State → State → Prop} {k : State → L α} (hk : ∀ s, Agree R (k s))
    (hsame : ∀ s s', R s s' → k s' = k s) : Agree R (do let s ← get; k s) := by
  intro s s' h
  rw [bind_run, bind_run, get_run, get_run, thenRun_ok, thenRun_ok, hsame s s' h]
  exact hk s s s' h

namespace Primitive

variable {R : State → State → Prop} (hR : Primitive R)
include hR

/-- Functions that related states run alike. -/
theorem closed : ClosedUnder fun _ => Agree R where
  pure := .pure
  bind := .bind
  get hk hsame := .get hk fun s s' h => hsame s s' (hR.view s s' h)
  outOfSteps := .outOfSteps
  next := hR.next
  lastChar := hR.lastChar
  setTokenString := hR.setTokenString
  append := hR.append
  initToken := hR.initToken
  makeToken := hR.makeToken
  error := hR.error
  bound := hR.bound

theorem readNextToken : Agree R readNextToken := hR.closed.readNextToken

end Primitive

namespace Parametric

variable {α : Type} {R : State → State → Prop} (hR : Parametric R)
include hR

/-- A function that reads the state, and does the same whatever `lineState` is. -/
theorem get {k : State → L α} (hk : ∀ s, Agree R (k s)) (hsame : ∀ s x, k { s with lineState := x } = k s) :
    Agree R (do let s ← get; k s) := by
  refine Agree.get hk fun s s' h => ?_
  obtain ⟨x, rfl⟩ := hR.same s s' h
  exact hsame s x

theorem primitive : Primitive R where
  view s s' h := by
    obtain ⟨x, rfl⟩ := hR.same s s' h
    exact ⟨rfl, rfl, rfl⟩
  next := hR.next
  lastChar s s' h := by
    obtain ⟨x, rfl⟩ := hR.same s s' h
    exact .ok h
  setTokenString str s s' h := by
    obtain ⟨x, rfl⟩ := hR.same s s' h
    exact .ok (hR.token s _ h str s.tokenPos s.tokenLookahead)
  append c s s' h := by
    obtain ⟨x, rfl⟩ := hR.same s s' h
    exact .ok (hR.token s _ h (s.tokenString ++ [toChar c]) s.tokenPos s.tokenLookahead)
  initToken s s' h := by
    obtain ⟨x, rfl⟩ := hR.same s s' h
    exact .ok (hR.token s _ h [] ⟨s.line, s.column⟩ s.tokenLookahead)
  makeToken type s s' h := by
    obtain ⟨x, rfl⟩ := hR.same s s' h
    exact .ok h
  error msg s s' h := by
    obtain ⟨x, rfl⟩ := hR.same s s' h
    exact .error h
  bound s s' h := by
    obtain ⟨x, rfl⟩ := hR.same s s' h
    exact .ok h

theorem readNextToken : Agree R readNextToken := hR.primitive.readNextToken

/-! ### Calls -/

theorem nextToken : Agree R nextToken := by
  intro s s' h
  have hahead : s'.tokenLookahead = s.tokenLookahead := by
    obtain ⟨x, rfl⟩ := hR.same s s' h
    rfl
  unfold Lexer.nextToken
  rw [hahead]
  cases s.tokenLookahead with
  | nil => exact hR.readNextToken s s' h
  | cons res rest =>
    obtain ⟨x, rfl⟩ := hR.same s s' h
    exact .ok (hR.token s _ h s.tokenString s.tokenPos rest)

theorem pushLookahead (n : Nat) : Agree R (pushLookahead n) := by
  induction n with
  | zero => exact .pure ()
  | succ n ih =>
    refine .bind hR.readNextToken fun t => .bind ?_ fun _ => ih
    intro s s' h
    obtain ⟨x, rfl⟩ := hR.same s s' h
    exact .ok (hR.token s _ h s.tokenString s.tokenPos (s.tokenLookahead ++ [t]))

theorem lookAhead (numTokens : Nat) : Agree R (lookAhead numTokens) := by
  apply hR.get
  · intro s
    have hlast : Agree R (do
        let s ← MonadState.get
        Pure.pure (s.tokenLookahead.getD (numTokens - 1) (Token.eof, ⟨0, 0⟩)) : L (Token × TokenPos)) :=
      hR.get (fun s => .pure _) fun s x => rfl
    exact .ite (.bind (hR.pushLookahead _) fun _ => hlast) hlast
  · intro s x
    rfl

theorem call (c : Call) : Agree R c.run := by
  cases c with
  | nextToken => exact .map _ hR.nextToken
  | lookAhead k => exact .map _ (hR.lookAhead _)
  | nextChar => exact .map _ hR.next

/-- Related lexers show the same, and stay related. -/
theorem runCalls (cs : List Call) {s s' : State} (h : R s s') :
    (runCalls cs s).1 = (Lexer.runCalls cs s').1 ∧ (Lexer.runCalls cs s).2.1 = (Lexer.runCalls cs s').2.1 ∧
      R (Lexer.runCalls cs s).2.2 (Lexer.runCalls cs s').2.2 := by
  induction cs generalizing s s' with
  | nil => exact ⟨rfl, rfl, h⟩
  | cons c cs ih =>
    have hc := hR.call c s s' h
    unfold Lexer.runCalls
    generalize c.run s = r, c.run s' = r' at hc
    cases hc with
    | @ok t u u' hu =>
      obtain ⟨h1, h2, h3⟩ := ih hu
      exact ⟨congrArg (t.toList ++ ·) h1, h2, h3⟩
    | error hu => exact ⟨rfl, rfl, hu⟩

end Parametric

/-! ## Invariants -/

/-- An invariant of `nextChar` that does not look at the token or the lookahead holds in every later state. -/
theorem parametric_of_invariant {I : State → Prop}
    (htoken : ∀ s, I s → ∀ str pos ahead,
      I { s with tokenString := str, tokenPos := pos, tokenLookahead := ahead })
    (hprepare : ∀ s, I s → I s.prepare)
    (hread : ∀ s c, I s → s.buffer[s.nextCharPos]? = some c →
      I { s with lastChar := c, nextCharPos := s.nextCharPos + 1 }.countLine) :
    Parametric fun s s' => s = s' ∧ I s := by
  refine ⟨?_, ?_, ?_⟩
  · rintro s s' ⟨rfl, -⟩
    exact ⟨s.lineState, rfl⟩
  · rintro s s' ⟨rfl, hs⟩ str pos ahead
    exact ⟨rfl, htoken s hs str pos ahead⟩
  · rintro s s' ⟨rfl, hs⟩
    unfold nextChar
    have hp := hprepare s hs
    cases hc : s.prepare.buffer[s.prepare.nextCharPos]? with
    | none =>
      simp only [hc]
      exact .error ⟨rfl, hp⟩
    | some c =>
      simp only [hc]
      exact .ok ⟨rfl, hread _ c hp hc⟩

/-! ### The line state and the last character -/

/-- `lineState` after a character. -/
structure Settled (s : State) : Prop where
  normal : s.lineState = .normal ↔ s.lastChar ≠ ch '\r' ∧ s.lastChar ≠ ch '\n'
  cr : s.lineState = .cr ↔ s.lastChar = ch '\r'

theorem Settled.lf {s : State} (h : Settled s) (hnormal : s.lineState ≠ .normal) (hcr : s.lineState ≠ .cr) :
    s.lastChar = ch '\n' := by
  by_contra hn
  exact hnormal (h.normal.mpr ⟨fun hr => hcr (h.cr.mpr hr), hn⟩)

theorem next_settled (ls : LineState) (c : Int) :
    ((ls.next c).1 = .normal ↔ c ≠ ch '\r' ∧ c ≠ ch '\n') ∧ ((ls.next c).1 = .cr ↔ c = ch '\r') := by
  have hne : ¬ ch '\n' = ch '\r' := by decide
  by_cases hr : c = ch '\r'
  · cases ls <;> simp [LineState.next, hr]
  · by_cases hn : c = ch '\n'
    · cases ls <;> simp [LineState.next, hn, hne]
    · cases ls <;> simp [LineState.next, hr, hn]

/-- What `nextChar` does before it takes a character. -/
theorem prepare_cases (s : State) : ∃ c, s.prepare = { s with column := c } ∨
    (s.nextCharPos = s.curBufferSize ∧ s.prepare = State.readIntoBuffer { s with column := c }) := by
  refine ⟨if s.lastChar = ch '\t' then s.column + 1 else s.column, ?_⟩
  unfold State.prepare
  by_cases htab : s.lastChar = ch '\t'
  · by_cases hfull : (!s.streamIsEof && s.nextCharPos == s.curBufferSize) = true
    · refine .inr ⟨by simpa using (Bool.and_eq_true_iff.mp hfull).2, ?_⟩
      simp [htab, hfull]
    · refine .inl ?_
      simp [htab, hfull]
  · by_cases hfull : (!s.streamIsEof && s.nextCharPos == s.curBufferSize) = true
    · refine .inr ⟨by simpa using (Bool.and_eq_true_iff.mp hfull).2, ?_⟩
      simp [htab, hfull]
    · refine .inl ?_
      simp [htab, hfull]

/-- What it does after that. -/
theorem countLine_cases (s : State) : ∃ l c,
    s.countLine = { s with lineState := (s.lineState.next s.lastChar).1, line := l, column := c } ∨
    ((s.lineState.next s.lastChar).2 = true ∧ s.countLine = { s with
      lineState := (s.lineState.next s.lastChar).1, line := l, column := c
      lineStartFileOffsets := s.lineStartFileOffsets ++ [s.bufferStartOffset + s.nextCharPos - 1] }) := by
  unfold State.countLine
  by_cases h : (s.lineState.next s.lastChar).2 = true
  · exact ⟨s.line + 1, 1, .inr ⟨h, by simp [h]⟩⟩
  · exact ⟨s.line, s.column + 1, .inl (by simp [h])⟩

theorem countLine_settled (s : State) : Settled s.countLine := by
  obtain ⟨hnormal, hcr⟩ := next_settled s.lineState s.lastChar
  obtain ⟨l, c, h | ⟨-, h⟩⟩ := countLine_cases s
  · rw [h]
    exact ⟨hnormal, hcr⟩
  · rw [h]
    exact ⟨hnormal, hcr⟩

theorem parametric_settled : Parametric fun s s' => s = s' ∧ Settled s := by
  apply parametric_of_invariant
  · intro s hs str pos ahead
    exact ⟨hs.normal, hs.cr⟩
  · intro s hs
    obtain ⟨c, h | ⟨-, h⟩⟩ := prepare_cases s
    · rw [h]
      exact ⟨hs.normal, hs.cr⟩
    · rw [h]
      exact ⟨hs.normal, hs.cr⟩
  · intro s c hs hc
    exact countLine_settled _

/-! ### The starts of the lines -/

/-- The first character has been counted as the start of a second line. -/
def Disturbed (s : State) : Prop := [0, 0] <+: s.lineStartFileOffsets

/-- Every line but the first starts after the first character. -/
structure Undisturbed (s : State) : Prop where
  tellg : s.tellg = s.bufferStartOffset + s.curBufferSize
  read : 0 < s.bufferStartOffset + s.nextCharPos
  offsets : ∃ l, s.lineStartFileOffsets = 0 :: l ∧ ∀ x ∈ l, 0 < x

theorem not_disturbed {s : State} (h : Undisturbed s) : ¬ Disturbed s := by
  rintro ⟨r, hr⟩
  obtain ⟨l, hl, hpos⟩ := h.offsets
  rw [hl] at hr
  obtain ⟨-, rfl⟩ := List.cons.inj hr
  exact absurd (hpos 0 (by simp)) (Nat.lt_irrefl 0)

theorem parametric_disturbed : Parametric fun s s' => s = s' ∧ Disturbed s := by
  apply parametric_of_invariant
  · intro s hs str pos ahead
    exact hs
  · intro s hs
    obtain ⟨c, h | ⟨-, h⟩⟩ := prepare_cases s
    · rw [h]
      exact hs
    · rw [h]
      exact hs
  · intro s c hs hc
    obtain ⟨l, col, h | ⟨-, h⟩⟩ := countLine_cases { s with lastChar := c, nextCharPos := s.nextCharPos + 1 }
    · rw [h]
      exact hs
    · rw [h]
      exact hs.trans (List.prefix_append _ _)

theorem parametric_undisturbed : Parametric fun s s' => s = s' ∧ Undisturbed s := by
  apply parametric_of_invariant
  · intro s hs str pos ahead
    exact ⟨hs.tellg, hs.read, hs.offsets⟩
  · intro s hs
    obtain ⟨c, h | ⟨hfull, h⟩⟩ := prepare_cases s
    · rw [h]
      exact ⟨hs.tellg, hs.read, hs.offsets⟩
    · -- the new block starts after what has been read
      rw [h]
      refine ⟨rfl, ?_, hs.offsets⟩
      have htellg := hs.tellg
      have hread := hs.read
      show 0 < s.tellg + 0
      omega
  · intro s c hs hc
    have hread := hs.read
    obtain ⟨l, col, h | ⟨-, h⟩⟩ := countLine_cases { s with lastChar := c, nextCharPos := s.nextCharPos + 1 }
    · rw [h]
      exact ⟨hs.tellg, Nat.lt_succ_of_lt hread, hs.offsets⟩
    · rw [h]
      obtain ⟨offs, hoffs, hpos⟩ := hs.offsets
      refine ⟨hs.tellg, Nat.lt_succ_of_lt hread, offs ++ [s.bufferStartOffset + (s.nextCharPos + 1) - 1], ?_, ?_⟩
      · show s.lineStartFileOffsets ++ _ = _
        rw [hoffs, List.cons_append]
      · intro x hx
        rcases List.mem_append.mp hx with hx | hx
        · exact hpos x hx
        · obtain rfl := List.mem_singleton.mp hx
          omega

/-! ### A CR before, an LF now -/

/-- The states differ in how they have come to the LF just read. -/
def SameLine (s s' : State) : Prop := s = s' ∨ (s.lineState = .crlf ∧ s' = { s with lineState := .lf })

theorem prepare_lineState (s : State) (x : LineState) :
    State.prepare { s with lineState := x } = { s.prepare with lineState := x } := by
  unfold State.prepare
  by_cases htab : s.lastChar = ch '\t'
  · by_cases hfull : (!s.streamIsEof && s.nextCharPos == s.curBufferSize) = true
    · simp [htab, hfull, State.readIntoBuffer]
    · simp [htab, hfull]
  · by_cases hfull : (!s.streamIsEof && s.nextCharPos == s.curBufferSize) = true
    · simp [htab, hfull, State.readIntoBuffer]
    · simp [htab, hfull]

theorem countLine_lf {s : State} (hs : s.lineState = .crlf) :
    State.countLine { s with lineState := .lf } = s.countLine := by
  have hnext : LineState.next .lf = LineState.next .crlf := rfl
  simp only [State.countLine, hs, hnext]

theorem agreed_refl {α : Type} {R : State → State → Prop} (hR : ∀ s, R s s)
    (r : EStateM.Result Stop State α) : Agreed R r r := by
  cases r with
  | ok a s => exact .ok (hR s)
  | error e s => exact .error (hR s)

theorem parametric_sameLine : Parametric SameLine := by
  refine ⟨?_, ?_, ?_⟩
  · rintro s s' (rfl | ⟨-, rfl⟩)
    · exact ⟨s.lineState, rfl⟩
    · exact ⟨.lf, rfl⟩
  · rintro s s' (rfl | ⟨hs, rfl⟩) str pos ahead
    · exact .inl rfl
    · exact .inr ⟨hs, rfl⟩
  · rintro s s' (rfl | ⟨hs, rfl⟩)
    · exact agreed_refl (fun s => .inl rfl) _
    · -- after the next character both states are the same
      have hls : s.prepare.lineState = .crlf := by
        obtain ⟨c, h | ⟨-, h⟩⟩ := prepare_cases s
        · rw [h]
          exact hs
        · rw [h]
          exact hs
      unfold nextChar
      simp only [prepare_lineState]
      cases hc : s.prepare.buffer[s.prepare.nextCharPos]? with
      | none => exact .error (.inr ⟨hls, rfl⟩)
      | some c =>
        have hcount := @countLine_lf { s.prepare with lastChar := c, nextCharPos := s.prepare.nextCharPos + 1 } hls
        simp only at hcount
        simp only [hcount]
        exact .ok (.inl rfl)

/-! ## The last session -/

theorem run_eq (x : Session) (ls : LineState) :
    x.run ls = runCalls x.calls (stateAt ls x.file 0 [] ⟨0, 0⟩ []) := by
  unfold Session.run
  rw [construct_eq]

/-- The state in which a session is left. -/
theorem run_settled (x : Session) (ls : LineState) : Settled (x.run ls).2.2 := by
  have hstart : Settled (stateAt ls x.file 0 [] ⟨0, 0⟩ []) := by
    obtain ⟨hnormal, hcr⟩ := next_settled ls (charAt x.file 0)
    have htrack : (track ls x.file 0).lineState = (ls.next (charAt x.file 0)).1 := by
      simp only [track, Track.count]
      split <;> rfl
    refine ⟨?_, ?_⟩
    · show (track ls x.file 0).lineState = .normal ↔ _
      rw [htrack]
      exact hnormal
    · show (track ls x.file 0).lineState = .cr ↔ _
      rw [htrack]
      exact hcr
  rw [run_eq]
  exact (parametric_settled.runCalls x.calls ⟨rfl, hstart⟩).2.2.2

theorem process_settled (history : List Session) : ∀ s ∈ process history, Settled s := by
  intro s hs
  unfold process at hs
  rcases history.eq_nil_or_concat with rfl | ⟨l, x, rfl⟩
  · cases hs
  · rw [List.concat_eq_append, List.foldl_append] at hs
    obtain rfl := Option.some.inj hs
    exact run_settled x _

/-- After a CR, an LF belongs to the same line end, whichever input it comes from. -/
theorem report_cr (x : Session) (hx : charAt x.file 0 = ch '\n') : x.report .cr = x.report .normal := by
  have hcr : track .cr x.file 0 = ⟨.crlf, 1, 1, [0]⟩ := by
    simp only [track, hx]
    decide
  have hnormal : track .normal x.file 0 = ⟨.lf, 1, 1, [0]⟩ := by
    simp only [track, hx]
    decide
  have hsame : SameLine (stateAt .cr x.file 0 [] ⟨0, 0⟩ []) (stateAt .normal x.file 0 [] ⟨0, 0⟩ []) := by
    refine .inr ⟨?_, ?_⟩
    · simp only [stateAt, hcr]
    · simp only [stateAt, hcr, hnormal]
  obtain ⟨h1, h2, h3⟩ := parametric_sameLine.runCalls x.calls hsame
  have hoffs : (runCalls x.calls (stateAt .cr x.file 0 [] ⟨0, 0⟩ [])).2.2.lineStartFileOffsets
      = (runCalls x.calls (stateAt .normal x.file 0 [] ⟨0, 0⟩ [])).2.2.lineStartFileOffsets := by
    rcases h3 with h3 | ⟨-, h3⟩
    · rw [h3]
    · rw [h3]
  unfold Session.report
  simp only [run_eq, h1, h2, hoffs]

/-- A first character that ends a line of the input before gives the new input an empty first line. -/
theorem report_disturbed (x : Session) {ls : LineState} (hls : (ls.next (charAt x.file 0)).2 = true) :
    x.report ls ≠ x.report .normal := by
  have hstart : Disturbed (stateAt ls x.file 0 [] ⟨0, 0⟩ []) := by
    refine ⟨[], ?_⟩
    simp [stateAt, track, Track.count, hls]
  have halone : Undisturbed (stateAt .normal x.file 0 [] ⟨0, 0⟩ []) := by
    refine ⟨rfl, Nat.succ_pos _, [], ?_, by simp⟩
    have hnext : (LineState.next .normal (charAt x.file 0)).2 = false := by
      simp only [LineState.next]
      split_ifs <;> rfl
    simp [stateAt, track, Track.count, hnext]
  have hdist := (parametric_disturbed.runCalls x.calls ⟨rfl, hstart⟩).2.2.2
  have hund := (parametric_undisturbed.runCalls x.calls ⟨rfl, halone⟩).2.2.2
  intro heq
  unfold Session.report at heq
  simp only [run_eq, Prod.mk.injEq] at heq
  apply not_disturbed hund
  unfold Disturbed
  rw [← heq.2.2]
  exact hdist

/-- The lexer that was left last has not stopped inside a line end: neither CR nor LF was its last character, or CR
was and the new input goes on with LF. -/
def NotInLineEnd (prev : Option State) (file : List UInt8) : Prop :=
  ∀ s ∈ prev, (s.lastChar ≠ ch '\r' ∧ s.lastChar ≠ ch '\n') ∨ (s.lastChar = ch '\r' ∧ charAt file 0 = ch '\n')

instance (prev : Option State) (file : List UInt8) : Decidable (NotInLineEnd prev file) :=
  inferInstanceAs (Decidable (∀ s ∈ prev, (s.lastChar ≠ ch '\r' ∧ s.lastChar ≠ ch '\n') ∨
    (s.lastChar = ch '\r' ∧ charAt file 0 = ch '\n')))

/-- After any sessions, the last lexer reports what it would report alone exactly when the one before it has not
stopped inside a line end. -/
theorem report_eq_iff (history : List Session) (last : Session) :
    last.report (lineStateAfter (process history)) = last.report .normal ↔
      NotInLineEnd (process history) last.file := by
  have hsettled := process_settled history
  have hne : ¬ ch '\n' = ch '\r' := by decide
  unfold NotInLineEnd
  cases hprev : process history with
  | none => simp [lineStateAfter]
  | some s =>
    have hs : Settled s := hsettled s hprev
    simp only [Option.mem_some_iff, forall_eq', lineStateAfter]
    cases hls : s.lineState with
    | normal =>
      have hchar := hs.normal.mp hls
      simp [hchar]
    | cr =>
      have hchar := hs.cr.mp hls
      by_cases hx : charAt last.file 0 = ch '\n'
      · simp [hchar, hx, report_cr last hx]
      · have hnext : (LineState.next .cr (charAt last.file 0)).2 = true := by
          simp only [LineState.next, hx, if_false]
          split_ifs <;> rfl
        simp [hchar, hx, report_disturbed last hnext]
    | lf =>
      have hchar : s.lastChar = ch '\n' := hs.lf (by simp [hls]) (by simp [hls])
      have hnext : (LineState.next .lf (charAt last.file 0)).2 = true := by
        simp only [LineState.next]
        split_ifs <;> rfl
      simp [hchar, hne, report_disturbed last hnext]
    | crlf =>
      have hchar : s.lastChar = ch '\n' := hs.lf (by simp [hls]) (by simp [hls])
      have hnext : (LineState.next .crlf (charAt last.file 0)).2 = true := by
        simp only [LineState.next]
        split_ifs <;> rfl
      simp [hchar, hne, report_disturbed last hnext]

/-- The parser leaves the first lexer at the identifier `a`, whose end is found by reading the LF. -/
theorem report_ne_after_lf : ¬ ∀ (history : List Session) (last : Session),
    last.report (lineStateAfter (process history)) = last.report .normal := by
  intro h
  exact absurd (h [⟨[97, 10], [.nextToken]⟩] ⟨[98], [.nextToken]⟩) (by decide)

end Mjc.Lexer

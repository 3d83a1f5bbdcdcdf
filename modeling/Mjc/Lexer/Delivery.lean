import Mjc.Lexer.Correctness
import Mjc.Lexer.Lookahead

/-!
# The reader delivers the file

Every byte once and in order, then the sentinel, and nothing is read behind it, whatever calls are made.

* `nextChars` : calls of `nextChar`; `nextChars_filled` : what they give from the constructor's first one on;
* `At` : the lexer stands at a byte of the file or at its end, and the tokens of its queue lie before;
* `nextChar_at` : one character; `readNextToken_at`, `lookAhead_at`, `call_at` : no call reads behind the sentinel;
* `Reached` : the states between the calls; `reached_at` : in all of them the lexer is `At`;
* `delivers` : the file is delivered unchanged, and no call goes beyond it.
-/

namespace Mjc.Lexer

set_option autoImplicit false

variable {ls : LineState} {file : List UInt8}

/-! ## The characters of the file -/

/-- Calls of `nextChar`, and what they return. -/
def nextChars : Nat → L (List Int)
  | 0 => pure []
  | n + 1 => do
    let c ← nextChar
    let cs ← nextChars n
    pure (c :: cs)

/-- A lexer in its constructor, after the first block has been read. -/
def filled (lineState : LineState) (file : List UInt8) : State := (State.init lineState file).readIntoBuffer

/-- What is delivered: the bytes of the file and the sentinel. -/
def delivered (file : List UInt8) : List Int := file.map signed ++ [EOF]

theorem cur_delivered_tail (b : UInt8) (rest : List UInt8) :
    ∃ cs, delivered rest = cur rest :: cs ∧ delivered (b :: rest) = signed b :: cur rest :: cs := by
  cases rest with
  | nil => exact ⟨[], rfl, rfl⟩
  | cons c rest => exact ⟨delivered rest, rfl, rfl⟩

section
variable {str : List Char} {pos : TokenPos} {ahead : List (Token × TokenPos)}

/-- From a byte on, the calls return the bytes behind it. -/
theorem nextChars_here {pre rest : List UInt8} {i : Nat} (hi : i ≤ rest.length) :
    nextChars i (here ls pre rest str pos ahead) = .ok ((delivered rest).tail.take i)
      (here ls (pre ++ rest.take i) (rest.drop i) str pos ahead) := by
  induction i generalizing pre rest with
  | zero =>
    show EStateM.Result.ok [] (here ls pre rest str pos ahead) = _
    rw [List.take_zero, List.take_zero, List.drop_zero, List.append_nil]
  | succ i ih =>
    cases rest with
    | nil => exact absurd hi (by simp)
    | cons b rest =>
      obtain ⟨cs, hrest, hall⟩ := cur_delivered_tail b rest
      have hlater := @ih (pre ++ [b]) rest (Nat.le_of_succ_le_succ hi)
      unfold nextChars
      rw [bind_run, nextChar_here, thenRun_ok, bind_run, hlater, thenRun_ok, hall, hrest]
      show EStateM.Result.ok (cur rest :: cs.take i) _ = EStateM.Result.ok (cur rest :: cs.take i) _
      rw [List.append_assoc]
      rfl

end

theorem isEof_filled (ls : LineState) (file : List UInt8) : (filled ls file).isEof = false := by
  unfold filled State.isEof State.readIntoBuffer
  simp

/-- The calls return the file and the sentinel, and the end is seen after the sentinel. -/
theorem nextChars_filled {i : Nat} (hi : i ≤ file.length + 1) : ∃ s,
    nextChars i (filled ls file) = .ok ((delivered file).take i) s ∧ (s.isEof = true ↔ i = file.length + 1) := by
  cases i with
  | zero =>
    refine ⟨filled ls file, rfl, ?_⟩
    rw [isEof_filled]
    exact iff_of_false (by decide) (by omega)
  | succ i =>
    have hle : i ≤ file.length := Nat.le_of_succ_le_succ hi
    have hfirst : nextChar (filled ls file) = .ok (cur file) (here ls [] file [] ⟨0, 0⟩ []) := construct_here
    refine ⟨here ls ([] ++ file.take i) (file.drop i) [] ⟨0, 0⟩ [], ?_, ?_⟩
    · have hhead : delivered file = cur file :: (delivered file).tail := by
        cases file with
        | nil => rfl
        | cons b rest => rfl
      unfold nextChars
      rw [bind_run, hfirst, thenRun_ok, bind_run, nextChars_here hle, thenRun_ok, hhead]
      rfl
    · rw [here_isEof, List.isEmpty_iff, List.drop_eq_nil_iff]
      omega

/-! ## Where the lexer stands -/

/-- The token starts at an offset up to `p`. -/
def Seen (ls : LineState) (file : List UInt8) (p : Nat) (t : Token × TokenPos) : Prop :=
  ∃ q ≤ p, t.2 = posAt ls file q

theorem Seen.mono {p p' : Nat} {t : Token × TokenPos} (h : Seen ls file p t) (hle : p ≤ p') : Seen ls file p' t := by
  obtain ⟨q, hq, ht⟩ := h
  exact ⟨q, hq.trans hle, ht⟩

/-- The lexer stands at offset `p`, and the tokens of its queue lie before. -/
structure At (ls : LineState) (file : List UInt8) (p : Nat) (s : State) : Prop where
  le : p ≤ file.length
  state : s = stateAt ls file p s.tokenString s.tokenPos s.tokenLookahead
  queue : ∀ t ∈ s.tokenLookahead, Seen ls file p t

section
variable {p : Nat} {s : State}

/-- The same by what has been read and what is left. -/
theorem At.split (h : At ls file p s) : ∃ pre rest, file = pre ++ rest ∧ p = pre.length ∧
    s = here ls pre rest s.tokenString s.tokenPos s.tokenLookahead := by
  have hlength : (file.take p).length = p := List.length_take_of_le h.le
  refine ⟨file.take p, file.drop p, (List.take_append_drop p file).symm, hlength.symm, ?_⟩
  unfold here
  rw [List.take_append_drop, hlength]
  exact h.state

theorem at_here {pre rest : List UInt8} {str : List Char} {pos : TokenPos} {ahead : List (Token × TokenPos)}
    (hqueue : ∀ t ∈ ahead, Seen ls (pre ++ rest) pre.length t) :
    At ls (pre ++ rest) pre.length (here ls pre rest str pos ahead) := by
  refine ⟨?_, rfl, hqueue⟩
  rw [List.length_append]
  exact Nat.le_add_right _ _

theorem at_opened (ls : LineState) (file : List UInt8) : At ls file 0 (opened ls file) := by
  unfold opened
  rw [construct_here]
  exact @at_here ls [] file [] ⟨0, 0⟩ [] fun t ht => absurd ht List.not_mem_nil

theorem At.isEof (h : At ls file p s) : s.isEof = decide (p = file.length) := by
  rw [h.state]
  exact isEof_stateAt h.le

/-- The buffer holds a block and the sentinel at most. -/
theorem At.buffer (h : At ls file p s) : s.buffer.length ≤ maxBufferSize := by
  have hsize : (chunkAt file p).length ≤ maxBufferSize := by
    rw [length_chunkAt]
    exact Nat.min_le_left _ _
  rw [h.state]
  show ((chunkAt file p).map signed ++ (if (chunkAt file p).length < maxBufferSize then [EOF] else [])).length ≤ _
  rw [List.length_append, List.length_map]
  split
  · exact Nat.succ_le_of_lt ‹_›
  · exact hsize

/-- Another token under construction, or another queue. -/
theorem At.queued (h : At ls file p s) {ahead : List (Token × TokenPos)} (hqueue : ∀ t ∈ ahead, Seen ls file p t) :
    At ls file p { s with tokenLookahead := ahead } := by
  refine ⟨h.le, ?_, hqueue⟩
  conv_lhs => rw [h.state]
  rfl

/-! ## One character -/

/-- Before the end of the file, `nextChar` reads inside of the buffer and moves on by one byte. -/
theorem At.nextChar (h : At ls file p s) (hp : p < file.length) : s.prepare.nextCharPos < maxBufferSize ∧
    ∃ s', nextChar s = .ok (charAt file (p + 1)) s' ∧ At ls file (p + 1) s' := by
  constructor
  · rw [h.state, prepare_stateAt hp]
    exact Nat.mod_lt _ (by decide)
  · rw [h.state, nextChar_stateAt hp]
    exact ⟨_, rfl, hp, rfl, fun t ht => (h.queue t ht).mono (Nat.le_succ p)⟩

/-- At the end there is nothing left to read. -/
theorem At.nextChar_end (h : At ls file p s) (hp : p = file.length) : ∃ s', Lexer.nextChar s = .error .pastSentinel s' := by
  have hsize : (chunkAt file p).length = min maxBufferSize (file.length - maxBufferSize * (p / maxBufferSize)) :=
    length_chunkAt
  have hdiv := Nat.div_add_mod p maxBufferSize
  have hmod : p % maxBufferSize < maxBufferSize := Nat.mod_lt _ (by decide)
  have hshort : (chunkAt file p).length < maxBufferSize := by omega
  have hlast : p % maxBufferSize = (chunkAt file p).length := by omega
  have hstream : s.streamIsEof = true := by
    rw [h.state]
    exact decide_eq_true hshort
  have hprepare : s.prepare.buffer = s.buffer ∧ s.prepare.nextCharPos = s.nextCharPos := by
    unfold State.prepare
    by_cases htab : s.lastChar = ch '\t'
    · simp [htab, hstream]
    · simp [htab, hstream]
  have hnone : s.prepare.buffer[s.prepare.nextCharPos]? = none := by
    rw [hprepare.1, hprepare.2, h.state, List.getElem?_eq_none_iff]
    show ((chunkAt file p).map signed ++ (if (chunkAt file p).length < maxBufferSize then [EOF] else [])).length ≤
      p % maxBufferSize + 1
    rw [if_pos hshort, List.length_append, List.length_map, hlast]
    rfl
  refine ⟨s.prepare, ?_⟩
  unfold Lexer.nextChar
  simp only [hnone]

/-! ## One call -/

/-- There is no blank at `p`. -/
def Stuck (file : List UInt8) (p : Nat) : Prop := ∀ b, file[p]? = some b → ¬ Blank b

/-- A lexical error is found at a byte that is not blank, or at the end. -/
theorem Tokenises.stuck {n : Nat} {bs : List UInt8} {ts : List Token} {e : Ending} (h : Tokenises n bs ts e) :
    ∀ k, e = .lexError k → ∃ j, k = n + j ∧ Stuck bs j := by
  have hascii : ∀ {b : UInt8}, 128 ≤ b → ¬ Blank b := by
    intro b hb hblank
    have hsmall : ((bytes [' ', '\t', '\r', '\n']).all fun c => decide (¬ 128 ≤ c)) = true := by decide
    exact of_decide_eq_true (List.all_eq_true.mp hsmall b hblank) hb
  have hdrop : ∀ {u rest : List UInt8} {j : Nat}, Stuck rest j → Stuck (u ++ rest) (u.length + j) := by
    intro u rest j hj b hb
    rw [List.getElem?_append_right (Nat.le_add_right _ _), Nat.add_sub_cancel_left] at hb
    exact hj b hb
  induction h with
  | eof => exact fun k hk => by cases hk
  | @blank n b bs ts e hb _ ih =>
    intro k hk
    obtain ⟨j, rfl, hj⟩ := ih k hk
    refine ⟨1 + j, by omega, @hdrop [b] bs j hj⟩
  | @comment n u rest ts e hu _ ih =>
    intro k hk
    obtain ⟨j, rfl, hj⟩ := ih k hk
    have hlength : (bytes ['/', '*'] ++ u ++ bytes ['*', '/']).length = u.length + 4 := by
      simp only [List.length_append, bytes, List.length_map, List.length_cons, List.length_nil]
      omega
    refine ⟨u.length + 4 + j, by omega, ?_⟩
    rw [← hlength]
    exact hdrop hj
  | @highByte n u rest b hu hb =>
    rintro k hk
    obtain rfl := Ending.lexError.inj hk
    refine ⟨u.length + 2, by omega, ?_⟩
    have hlength : (bytes ['/', '*'] ++ u).length = u.length + 2 := by
      rw [List.length_append, Nat.add_comm]
      rfl
    rw [← hlength]
    refine @hdrop (bytes ['/', '*'] ++ u) (b :: rest) 0 fun c hc => ?_
    obtain rfl := Option.some.inj hc
    exact hascii hb
  | @unclosed n u hu =>
    intro k hk
    obtain rfl := Ending.lexError.inj hk
    refine ⟨u.length + 2, by omega, fun b hb => ?_⟩
    have hlength : (bytes ['/', '*'] ++ u).length = u.length + 2 := by
      rw [List.length_append, Nat.add_comm]
      rfl
    rw [List.getElem?_eq_none (Nat.le_of_eq hlength)] at hb
    cases hb
  | @token n w rest t ts e hopen hw hlong _ ih =>
    intro k hk
    obtain ⟨j, rfl, hj⟩ := ih k hk
    exact ⟨w.length + j, by omega, hdrop hj⟩
  | @noToken n b rest hb hw =>
    intro k hk
    obtain rfl := Ending.lexError.inj hk
    refine ⟨0, rfl, fun c hc => ?_⟩
    obtain rfl := Option.some.inj hc
    exact hb

/-- A result with the lexer at `p` or behind it, after a token that has been read, or after a lexical error. -/
inductive Stays (ls : LineState) (file : List UInt8) (p : Nat) :
    EStateM.Result Stop State (Token × TokenPos) → Prop where
  | ok {p' : Nat} {t : Token × TokenPos} {s' : State} (hle : p ≤ p') (h : At ls file p' s') (ht : Seen ls file p' t) :
      Stays ls file p (.ok t s')
  | error {p' : Nat} {e : LexError} {s' : State} (hle : p ≤ p') (h : At ls file p' s') (hstuck : Stuck file p') :
      Stays ls file p (.error (.lexError e) s')

theorem At.readNextToken (h : At ls file p s) : Stays ls file p (readNextToken s) := by
  obtain ⟨pre, rest, rfl, rfl, hs⟩ := h.split
  have hqueue := h.queue
  have hnext := @readNextToken_here ls pre rest s.tokenString s.tokenPos s.tokenLookahead
  rw [← hs] at hnext
  generalize Lexer.readNextToken s = r at hnext
  cases hnext with
  | @token g w r t hg hr hopen hw hlong =>
    have hfile : pre ++ rest = (pre ++ g ++ w) ++ r := by
      rw [hr]
      simp only [List.append_assoc]
    have hle : pre.length ≤ (pre ++ g ++ w).length := by
      simp only [List.length_append]
      omega
    refine .ok hle ?_ ⟨(pre ++ g).length, by simp only [List.length_append]; omega, rfl⟩
    rw [hfile]
    exact at_here fun u hu => hfile ▸ (hqueue u hu).mono hle
  | eof hg =>
    have hle : pre.length ≤ (pre ++ rest).length := by
      rw [List.length_append]
      exact Nat.le_add_right _ _
    refine .ok hle ?_ ⟨(pre ++ rest).length, Nat.le_refl _, rfl⟩
    have hfile : pre ++ rest = (pre ++ rest) ++ [] := (List.append_nil _).symm
    conv => arg 2; rw [hfile]
    exact at_here fun u hu => by rw [← hfile]; exact (hqueue u hu).mono hle
  | @error g r e str pos hr href =>
    have hfile : pre ++ rest = (pre ++ g) ++ r := by rw [hr, List.append_assoc]
    have hle : pre.length ≤ (pre ++ g).length := by
      rw [List.length_append]
      exact Nat.le_add_right _ _
    refine .error hle ?_ ?_
    · rw [hfile]
      exact at_here fun u hu => hfile ▸ (hqueue u hu).mono hle
    · obtain ⟨j, hj, hstuck⟩ := (href 0).stuck _ rfl
      obtain rfl : g.length = j := by omega
      intro b hb
      rw [List.length_append, List.getElem?_append_right (Nat.le_add_right _ _), Nat.add_sub_cancel_left] at hb
      exact hstuck b hb

theorem At.nextToken (h : At ls file p s) : Stays ls file p (nextToken s) := by
  unfold Lexer.nextToken
  cases hqueue : s.tokenLookahead with
  | nil => exact h.readNextToken
  | cons t later =>
    have hseen : ∀ u ∈ t :: later, Seen ls file p u := hqueue ▸ h.queue
    exact .ok (Nat.le_refl p) (h.queued fun u hu => hseen u (List.mem_cons_of_mem t hu)) (hseen t List.mem_cons_self)

theorem At.pushLookahead (n : Nat) (h : At ls file p s) :
    (∃ p' s', p ≤ p' ∧ pushLookahead n s = .ok () s' ∧ At ls file p' s') ∨
      ∃ p' e s', p ≤ p' ∧ pushLookahead n s = .error (.lexError e) s' ∧ At ls file p' s' ∧ Stuck file p' := by
  induction n generalizing p s with
  | zero => exact .inl ⟨p, s, Nat.le_refl p, rfl, h⟩
  | succ n ih =>
    have hread := h.readNextToken
    unfold Lexer.pushLookahead
    rw [bind_run]
    generalize Lexer.readNextToken s = r at hread
    cases hread with
    | @ok p₁ t s₁ hle h₁ ht =>
      have hpushed : At ls file p₁ { s₁ with tokenLookahead := s₁.tokenLookahead ++ [t] } := by
        refine h₁.queued fun u hu => ?_
        rcases List.mem_append.mp hu with hu | hu
        · exact h₁.queue u hu
        · rw [List.mem_singleton.mp hu]
          exact ht
      rcases ih hpushed with ⟨p', s', hle', hpush, h'⟩ | ⟨p', e, s', hle', hpush, h', hstuck⟩
      · exact .inl ⟨p', s', hle.trans hle', hpush, h'⟩
      · exact .inr ⟨p', e, s', hle.trans hle', hpush, h', hstuck⟩
    | @error p' e s' hle h' hstuck => exact .inr ⟨p', e, s', hle, rfl, h', hstuck⟩

/-- A call of `lookAhead(k + 1)`. -/
theorem At.lookAhead (k : Nat) (h : At ls file p s) : Stays ls file p (lookAhead (k + 1) s) := by
  have hget : ∀ {p' : Nat} {s' : State}, At ls file p' s' → k < s'.tokenLookahead.length →
      Seen ls file p' (s'.tokenLookahead.getD (k + 1 - 1) (Token.eof, ⟨0, 0⟩)) := by
    intro p' s' h' hk
    rw [Nat.add_sub_cancel, List.getD_eq_getElem?_getD, List.getElem?_eq_getElem hk]
    exact h'.queue _ (List.getElem_mem hk)
  unfold Lexer.lookAhead
  rw [bind_run, get_run, thenRun_ok]
  by_cases hlt : k < s.tokenLookahead.length
  · rw [if_neg (by omega)]
    exact .ok (Nat.le_refl p) h (hget h hlt)
  · rw [if_pos (by omega), bind_run]
    rcases pushLookahead_cases (k + 1 + 1 - s.tokenLookahead.length) s with
      ⟨ts, s', hpush, hlength, hahead, -⟩ | ⟨e, s', j, hpush, -, -⟩
    · rcases h.pushLookahead (k + 1 + 1 - s.tokenLookahead.length) with
        ⟨p', s'', hle, hpush', h'⟩ | ⟨p', e, s'', -, hpush', -⟩
      · obtain ⟨-, rfl⟩ := EStateM.Result.ok.inj (hpush.symm.trans hpush')
        have hk : k < s'.tokenLookahead.length := by
          rw [hahead, List.length_append, hlength]
          omega
        rw [hpush, thenRun_ok]
        exact .ok hle h' (hget h' hk)
      · cases hpush.symm.trans hpush'
    · rcases h.pushLookahead (k + 1 + 1 - s.tokenLookahead.length) with
        ⟨p', s'', -, hpush', -⟩ | ⟨p', e', s'', hle, hpush', h', hstuck⟩
      · cases hpush.symm.trans hpush'
      · rw [hpush', thenRun_error]
        exact .error hle h' hstuck

/-- What any call gives: a token or an error, unless it is one of `nextChar` at the end. -/
theorem At.call (c : Call) (h : At ls file p s) :
    (∃ p' t s', p ≤ p' ∧ c.run s = .ok t s' ∧ At ls file p' s' ∧ ∀ u ∈ t, Seen ls file p' u) ∨
      (∃ p' e s', p ≤ p' ∧ c.run s = .error (.lexError e) s' ∧ At ls file p' s' ∧ Stuck file p') ∨
        c = .nextChar ∧ p = file.length ∧ ∃ s', c.run s = .error .pastSentinel s' := by
  have htoken : ∀ {r : EStateM.Result Stop State (Token × TokenPos)}, Stays ls file p r →
      (∃ p' t s', p ≤ p' ∧ thenRun r (fun t => pure (some t)) = .ok t s' ∧ At ls file p' s' ∧
        ∀ u ∈ t, Seen ls file p' u) ∨
      ∃ p' e s', p ≤ p' ∧ thenRun r (fun t => (pure (some t) : L (Option (Token × TokenPos)))) =
        .error (.lexError e) s' ∧ At ls file p' s' ∧ Stuck file p' := by
    intro r hr
    cases hr with
    | @ok p' t s' hle h' ht =>
      refine .inl ⟨p', some t, s', hle, rfl, h', fun u hu => ?_⟩
      obtain rfl := Option.some.inj hu
      exact ht
    | @error p' e s' hle h' hstuck => exact .inr ⟨p', e, s', hle, rfl, h', hstuck⟩
  cases c with
  | nextToken =>
    rw [call_nextToken]
    exact (htoken h.nextToken).imp_right .inl
  | lookAhead k =>
    rw [call_lookAhead]
    exact (htoken (h.lookAhead k)).imp_right .inl
  | nextChar =>
    have hrun : Call.run .nextChar s = thenRun (Lexer.nextChar s) fun _ => pure none := map_run _ Lexer.nextChar s
    rw [hrun]
    by_cases hp : p = file.length
    · obtain ⟨s', hs'⟩ := h.nextChar_end hp
      rw [hs']
      exact .inr (.inr ⟨rfl, hp, s', rfl⟩)
    · obtain ⟨-, s', hs', h'⟩ := h.nextChar (Nat.lt_of_le_of_ne h.le hp)
      rw [hs']
      exact .inl ⟨p + 1, none, s', Nat.le_succ p, rfl, h', fun u hu => by cases hu⟩

end

/-! ## All calls -/

/-- The states of a lexer between the calls on it. No call follows an error: to report it the stream has been moved. -/
inductive Reached (ls : LineState) (file : List UInt8) : State → Prop where
  | opened : Reached ls file (opened ls file)
  | call {s s' : State} {c : Call} {t : Option (Token × TokenPos)} (h : Reached ls file s) (hrun : c.run s = .ok t s') :
      Reached ls file s'

theorem reached_at {s : State} (h : Reached ls file s) : ∃ p, At ls file p s := by
  induction h with
  | opened => exact ⟨0, at_opened ls file⟩
  | @call s s' c t _ hrun ih =>
    obtain ⟨p, hat⟩ := ih
    rcases hat.call c with ⟨p', t', s'', -, hrun', h', -⟩ | ⟨p', e, s'', -, hrun', -⟩ | ⟨-, -, s'', hrun'⟩
    · rw [hrun] at hrun'
      obtain ⟨-, rfl⟩ := EStateM.Result.ok.inj hrun'
      exact ⟨p', h'⟩
    · cases hrun.symm.trans hrun'
    · cases hrun.symm.trans hrun'

/-- The calls of `nextChar` return the bytes of the file and then the sentinel, and the end is seen from then on. In every
state that is reached, `nextChar` reads inside of the buffer, unless the lexer is at the end; there it could not read
anything, and no call of `nextToken` or `lookAhead` tries. -/
theorem delivers (lineState : LineState) (file : List UInt8) :
    (∀ i ≤ file.length + 1, ∃ s, nextChars i (filled lineState file) = .ok ((file.map signed ++ [EOF]).take i) s ∧
      (s.isEof = true ↔ i = file.length + 1)) ∧
    (∀ s : State, Reached lineState file s → s.buffer.length ≤ maxBufferSize ∧
      (s.isEof = false → s.prepare.nextCharPos < maxBufferSize ∧ ∃ c s', nextChar s = .ok c s') ∧
      (s.isEof = true → ∃ s', nextChar s = .error .pastSentinel s')) ∧
    ∀ s (c : Call) e s', Reached lineState file s → c ≠ .nextChar → c.run s = .error e s' → ∃ e', e = .lexError e' := by
  refine ⟨fun i hi => nextChars_filled hi, fun s hs => ?_, fun s c e s' hs hc hrun => ?_⟩
  · obtain ⟨p, hat⟩ := reached_at hs
    refine ⟨hat.buffer, fun heof => ?_, fun heof => ?_⟩
    · rw [hat.isEof, decide_eq_false_iff_not] at heof
      obtain ⟨hindex, s', hnext, -⟩ := hat.nextChar (Nat.lt_of_le_of_ne hat.le heof)
      exact ⟨hindex, _, s', hnext⟩
    · rw [hat.isEof, decide_eq_true_eq] at heof
      exact hat.nextChar_end heof
  · obtain ⟨p, hat⟩ := reached_at hs
    rcases hat.call c with ⟨p', t', s'', -, hrun', -⟩ | ⟨p', e', s'', -, hrun', -⟩ | ⟨hnext, -⟩
    · cases hrun.symm.trans hrun'
    · rw [hrun] at hrun'
      exact ⟨e', (EStateM.Result.error.inj hrun').1⟩
    · exact absurd hnext hc

end Mjc.Lexer

import Mjc.Lexer.Independence

/-!
# Reading ahead

The queue of `lookAhead` does not change what `nextToken` returns, but its loop reads one token more than was asked for.

* `following m s` : what the call number `m` of `nextToken` from `s` on gives, counted from 0;
* `Queues p q` : two lexers that differ in their queues only; `readNextToken` does not look at the queue;
* `pushLookahead_cases`, `lookAhead_cases` : one call of `lookAhead`;
* `Event`, `trace` : the calls on a lexer, each with the state before it and what it gives;
* `transparent_iff` : the calls see the tokens of the file, and no error but those of tokens that were asked for, exactly when
  no call of `lookAhead` that has to read stands before a malformed token right behind the ones it was asked for.
-/

namespace Mjc.Lexer

set_option autoImplicit false

/-! ## The tokens of a lexer -/

/-- What a function gives. -/
def outcome {α : Type} : EStateM.Result Stop State α → Except Stop α
  | .ok a _ => .ok a
  | .error e _ => .error e

/-- What the call number `m` of `nextToken` gives, from 0 on. No call follows one that stops. -/
def following : Nat → State → Except Stop (Token × TokenPos)
  | 0, s => outcome (nextToken s)
  | m + 1, s =>
    match nextToken s with
    | .ok _ s' => following m s'
    | .error e _ => .error e

section
variable {s s' : State} {t : Token × TokenPos} {e : Stop}

theorem following_zero_of_ok (h : nextToken s = .ok t s') : following 0 s = .ok t := by
  unfold following
  rw [h]
  rfl

theorem following_succ_of_ok (h : nextToken s = .ok t s') (m : Nat) : following (m + 1) s = following m s' := by
  show (match nextToken s with
    | .ok _ s' => following m s'
    | .error e _ => .error e) = following m s'
  rw [h]

theorem following_of_error (h : nextToken s = .error e s') (m : Nat) : following m s = .error e := by
  cases m with
  | zero =>
    unfold following
    rw [h]
    rfl
  | succ m =>
    unfold following
    rw [h]

/-- There are no tokens behind one that is malformed. -/
theorem following_error {m k : Nat} (h : following m s = .error e) (hle : m ≤ k) : following k s = .error e := by
  induction m generalizing s k with
  | zero =>
    cases hn : nextToken s with
    | ok t s' =>
      rw [following_zero_of_ok hn] at h
      cases h
    | error e' s' =>
      rw [following_of_error hn] at h ⊢
      exact h
  | succ m ih =>
    cases hn : nextToken s with
    | ok t s' =>
      obtain ⟨k, rfl⟩ : ∃ j, k = j + 1 := ⟨k - 1, by omega⟩
      rw [following_succ_of_ok hn] at h ⊢
      exact ih h (by omega)
    | error e' s' =>
      rw [following_of_error hn] at h ⊢
      exact h

/-! ## The queue -/

/-- The lexer without its queue. -/
def State.base (s : State) : State := { s with tokenLookahead := [] }

/-- The tokens of the queue come first. -/
theorem following_queue {q : List (Token × TokenPos)} (hq : s.tokenLookahead = q) {m : Nat} (h : q[m]? = some t) :
    following m s = .ok t := by
  induction q generalizing s m with
  | nil => cases h
  | cons u q ih =>
    have hn : nextToken s = .ok u { s with tokenLookahead := q } := by
      unfold nextToken
      rw [hq]
    cases m with
    | zero =>
      obtain rfl : u = t := Option.some.inj h
      exact following_zero_of_ok hn
    | succ m =>
      rw [following_succ_of_ok hn]
      exact ih rfl h

/-- The tokens behind the queue are those of the file. -/
theorem following_base {q : List (Token × TokenPos)} (hq : s.tokenLookahead = q) (m : Nat) :
    following (q.length + m) s = following m s.base := by
  induction q generalizing s with
  | nil =>
    have hbase : s.base = s := by
      unfold State.base
      rw [← hq]
    rw [hbase, List.length_nil, Nat.zero_add]
  | cons u q ih =>
    have hn : nextToken s = .ok u { s with tokenLookahead := q } := by
      unfold nextToken
      rw [hq]
    rw [List.length_cons, Nat.add_right_comm, following_succ_of_ok hn]
    exact @ih { s with tokenLookahead := q } rfl

end

/-- Two lexers with the queues `p` and `q` that are the same otherwise. -/
def Queues (p q : List (Token × TokenPos)) (s s' : State) : Prop :=
  s.tokenLookahead = p ∧ s' = { s with tokenLookahead := q }

section
variable {p q : List (Token × TokenPos)} {s : State}

theorem prepare_queue : ({ s with tokenLookahead := q } : State).prepare = { s.prepare with tokenLookahead := q } ∧
    s.prepare.tokenLookahead = s.tokenLookahead := by
  by_cases htab : s.lastChar = ch '\t'
  · by_cases hfull : (!s.streamIsEof && s.nextCharPos == s.curBufferSize) = true
    · simp [State.prepare, htab, hfull, State.readIntoBuffer]
    · simp [State.prepare, htab, hfull]
  · by_cases hfull : (!s.streamIsEof && s.nextCharPos == s.curBufferSize) = true
    · simp [State.prepare, htab, hfull, State.readIntoBuffer]
    · simp [State.prepare, htab, hfull]

theorem countLine_queue : ({ s with tokenLookahead := q } : State).countLine = { s.countLine with tokenLookahead := q } ∧
    s.countLine.tokenLookahead = s.tokenLookahead := by
  by_cases hline : (s.lineState.next s.lastChar).2 = true
  · simp [State.countLine, hline]
  · simp [State.countLine, hline]

theorem agree_nextChar_queues : Agree (Queues p q) nextChar := by
  rintro s s' ⟨hp, rfl⟩
  obtain ⟨hprepare, hahead⟩ := @prepare_queue q s
  unfold nextChar
  simp only [hprepare]
  cases hread : s.prepare.buffer[s.prepare.nextCharPos]? with
  | none => exact .error ⟨hahead.trans hp, rfl⟩
  | some c =>
    obtain ⟨hcount, hahead'⟩ := @countLine_queue q { s.prepare with lastChar := c, nextCharPos := s.prepare.nextCharPos + 1 }
    simp only [hcount]
    exact .ok ⟨hahead'.trans (hahead.trans hp), rfl⟩

/-- Reading a token neither uses nor changes the queue. -/
theorem primitive_queues (p q : List (Token × TokenPos)) : Primitive (Queues p q) where
  view := by
    rintro s s' ⟨-, rfl⟩
    exact ⟨rfl, rfl, rfl⟩
  next := agree_nextChar_queues
  lastChar := by
    rintro s s' ⟨hp, rfl⟩
    exact .ok ⟨hp, rfl⟩
  setTokenString str := by
    rintro s s' ⟨hp, rfl⟩
    exact .ok ⟨hp, rfl⟩
  append c := by
    rintro s s' ⟨hp, rfl⟩
    exact .ok ⟨hp, rfl⟩
  initToken := by
    rintro s s' ⟨hp, rfl⟩
    exact .ok ⟨hp, rfl⟩
  makeToken type := by
    rintro s s' ⟨hp, rfl⟩
    exact .ok ⟨hp, rfl⟩
  error msg := by
    rintro s s' ⟨hp, rfl⟩
    exact .error ⟨hp, rfl⟩
  bound := by
    rintro s s' ⟨hp, rfl⟩
    exact .ok ⟨hp, rfl⟩

/-- Reading a token from the file, with a queue and without it. -/
theorem readNextToken_base (s : State) :
    (∃ t s', readNextToken s = .ok t s' ∧ s'.tokenLookahead = s.tokenLookahead ∧ nextToken s.base = .ok t s'.base) ∨
      ∃ e s' s'', readNextToken s = .error e s' ∧ nextToken s.base = .error e s'' := by
  have hagree := (primitive_queues s.tokenLookahead []).readNextToken s s.base ⟨rfl, rfl⟩
  have hbase : nextToken s.base = readNextToken s.base := rfl
  rw [hbase]
  generalize readNextToken s = r, readNextToken s.base = r' at hagree
  cases hagree with
  | @ok t u u' h =>
    obtain ⟨hqueue, rfl⟩ := h
    exact .inl ⟨t, u, rfl, hqueue, rfl⟩
  | @error e u u' h => exact .inr ⟨e, u, u', rfl, rfl⟩

end

/-! ## One call -/

/-- A token of the file goes to the end of the queue. -/
theorem following_push {s s' : State} {t : Token × TokenPos} (hqueue : s'.tokenLookahead = s.tokenLookahead)
    (hbase : nextToken s.base = .ok t s'.base) (m : Nat) :
    following m { s' with tokenLookahead := s'.tokenLookahead ++ [t] } = following m s := by
  have hahead : ({ s' with tokenLookahead := s'.tokenLookahead ++ [t] } : State).tokenLookahead = s.tokenLookahead ++ [t] :=
    congrArg (· ++ [t]) hqueue
  by_cases hlt : m < s.tokenLookahead.length
  · have hget : s.tokenLookahead[m]? = some (s.tokenLookahead.get ⟨m, hlt⟩) := List.getElem?_eq_getElem hlt
    rw [following_queue rfl hget]
    exact following_queue hahead (by rw [List.getElem?_append_left hlt, hget])
  · obtain ⟨j, rfl⟩ : ∃ j, m = s.tokenLookahead.length + j := ⟨m - s.tokenLookahead.length, by omega⟩
    rw [following_base rfl]
    cases j with
    | zero =>
      rw [following_zero_of_ok hbase]
      refine following_queue hahead ?_
      rw [Nat.add_zero, List.getElem?_append_right (Nat.le_refl _), Nat.sub_self]
      rfl
    | succ j =>
      have hlength : s.tokenLookahead.length + (j + 1) = (s.tokenLookahead ++ [t]).length + j := by
        rw [List.length_append, List.length_singleton]
        omega
      rw [following_succ_of_ok hbase, hlength, following_base hahead]
      rfl

/-- The loop of `peekAhead` puts tokens of the file behind the queue, or stops where one of them is malformed. -/
theorem pushLookahead_cases (n : Nat) (s : State) :
    (∃ ts s', pushLookahead n s = .ok () s' ∧ ts.length = n ∧ s'.tokenLookahead = s.tokenLookahead ++ ts ∧
      ∀ m, following m s' = following m s) ∨
    ∃ e s' j, pushLookahead n s = .error e s' ∧ j < n ∧ following (s.tokenLookahead.length + j) s = .error e := by
  induction n generalizing s with
  | zero => exact .inl ⟨[], s, rfl, rfl, (List.append_nil _).symm, fun _ => rfl⟩
  | succ n ih =>
    unfold pushLookahead
    rcases readNextToken_base s with ⟨t, s₁, hread, hqueue, hbase⟩ | ⟨e, s', s'', hread, hbase⟩
    · have hfollow := following_push hqueue hbase
      rw [bind_run, hread, thenRun_ok]
      rcases ih { s₁ with tokenLookahead := s₁.tokenLookahead ++ [t] } with
        ⟨ts, s', hpush, hlength, hahead, hsame⟩ | ⟨e, s', j, hpush, hj, herror⟩
      · refine .inl ⟨t :: ts, s', hpush, congrArg (· + 1) hlength, ?_, fun m => (hsame m).trans (hfollow m)⟩
        rw [hahead]
        show (s₁.tokenLookahead ++ [t]) ++ ts = s.tokenLookahead ++ t :: ts
        rw [hqueue, List.append_assoc]
        rfl
      · refine .inr ⟨e, s', j + 1, hpush, by omega, ?_⟩
        rw [hfollow] at herror
        have hlength : (s₁.tokenLookahead ++ [t]).length + j = s.tokenLookahead.length + (j + 1) := by
          rw [hqueue, List.length_append, List.length_singleton]
          omega
        rw [← hlength]
        exact herror
    · refine .inr ⟨e, s', 0, ?_, Nat.succ_pos n, ?_⟩
      · rw [bind_run, hread, thenRun_error]
      · rw [following_base rfl, following_of_error hbase]

/-- What `lookAhead(k + 1)` gives: the token `k`, once the tokens up to `k + 1` have been read. -/
theorem lookAhead_cases (k : Nat) (s : State) :
    (∃ t s', lookAhead (k + 1) s = .ok t s' ∧ following k s = .ok t ∧ (∀ m, following m s' = following m s) ∧
      (k < s.tokenLookahead.length ∨ ∃ u, following (k + 1) s = .ok u)) ∨
    ∃ e s', lookAhead (k + 1) s = .error e s' ∧ s.tokenLookahead.length ≤ k ∧ following (k + 1) s = .error e := by
  unfold lookAhead
  rw [bind_run, get_run, thenRun_ok]
  by_cases hlt : k < s.tokenLookahead.length
  · have hget : s.tokenLookahead[k]? = some (s.tokenLookahead.get ⟨k, hlt⟩) := List.getElem?_eq_getElem hlt
    refine .inl ⟨s.tokenLookahead.get ⟨k, hlt⟩, s, ?_, following_queue rfl hget, fun _ => rfl, .inl hlt⟩
    rw [if_neg (by omega)]
    show EStateM.Result.ok (s.tokenLookahead.getD (k + 1 - 1) (Token.eof, ⟨0, 0⟩)) s = _
    rw [Nat.add_sub_cancel, List.getD_eq_getElem?_getD, hget]
    rfl
  · rw [if_pos (by omega), bind_run]
    rcases pushLookahead_cases (k + 1 + 1 - s.tokenLookahead.length) s with
      ⟨ts, s', hpush, hlength, hahead, hsame⟩ | ⟨e, s', j, hpush, hj, herror⟩
    · have hsize : s'.tokenLookahead.length = k + 2 := by
        rw [hahead, List.length_append, hlength]
        omega
      have hget : ∀ m, m < k + 2 → ∃ u, s'.tokenLookahead[m]? = some u ∧ following m s = .ok u := by
        intro m hm
        obtain ⟨u, hu⟩ : ∃ u, s'.tokenLookahead[m]? = some u := ⟨_, List.getElem?_eq_getElem (by omega)⟩
        exact ⟨u, hu, (hsame m).symm.trans (following_queue rfl hu)⟩
      obtain ⟨t, ht, hfollow⟩ := hget k (by omega)
      obtain ⟨u, -, hu⟩ := hget (k + 1) (by omega)
      refine .inl ⟨t, s', ?_, hfollow, hsame, .inr ⟨u, hu⟩⟩
      rw [hpush, thenRun_ok]
      show EStateM.Result.ok (s'.tokenLookahead.getD (k + 1 - 1) (Token.eof, ⟨0, 0⟩)) s' = _
      rw [Nat.add_sub_cancel, List.getD_eq_getElem?_getD, ht]
      rfl
    · refine .inr ⟨e, s', ?_, by omega, following_error herror (by omega)⟩
      rw [hpush, thenRun_error]

/-! ## Runs -/

/-- A call on a lexer, the state before it, and what it gives. -/
structure Event where
  before : State
  call : Call
  outcome : Except Stop (Option (Token × TokenPos))

/-- The calls one after the other, up to the first that does not return. -/
def trace : List Call → State → List Event
  | [], _ => []
  | c :: cs, s =>
    match c.run s with
    | .ok t s' => ⟨s, c, .ok t⟩ :: trace cs s'
    | .error e _ => [⟨s, c, .error e⟩]

/-- The number of tokens taken out of the lexer. -/
def taken (evs : List Event) : Nat := evs.countP fun ev => ev.call = .nextToken

/-- The call sees the tokens that `nextToken` alone would give from `s₀` on: `nextToken` gives the next one, `lookAhead`
gives the one it was asked for, and stops only if one of those up to there is malformed. -/
def Event.Transparent (s₀ : State) (past : List Event) (ev : Event) : Prop :=
  match ev.call with
  | .nextToken => ev.outcome = (following (taken past) s₀).map some
  | .lookAhead k => (∀ t, ev.outcome = .ok t → (following (taken past + k) s₀).map some = .ok t) ∧
      ∀ e, ev.outcome = .error e → ∃ e', following (taken past + k) s₀ = .error e'
  | .nextChar => True

/-- The call has the tokens in the queue, or one of those it is asked for is malformed, or the one behind them is not. -/
def Event.Calm (ev : Event) : Prop :=
  ∀ k, ev.call = .lookAhead k → k < ev.before.tokenLookahead.length ∨ (∃ e, following k ev.before = .error e) ∨
    ∃ t, following (k + 1) ev.before = .ok t

theorem call_nextToken (s : State) : Call.run .nextToken s = thenRun (nextToken s) fun t => pure (some t) :=
  map_run some nextToken s

theorem call_lookAhead (k : Nat) (s : State) :
    Call.run (.lookAhead k) s = thenRun (lookAhead (k + 1) s) fun t => pure (some t) :=
  map_run some (lookAhead (k + 1)) s

/-- One call, in a lexer that stands behind the tokens taken so far: it is transparent if and only if it is calm, and after
it the lexer stands behind the tokens taken then. -/
theorem call_transparent {s₀ s : State} {past : List Event} {c : Call} (hc : c ≠ .nextChar)
    (hs : ∀ m, following m s = following (taken past + m) s₀) :
    (Event.Transparent s₀ past ⟨s, c, outcome (c.run s)⟩ ↔ Event.Calm ⟨s, c, outcome (c.run s)⟩) ∧
      ∀ t s', c.run s = .ok t s' → ∀ m, following m s' = following (taken (past ++ [⟨s, c, .ok t⟩]) + m) s₀ := by
  cases c with
  | nextChar => exact absurd rfl hc
  | nextToken =>
    have hzero := hs 0
    rw [Nat.add_zero] at hzero
    have hcalm : ∀ o, Event.Calm ⟨s, .nextToken, o⟩ := fun o k hk => by cases hk
    rw [call_nextToken]
    cases hn : nextToken s with
    | ok t s' =>
      refine ⟨iff_of_true ?_ (hcalm _), fun u s'' hu m => ?_⟩
      · show Except.ok (some t) = (following (taken past) s₀).map some
        rw [← hzero, following_zero_of_ok hn]
        rfl
      · cases hu
        rw [taken, List.countP_append, ← following_succ_of_ok hn, hs]
        show following (taken past + (m + 1)) s₀ = following (taken past + 1 + m) s₀
        rw [Nat.add_assoc, Nat.add_comm 1 m]
    | error e s' =>
      refine ⟨iff_of_true ?_ (hcalm _), fun u s'' hu => by cases hu⟩
      show Except.error e = (following (taken past) s₀).map some
      rw [← hzero, following_of_error hn]
      rfl
  | lookAhead k =>
    rw [call_lookAhead]
    have hk := hs k
    rcases lookAhead_cases k s with ⟨t, s', hlook, hfollow, hsame, hread⟩ | ⟨e, s', hlook, hle, herror⟩
    · rw [hlook]
      refine ⟨iff_of_true ⟨fun u hu => ?_, fun e he => by cases he⟩ ?_, fun u s'' hu m => ?_⟩
      · cases hu
        show (following (taken past + k) s₀).map some = .ok (some t)
        rw [← hk, hfollow]
        rfl
      · intro j hj
        cases hj
        exact hread.imp_right .inr
      · cases hu
        rw [taken, List.countP_append]
        exact (hsame m).trans (hs m)
    · rw [hlook]
      refine ⟨⟨fun h => ?_, fun h => ⟨fun t ht => (by cases ht), fun e' he' => ?_⟩⟩, fun u s'' hu => by cases hu⟩
      · intro j hj
        cases hj
        obtain ⟨e', he'⟩ := h.2 e rfl
        exact .inr (.inl ⟨e', hk.trans he'⟩)
      · rcases h k rfl with hlt | ⟨e'', he''⟩ | ⟨u, hu⟩
        · have hlt : k < s.tokenLookahead.length := hlt
          omega
        · exact ⟨e'', hk.symm.trans he''⟩
        · have hu : following (k + 1) s = .ok u := hu
          rw [herror] at hu
          cases hu

/-- What the events of a run are. -/
theorem trace_transparent {calls : List Call} (hcalls : Call.nextChar ∉ calls) {s₀ s : State} {past : List Event}
    (hs : ∀ m, following m s = following (taken past + m) s₀) :
    ∀ before ev later, trace calls s = before ++ ev :: later → (ev.Transparent s₀ (past ++ before) ↔ ev.Calm) := by
  induction calls generalizing s past with
  | nil =>
    intro before ev later h
    exact absurd h.symm (by simp [trace])
  | cons c calls ih =>
    have hc : c ≠ .nextChar := fun he => hcalls (he ▸ List.mem_cons_self)
    obtain ⟨hiff, hnext⟩ := call_transparent hc hs
    intro before ev later h
    unfold trace at h
    cases hrun : c.run s with
    | ok t s' =>
      rw [hrun] at h hiff
      cases before with
      | nil =>
        obtain ⟨rfl, -⟩ := List.cons.inj h
        rw [List.append_nil]
        exact hiff
      | cons ev' before =>
        obtain ⟨rfl, hlater⟩ := List.cons.inj h
        rw [List.append_cons]
        exact ih (fun hmem => hcalls (List.mem_cons_of_mem c hmem)) (hnext t s' hrun) before ev later hlater
    | error e s' =>
      rw [hrun] at h hiff
      cases before with
      | nil =>
        obtain ⟨rfl, -⟩ := List.cons.inj h
        rw [List.append_nil]
        exact hiff
      | cons ev' before =>
        obtain ⟨-, h⟩ := List.cons.inj h
        exact absurd h.symm (by simp)

/-- A lexer over a file, after its constructor. -/
def opened (lineState : LineState) (file : List UInt8) : State :=
  match construct lineState file with
  | .ok _ s => s
  | .error _ s => s

/-- All calls of a run are transparent if and only if they are calm. -/
theorem transparent_iff (lineState : LineState) (file : List UInt8) {calls : List Call} (hcalls : Call.nextChar ∉ calls) :
    (∀ past ev later, trace calls (opened lineState file) = past ++ ev :: later →
      ev.Transparent (opened lineState file) past) ↔ ∀ ev ∈ trace calls (opened lineState file), ev.Calm := by
  have hevent := @trace_transparent calls hcalls (opened lineState file) (opened lineState file) []
    fun m => by rw [taken, List.countP_nil, Nat.zero_add]
  constructor
  · intro h ev hev
    obtain ⟨past, later, hsplit⟩ := List.append_of_mem hev
    exact (hevent past ev later hsplit).mp (h past ev later hsplit)
  · intro h past ev later hsplit
    exact (hevent past ev later hsplit).mpr (h ev (hsplit ▸ List.mem_append_right past List.mem_cons_self))

/-- `a #`: `lookAhead(1)` at the start stops at the second token, though the first one is well-formed. -/
theorem not_transparent_malformed : ¬∀ past ev later,
    trace [.lookAhead 0] (opened .normal [97, 32, 35]) = past ++ ev :: later →
      ev.Transparent (opened .normal [97, 32, 35]) past := by
  intro h
  have hfirst : following 0 (opened .normal [97, 32, 35]) = .ok (⟨.Identifier, "a"⟩, ⟨1, 1⟩) := by decide +kernel
  have hcall : outcome (Call.run (.lookAhead 0) (opened .normal [97, 32, 35])) =
      .error (.lexError ⟨1, 3, "Invalid input character: '#'"⟩) := by decide +kernel
  have htrace : trace [.lookAhead 0] (opened .normal [97, 32, 35]) =
      [⟨opened .normal [97, 32, 35], .lookAhead 0, .error (.lexError ⟨1, 3, "Invalid input character: '#'"⟩)⟩] := by
    unfold trace
    cases hrun : Call.run (.lookAhead 0) (opened .normal [97, 32, 35]) with
    | ok t s =>
      rw [hrun] at hcall
      cases hcall
    | error e s =>
      rw [hrun] at hcall
      cases hcall
      rfl
  obtain ⟨e, he⟩ := (h [] _ [] htrace).2 _ rfl
  have hfirst' : following (taken [] + 0) (opened .normal [97, 32, 35]) = .ok (⟨.Identifier, "a"⟩, ⟨1, 1⟩) := hfirst
  rw [hfirst'] at he
  cases he

/-- `a b`: the token behind the one that was asked for is well-formed. -/
theorem transparent_sample :
    following 1 (opened .normal [97, 32, 98]) = .ok (⟨.Identifier, "b"⟩, ⟨1, 3⟩) ∧
      ∀ past ev later, trace [.lookAhead 0] (opened .normal [97, 32, 98]) = past ++ ev :: later →
        ev.Transparent (opened .normal [97, 32, 98]) past := by
  have hsecond : following 1 (opened .normal [97, 32, 98]) = .ok (⟨.Identifier, "b"⟩, ⟨1, 3⟩) := by decide +kernel
  refine ⟨hsecond, (transparent_iff .normal [97, 32, 98] (by decide)).mpr fun ev hev => ?_⟩
  have hbefore : ev.before = opened .normal [97, 32, 98] ∧ ev.call = .lookAhead 0 := by
    unfold trace at hev
    split at hev
    · rw [trace, List.mem_singleton] at hev
      subst hev
      exact ⟨rfl, rfl⟩
    · rw [List.mem_singleton] at hev
      subst hev
      exact ⟨rfl, rfl⟩
  intro k hk
  obtain rfl : 0 = k := by
    rw [hbefore.2] at hk
    exact Call.lookAhead.inj hk
  rw [hbefore.1]
  exact .inr (.inr ⟨_, hsecond⟩)

end Mjc.Lexer

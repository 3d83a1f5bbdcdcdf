import Mjc.Lexer.Delivery
import Mjc.Lexer.ErrorLine
import Mjc.Lexer.Lines

/-!
# Positions of tokens, and the table of lines

The line and the column of a token are those of its first byte, and the table gives the text of every line that a token or
an error has been reported in.

* `Places` : the tokens of a file with the offsets of their first bytes; `places_readAll` : a run returns these tokens;
* `Reported` : errors are reported where the lexer stands; `readNextToken_reported`, `call_reported`;
* `Tabled` : the table holds the starts of the lines entered so far; `At.tabled` : it does in every state;
* `shownLine`, `readLine_eq`, `Readable` : the text of a line, and that the lexer finds it; `At.readable`;
* `State.InRange` : the counters are `int`s; `At.inRange` : they stay in range;
* `Ran`, `positions_correct` : all positions of a run.
-/

namespace Mjc.Lexer
open Mjc.Munch

set_option autoImplicit false

/-! ## The offsets of tokens -/

/-- The tokens of the input from byte `n` on, each with the offset of its first byte, up to the end or the first error. -/
inductive Places : Nat → List UInt8 → List (Token × Nat) → Prop where
  | eof {n : Nat} {g : List UInt8} (hg : Gap g) : Places n g [(Token.eof, n + g.length)]
  | token {n : Nat} {g w rest : List UInt8} {t : TT} {ts : List (Token × Nat)} (hg : Gap g) (hopen : ¬ Opens (w ++ rest))
      (hw : Word w t) (hlong : Longest Words (w ++ rest) w) (h : Places (n + g.length + w.length) rest ts) :
      Places n (g ++ (w ++ rest)) ((⟨t, String.ofList (text w)⟩, n + g.length) :: ts)
  | error {n k : Nat} {bs : List UInt8} (h : Tokenises n bs [] (.lexError k)) : Places n bs []

/-- These are the tokens of the reference. -/
theorem Places.tokenises {n : Nat} {bs : List UInt8} {ts : List (Token × Nat)} (h : Places n bs ts) :
    ∃ e, Tokenises n bs (ts.map Prod.fst) e := by
  induction h with
  | @eof n g hg =>
    have hall := @Gap.tokenises g [] n _ _ hg .eof
    rw [List.append_nil] at hall
    exact ⟨.eof, hall⟩
  | token hg hopen hw hlong h ih =>
    obtain ⟨e, he⟩ := ih
    exact ⟨e, hg.tokenises (.token hopen hw hlong he)⟩
  | @error n k bs h => exact ⟨.lexError k, h⟩

/-- They are in the file. -/
theorem Places.le {n : Nat} {bs : List UInt8} {ts : List (Token × Nat)} (h : Places n bs ts) {t : Token × Nat}
    (ht : t ∈ ts) : t.2 ≤ n + bs.length := by
  induction h with
  | eof hg =>
    rw [List.mem_singleton.mp ht]
  | token hg hopen hw hlong h ih =>
    rw [List.length_append, List.length_append]
    rcases List.mem_cons.mp ht with rfl | ht
    · dsimp only
      omega
    · have := ih ht
      omega
  | error => cases ht

/-- A token and the position of its first byte. -/
def placed (file : List UInt8) (t : Token × Nat) : Token × TokenPos := (t.1, positionOf file t.2)

/-- A run returns the tokens of the file, at the positions of their first bytes. -/
theorem places_readAll {n : Nat} {pre rest : List UInt8} {str : List Char} {pos : TokenPos} (hn : rest.length < n) :
    ∃ ts, Places pre.length rest ts ∧
      (readAll n (here .normal pre rest str pos [])).1 = ts.map (placed (pre ++ rest)) := by
  induction n generalizing pre rest str pos with
  | zero => omega
  | succ n ih =>
    have hnext := @readNextToken_here .normal pre rest str pos []
    have hcall : nextToken (here .normal pre rest str pos []) = readNextToken (here .normal pre rest str pos []) := rfl
    unfold readAll
    rw [hcall]
    generalize readNextToken (here .normal pre rest str pos []) = res at hnext
    cases hnext with
    | @token g w r t hg hr hopen hw hlong =>
      subst hr
      have hpos : 0 < w.length := List.length_pos_iff.mpr hw.ne_nil
      obtain ⟨ts, hts, hrun⟩ := @ih (pre ++ g ++ w) r (text w)
        (posAt .normal (pre ++ (g ++ (w ++ r))) (pre ++ g).length) (by simp at hn; omega)
      have hlength : pre.length + g.length + w.length = (pre ++ g ++ w).length := by simp [Nat.add_assoc]
      refine ⟨_, .token hg hopen hw hlong (hlength ▸ hts), ?_⟩
      have hfile : pre ++ g ++ w ++ r = pre ++ (g ++ (w ++ r)) := by simp only [List.append_assoc]
      rw [hfile] at hrun
      simp only [hw.ne_eof, if_false, List.map_cons, hrun]
      rw [posAt_eq (by simp), List.length_append]
      rfl
    | eof hg =>
      refine ⟨_, .eof hg, ?_⟩
      rw [posAt_eq (Nat.le_refl _), List.length_append]
      rfl
    | @error g r e str' pos' hr href => exact ⟨[], .error (href pre.length), rfl⟩

/-! ## Tokens that are read ahead -/

/-- Every token that is still to come is one of the run. -/
theorem following_mem {n m : Nat} {pre rest : List UInt8} {str : List Char} {pos : TokenPos} {t : Token × TokenPos}
    (hn : rest.length < n) (h : following m (here .normal pre rest str pos []) = .ok t) :
    t ∈ (readAll n (here .normal pre rest str pos [])).1 := by
  induction n generalizing m pre rest str pos with
  | zero => omega
  | succ n ih =>
    have hnext := @readNextToken_here .normal pre rest str pos []
    have hend := fun s => @readAll_eof .normal pre rest str pos (n + 1) s
    have hcall : nextToken (here .normal pre rest str pos []) = readNextToken (here .normal pre rest str pos []) := rfl
    unfold readAll at hend ⊢
    rw [hcall] at hend ⊢
    generalize hres : readNextToken (here .normal pre rest str pos []) = res at hnext hend ⊢
    cases hnext with
    | @token g w r u hg hr hopen hw hlong =>
      subst hr
      have hpos : 0 < w.length := List.length_pos_iff.mpr hw.ne_nil
      simp only [hw.ne_eof, if_false]
      cases m with
      | zero =>
        rw [following_zero_of_ok (hcall.trans hres)] at h
        obtain rfl := Except.ok.inj h
        exact List.mem_cons_self
      | succ m =>
        rw [following_succ_of_ok (hcall.trans hres)] at h
        exact List.mem_cons_of_mem _ (ih (by simp at hn; omega) h)
    | eof hg =>
      obtain ⟨-, -, hagain⟩ := hend _ rfl
      have hstay : ∀ m, following m (here .normal (pre ++ rest) [] ['E', 'O', 'F']
          (posAt .normal (pre ++ rest) (pre ++ rest).length) []) =
          .ok (Token.eof, posAt .normal (pre ++ rest) (pre ++ rest).length) := by
        intro m
        induction m with
        | zero => exact following_zero_of_ok hagain
        | succ m ih => rw [following_succ_of_ok hagain, ih]
      have ht : t = (Token.eof, posAt .normal (pre ++ rest) (pre ++ rest).length) := by
        cases m with
        | zero =>
          rw [following_zero_of_ok (hcall.trans hres)] at h
          exact (Except.ok.inj h).symm
        | succ m =>
          rw [following_succ_of_ok (hcall.trans hres), hstay] at h
          exact (Except.ok.inj h).symm
      rw [ht]
      exact List.mem_cons_self
    | @error g r e str' pos' hr href =>
      rw [following_of_error (hcall.trans hres)] at h
      cases h
/-! ## Errors -/

/-- Errors of the function are reported where the lexer stands. -/
def Reported {α : Type} (f : L α) : Prop :=
  ∀ s e s', f s = .error (.lexError e) s' → e.line = s'.line ∧ e.col = s'.column

section
variable {α β : Type}

theorem Reported.pure (a : α) : Reported (pure a : L α) := by
  intro s e s' h
  cases h

theorem Reported.bind {x : L α} {f : α → L β} (hx : Reported x) (hf : ∀ a, Reported (f a)) : Reported (x >>= f) := by
  intro s e s' h
  rw [bind_run] at h
  cases hrun : x s with
  | ok a s₁ =>
    rw [hrun, thenRun_ok] at h
    exact hf a s₁ e s' h
  | error e₁ s₁ =>
    rw [hrun, thenRun_error] at h
    obtain ⟨rfl, rfl⟩ := EStateM.Result.error.inj h
    exact hx s e s₁ hrun

end

theorem reported_nextChar : Reported nextChar := by
  intro s e s' h
  unfold nextChar at h
  cases hread : s.prepare.buffer[s.prepare.nextCharPos]? with
  | none =>
    simp only [hread] at h
    cases h
  | some c =>
    simp only [hread] at h
    cases h

theorem reported_closed : ClosedUnder fun _ f => Reported f where
  pure := .pure
  bind := .bind
  get hk _ := .bind (fun s e s' h => by cases h) hk
  outOfSteps s e s' h := by cases h
  next := reported_nextChar
  lastChar s e s' h := by cases h
  setTokenString str s e s' h := by cases h
  append c s e s' h := by cases h
  initToken s e s' h := by cases h
  makeToken type s e s' h := by cases h
  error msg s e s' h := by
    obtain ⟨he, rfl⟩ := EStateM.Result.error.inj h
    obtain rfl := Stop.lexError.inj he
    exact ⟨rfl, rfl⟩
  bound s e s' h := by cases h

theorem reported_pushLookahead (n : Nat) : Reported (pushLookahead n) := by
  induction n with
  | zero => exact .pure ()
  | succ n ih => exact .bind reported_closed.readNextToken fun t => .bind (fun s e s' h => by cases h) fun _ => ih

theorem call_reported (c : Call) : Reported c.run := by
  intro s e s' h
  cases c with
  | nextToken =>
    have hnext : Reported nextToken := by
      intro s e s' h
      unfold nextToken at h
      split at h
      · exact reported_closed.readNextToken s e s' h
      · cases h
    exact Reported.bind hnext (fun t => .pure (some t)) s e s' (by rw [bind_run, ← call_nextToken, h])
  | lookAhead k =>
    have hlook : Reported (lookAhead (k + 1)) := by
      have hget : ∀ {α : Type} {f : State → L α}, (∀ s, Reported (f s)) → Reported (do let s ← get; f s) :=
        fun hf => .bind (fun s e s' h => by cases h) hf
      refine hget fun s₀ => ?_
      split
      · exact .bind (reported_pushLookahead _) fun _ => hget fun s₁ => .pure _
      · exact hget fun s₁ => .pure _
    exact Reported.bind hlook (fun t => .pure (some t)) s e s' (by rw [bind_run, ← call_lookAhead, h])
  | nextChar => exact Reported.bind reported_nextChar (fun _ => .pure none) s e s' (by rw [bind_run, ← map_run]; exact h)

/-! ## The table of lines -/

/-- The table has the first byte of every line entered so far. -/
def Tabled (file : List UInt8) (s : State) : Prop :=
  s.lineStartFileOffsets = lineStarts file s.offset ∧ s.line = s.lineStartFileOffsets.length

section
variable {file : List UInt8} {p : Nat} {s : State}

theorem At.offset (h : At .normal file p s) : s.offset = p := by
  rw [h.state]
  simp only [State.offset, stateAt]
  rw [← Nat.add_assoc, Nat.div_add_mod, Nat.add_sub_cancel]

theorem At.line (h : At .normal file p s) : s.line = lineOf file p := by
  rw [h.state]
  exact (track_eq h.le).2.1

theorem At.column (h : At .normal file p s) : s.column = columnOf file p := by
  rw [h.state]
  exact (track_eq h.le).2.2.1

theorem At.table (h : At .normal file p s) : s.lineStartFileOffsets = lineStarts file p := by
  rw [h.state]
  exact (track_eq h.le).2.2.2

theorem At.tabled (h : At .normal file p s) : Tabled file s := by
  unfold Tabled
  rw [h.offset, h.table, h.line, length_lineStarts]
  exact ⟨rfl, rfl⟩

end

/-! ## The text of a line -/

/-- The bytes of the line that starts at `start`. -/
def lineAt (file : List UInt8) (start : Nat) : List UInt8 := (file.drop start).takeWhile fun b => b ≠ 13 ∧ b ≠ 10

/-- A line as it is reported: its first 1023 bytes. -/
def shownLine (line : List UInt8) : List UInt8 :=
  if line = [] then emptyLine
  else (line.take 1023).flatMap shownChar ++ if line.length ≤ 1023 then [] else [46, 46, 46]

theorem shownChar_ne_nil (c : UInt8) : shownChar c ≠ [] := by
  unfold shownChar
  split
  · simp
  · split
    · simp
    · simp

theorem readLine_eq {k : Nat} (hk : k ≤ 1023) (bs : List UInt8) :
    readLine k bs = ((lineAt bs 0).take (1023 - k)).flatMap shownChar ++
      if (lineAt bs 0).length ≤ 1023 - k then [] else [46, 46, 46] := by
  unfold lineAt
  rw [List.drop_zero]
  induction bs generalizing k with
  | nil => simp [readLine]
  | cons c rest ih =>
    unfold readLine
    by_cases hend : c = 13 ∨ c = 10
    · rw [if_pos hend, List.takeWhile_cons_of_neg (by simpa [or_iff_not_imp_left] using hend)]
      simp
    · rw [if_neg hend, List.takeWhile_cons_of_pos (by simpa [not_or] using hend)]
      by_cases hroom : k + 1 < maxLineLength
      · have hk' : k + 1 ≤ 1023 := Nat.le_of_lt_succ hroom
        obtain ⟨j, hj⟩ : ∃ j, 1023 - k = j + 1 := ⟨1022 - k, by omega⟩
        have hj' : 1023 - (k + 1) = j := by omega
        rw [if_pos hroom, ih hk', hj, hj', List.take_succ_cons, List.flatMap_cons, List.append_assoc]
        simp
      · have hzero : 1023 - k = 0 := by
          unfold maxLineLength at hroom
          omega
        rw [if_neg hroom, hzero]
        simp

/-- A line that starts at an offset of the table is found, and its text is read. -/
theorem getCurrentLine_eq {s : State} {k start : Nat} (h : s.lineStartFileOffsets[k]? = some start) :
    s.getCurrentLineFromInput (k + 1) = some (shownLine (lineAt s.file start)) := by
  have hread : readLine 0 (s.file.drop start) = ((lineAt s.file start).take 1023).flatMap shownChar ++
      if (lineAt s.file start).length ≤ 1023 then [] else [46, 46, 46] := readLine_eq (Nat.zero_le _) _
  show (s.lineStartFileOffsets[k]?.bind fun offset =>
    let res := readLine 0 (s.file.drop offset)
    some (if res.isEmpty then emptyLine else res)) = _
  rw [h, Option.bind_some, hread]
  unfold shownLine
  cases hline : lineAt s.file start with
  | nil => rfl
  | cons c line =>
    simp [shownChar_ne_nil]

/-- The text of the line can be asked for, and is the one in the file. -/
def Readable (file : List UInt8) (s : State) (line : Nat) : Prop :=
  ∃ k start, line = k + 1 ∧ (lineStarts file file.length)[k]? = some start ∧
    s.getCurrentLineFromInput line = some (shownLine (lineAt file start))

section
variable {file : List UInt8} {p q : Nat} {s : State}

/-- A longer table has the same entries. -/
theorem lineStarts_getElem {k start : Nat} (hq : q ≤ p) (h : (lineStarts file q)[k]? = some start) :
    (lineStarts file p)[k]? = some start := by
  obtain ⟨more, hmore⟩ := @lineStarts_initial file q p hq
  rw [← hmore, List.getElem?_append_left (List.getElem?_eq_some_iff.mp h).1, h]

/-- The last line of the table. -/
theorem lineStarts_last : (lineStarts file q)[lineOf file q - 1]? = some (lineStart file q) := by
  have hne : lineStarts file q ≠ [] := List.cons_ne_nil _ _
  unfold lineStart
  rw [← length_lineStarts, ← List.getLast?_eq_getElem?, List.getLastD_eq_getLast?, List.getLast?_eq_some_getLast hne]
  rfl

theorem At.getCurrentLine (h : At .normal file p s) (hq : q ≤ p) :
    s.getCurrentLineFromInput (lineOf file q) = some (shownLine (lineAt file (lineStart file q))) := by
  obtain ⟨k, hk⟩ : ∃ k, lineOf file q = k + 1 := ⟨(lineEnds file q).length, Nat.add_comm 1 _⟩
  have hfile : s.file = file := by rw [h.state]; rfl
  have hget : s.lineStartFileOffsets[k]? = some (lineStart file q) := by
    have hlast := @lineStarts_last file q
    rw [hk, Nat.add_sub_cancel] at hlast
    rw [h.table]
    exact lineStarts_getElem hq hlast
  rw [hk, getCurrentLine_eq hget, hfile]

theorem At.readable (h : At .normal file p s) (hq : q ≤ p) : Readable file s (lineOf file q) := by
  obtain ⟨k, hk⟩ : ∃ k, lineOf file q = k + 1 := ⟨(lineEnds file q).length, Nat.add_comm 1 _⟩
  have hlast := @lineStarts_last file q
  rw [hk, Nat.add_sub_cancel] at hlast
  exact ⟨k, lineStart file q, hk, lineStarts_getElem (hq.trans h.le) hlast,
    h.getCurrentLine hq⟩

theorem At.readable_seen (h : At .normal file p s) {t : Token × TokenPos} (ht : Seen .normal file p t) :
    Readable file s t.2.line := by
  obtain ⟨q, hq, hpos⟩ := ht
  rw [hpos, posAt_eq (hq.trans h.le)]
  exact h.readable hq

end

/-! ## Runs -/

/-- A lexer over the file after some calls of `nextToken` and `lookAhead`, and what these have returned. -/
inductive Ran (file : List UInt8) : State → List (Token × TokenPos) → Prop where
  | opened : Ran file (opened .normal file) []
  | call {s s' : State} {ts : List (Token × TokenPos)} {c : Call} {t : Option (Token × TokenPos)} (h : Ran file s ts)
      (hc : c ≠ .nextChar) (hrun : c.run s = .ok t s') : Ran file s' (ts ++ t.toList)

section
variable {file : List UInt8} {s : State} {ts : List (Token × TokenPos)}

/-- A token that a call returns is one of those to come. -/
theorem call_following {s' : State} {c : Call} {t : Option (Token × TokenPos)} (hc : c ≠ .nextChar)
    (hrun : c.run s = .ok t s') :
    (∀ u ∈ t, ∃ m, following m s = .ok u) ∧ ∃ j, ∀ m, following m s' = following (j + m) s := by
  cases c with
  | nextChar => exact absurd rfl hc
  | nextToken =>
    rw [call_nextToken] at hrun
    cases hnext : nextToken s with
    | ok u s₁ =>
      rw [hnext] at hrun
      obtain ⟨rfl, rfl⟩ := EStateM.Result.ok.inj hrun
      refine ⟨fun v hv => ⟨0, ?_⟩, 1, fun m => ?_⟩
      · obtain rfl := Option.some.inj hv
        exact following_zero_of_ok hnext
      · rw [Nat.add_comm, following_succ_of_ok hnext]
    | error e s₁ =>
      rw [hnext] at hrun
      cases hrun
  | lookAhead k =>
    rw [call_lookAhead] at hrun
    rcases lookAhead_cases k s with ⟨u, s₁, hlook, hfollow, hsame, -⟩ | ⟨e, s₁, hlook, -⟩
    · rw [hlook] at hrun
      obtain ⟨rfl, rfl⟩ := EStateM.Result.ok.inj hrun
      refine ⟨fun v hv => ⟨k, ?_⟩, 0, fun m => ?_⟩
      · obtain rfl := Option.some.inj hv
        exact hfollow
      · rw [Nat.zero_add, hsame]
    · rw [hlook] at hrun
      cases hrun

/-- What is returned are tokens of the file that have been read. -/
theorem Ran.spec (h : Ran file s ts) : ∃ p, At .normal file p s ∧
    (∃ j, ∀ m, following m s = following (j + m) (Lexer.opened .normal file)) ∧
    ∀ t ∈ ts, t ∈ (lexFile .normal file).1 ∧ Seen .normal file p t := by
  induction h with
  | opened =>
    exact ⟨0, at_opened .normal file, ⟨0, fun m => by rw [Nat.zero_add]⟩, fun t ht => absurd ht List.not_mem_nil⟩
  | @call s s' ts c t _ hc hrun ih =>
    obtain ⟨p, hat, ⟨j, hj⟩, hts⟩ := ih
    obtain ⟨htoken, i, hi⟩ := call_following hc hrun
    rcases hat.call c with ⟨p', t', s₁, hle, hrun', hat', hseen⟩ | ⟨p', e, s₁, -, hrun', -⟩ | ⟨hnext, -⟩
    · rw [hrun] at hrun'
      obtain ⟨rfl, rfl⟩ := EStateM.Result.ok.inj hrun'
      refine ⟨p', hat', ⟨j + i, fun m => ?_⟩, fun u hu => ?_⟩
      · rw [hi, hj, Nat.add_assoc]
      · rcases List.mem_append.mp hu with hu | hu
        · exact ⟨(hts u hu).1, (hts u hu).2.mono hle⟩
        · have hu : u ∈ t := Option.mem_toList.mp hu
          obtain ⟨m, hm⟩ := htoken u hu
          refine ⟨?_, hseen u hu⟩
          rw [hj] at hm
          have hopened : Lexer.opened .normal file = here .normal [] file [] ⟨0, 0⟩ [] := by
            unfold Lexer.opened
            rw [construct_here]
          rw [hopened] at hm
          rw [lexFile_eq]
          exact following_mem (Nat.lt_succ_self _) hm
    · cases hrun.symm.trans hrun'
    · exact absurd hnext hc

/-- An error is reported with the line and the column of the byte at which the lexer stands. -/
theorem Ran.error {s' : State} {c : Call} {e : LexError} (h : Ran file s ts) (hc : c ≠ .nextChar)
    (hrun : c.run s = .error (.lexError e) s') : ∃ p, At .normal file p s' ∧ Stuck file p ∧ e.line = lineOf file p ∧
      e.col = columnOf file p ∧ ∀ t ∈ ts, Seen .normal file p t := by
  obtain ⟨p, hat, -, hts⟩ := h.spec
  rcases hat.call c with ⟨p', t', s₁, -, hrun', -⟩ | ⟨p', e', s₁, hle, hrun', hat', hstuck⟩ | ⟨hnext, -⟩
  · cases hrun.symm.trans hrun'
  · obtain ⟨hline, hcolumn⟩ := call_reported c s e s' hrun
    rw [hrun] at hrun'
    obtain ⟨-, rfl⟩ := EStateM.Result.error.inj hrun'
    exact ⟨p', hat', hstuck, hline.trans hat'.line, hcolumn.trans hat'.column, fun t ht => (hts t ht).2.mono hle⟩
  · exact absurd hnext hc

end

/-! ## The range of `int` -/

/-- The largest value of the `int`s in which lines, columns and `oldPos` are kept. -/
def intMax : Nat := 2147483647

/-- The position has a `TokenPos`, whose fields are `int`s. -/
def TokenPos.InRange (pos : TokenPos) : Prop := pos.line ≤ intMax ∧ pos.col ≤ intMax

/-- What `nextChar` and `getCurrentLineFromInput` keep in `int`s is in their range, also behind a tab. -/
structure State.InRange (s : State) : Prop where
  line : s.line ≤ intMax
  column : s.prepare.column ≤ intMax
  oldPos : s.tellg ≤ intMax

section
variable {file : List UInt8} {p : Nat} {s : State}

/-- The positions of a file of less than 2^30 bytes are in range. -/
theorem positionOf_inRange (hlength : file.length < 2 ^ 30) (hp : p ≤ file.length) : (positionOf file p).InRange := by
  have hline := @lineOf_le file p
  have hcolumn := columnOf_le hp
  unfold TokenPos.InRange positionOf intMax
  constructor <;> dsimp only <;> omega

theorem At.tellg_le (h : At .normal file p s) : s.tellg ≤ file.length := by
  have hchunk : (chunkAt file p).length ≤ file.length - maxBufferSize * (p / maxBufferSize) := by
    unfold chunkAt
    rw [List.length_take, List.length_drop]
    exact Nat.min_le_right _ _
  have hmod := Nat.div_add_mod p maxBufferSize
  have hle := h.le
  have htellg : s.tellg = maxBufferSize * (p / maxBufferSize) + (chunkAt file p).length := by
    rw [h.state]
    rfl
  omega

theorem At.inRange (hlength : file.length < 2 ^ 30) (h : At .normal file p s) : s.InRange := by
  have hline := @lineOf_le file p
  have hcolumn := columnOf_le h.le
  have htellg := h.tellg_le
  have hle := h.le
  have hprepare : s.prepare.column = if s.lastChar = ch '\t' then s.column + 1 else s.column := by
    unfold State.prepare State.readIntoBuffer
    by_cases htab : s.lastChar = ch '\t'
    · simp only [if_pos htab]
      split <;> rfl
    · simp only [if_neg htab]
      split <;> rfl
  refine ⟨?_, ?_, ?_⟩
  · rw [h.line]
    unfold intMax
    omega
  · have hlast : s.lastChar = ch '\t' → p < file.length := by
      intro htab
      have hchar : s.lastChar = charAt file p := by rw [h.state]; rfl
      rw [hchar, charAt_eq_ch (by decide)] at htab
      exact (List.getElem?_eq_some_iff.mp htab).1
    rw [hprepare, h.column]
    unfold intMax
    split
    next htab =>
      have := hlast htab
      omega
    next => omega
  · unfold intMax
    omega

end

/-- In the first lexer of a process every token, `Eof` too, has the line and the column of its first byte. In every state the
table has the first byte of each line entered so far, and it gives the text of the lines of all tokens and errors. The file
has less than 2^30 bytes, so that no `int` overflows. -/
theorem positions_correct (file : List UInt8) (hlength : file.length < 2 ^ 30) :
    (∃ ts, Places 0 file ts ∧ (lexFile .normal file).1 = ts.map (placed file) ∧
      ∀ t ∈ (lexFile .normal file).1, t.2.InRange) ∧
    (∀ s : State, Reached .normal file s → Tabled file s ∧ s.InRange) ∧
    (∀ s ts, Ran file s ts → ∀ t ∈ ts, t ∈ (lexFile .normal file).1 ∧ Readable file s t.2.line) ∧
    ∀ s ts (c : Call) e s', Ran file s ts → c ≠ .nextChar → c.run s = .error (.lexError e) s' →
      Tabled file s' ∧ Readable file s' e.line ∧ ∀ t ∈ ts, Readable file s' t.2.line := by
  refine ⟨?_, fun s hs => ?_, fun s ts hs t ht => ?_, fun s ts c e s' hs hc hrun => ?_⟩
  · obtain ⟨ts, hts, hrun⟩ := @places_readAll (file.length + 1) [] file [] ⟨0, 0⟩ (Nat.lt_succ_self _)
    rw [lexFile_eq]
    refine ⟨ts, hts, hrun, fun t ht => ?_⟩
    rw [hrun] at ht
    obtain ⟨⟨u, q⟩, hu, rfl⟩ := List.mem_map.mp ht
    have hle := hts.le hu
    rw [List.length_nil, Nat.zero_add] at hle
    exact positionOf_inRange hlength hle
  · obtain ⟨p, hat⟩ := reached_at hs
    exact ⟨hat.tabled, hat.inRange hlength⟩
  · obtain ⟨p, hat, -, hts⟩ := hs.spec
    exact ⟨(hts t ht).1, hat.readable_seen (hts t ht).2⟩
  · obtain ⟨p, hat, -, hline, -, hts⟩ := hs.error hc hrun
    rw [hline]
    exact ⟨hat.tabled, hat.readable (Nat.le_refl p), fun t ht => hat.readable_seen (hts t ht)⟩

/-- A tab, a pair of CR and LF, and a name. -/
def twoLines : List UInt8 := bytes ['\t', '\r', '\n', 'a']

theorem positions_correct_twoLines : ∃ ts, Places 0 twoLines ts ∧ (lexFile .normal twoLines).1 = ts.map (placed twoLines) ∧
    ∀ t ∈ (lexFile .normal twoLines).1, t.2.InRange := (positions_correct twoLines (by decide)).1

/-- A line of 2^31 - 1 blanks. -/
def longLine : List UInt8 := List.replicate 2147483647 32

theorem lineEnds_blanks (n p : Nat) : lineEnds (List.replicate n 32) p = [] := by
  unfold lineEnds
  refine List.filter_eq_nil_iff.mpr fun q _ h => ?_
  have hget : ∀ (q : Nat) (b : UInt8), (List.replicate n (32 : UInt8))[q]? = some b → b = 32 := by
    intro q b h
    exact List.eq_of_mem_replicate (List.mem_of_getElem? h)
  rcases of_decide_eq_true h with h | ⟨h, -⟩
  · exact absurd (hget q 10 h) (by decide)
  · exact absurd (hget q 13 h) (by decide)

theorem columnOf_blanks (n : Nat) : columnOf (List.replicate n 32) n = 1 + n := by
  unfold columnOf lineBefore lineStart lineStarts widths
  rw [lineEnds_blanks, List.take_of_length_le (Nat.le_of_eq List.length_replicate)]
  simp [width]

/-- The column that `Eof` is to have behind the long line is no `int`. -/
theorem not_positions_correct_longLine :
    Places 0 longLine [(Token.eof, longLine.length)] ∧
      ∀ line col : Int32, ¬ (line.toInt = (positionOf longLine longLine.length).line ∧
        col.toInt = (positionOf longLine longLine.length).col) := by
  refine ⟨?_, fun line col h => ?_⟩
  · have hgap : Gap longLine := .of_blanks fun b hb => by
      rw [(List.mem_replicate.mp hb).2]
      decide
    have hplaces := @Places.eof 0 longLine hgap
    rwa [Nat.zero_add] at hplaces
  · have hcolumn : (positionOf longLine longLine.length).col = 1 + 2147483647 := by
      unfold positionOf longLine
      rw [List.length_replicate]
      exact columnOf_blanks _
    have hcol := h.2
    have hlt := col.toInt_lt
    rw [hcolumn] at hcol
    omega

end Mjc.Lexer

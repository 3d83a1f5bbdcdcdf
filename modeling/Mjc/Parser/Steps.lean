import Mjc.Parser.Basic

/-!
# Parser steps, read forwards and backwards

* `run_bind_eq_ok` : what a sequence of two steps needs to return; `run_bind_of_ok` runs the first one;
* `expectAndNext_eq_ok` and its like : the inversion of the token reading functions;
* `expectAndNext_cons` and its like : running them on a list whose head is known;
* `Clean` : a result that is a value or a `ParseError`.
-/

namespace Mjc.Parser
open Mjc.Ast

variable {α β : Type}

/-! ## Sequencing -/

@[simp] theorem run_pure (a : α) (ts : List Token) : (pure a : P α).run ts = .ok (a, ts) := rfl

@[simp] theorem run_stop (s : Stop) (ts : List Token) : (P.stop s : P α).run ts = .error s := rfl

theorem run_bind (x : P α) (f : α → P β) (ts : List Token) :
    (x >>= f).run ts = match x.run ts with
      | .ok (a, ts') => (f a).run ts'
      | .error s => .error s := rfl

theorem run_bind_eq_ok {x : P α} {f : α → P β} {ts : List Token} {r : β × List Token} :
    (x >>= f).run ts = .ok r ↔ ∃ a ts', x.run ts = .ok (a, ts') ∧ (f a).run ts' = .ok r := by
  rw [run_bind]
  cases x.run ts with
  | ok p => obtain ⟨a, ts'⟩ := p; simp
  | error s => simp

theorem run_bind_of_ok {x : P α} {f : α → P β} {ts ts' : List Token} {a : α}
    (h : x.run ts = .ok (a, ts')) : (x >>= f).run ts = (f a).run ts' := by
  rw [run_bind, h]

theorem run_map_eq_ok {x : P α} {f : α → β} {ts rest : List Token} {b : β} :
    (f <$> x).run ts = .ok (b, rest) ↔ ∃ a, x.run ts = .ok (a, rest) ∧ f a = b := by
  change (x >>= fun a => pure (f a)).run ts = _ ↔ _
  simp only [run_bind_eq_ok, run_pure, Except.ok.injEq, Prod.mk.injEq]
  constructor
  · rintro ⟨a, ts', ha, hb, rfl⟩
    exact ⟨a, ha, hb⟩
  · rintro ⟨a, ha, hb⟩
    exact ⟨a, rest, ha, hb, rfl⟩

theorem run_map_of_ok {x : P α} {f : α → β} {ts ts' : List Token} {a : α}
    (h : x.run ts = .ok (a, ts')) : (f <$> x).run ts = .ok (f a, ts') :=
  run_bind_of_ok (f := fun a => pure (f a)) h

/-! ## Reading tokens -/

@[simp] theorem headTok_cons (t : Token) (ts : List Token) : headTok (t :: ts) = t := rfl

@[simp] theorem headTok_nil : headTok [] = Token.eof := rfl

@[simp] theorem run_curTok_bind (f : Token → P α) (ts : List Token) :
    (curTok >>= f).run ts = (f (headTok ts)).run ts := rfl

@[simp] theorem run_readNextToken_bind (f : Unit → P α) (ts : List Token) :
    (readNextToken >>= f).run ts = (f ()).run ts.tail := rfl

@[simp] theorem run_lookAhead_bind (k : Nat) (f : Token → P α) (ts : List Token) :
    (lookAhead k >>= f).run ts = (f (headTok (ts.drop k))).run ts := rfl

@[simp] theorem run_setCurTokStr_bind (str : String) (f : Unit → P α) (ts : List Token) :
    (setCurTokStr str >>= f).run ts = (f ()).run ({ headTok ts with str := str } :: ts.tail) := rfl

@[simp] theorem run_error (m : Message) (ts : List Token) :
    (error m : P α).run ts = .error (.parseError ⟨headTok ts, m⟩) := rfl

@[simp] theorem run_errorExpectedAnyOf (types : List TT) (ts : List Token) :
    (errorExpectedAnyOf types : P α).run ts =
      .error (.parseError ⟨headTok ts, .expectedAnyOf types⟩) := rfl

/-- The current token is of a type other than `Eof`, so it is the head of the list. -/
theorem eq_cons_of_headTok {ts : List Token} {type : TT} (h : (headTok ts).type = type)
    (hne : type ≠ .Eof) : ∃ t us, ts = t :: us ∧ t.type = type := by
  cases ts with
  | nil => exact absurd h.symm hne
  | cons t us => exact ⟨t, us, rfl, h⟩

theorem run_expect_bind (type : TT) (f : Unit → P α) (ts : List Token) :
    (expect type >>= f).run ts = if (headTok ts).type ≠ type then
      .error (.parseError ⟨headTok ts, .expected type⟩) else (f ()).run ts := by
  unfold expect
  by_cases h : (headTok ts).type ≠ type
  · rw [if_pos h, run_bind, run_curTok_bind, if_pos h]
    rfl
  · rw [if_neg h, run_bind, run_curTok_bind, if_neg h]
    rfl

theorem run_expectAndNext (type : TT) (ts : List Token) :
    (expectAndNext type).run ts = if (headTok ts).type ≠ type then
      .error (.parseError ⟨headTok ts, .expected type⟩) else .ok ((), ts.tail) :=
  run_expect_bind type (fun _ => readNextToken) ts

theorem run_expectGetIdentAndNext (type : TT) (ts : List Token) :
    (expectGetIdentAndNext type).run ts = if (headTok ts).type ≠ type then
      .error (.parseError ⟨headTok ts, .expected type⟩) else .ok ((headTok ts).str, ts.tail) :=
  run_expect_bind type _ ts

theorem expect_bind_eq_ok {type : TT} (hne : type ≠ .Eof) {f : Unit → P α} {ts : List Token}
    {r : α × List Token} :
    (expect type >>= f).run ts = .ok r ↔ ∃ t us, ts = t :: us ∧ t.type = type ∧ (f ()).run ts = .ok r := by
  rw [run_expect_bind]
  constructor
  · intro h
    split at h
    · cases h
    · next ht =>
      rw [ne_eq, not_not] at ht
      obtain ⟨t, us, rfl, ht⟩ := eq_cons_of_headTok ht hne
      exact ⟨t, us, rfl, ht, h⟩
  · rintro ⟨t, us, rfl, ht, h⟩
    rw [if_neg (by simp [ht]), h]

theorem expectAndNext_eq_ok {type : TT} (hne : type ≠ .Eof) {ts rest : List Token} {u : Unit} :
    (expectAndNext type).run ts = .ok (u, rest) ↔ ∃ t, ts = t :: rest ∧ t.type = type := by
  unfold expectAndNext
  rw [expect_bind_eq_ok hne]
  constructor
  · rintro ⟨t, us, rfl, ht, h⟩
    cases h
    exact ⟨t, rfl, ht⟩
  · rintro ⟨t, rfl, ht⟩
    exact ⟨t, rest, rfl, ht, rfl⟩

theorem expectGetIdentAndNext_eq_ok {type : TT} (hne : type ≠ .Eof) {ts rest : List Token} {s : String} :
    (expectGetIdentAndNext type).run ts = .ok (s, rest) ↔ ∃ t, ts = t :: rest ∧ t.type = type ∧ t.str = s := by
  unfold expectGetIdentAndNext
  rw [expect_bind_eq_ok hne]
  constructor
  · rintro ⟨t, us, rfl, ht, h⟩
    cases h
    exact ⟨t, rfl, ht, rfl⟩
  · rintro ⟨t, rfl, ht, rfl⟩
    exact ⟨t, rest, rfl, ht, rfl⟩

theorem run_expect_bind_cons {t : Token} {ts : List Token} {type : TT} (h : t.type = type) (f : Unit → P α) :
    (expect type >>= f).run (t :: ts) = (f ()).run (t :: ts) := by
  rw [run_expect_bind, if_neg (by simp [h])]

theorem run_expectAndNext_bind_cons {t : Token} {ts : List Token} {type : TT} (h : t.type = type)
    (f : Unit → P α) : (expectAndNext type >>= f).run (t :: ts) = (f ()).run ts := by
  rw [run_bind_of_ok]
  rw [run_expectAndNext, if_neg (by simp [h])]
  rfl

theorem run_expectGetIdentAndNext_bind_cons {t : Token} {ts : List Token} {type : TT} (h : t.type = type)
    (f : String → P α) : (expectGetIdentAndNext type >>= f).run (t :: ts) = (f t.str).run ts := by
  rw [run_bind_of_ok]
  rw [run_expectGetIdentAndNext, if_neg (by simp [h])]
  rfl

/-! ## Results -/

/-- The result is a value, or the stop is a `ParseError`. -/
def Clean (r : Except Stop α) : Prop := ∀ s, r = .error s → ∃ e, s = .parseError e

theorem clean_ok (a : α) : Clean (.ok a : Except Stop α) := fun s h => by cases h

theorem clean_parseError (e : ParseError) : Clean (.error (.parseError e) : Except Stop α) :=
  fun s h => by cases h; exact ⟨e, rfl⟩

theorem clean_bind {x : P α} {f : α → P β} {ts : List Token} (hx : Clean (x.run ts))
    (hf : ∀ a ts', x.run ts = .ok (a, ts') → Clean ((f a).run ts')) : Clean ((x >>= f).run ts) := by
  rw [run_bind]
  cases h : x.run ts with
  | ok p => exact hf p.1 p.2 h
  | error s =>
    obtain ⟨e, rfl⟩ := hx s h
    exact clean_parseError e

theorem clean_map {x : P α} {f : α → β} {ts : List Token} (hx : Clean (x.run ts)) :
    Clean ((f <$> x).run ts) :=
  clean_bind (f := fun a => pure (f a)) hx fun _ _ _ => clean_ok _

theorem clean_expectAndNext (type : TT) (ts : List Token) : Clean ((expectAndNext type).run ts) := by
  rw [run_expectAndNext]
  split
  · exact clean_parseError _
  · exact clean_ok _

theorem clean_expectGetIdentAndNext (type : TT) (ts : List Token) :
    Clean ((expectGetIdentAndNext type).run ts) := by
  rw [run_expectGetIdentAndNext]
  split
  · exact clean_parseError _
  · exact clean_ok _

end Mjc.Parser

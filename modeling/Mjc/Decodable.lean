import Mathlib.Data.List.TakeWhile
import Mathlib.Data.Nat.Basic

/-!
# Codes that can be read back

Code words whose end can be told from the text that follows.

* `Delimited P enc` : the words of `P` can be read off the front of any text; `Delimited.flatMap_inj` : a sequence of them
  can be read back;
* `append_inj_of_stop` : a run of symbols of one kind, up to the first symbol of another kind;
* `decimal_append_inj`, `replicate_append_inj` : decimal numbers and repeated symbols;
* `lengthPrefixed`, `delimited_lengthPrefixed` : the length of a word in front of it.
-/

namespace Mjc.Decodable

set_option autoImplicit false

variable {α β : Type}

/-- The words of `P` can be read off the front of any text. -/
def Delimited (P : α → Prop) (enc : α → List β) : Prop :=
  ∀ a b r r', P a → P b → enc a ++ r = enc b ++ r' → a = b ∧ r = r'

theorem Delimited.flatMap_inj {P : α → Prop} {enc : α → List β} (h : Delimited P enc) (hne : ∀ a, P a → enc a ≠ [])
    {as bs : List α} (ha : ∀ a ∈ as, P a) (hb : ∀ b ∈ bs, P b) (heq : as.flatMap enc = bs.flatMap enc) : as = bs := by
  induction as generalizing bs with
  | nil =>
    cases bs with
    | nil => rfl
    | cons b bs =>
      have hnil : enc b ++ bs.flatMap enc = [] := heq.symm
      exact absurd (List.append_eq_nil_iff.mp hnil).1 (hne b (hb b List.mem_cons_self))
  | cons a as ih =>
    cases bs with
    | nil =>
      have hnil : enc a ++ as.flatMap enc = [] := heq
      exact absurd (List.append_eq_nil_iff.mp hnil).1 (hne a (ha a List.mem_cons_self))
    | cons b bs =>
      obtain ⟨rfl, hrest⟩ := h a b _ _ (ha a List.mem_cons_self) (hb b List.mem_cons_self) heq
      have hrest := ih (fun x hx => ha x (List.mem_cons_of_mem _ hx)) (fun x hx => hb x (List.mem_cons_of_mem _ hx)) hrest
      rw [hrest]

/-- The text goes on with a symbol that is not of the kind, or ends. -/
def Stops (q : β → Bool) (r : List β) : Prop := ∀ c ∈ r.head?, q c = false

theorem stops_cons {q : β → Bool} {c : β} (h : q c = false) (r : List β) : Stops q (c :: r) := by
  intro d hd
  obtain rfl : c = d := Option.some.inj hd
  exact h

theorem Stops.append {q : β → Bool} {w : List β} (h : Stops q w) (hne : w ≠ []) (r : List β) : Stops q (w ++ r) := by
  cases w with
  | nil => exact absurd rfl hne
  | cons c w => exact stops_cons (h c rfl) (w ++ r)

theorem takeWhile_append_of_stop {q : β → Bool} {u r : List β} (hu : ∀ c ∈ u, q c = true) (hr : Stops q r) :
    (u ++ r).takeWhile q = u := by
  have hnil : r.takeWhile q = [] := by
    cases r with
    | nil => rfl
    | cons c r => exact List.takeWhile_cons_of_neg (by rw [hr c rfl]; exact Bool.false_ne_true)
  rw [List.takeWhile_append_of_pos hu, hnil, List.append_nil]

/-- A run of symbols of one kind ends where another kind begins. -/
theorem append_inj_of_stop {q : β → Bool} {u u' r r' : List β} (hu : ∀ c ∈ u, q c = true) (hu' : ∀ c ∈ u', q c = true)
    (hr : Stops q r) (hr' : Stops q r') (h : u ++ r = u' ++ r') : u = u' ∧ r = r' := by
  have hrun : u = u' := by
    rw [← takeWhile_append_of_stop hu hr, h, takeWhile_append_of_stop hu' hr']
  subst hrun
  exact ⟨rfl, List.append_cancel_left h⟩

theorem replicate_append_inj [DecidableEq β] {p : β} {n n' : Nat} {r r' : List β} (hr : Stops (· == p) r)
    (hr' : Stops (· == p) r') (h : List.replicate n p ++ r = List.replicate n' p ++ r') : n = n' ∧ r = r' := by
  have hp : ∀ n, ∀ c ∈ List.replicate n p, (c == p) = true := by
    intro n c hc
    rw [List.eq_of_mem_replicate hc]
    exact beq_self_eq_true p
  obtain ⟨hrun, hrest⟩ := append_inj_of_stop (hp n) (hp n') hr hr' h
  have hlength := congrArg List.length hrun
  rw [List.length_replicate, List.length_replicate] at hlength
  exact ⟨hlength, hrest⟩

theorem isDigit_toDigits (n : Nat) : ∀ c ∈ Nat.toDigits 10 n, c.isDigit = true :=
  fun _ hc => Nat.isDigit_of_mem_toDigits (by decide) (by decide) hc

theorem toDigits_inj {n n' : Nat} (h : Nat.toDigits 10 n = Nat.toDigits 10 n') : n = n' := by
  rw [← @Nat.ofDigitChars_ten_toDigits n, h, Nat.ofDigitChars_ten_toDigits]

theorem decimal_append_inj {n n' : Nat} {r r' : List Char} (hr : Stops Char.isDigit r) (hr' : Stops Char.isDigit r')
    (h : Nat.toDigits 10 n ++ r = Nat.toDigits 10 n' ++ r') : n = n' ∧ r = r' := by
  obtain ⟨hrun, hrest⟩ := append_inj_of_stop (isDigit_toDigits n) (isDigit_toDigits n') hr hr' h
  exact ⟨toDigits_inj hrun, hrest⟩

/-- The length of a word in front of it. -/
def lengthPrefixed (cs : List Char) : List Char := Nat.toDigits 10 cs.length ++ cs

/-- A word that does not begin with a digit. -/
def NoDigitFirst (cs : List Char) : Prop := ∃ c w, cs = c :: w ∧ c.isDigit = false

theorem NoDigitFirst.stops {cs : List Char} (h : NoDigitFirst cs) (r : List Char) : Stops Char.isDigit (cs ++ r) := by
  obtain ⟨c, w, rfl, hc⟩ := h
  exact stops_cons hc (w ++ r)

theorem delimited_lengthPrefixed : Delimited NoDigitFirst lengthPrefixed := by
  intro a b r r' ha hb h
  unfold lengthPrefixed at h
  rw [List.append_assoc, List.append_assoc] at h
  obtain ⟨hlength, hrest⟩ := decimal_append_inj (ha.stops r) (hb.stops r') h
  exact List.append_inj hrest hlength

end Mjc.Decodable

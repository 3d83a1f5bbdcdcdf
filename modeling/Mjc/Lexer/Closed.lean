import Mjc.Lexer.Reader

/-!
# What all functions of the lexer have in common

A property that the small functions have and that sequences keep is one of every function that reads a token.

* `ClosedUnder P` : `P` holds of the functions that read the file, the characters and the token, and of what is made of them;
* `ClosedUnder.readNextToken` : then it holds of `readNextToken`.
-/

namespace Mjc.Lexer

set_option autoImplicit false

/-- States that look the same to the functions that read a token. -/
def SameView (s s' : State) : Prop :=
  s'.isEof = s.isEof ∧ s'.lastChar = s.lastChar ∧ s'.tokenString = s.tokenString

/-- A property of functions that the small ones have, and that sequences of functions with it have. -/
structure ClosedUnder (P : ∀ α : Type, L α → Prop) : Prop where
  pure : ∀ {α : Type} (a : α), P α (pure a)
  bind : ∀ {α β : Type} {x : L α} {f : α → L β}, P α x → (∀ a, P β (f a)) → P β (x >>= f)
  get : ∀ {α : Type} {k : State → L α}, (∀ s, P α (k s)) → (∀ s s', SameView s s' → k s' = k s) →
    P α (do let s ← get; k s)
  outOfSteps : ∀ {α : Type}, P α outOfSteps
  next : P _ nextChar
  lastChar : P _ lastChar
  setTokenString : ∀ str, P _ (setTokenString str)
  append : ∀ c, P _ (append c)
  initToken : P _ initToken
  makeToken : ∀ type, P _ (makeToken type)
  error : ∀ {α : Type} (msg : String), P α (error msg)
  bound : P _ bound

namespace ClosedUnder

variable {α : Type} {P : ∀ α : Type, L α → Prop}

theorem branch {c : Prop} [Decidable c] {x y : L α} (hx : P α x) (hy : P α y) : P α (if c then x else y) := by
  split
  · exact hx
  · exact hy

variable (hP : ClosedUnder P)
include hP

theorem invalidCharError (c : Int) : P _ (invalidCharError c : L α) := branch (hP.error _) (hP.error _)

theorem appendAndNext : P _ appendAndNext :=
  hP.bind hP.lastChar fun _ => hP.bind (hP.append _) fun _ => hP.bind hP.next fun _ => hP.pure ()

/-! ### Blanks and comments -/

theorem skipSpaces (n : Nat) : P _ (skipSpaces n) := by
  induction n with
  | zero => exact hP.outOfSteps
  | succ n ih => exact hP.bind hP.next fun _ => branch ih (hP.pure ())

theorem skipComment (n : Nat) : P _ (skipComment n) := by
  induction n with
  | zero => exact hP.outOfSteps
  | succ n ih =>
    apply hP.get
    · intro s
      apply branch (hP.error _)
      apply branch (hP.invalidCharError _)
      apply branch
      · exact hP.bind hP.next fun _ => branch (hP.bind hP.next fun _ => hP.pure ()) ih
      · exact hP.bind hP.next fun _ => ih
    · intro s s' h
      obtain ⟨heof, hlast, -⟩ := h
      rw [heof, hlast]

theorem skipCommentsAndWhitespaces (n : Nat) : P _ (skipCommentsAndWhitespaces n) := by
  induction n with
  | zero => exact hP.outOfSteps
  | succ n ih =>
    apply hP.bind hP.lastChar
    intro c
    apply branch
    · apply hP.bind hP.initToken
      intro _
      apply hP.bind hP.next
      intro d
      apply branch
      · exact hP.bind hP.next fun _ => hP.bind hP.bound fun m => hP.bind (hP.skipComment m) fun _ => ih
      · exact hP.pure true
    · apply branch
      · exact hP.bind hP.bound fun m => hP.bind (hP.skipSpaces m) fun _ => ih
      · exact hP.pure false

/-! ### Tokens -/

theorem readWhile (p : Int → Bool) (n : Nat) : P _ (readWhile p n) := by
  induction n with
  | zero => exact hP.outOfSteps
  | succ n ih => exact hP.bind hP.next fun c => branch (hP.bind (hP.append c) fun _ => ih) (hP.pure ())

/-- A last character of an operator. -/
theorem finishOp (type : TT) : P _ (do Lexer.appendAndNext; Lexer.makeToken type) :=
  hP.bind hP.appendAndNext fun _ => hP.makeToken type

theorem readWithEq (plain withEq : TT) : P _ (readWithEq plain withEq) :=
  hP.bind hP.lastChar fun _ => branch (hP.finishOp withEq) (hP.makeToken plain)

theorem readOptEq (first : Char) (plain withEq : TT) : P _ (readOptEq first plain withEq) :=
  hP.bind (hP.setTokenString _) fun _ => hP.bind hP.next fun _ => hP.readWithEq plain withEq

theorem readEither (first c : Char) (cType : TT) (d : Char) (dType plain : TT) :
    P _ (readEither first c cType d dType plain) :=
  hP.bind (hP.setTokenString _) fun _ => hP.bind hP.next fun _ =>
    branch (hP.finishOp cType) (branch (hP.finishOp dType) (hP.makeToken plain))

theorem readSlashFromSecondCharOn : P _ readSlashFromSecondCharOn :=
  hP.bind (hP.setTokenString _) fun _ => hP.readWithEq _ _

theorem readDecNumber : P _ readDecNumber :=
  hP.bind hP.lastChar fun _ => hP.bind (hP.setTokenString _) fun _ =>
    branch (hP.bind hP.next fun _ => hP.makeToken _)
      (hP.bind hP.bound fun m => hP.bind (hP.readWhile _ m) fun _ => hP.makeToken _)

theorem readLT : P _ readLT :=
  hP.bind (hP.setTokenString _) fun _ => hP.bind hP.next fun _ => branch (hP.finishOp _)
    (branch (hP.bind hP.appendAndNext fun _ => hP.readWithEq _ _) (hP.makeToken _))

theorem readGT : P _ readGT := by
  refine hP.bind (hP.setTokenString _) fun _ => hP.bind hP.next fun _ => branch (hP.finishOp _) (branch ?_ (hP.makeToken _))
  refine hP.bind hP.appendAndNext fun _ => hP.bind hP.lastChar fun _ => branch (hP.finishOp _) ?_
  refine hP.bind hP.lastChar fun _ => branch ?_ (hP.makeToken _)
  exact hP.bind hP.appendAndNext fun _ => hP.readWithEq _ _

theorem readIdentifier : P _ readIdentifier := by
  refine hP.bind hP.lastChar fun _ => hP.bind (hP.setTokenString _) fun _ => hP.bind hP.bound fun m =>
    hP.bind (hP.readWhile _ m) fun _ => hP.get ?_ ?_
  · intro s
    split
    · exact hP.makeToken _
    · exact hP.makeToken _
  · intro s s' h
    rw [h.2.2]

theorem readSingle : P _ readSingle := by
  apply hP.get
  · intro s
    apply branch
    · exact hP.bind (hP.setTokenString _) fun _ => hP.makeToken _
    · refine hP.bind (hP.setTokenString _) fun _ => branch (hP.invalidCharError _) ?_
      exact hP.bind hP.next fun _ => hP.makeToken _
  · intro s s' h
    obtain ⟨heof, hlast, -⟩ := h
    rw [heof, hlast]

theorem readToken : P _ readToken := by
  refine hP.bind hP.initToken fun _ => hP.bind hP.lastChar fun c => ?_
  refine branch hP.readIdentifier (branch hP.readDecNumber ?_)
  refine branch (hP.readOptEq _ _ _) (branch (hP.readOptEq _ _ _) ?_)
  refine branch (hP.readEither _ _ _ _ _ _) (branch (hP.readEither _ _ _ _ _ _) ?_)
  refine branch hP.readLT (branch hP.readGT ?_)
  refine branch (hP.readEither _ _ _ _ _ _) (branch (hP.readEither _ _ _ _ _ _) ?_)
  exact branch (hP.readOptEq _ _ _) (branch (hP.readOptEq _ _ _) (branch (hP.readOptEq _ _ _) hP.readSingle))

theorem readNextToken : P _ readNextToken :=
  hP.bind hP.bound fun n => hP.bind (hP.skipCommentsAndWhitespaces n) fun _ =>
    branch hP.readSlashFromSecondCharOn hP.readToken

end ClosedUnder

end Mjc.Lexer

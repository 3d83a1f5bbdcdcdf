import Mjc.Parser.Steps

/-!
# More steps

A parser function that does not run out of steps returns the same result with more steps.

* `Le x y` : `y` returns what `x` returns, unless `x` runs out of steps; `Le.bind`;
* `ExprLe m n`, `exprLe` : the functions of expressions with `m` and with `n` steps.
-/

namespace Mjc.Parser
open Mjc.Ast

set_option autoImplicit false

section
variable {α β : Type}

/-- The second function returns what the first one returns, unless that one runs out of steps. -/
def Le (x y : P α) : Prop := ∀ ts, x.run ts ≠ .error .outOfSteps → y.run ts = x.run ts

theorem Le.refl (x : P α) : Le x x := fun _ _ => rfl

theorem Le.stop (y : P α) : Le (P.stop .outOfSteps) y := fun _ h => absurd rfl h

theorem Le.eq_ok {x y : P α} (h : Le x y) {ts : List Token} {r : α × List Token} (hx : x.run ts = .ok r) :
    y.run ts = .ok r := by
  rw [h ts (by rw [hx]; exact fun he => by cases he), hx]

theorem Le.eq_parseError {x y : P α} (h : Le x y) {ts : List Token} {e : ParseError}
    (hx : x.run ts = .error (.parseError e)) : y.run ts = .error (.parseError e) := by
  rw [h ts (by rw [hx]; exact fun he => by cases he), hx]

theorem Le.bind {x y : P α} {f g : α → P β} (hxy : Le x y) (hfg : ∀ a, Le (f a) (g a)) : Le (x >>= f) (y >>= g) := by
  intro ts h
  rw [run_bind] at h ⊢
  rw [run_bind]
  cases hx : x.run ts with
  | ok r =>
    obtain ⟨a, us⟩ := r
    rw [hx] at h
    rw [hxy.eq_ok hx]
    exact hfg a us h
  | error s =>
    rw [hx] at h
    have hs : x.run ts ≠ .error .outOfSteps := by
      rw [hx]
      exact fun he => h (by rw [Except.error.inj he])
    rw [hxy ts hs, hx]

/-- The function after a first one that does not count steps. -/
theorem Le.then {x : P α} {f g : α → P β} (hfg : ∀ a, Le (f a) (g a)) : Le (x >>= f) (x >>= g) := .bind (.refl x) hfg

end

/-! ## Expressions -/

/-- The functions of expressions with fewer and with more steps. -/
structure ExprLe (m n : Nat) : Prop where
  precedenceParse : ∀ p, Le (precedenceParse m p) (precedenceParse n p)
  precedenceLoop : ∀ p e, Le (precedenceLoop m p e) (precedenceLoop n p e)
  parseUnary : Le (parseUnary m) (parseUnary n)
  unaryLoop : ∀ us, Le (unaryLoop m us) (unaryLoop n us)
  parsePostfixExpr : Le (parsePostfixExpr m) (parsePostfixExpr n)
  postfixLoop : ∀ e, Le (postfixLoop m e) (postfixLoop n e)
  parsePrimary : Le (parsePrimary m) (parsePrimary n)
  parseMemberAccess : ∀ e, Le (parseMemberAccess m e) (parseMemberAccess n e)
  parseArrayAccess : ∀ e, Le (parseArrayAccess m e) (parseArrayAccess n e)
  parseArguments : Le (parseArguments m) (parseArguments n)
  argumentsLoop : ∀ es, Le (argumentsLoop m es) (argumentsLoop n es)
  parseNewExpr : Le (parseNewExpr m) (parseNewExpr n)
  dimensionLoop : ∀ d, Le (dimensionLoop m d) (dimensionLoop n d)

theorem exprLe_zero (n : Nat) : ExprLe 0 n :=
  ⟨fun _ => .stop _, fun _ _ => .stop _, .stop _, fun _ => .stop _, .stop _, fun _ => .stop _, .stop _, fun _ => .stop _,
    fun _ => .stop _, .stop _, fun _ => .stop _, .stop _, fun _ => .stop _⟩

section
variable {m n : Nat}

theorem ExprLe.precedenceLoop_succ (ih : ExprLe m n) (p : Int) (e : Expr) :
    Le (Parser.precedenceLoop (m + 1) p e) (Parser.precedenceLoop (n + 1) p e) := by
  unfold Parser.precedenceLoop
  refine Le.then fun tok => ?_
  dsimp only
  by_cases hp : getOpPrec tok.type ≥ p
  · rw [if_pos hp, if_pos hp]
    refine Le.then fun _ => (ih.precedenceParse _).bind fun rhs => ?_
    cases getOpForToken tok.type with
    | none => exact .refl _
    | some operation => exact ih.precedenceLoop p _
  · rw [if_neg hp, if_neg hp]
    exact .refl _

theorem ExprLe.unaryLoop_succ (ih : ExprLe m n) (us : List UnaryOp) :
    Le (Parser.unaryLoop (m + 1) us) (Parser.unaryLoop (n + 1) us) := by
  unfold Parser.unaryLoop
  refine Le.then fun tok => ?_
  split
  · exact Le.then fun _ => ih.unaryLoop _
  · exact Le.then fun _ => ih.unaryLoop _
  · split
    · exact Le.then fun _ => ih.parsePostfixExpr.bind fun _ => .refl _
    · exact ih.parsePostfixExpr.bind fun _ => .refl _

theorem ExprLe.postfixLoop_succ (ih : ExprLe m n) (e : Expr) :
    Le (Parser.postfixLoop (m + 1) e) (Parser.postfixLoop (n + 1) e) := by
  unfold Parser.postfixLoop
  refine Le.then fun tok => ?_
  split
  · exact (ih.parseMemberAccess e).bind fun _ => ih.postfixLoop _
  · exact (ih.parseArrayAccess e).bind fun _ => ih.postfixLoop _
  · exact .refl _

theorem ExprLe.parsePrimary_succ (ih : ExprLe m n) : Le (Parser.parsePrimary (m + 1)) (Parser.parsePrimary (n + 1)) := by
  unfold Parser.parsePrimary
  refine Le.then fun tok => ?_
  split
  · exact Le.then fun _ => (ih.precedenceParse 0).bind fun _ => .refl _
  · exact .refl _
  · exact .refl _
  · exact .refl _
  · exact .refl _
  · exact .refl _
  · refine Le.then fun _ => Le.then fun next => ?_
    split
    · exact Le.then fun _ => ih.parseArguments.bind fun _ => .refl _
    · exact .refl _
  · exact ih.parseNewExpr
  · exact .refl _

theorem ExprLe.parseMemberAccess_succ (ih : ExprLe m n) (e : Expr) :
    Le (Parser.parseMemberAccess (m + 1) e) (Parser.parseMemberAccess (n + 1) e) := by
  unfold Parser.parseMemberAccess
  refine Le.then fun _ => Le.then fun ident => Le.then fun tok => ?_
  split
  · exact Le.then fun _ => ih.parseArguments.bind fun _ => .refl _
  · exact .refl _

theorem ExprLe.parseArguments_succ (ih : ExprLe m n) :
    Le (Parser.parseArguments (m + 1)) (Parser.parseArguments (n + 1)) := by
  unfold Parser.parseArguments
  refine Le.then fun tok => ?_
  split
  case h_11 => exact .refl _
  case h_12 => exact .refl _
  all_goals exact (ih.precedenceParse 0).bind fun argument => ih.argumentsLoop [argument]

theorem ExprLe.argumentsLoop_succ (ih : ExprLe m n) (es : List Expr) :
    Le (Parser.argumentsLoop (m + 1) es) (Parser.argumentsLoop (n + 1) es) := by
  unfold Parser.argumentsLoop
  refine Le.then fun tok => ?_
  split
  · exact Le.then fun _ => (ih.precedenceParse 0).bind fun argument => ih.argumentsLoop _
  · exact .refl _

theorem ExprLe.parseNewExpr_succ (ih : ExprLe m n) : Le (Parser.parseNewExpr (m + 1)) (Parser.parseNewExpr (n + 1)) := by
  unfold Parser.parseNewExpr
  refine Le.then fun _ => Le.then fun next => ?_
  split
  · exact .refl _
  · refine Le.then fun elementType => Le.then fun _ => (ih.precedenceParse 0).bind fun size => Le.then fun _ => ?_
    exact (ih.dimensionLoop 1).bind fun _ => .refl _
  · exact .refl _

theorem ExprLe.dimensionLoop_succ (ih : ExprLe m n) (d : Nat) :
    Le (Parser.dimensionLoop (m + 1) d) (Parser.dimensionLoop (n + 1) d) := by
  unfold Parser.dimensionLoop
  refine Le.then fun tok => Le.then fun next => ?_
  split
  · exact Le.then fun _ => Le.then fun _ => ih.dimensionLoop _
  · exact .refl _

/-- One step more for both. -/
theorem ExprLe.succ (ih : ExprLe m n) : ExprLe (m + 1) (n + 1) where
  precedenceParse p := by
    unfold Parser.precedenceParse
    exact ih.parseUnary.bind fun e => ih.precedenceLoop p e
  precedenceLoop := ih.precedenceLoop_succ
  parseUnary := by
    unfold Parser.parseUnary
    exact ih.unaryLoop []
  unaryLoop := ih.unaryLoop_succ
  parsePostfixExpr := by
    unfold Parser.parsePostfixExpr
    exact ih.parsePrimary.bind fun e => ih.postfixLoop e
  postfixLoop := ih.postfixLoop_succ
  parsePrimary := ih.parsePrimary_succ
  parseMemberAccess := ih.parseMemberAccess_succ
  parseArrayAccess e := by
    unfold Parser.parseArrayAccess
    exact Le.then fun _ => (ih.precedenceParse 0).bind fun _ => .refl _
  parseArguments := ih.parseArguments_succ
  argumentsLoop := ih.argumentsLoop_succ
  parseNewExpr := ih.parseNewExpr_succ
  dimensionLoop := ih.dimensionLoop_succ

theorem exprLe (h : m ≤ n) : ExprLe m n := by
  induction m generalizing n with
  | zero => exact exprLe_zero n
  | succ m ih =>
    obtain ⟨n, rfl⟩ : ∃ k, n = k + 1 := ⟨n - 1, by omega⟩
    exact (ih (by omega)).succ

end

end Mjc.Parser

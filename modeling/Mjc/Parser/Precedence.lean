import Mjc.Climbing
import Mjc.Parser.Completeness
import Mjc.Parser.Fuel

/-!
# The tree of an expression

`precedenceParse` builds the tree of the layered grammar.

* `layer`, `table` : the layer of each operator; the assignment groups to the right, all others to the left;
* `Grouped` : the trees of the layered grammar; `grouped_iff_layered`;
* `ReadsUnary`, `OpTail` : unary expressions joined by operators, up to a token that is no binary operator;
* `precedenceLoop_climb` : the loop is precedence climbing, on the operands that `parseUnary` reads;
* `precedenceParse_correct` : the tree, and where the function stops;
* `expression_operands` : every text of the grammar is such a sequence.
-/

namespace Mjc.Parser
open Mjc.Ast Mjc.Grammar Mjc.Climbing

set_option autoImplicit false

/-! ## The layers of the operators -/

/-- The layer of an operator. -/
def layer : BinaryOp → Level
  | .assign => .assignment
  | .or => .logicalOr
  | .and => .logicalAnd
  | .equals | .notEquals => .equality
  | .less | .lessEquals | .greater | .greaterEquals => .relational
  | .plus | .minus => .additive
  | .mul | .div | .mod => .multiplicative

/-- The assignment is the only operator of its layer. -/
theorem layer_prec_eq_one (op : BinaryOp) : (layer op).prec = 1 ↔ op = .assign := by
  cases op <;> decide

/-- The precedences; the assignment groups to the right. -/
def table : Table BinaryOp where
  prec op := (layer op).prec
  right op := op = .assign
  uniform a b h := by
    rw [decide_eq_decide, ← layer_prec_eq_one a, ← layer_prec_eq_one b, h]

theorem getOpPrec_of_getOpForToken {type : TT} {op : BinaryOp} (h : getOpForToken type = some op) :
    getOpPrec type = table.prec op := by
  cases type <;> cases h <;> rfl

theorem getOpForToken_of_prec {type : TT} (h : 0 ≤ getOpPrec type) : ∃ op, getOpForToken type = some op := by
  cases type <;> first | exact ⟨_, rfl⟩ | exact absurd h (by decide)

/-- The precedence that `precedenceParse` asks for behind an operator. -/
theorem rightLayer_of_getOpForToken {type : TT} {op : BinaryOp} (h : getOpForToken type = some op) :
    (if type ≠ .Eq then getOpPrec type + 1 else getOpPrec type) = table.rightLayer op := by
  cases type <;> cases h <;> rfl

theorem rightLayer_nonneg (op : BinaryOp) : 0 ≤ table.rightLayer op := by
  cases op <;> decide

/-! ## The grammar with trees -/

/-- The layer below; there are only unary expressions below the last one. -/
def tighter : Level → Option Level
  | .assignment => some .logicalOr
  | .logicalOr => some .logicalAnd
  | .logicalAnd => some .equality
  | .equality => some .relational
  | .relational => some .additive
  | .additive => some .multiplicative
  | .multiplicative => none

/-- The trees of the layered grammar. An assignment groups to the right, every other operator to the left. -/
inductive Grouped : Option Level → OpTree BinaryOp Expr → Prop where
  | operand (e : Expr) : Grouped none (.leaf e)
  | next {l : Level} {t : OpTree BinaryOp Expr} (h : Grouped (tighter l) t) : Grouped (some l) t
  | left {op : BinaryOp} {l r : OpTree BinaryOp Expr} (hop : op ≠ .assign) (left : Grouped (some (layer op)) l)
      (right : Grouped (tighter (layer op)) r) : Grouped (some (layer op)) (.node op l r)
  | assign {l r : OpTree BinaryOp Expr} (left : Grouped (some .logicalOr) l) (right : Grouped (some .assignment) r) :
      Grouped (some .assignment) (.node .assign l r)

/-- The precedence of a layer, above all operators for the operands. -/
def depth (l : Option Level) : Int := l.elim 8 Level.prec

theorem depth_tighter (l : Level) : depth (tighter l) = l.prec + 1 := by cases l <;> rfl

theorem depth_inj {l m : Option Level} (h : depth l = depth m) : l = m := by
  rcases l with _ | l <;> rcases m with _ | m
  · rfl
  · cases m <;> exact absurd h (by decide)
  · cases l <;> exact absurd h (by decide)
  · cases l <;> cases m <;> first | rfl | exact absurd h (by decide)

/-- A tree of a layer is one of every looser layer. -/
theorem Grouped.loosen {l m : Option Level} {t : OpTree BinaryOp Expr} (h : Grouped l t) (hle : depth m ≤ depth l) :
    Grouped m t := by
  induction hd : (depth l - depth m).toNat generalizing m with
  | zero =>
    obtain rfl : l = m := depth_inj (by omega)
    exact h
  | succ d ih =>
    cases m with
    | none =>
      have hmax : depth l ≤ 8 := by
        rcases l with _ | l
        · exact le_rfl
        · cases l <;> decide
      have hnone : depth none = 8 := rfl
      omega
    | some m =>
      have hsome : depth (some m) = m.prec := rfl
      have hnext := depth_tighter m
      exact .next (ih (by omega) (by omega))

theorem Grouped.layered {l : Option Level} {t : OpTree BinaryOp Expr} (h : Grouped l t) : Layered table (depth l) t := by
  induction h with
  | operand e => exact .leaf _ e
  | @next l t _ ih =>
    rw [depth_tighter] at ih
    exact ih.mono (Int.le_add_one le_rfl)
  | @left op l r hop _ _ ihl ihr =>
    rw [depth_tighter] at ihr
    have hright : table.right op = false := decide_eq_false hop
    refine .node le_rfl ?_ ?_
    · unfold Table.leftLayer
      rw [hright]
      exact ihl
    · unfold Table.rightLayer
      rw [hright]
      exact ihr
  | assign _ _ ihl ihr => exact .node le_rfl ihl ihr

theorem grouped_of_layered {k : Int} {t : OpTree BinaryOp Expr} (h : Layered table k t) {l : Option Level}
    (hl : depth l ≤ k) : Grouped l t := by
  induction h generalizing l with
  | leaf k e =>
    have hmax : depth l ≤ 8 := by
      rcases l with _ | l
      · exact le_rfl
      · cases l <;> decide
    exact (Grouped.operand e).loosen hmax
  | @node k op l' r prec _ _ ihl ihr =>
    have hnode : Grouped (some (layer op)) (.node op l' r) := by
      by_cases hop : op = .assign
      · subst hop
        exact .assign (ihl (by decide)) (ihr (by decide))
      · have hright : table.right op = false := decide_eq_false hop
        unfold Table.leftLayer at ihl
        unfold Table.rightLayer at ihr
        rw [hright] at ihl ihr
        exact .left hop (ihl le_rfl) (ihr (le_of_eq (depth_tighter _)))
    exact hnode.loosen (hl.trans prec)

/-- The grammar of expressions is the grammar of the precedences. -/
theorem grouped_iff_layered {t : OpTree BinaryOp Expr} : Grouped (some .assignment) t ↔ Layered table 0 t := by
  constructor
  · intro h
    exact h.layered.mono (by decide)
  · intro h
    have hone : Layered table 1 t := by
      cases h with
      | leaf => exact .leaf _ _
      | @node _ op l r _ left right => exact .node (by cases op <;> decide) left right
    exact grouped_of_layered hone le_rfl

/-! ## Operands and operators -/

/-- The tree as an expression. -/
def toExpr : OpTree BinaryOp Expr → Expr
  | .leaf e => e
  | .node op l r => .binary op (toExpr l) (toExpr r)

/-- `parseUnary` reads this expression. -/
def ReadsUnary (ts : List Token) (e : Expr) (rest : List Token) : Prop := ∃ n, (parseUnary n).run ts = .ok (e, rest)

/-- Operators and unary expressions, up to a token that is no binary operator. -/
inductive OpTail : List Token → List (BinaryOp × Expr) → List Token → Prop where
  | nil {rest : List Token} (stop : getOpPrec (headTok rest).type < 0) : OpTail rest [] rest
  | cons {tok : Token} {op : BinaryOp} {e : Expr} {ts us rest : List Token} {xs : List (BinaryOp × Expr)}
      (hop : getOpForToken tok.type = some op) (unary : ReadsUnary ts e us) (tail : OpTail us xs rest) :
      OpTail (tok :: ts) ((op, e) :: xs) rest

theorem ReadsUnary.eventually {ts rest : List Token} {e : Expr} (h : ReadsUnary ts e rest) :
    ∃ N, ∀ n ≥ N, (parseUnary n).run ts = .ok (e, rest) := by
  obtain ⟨N, hN⟩ := h
  exact ⟨N, fun n hn => (exprLe hn).parseUnary.eq_ok hN⟩

/-- The next operator of the sequence is the next token. -/
theorem OpTail.prec_lt {p : Int} (hp : 0 ≤ p) {us rest : List Token} {xs : List (BinaryOp × Expr)} (h : OpTail us xs rest)
    (hxs : Below table p xs) : getOpPrec (headTok us).type < p := by
  cases h with
  | nil stop => exact stop.trans_le hp
  | cons hop =>
    rw [headTok_cons, getOpPrec_of_getOpForToken hop]
    exact below_cons.mp hxs

/-- The loop of `precedenceParse` is precedence climbing. -/
theorem precedenceLoop_climb {p : Int} {t t' : OpTree BinaryOp Expr} {xs ys : List (BinaryOp × Expr)}
    (h : Climb table p t xs t' ys) (hp : 0 ≤ p) {us rest : List Token} (hs : OpTail us xs rest) :
    ∃ vs, OpTail vs ys rest ∧ ∃ N, ∀ n ≥ N, (precedenceLoop n p (toExpr t)).run us = .ok (toExpr t', vs) := by
  induction h generalizing us with
  | @stop p t xs below =>
    refine ⟨us, hs, 1, fun n hn => ?_⟩
    obtain ⟨n, rfl⟩ : ∃ k, n = k + 1 := ⟨n - 1, by omega⟩
    have hlt := hs.prec_lt hp below
    rw [precedenceLoop, run_curTok_bind]
    dsimp only
    rw [if_neg (by omega)]
    rfl
  | @step p op e t t' r xs ys zs prec operand loop ihr ih =>
    cases hs with
    | @cons tok _ _ ts us _ _ hop unary tail =>
      obtain ⟨N₀, hunary⟩ := unary.eventually
      obtain ⟨vs, hvs, N₁, hright⟩ := ihr (rightLayer_nonneg op) tail
      obtain ⟨ws, hws, N₂, hloop⟩ := ih hp hvs
      refine ⟨ws, hws, N₀ + N₁ + N₂ + 2, fun n hn => ?_⟩
      obtain ⟨n, rfl⟩ : ∃ k, n = k + 2 := ⟨n - 2, by omega⟩
      have hrhs : (precedenceParse (n + 1) (table.rightLayer op)).run ts = .ok (toExpr r, vs) := by
        rw [precedenceParse, run_bind_of_ok (hunary n (by omega))]
        exact hright n (by omega)
      rw [precedenceLoop, run_curTok_bind]
      dsimp only
      rw [headTok_cons, if_pos (by rw [getOpPrec_of_getOpForToken hop]; exact prec), run_readNextToken_bind, List.tail_cons,
        rightLayer_of_getOpForToken hop, run_bind_of_ok hrhs, hop]
      exact hloop (n + 1) (by omega)

/-- From any operand on, `precedenceParse` climbs. -/
theorem precedenceParse_climb {p : Int} (hp : 0 ≤ p) {ts us rest : List Token} {e : Expr} {xs ys : List (BinaryOp × Expr)}
    {t : OpTree BinaryOp Expr} (hu : ReadsUnary ts e us) (hs : OpTail us xs rest) (h : Climb table p (.leaf e) xs t ys) :
    ∃ vs, OpTail vs ys rest ∧ ∃ N, ∀ n ≥ N, (precedenceParse n p).run ts = .ok (toExpr t, vs) := by
  obtain ⟨N₀, hunary⟩ := hu.eventually
  obtain ⟨vs, hvs, N₁, hloop⟩ := precedenceLoop_climb h hp hs
  refine ⟨vs, hvs, N₀ + N₁ + 1, fun n hn => ?_⟩
  obtain ⟨n, rfl⟩ : ∃ k, n = k + 1 := ⟨n - 1, by omega⟩
  rw [precedenceParse, run_bind_of_ok (hunary n (by omega))]
  exact hloop n (by omega)

/-- What climbing reads are the operators up to the first looser one. -/
theorem takeWhile_of_climb {p : Int} {e : Expr} {xs ys : List (BinaryOp × Expr)} {t : OpTree BinaryOp Expr}
    (h : Climb table p (.leaf e) xs t ys) :
    t.items = xs.takeWhile (fun x => p ≤ table.prec x.1) ∧ ys = xs.dropWhile fun x => p ≤ table.prec x.1 := by
  have hitems : xs = t.items ++ ys := h.inorder.2
  have hlayered : Layered table p t := h.layered (.leaf p e) trivial
  have hstop : ys.takeWhile (fun x => p ≤ table.prec x.1) = [] := by
    cases ys with
    | nil => rfl
    | cons y ys =>
      refine List.takeWhile_cons_of_neg fun hy => ?_
      exact absurd (of_decide_eq_true hy) (not_le_of_gt (below_cons.mp h.stops))
  have htake : xs.takeWhile (fun x => p ≤ table.prec x.1) = t.items := by
    rw [hitems, List.takeWhile_append_of_pos fun x hx => decide_eq_true (hlayered.prec_le x hx), hstop, List.append_nil]
  refine ⟨htake.symm, ?_⟩
  apply @List.append_cancel_left _ t.items
  rw [← hitems, ← htake, List.takeWhile_append_dropWhile]

/-- `precedenceParse` reads a sequence of unary expressions up to the first operator of precedence below `p`, and returns
the one tree of the layered grammar for what it read. For `p = 0` it reads the whole sequence. -/
theorem precedenceParse_correct {p : Int} (hp : 0 ≤ p) {ts us rest : List Token} {e : Expr}
    {xs : List (BinaryOp × Expr)} (hu : ReadsUnary ts e us) (hs : OpTail us xs rest) :
    ∃ t vs, Layered table p t ∧ t.first = e ∧ t.items = xs.takeWhile (fun x => p ≤ table.prec x.1) ∧
      (∀ t', Layered table p t' → t'.first = t.first → t'.items = t.items → t' = t) ∧
      (∃ N, ∀ n ≥ N, (precedenceParse n p).run ts = .ok (toExpr t, vs)) ∧
      OpTail vs (xs.dropWhile fun x => p ≤ table.prec x.1) rest ∧
      (p = 0 → Grouped (some .assignment) t ∧ t.items = xs ∧ vs = rest ∧
        ∀ t', Grouped (some .assignment) t' → t'.first = e → t'.items = xs → t' = t) := by
  obtain ⟨t, ys, h⟩ := climb_total (T := table) p (.leaf e) xs
  obtain ⟨htake, hdrop⟩ := takeWhile_of_climb h
  obtain ⟨vs, hvs, hrun⟩ := precedenceParse_climb hp hu hs h
  have hlayered : Layered table p t := h.layered (.leaf p e) trivial
  refine ⟨t, vs, hlayered, h.inorder.1, htake, fun t' ht' => layered_unique ht' hlayered, hrun, hdrop ▸ hvs, ?_⟩
  rintro rfl
  have hall : ∀ x ∈ xs, (0 : Int) ≤ table.prec x.1 := by
    intro x _
    cases x.1 <;> decide
  have hnil : ys = [] := by
    rw [hdrop]
    exact List.dropWhile_eq_nil_iff.mpr fun x hx => decide_eq_true (hall x hx)
  subst hnil
  have hitems : t.items = xs := (h.inorder.2.trans (List.append_nil _)).symm
  refine ⟨grouped_iff_layered.mpr hlayered, hitems, ?_, fun t' ht' hfirst hitems' => ?_⟩
  · cases hvs with
    | nil => rfl
  · exact layered_unique (grouped_iff_layered.mp ht') hlayered (hfirst.trans h.inorder.1.symm) (hitems'.trans hitems.symm)

/-! ## The texts of the grammar -/

theorem opTail_of_ops {us rest : List Token} (h : Ops 0 us) (hl : Lex us) (hr : StopAt 0 rest) :
    ∃ xs, OpTail (us ++ rest) xs rest := by
  induction h with
  | nil => exact ⟨[], .nil hr.2⟩
  | @cons op us vs prec unary ops ih =>
    obtain ⟨xs, hxs⟩ := ih hl.tail.of_append
    obtain ⟨o, ho⟩ := getOpForToken_of_prec prec
    have hnext : NoPostfix (vs ++ rest) := Ops.noPostfix ops le_rfl hr.1
    obtain ⟨e, he⟩ := (exprComplete (16 * us.length + 16)).parseUnary unary hl.tail.of_append_left hnext (by omega)
    refine ⟨(o, e) :: xs, ?_⟩
    rw [List.cons_append, List.append_assoc]
    exact .cons ho ⟨_, he⟩ hxs

/-- A text of the grammar, before a token that does not continue it, is a sequence of unary expressions. -/
theorem expression_operands {ts rest : List Token} (h : Derives .expression ts) (hl : Lex ts) (hr : StopAt 0 rest) :
    ∃ e us xs, ReadsUnary (ts ++ rest) e us ∧ OpTail us xs rest := by
  obtain ⟨us, vs, rfl, hunary, hops⟩ := derives_expression_iff.mp h
  obtain ⟨xs, hxs⟩ := opTail_of_ops hops hl.of_append hr
  have hnext : NoPostfix (vs ++ rest) := Ops.noPostfix hops le_rfl hr.1
  obtain ⟨e, he⟩ := (exprComplete (16 * us.length + 16)).parseUnary hunary hl.of_append_left hnext (by omega)
  rw [← List.append_assoc] at he
  exact ⟨e, vs ++ rest, xs, ⟨_, he⟩, hxs⟩

/-- `a || b = c * d;` -/
def sampleOperands : List Token :=
  [⟨.Identifier, "a"⟩, ⟨.VBarVBar, ""⟩, ⟨.Identifier, "b"⟩, ⟨.Eq, ""⟩, ⟨.Identifier, "c"⟩, ⟨.Star, ""⟩, ⟨.Identifier, "d"⟩,
    ⟨.Semicolon, ""⟩]

/-- The left side of the assignment is `a || b`. -/
theorem precedenceParse_correct_sampleOperands :
    ∃ N, ∀ n ≥ N, (precedenceParse n 0).run sampleOperands = .ok (.binary .assign
      (.binary .or (.varRef "a") (.varRef "b")) (.binary .mul (.varRef "c") (.varRef "d")), [⟨.Semicolon, ""⟩]) := by
  have htail : OpTail sampleOperands.tail [(.or, .varRef "b"), (.assign, .varRef "c"), (.mul, .varRef "d")]
      [⟨.Semicolon, ""⟩] :=
    .cons rfl ⟨5, rfl⟩ (.cons rfl ⟨5, rfl⟩ (.cons rfl ⟨5, rfl⟩ (.nil (by decide))))
  have hfirst : ReadsUnary sampleOperands (.varRef "a") sampleOperands.tail := ⟨5, rfl⟩
  obtain ⟨t, vs, -, -, -, -, hrun, -, hwhole⟩ := precedenceParse_correct le_rfl hfirst htail
  obtain ⟨-, -, rfl, hunique⟩ := hwhole rfl
  have hlayered : Layered table 0 (.node BinaryOp.assign (.node .or (.leaf (Expr.varRef "a")) (.leaf (.varRef "b")))
      (.node .mul (.leaf (.varRef "c")) (.leaf (.varRef "d")))) :=
    .node (by decide) (.node (by decide) (.leaf _ _) (.leaf _ _)) (.node (by decide) (.leaf _ _) (.leaf _ _))
  obtain rfl := hunique _ (grouped_iff_layered.mpr hlayered) rfl rfl
  exact hrun

end Mjc.Parser

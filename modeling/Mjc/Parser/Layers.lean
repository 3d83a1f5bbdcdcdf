import Mjc.Parser.Grammar

/-!
# The binary layers of the grammar, as a sequence

A text derivable from `Expression` is a unary expression followed by operators and unary expressions,
in any mix: `derives_expression_iff`. The precedences only say how the layers group the sequence.

* `Ops k ts` : `ts` is a sequence of binary operators of precedence at least `k`, each followed by a
  unary expression;
* `Ops.split` : such a sequence has no operator of precedence `k`, or splits at the first one.
-/

namespace Mjc.Grammar
open Mjc.Parser (getOpPrec)

/-- Binary operators of precedence at least `k`, each followed by a unary expression. -/
inductive Ops (k : Int) : List Token → Prop where
  | nil : Ops k []
  | cons {op : Token} {us vs : List Token} (prec : k ≤ getOpPrec op.type)
      (unary : Derives (.unaryExpression false) us) (ops : Ops k vs) : Ops k (op :: (us ++ vs))

/-- A unary expression followed by binary operators of precedence at least `k`. -/
def OpSeq (k : Int) (ts : List Token) : Prop :=
  ∃ us vs, ts = us ++ vs ∧ Derives (.unaryExpression false) us ∧ Ops k vs

theorem Ops.mono {j k : Int} {ts : List Token} (h : Ops k ts) (hjk : j ≤ k) : Ops j ts := by
  induction h with
  | nil => exact .nil
  | cons prec unary _ ih => exact .cons (by omega) unary ih

theorem Ops.append {k : Int} {us vs : List Token} (hu : Ops k us) (hv : Ops k vs) : Ops k (us ++ vs) := by
  induction hu with
  | nil => exact hv
  | cons prec unary _ ih =>
    rw [List.cons_append, List.append_assoc]
    exact .cons prec unary ih

theorem getOpPrec_le (type : Token.Type) : getOpPrec type ≤ 7 := by cases type <;> decide

/-- No operator binds tighter than the multiplicative ones. -/
theorem Ops.eq_nil {ts : List Token} (h : Ops 8 ts) : ts = [] := by
  cases h with
  | nil => rfl
  | @cons op _ _ prec _ _ =>
    have := getOpPrec_le op.type
    omega

/-- Split a sequence at its first operator of precedence `k`. -/
theorem Ops.split {k : Int} {ts : List Token} (h : Ops k ts) :
    Ops (k + 1) ts ∨ ∃ us op vs, ts = us ++ op :: vs ∧ Ops (k + 1) us ∧ getOpPrec op.type = k ∧ OpSeq k vs := by
  induction h with
  | nil => exact .inl .nil
  | @cons op us vs prec unary ops ih =>
    rcases Int.lt_or_eq_of_le prec with hk | hk
    · rcases ih with ih | ⟨us', op', vs', rfl, hus, hop, hvs⟩
      · exact .inl (.cons hk unary ih)
      · exact .inr ⟨op :: (us ++ us'), op', vs', by simp, .cons hk unary hus, hop, hvs⟩
    · exact .inr ⟨[], op, us ++ vs, rfl, .nil, hk.symm, us, vs, rfl, unary, ops⟩

/-! ## Layers and sequences -/

/-- The precedence of a layer's operators. -/
def Level.prec : Level → Int
  | .assignment => 1
  | .logicalOr => 2
  | .logicalAnd => 3
  | .equality => 4
  | .relational => 5
  | .additive => 6
  | .multiplicative => 7

theorem mem_ops_iff (l : Level) (type : Token.Type) : type ∈ l.ops ↔ getOpPrec type = l.prec := by
  cases l <;> cases type <;> decide

theorem derives_layer_iff {l : Level} {ts : List Token} :
    Derives (.layer l) ts ↔ ∃ us vs, ts = us ++ vs ∧ Derives l.next us ∧ Derives (.layerTail l) vs := by
  simp [@derives_iff (.layer l), rules]

theorem derives_layerTail_iff {l : Level} {ts : List Token} :
    Derives (.layerTail l) ts ↔
      ts = [] ∨ ∃ op us, ts = op :: us ∧ getOpPrec op.type = l.prec ∧ Derives (.layer l) us := by
  rw [derives_iff]
  simp only [rules, List.mem_cons, List.mem_map]
  constructor
  · rintro ⟨rhs, rfl | ⟨type, hmem, rfl⟩, h⟩
    · exact .inl (derivesAll_nil.1 h)
    · simp only [derivesAll_terminal, derivesAll_nonterminal, derivesAll_nil] at h
      obtain ⟨op, us, rfl, hop, us', vs', rfl, hd, rfl⟩ := h
      refine .inr ⟨op, us', by simp, ?_, hd⟩
      rw [← mem_ops_iff]
      exact hop ▸ hmem
  · rintro (rfl | ⟨op, us, rfl, hop, hd⟩)
    · exact ⟨[], .inl rfl, .nil⟩
    · refine ⟨_, .inr ⟨op.type, (mem_ops_iff l _).2 hop, rfl⟩, ?_⟩
      exact .terminal rfl (by simpa using hd)

/-- A layer's text is a sequence of its operators and tighter ones, if this is so one layer below. -/
theorem opSeq_of_layer {l : Level} (hnext : ∀ ts, Derives l.next ts → OpSeq (l.prec + 1) ts) :
    ∀ ts, Derives (.layer l) ts → OpSeq l.prec ts := by
  intro ts
  induction hn : ts.length using Nat.strongRecOn generalizing ts with
  | ind n ih =>
    intro h
    obtain ⟨us, vs, rfl, hus, hvs⟩ := derives_layer_iff.1 h
    obtain ⟨u, v, rfl, hu, hv⟩ := hnext us hus
    have hv' : Ops l.prec v := hv.mono (by omega)
    rcases derives_layerTail_iff.1 hvs with rfl | ⟨op, ws, rfl, hop, hws⟩
    · exact ⟨u, v, by simp, hu, hv'⟩
    · obtain ⟨u', v', rfl, hu', hv''⟩ := ih ws.length (by simp at hn; omega) ws rfl hws
      exact ⟨u, v ++ op :: (u' ++ v'), by simp, hu, hv'.append (.cons (Int.le_of_eq hop.symm) hu' hv'')⟩

/-- A sequence of a layer's operators and tighter ones is the layer's text, if this is so one layer below. -/
theorem layer_of_opSeq {l : Level} (hnext : ∀ ts, OpSeq (l.prec + 1) ts → Derives l.next ts) :
    ∀ ts, OpSeq l.prec ts → Derives (.layer l) ts := by
  intro ts
  induction hn : ts.length using Nat.strongRecOn generalizing ts with
  | ind n ih =>
    rintro ⟨u, v, rfl, hu, hv⟩
    rw [derives_layer_iff]
    rcases hv.split with hv' | ⟨v₁, op, v₂, rfl, hv₁, hop, hv₂⟩
    · exact ⟨u ++ v, [], by simp, hnext _ ⟨u, v, rfl, hu, hv'⟩, derives_layerTail_iff.2 (.inl rfl)⟩
    · refine ⟨u ++ v₁, op :: v₂, by simp, hnext _ ⟨u, v₁, rfl, hu, hv₁⟩, ?_⟩
      exact derives_layerTail_iff.2 (.inr ⟨op, v₂, rfl, hop, ih v₂.length (by simp at hn; omega) v₂ rfl hv₂⟩)

theorem derives_layer_iff_opSeq (l : Level) (ts : List Token) : Derives (.layer l) ts ↔ OpSeq l.prec ts := by
  have hunary : ∀ us, Derives (.unaryExpression false) us ↔ OpSeq 8 us := by
    intro us
    constructor
    · intro h
      exact ⟨us, [], by simp, h, .nil⟩
    · rintro ⟨u, v, rfl, hu, hv⟩
      rw [hv.eq_nil, List.append_nil]
      exact hu
  have step : ∀ (l : Level) {k : Int}, k = l.prec + 1 → (∀ us, Derives l.next us ↔ OpSeq k us) →
      ∀ us, Derives (.layer l) us ↔ OpSeq l.prec us := by
    rintro l k rfl hnext us
    exact ⟨opSeq_of_layer (fun _ => (hnext _).1) us, layer_of_opSeq (fun _ => (hnext _).2) us⟩
  have hmul := step .multiplicative rfl hunary
  have hadd := step .additive rfl hmul
  have hrel := step .relational rfl hadd
  have heq := step .equality rfl hrel
  have hand := step .logicalAnd rfl heq
  have hor := step .logicalOr rfl hand
  cases l with
  | assignment => exact step .assignment rfl hor ts
  | logicalOr => exact hor ts
  | logicalAnd => exact hand ts
  | equality => exact heq ts
  | relational => exact hrel ts
  | additive => exact hadd ts
  | multiplicative => exact hmul ts

/-- An expression is any sequence of unary expressions joined by binary operators. -/
theorem derives_expression_iff {ts : List Token} : Derives .expression ts ↔ OpSeq 0 ts := by
  have hrule : Derives .expression ts ↔ Derives (.layer .assignment) ts := by
    simp [@derives_iff .expression, rules]
  rw [hrule, derives_layer_iff_opSeq]
  -- no operator has precedence 0
  have hprec : ∀ {vs : List Token}, Ops 0 vs → Ops 1 vs := by
    intro vs h
    rcases h.split with h | ⟨us, op, ws, rfl, -, hop, -⟩
    · exact h
    · exact absurd hop (by cases op.type <;> decide)
  constructor
  · rintro ⟨u, v, rfl, hu, hv⟩
    exact ⟨u, v, rfl, hu, hv.mono (by decide)⟩
  · rintro ⟨u, v, rfl, hu, hv⟩
    exact ⟨u, v, rfl, hu, hprec hv⟩

end Mjc.Grammar

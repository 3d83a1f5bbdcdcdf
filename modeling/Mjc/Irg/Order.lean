import Mjc.Irg.Graph

/-!
# What the topological walk puts first

* `Precedes` : one node before every occurrence of another;
* `operand_precedes` : an operand comes before the node, unless one of them breaks loops;
* `cfgpred_precedes` : a predecessor of a block comes before what is in the block, if no predecessor that is listed
  before it depends on the block.
-/

namespace Mjc.Irg.IrGraph

set_option autoImplicit false

/-- `p` stands before every occurrence of `n`. -/
def Precedes {α : Type} (order : List α) (p n : α) : Prop := ∀ l, l ++ [n] <+: order → p ∈ l

variable {α : Type}

theorem Precedes.concat {order : List α} {p n x : α} (h : Precedes order p n) (hx : n = x → p ∈ order) :
    Precedes (order ++ [x]) p n := by
  intro l hl
  rcases List.prefix_concat_iff.mp hl with heq | hl
  · obtain ⟨rfl, hn⟩ := List.append_inj' heq rfl
    exact hx (List.cons.inj hn).1
  · exact h l hl

/-- Some elements may be left out. -/
theorem Precedes.filter {order : List α} {p n : α} (h : Precedes order p n) {keep : α → Bool} (hp : keep p = true) :
    Precedes (order.filter keep) p n := by
  rintro l ⟨l', hl⟩
  rw [List.append_assoc, List.singleton_append] at hl
  obtain ⟨l₁, l₂, rfl, rfl, htail⟩ := List.filter_eq_append_iff.mp hl.symm
  obtain ⟨l₃, l₄, rfl, hl₃, hn, -⟩ := List.filter_eq_cons_iff.mp htail
  have hmem := h (l₁ ++ l₃) ⟨l₄, by simp⟩
  have hmem : p ∈ (l₁ ++ l₃).filter keep := List.mem_filter.mpr ⟨hmem, hp⟩
  rw [List.filter_append] at hmem
  rcases List.mem_append.mp hmem with hmem | hmem
  · exact hmem
  · obtain ⟨hmem, hkeep⟩ := List.mem_filter.mp hmem
    exact absurd hkeep (hl₃ p hmem)

/-- What stands before an element of a part of the order. -/
theorem Precedes.mem_left {done rest : List α} {p n : α} (h : Precedes (done ++ rest) p n) (hn : n ∈ done) :
    p ∈ done := by
  obtain ⟨l₁, l₂, rfl⟩ := List.append_of_mem hn
  have hmem := h l₁ ⟨l₂ ++ rest, by simp⟩
  exact List.mem_append_left _ hmem

variable {g : IrGraph}

theorem enter_order (irn : Fin g.size) (w : Walk g.size) : (g.enter irn w).order = w.order := by
  unfold enter
  split <;> rfl

/-- A node is initialised last, or not again. -/
theorem leave_order (irn : Fin g.size) (w : Walk g.size) :
    (g.leave irn w).order = w.order ∨ (g.leave irn w).order = w.order ++ [irn] := by
  unfold leave
  split
  · exact Or.inr rfl
  · exact Or.inl rfl

/-- The other nodes are marked when they are initialised. -/
def Marked (w : Walk g.size) : Prop := ∀ n ∈ w.visited, (g.node n).isLoopBreaker = false → n ∈ w.order

theorem Visits.marked {roots : List (Fin g.size)} {w w' : Walk g.size} (h : Visits roots w w') (hw : Marked w) :
    Marked w' := fun n hn hbreaks => (h.new n hn).elim (fun hn => h.order n (hw n hn hbreaks)) id

theorem Marked.enter {w : Walk g.size} (hw : Marked w) (irn : Fin g.size) : Marked (g.enter irn w) := by
  intro n hn hbreaks
  rw [enter_order]
  unfold IrGraph.enter at hn
  split at hn
  · rename_i hirn
    rcases List.mem_cons.mp hn with rfl | hn
    · rw [hirn] at hbreaks
      cases hbreaks
    · exact hw n hn hbreaks
  · exact hw n hn hbreaks

/-- An invariant of the walk over some nodes. -/
theorem foldlM_invariant {visit : Fin g.size → Walk g.size → Option (Walk g.size)} {I : Walk g.size → Prop}
    {roots : List (Fin g.size)} {w w' : Walk g.size} (hvisit : ∀ r ∈ roots, ∀ w w', I w → visit r w = some w' → I w')
    (hw : I w) (h : roots.foldlM (fun w r => visit r w) w = some w') : I w' := by
  induction roots generalizing w with
  | nil =>
    obtain rfl := Option.some.inj h
    exact hw
  | cons r roots ih =>
    rw [List.foldlM_cons] at h
    obtain ⟨w₁, hr, hrest⟩ := Option.bind_eq_some_iff.mp h
    exact ih (fun r hr => hvisit r (List.mem_cons_of_mem _ hr)) (hvisit r List.mem_cons_self w w₁ hw hr) hrest

/-- The walk comes to `irn` for the first time. -/
theorem initTopological_succ {depth : Nat} {irn : Fin g.size} {w w' : Walk g.size} (hirn : irn ∉ w.visited)
    (h : g.initTopological (depth + 1) irn w = some w') :
    ∃ w₁, (g.node irn).uses.foldlM (fun w pred => g.initTopological depth pred w) (g.enter irn w) = some w₁ ∧
      Visits (g.node irn).uses (g.enter irn w) w₁ ∧ g.leave irn w₁ = w' := by
  unfold initTopological at h
  rw [if_neg hirn] at h
  obtain ⟨w₁, hfold, hleave⟩ := Option.map_eq_some_iff.mp h
  exact ⟨w₁, hfold, Visits.foldlM (fun _ _ _ _ hr => visits_initTopological hr) hfold, hleave⟩

/-! ## Operands -/

/-- The operands of what was initialised stand before it. -/
def OperandsFirst (w : Walk g.size) : Prop :=
  ∀ m n, (g.node m).isLoopBreaker = false → (g.node n).isLoopBreaker = false → n ∈ (g.node m).uses →
    Precedes w.order n m

theorem initTopological_operandsFirst {depth : Nat} {irn : Fin g.size} {w w' : Walk g.size}
    (hw : Marked w ∧ OperandsFirst w) (h : g.initTopological depth irn w = some w') : Marked w' ∧ OperandsFirst w' := by
  induction depth generalizing irn w w' with
  | zero => cases h
  | succ depth ih =>
    by_cases hirn : irn ∈ w.visited
    · unfold initTopological at h
      rw [if_pos hirn] at h
      exact Option.some.inj h ▸ hw
    · refine ⟨(visits_initTopological h).marked hw.1, ?_⟩
      obtain ⟨w₁, hfold, hvisits, rfl⟩ := initTopological_succ hirn h
      have henter : Marked (g.enter irn w) ∧ OperandsFirst (g.enter irn w) := by
        refine ⟨hw.1.enter irn, ?_⟩
        unfold OperandsFirst
        rw [enter_order]
        exact hw.2
      obtain ⟨hmarked, hfirst⟩ := foldlM_invariant (fun _ _ _ _ => ih) henter hfold
      intro m n hm hn huse
      rcases leave_order irn w₁ with horder | horder <;> rw [horder]
      · exact hfirst m n hm hn huse
      · refine (hfirst m n hm hn huse).concat ?_
        rintro rfl
        exact hmarked n (hvisits.rooted n huse) hn

theorem operand_precedes {depth : Nat} {order : List (Fin g.size)} (h : g.initOrder depth = some order)
    {m n : Fin g.size} (hm : (g.node m).isLoopBreaker = false) (hn : (g.node n).isLoopBreaker = false)
    (huse : n ∈ (g.node m).uses) : Precedes order n m := by
  obtain ⟨w, hw, rfl⟩ := Option.map_eq_some_iff.mp h
  refine (initTopological_operandsFirst ⟨fun _ hn => absurd hn List.not_mem_nil, ?_⟩ hw).2 m n hm hn huse
  intro m n _ _ _ l hl
  exact absurd (List.prefix_nil.mp hl) (by simp)

/-! ## Predecessors of a block -/

section Cfgpred

variable (p b : Fin g.size)

/-- What is in the block was not initialised before the predecessor. -/
def CfgpredFirst (w : Walk g.size) : Prop := ∀ n, b ∈ (g.node n).uses → n ≠ b → Precedes w.order p n

/-- The walk to a node does not come back to a block that it is at, before it has come to the predecessor. -/
def Ready (w : Walk g.size) (irn : Fin g.size) : Prop := b ∉ w.visited ∨ p ∈ w.order ∨ ¬ g.DependsOn irn b

variable {p b}

theorem Ready.next {w w' : Walk g.size} {r irn : Fin g.size} (h : Ready p b w irn) (hvisits : Visits [r] w w')
    (hlater : b ∈ w'.visited → b ∈ w.visited ∨ p ∈ w'.order) : Ready p b w' irn := by
  rcases h with h | h | h
  · by_cases hb : b ∈ w'.visited
    · exact Or.inr (Or.inl ((hlater hb).resolve_left h))
    · exact Or.inl hb
  · exact Or.inr (Or.inl (hvisits.order p h))
  · exact Or.inr (Or.inr h)

/-- What the walk keeps, and what it has done when it comes to the block. -/
structure Keeps (p b : Fin g.size) (w w' : Walk g.size) : Prop where
  marked : Marked w'
  first : CfgpredFirst p b w'
  later : b ∈ w'.visited → b ∈ w.visited ∨ p ∈ w'.order

theorem foldlM_keeps {visit : Fin g.size → Walk g.size → Option (Walk g.size)} {roots : List (Fin g.size)}
    {w w' : Walk g.size} (hvisits : ∀ r ∈ roots, ∀ w w', visit r w = some w' → Visits [r] w w')
    (hkeeps : ∀ r ∈ roots, ∀ w w', Marked w → CfgpredFirst p b w → Ready p b w r → visit r w = some w' →
      Keeps p b w w')
    (hmarked : Marked w) (hfirst : CfgpredFirst p b w) (hready : ∀ r ∈ roots, Ready p b w r)
    (h : roots.foldlM (fun w r => visit r w) w = some w') : Keeps p b w w' := by
  induction roots generalizing w with
  | nil =>
    obtain rfl := Option.some.inj h
    exact ⟨hmarked, hfirst, Or.inl⟩
  | cons r roots ih =>
    rw [List.foldlM_cons] at h
    obtain ⟨w₁, hr, hrest⟩ := Option.bind_eq_some_iff.mp h
    have hone := hvisits r List.mem_cons_self w w₁ hr
    have hk := hkeeps r List.mem_cons_self w w₁ hmarked hfirst (hready r List.mem_cons_self) hr
    have hk' := ih (fun r hr => hvisits r (List.mem_cons_of_mem _ hr)) (fun r hr => hkeeps r (List.mem_cons_of_mem _ hr))
      hk.marked hk.first (fun r' hr' => (hready r' (List.mem_cons_of_mem _ hr')).next hone hk.later) hrest
    refine ⟨hk'.marked, hk'.first, fun hb => ?_⟩
    rcases hk'.later hb with hb | hp
    · rcases hk.later hb with hb | hp
      · exact Or.inl hb
      · have hrest := Visits.foldlM (fun r hr => hvisits r (List.mem_cons_of_mem _ hr)) hrest
        exact Or.inr (hrest.order p hp)
    · exact Or.inr hp

theorem CfgpredFirst.enter {w : Walk g.size} (h : CfgpredFirst p b w) (irn : Fin g.size) :
    CfgpredFirst p b (g.enter irn w) := by
  unfold CfgpredFirst
  rw [enter_order]
  exact h

variable {before after : List (Fin g.size)}

/-- The walk comes to the block itself: it goes on to the predecessor before it can come back. -/
theorem cfgpreds_keep {visit : Fin g.size → Walk g.size → Option (Walk g.size)} {w w' : Walk g.size}
    (hvisits : ∀ r w w', visit r w = some w' → Visits [r] w w')
    (hkeeps : ∀ r w w', Marked w → CfgpredFirst p b w → Ready p b w r → visit r w = some w' → Keeps p b w w')
    (hp : (g.node p).isLoopBreaker = false) (hpb : ¬ g.DependsOn p b) (hbefore : ∀ q ∈ before, ¬ g.DependsOn q b)
    (hmarked : Marked w) (hfirst : CfgpredFirst p b w)
    (h : (before ++ p :: after).foldlM (fun w r => visit r w) w = some w') :
    Marked w' ∧ CfgpredFirst p b w' ∧ p ∈ w'.order := by
  rw [List.foldlM_append] at h
  obtain ⟨w₁, hw₁, h⟩ := Option.bind_eq_some_iff.mp h
  rw [List.foldlM_cons] at h
  obtain ⟨w₂, hw₂, h⟩ := Option.bind_eq_some_iff.mp h
  have hk₁ := foldlM_keeps (fun r _ => hvisits r) (fun r _ => hkeeps r) hmarked hfirst
    (fun q hq => Or.inr (Or.inr (hbefore q hq))) hw₁
  have hk₂ := hkeeps p w₁ w₂ hk₁.marked hk₁.first (Or.inr (Or.inr hpb)) hw₂
  have hporder : p ∈ w₂.order := hk₂.marked p ((hvisits p w₁ w₂ hw₂).rooted p (List.mem_singleton_self p)) hp
  have hk₃ := foldlM_keeps (fun r _ => hvisits r) (fun r _ => hkeeps r) hk₂.marked hk₂.first
    (fun _ _ => Or.inr (Or.inl hporder)) h
  exact ⟨hk₃.marked, hk₃.first, (Visits.foldlM (fun r _ => hvisits r) h).order p hporder⟩

theorem initTopological_keeps (hblock : (g.node b).isBlock = true) (hins : (g.node b).ins = before ++ p :: after)
    (hp : (g.node p).isLoopBreaker = false) (hpb : ¬ g.DependsOn p b) (hbefore : ∀ q ∈ before, ¬ g.DependsOn q b)
    {depth : Nat} {irn : Fin g.size} {w w' : Walk g.size} (hmarked : Marked w) (hfirst : CfgpredFirst p b w)
    (hready : Ready p b w irn) (h : g.initTopological depth irn w = some w') : Keeps p b w w' := by
  induction depth generalizing irn w w' with
  | zero => cases h
  | succ depth ih =>
    by_cases hirn : irn ∈ w.visited
    · unfold initTopological at h
      rw [if_pos hirn] at h
      obtain rfl := Option.some.inj h
      exact ⟨hmarked, hfirst, Or.inl⟩
    · have hmarked' := (visits_initTopological h).marked hmarked
      obtain ⟨w₁, hfold, hvisits, rfl⟩ := initTopological_succ hirn h
      have hlast : p ∈ w₁.order → p ∈ (g.leave irn w₁).order := by
        intro hpw
        rcases leave_order irn w₁ with horder | horder <;> rw [horder]
        · exact hpw
        · exact List.mem_append_left _ hpw
      have hleave : CfgpredFirst p b w₁ → (b ∈ (g.node irn).uses → irn ≠ b → p ∈ w₁.order) →
          CfgpredFirst p b (g.leave irn w₁) := by
        intro hfirst hpw n huse hn
        rcases leave_order irn w₁ with horder | horder <;> rw [horder]
        · exact hfirst n huse hn
        · refine (hfirst n huse hn).concat ?_
          rintro rfl
          exact hpw huse hn
      by_cases hb : irn = b
      · subst hb
        have huses : (g.node irn).uses = before ++ p :: after := by
          unfold IrNode.uses
          rw [if_pos hblock, hins]
        rw [huses] at hfold
        obtain ⟨-, hfirst₁, hporder⟩ := cfgpreds_keep (fun _ _ _ hr => visits_initTopological hr)
          (fun _ _ _ hm hf hr => ih hm hf hr) hp hpb hbefore (hmarked.enter irn) (hfirst.enter irn) hfold
        exact ⟨hmarked', hleave hfirst₁ fun _ hne => absurd rfl hne, fun _ => Or.inr (hlast hporder)⟩
      · have hentered : b ∈ (g.enter irn w).visited ↔ b ∈ w.visited := by
          unfold IrGraph.enter
          split
          · exact ⟨fun h => (List.mem_cons.mp h).resolve_left fun h => hb h.symm, List.mem_cons_of_mem irn⟩
          · exact Iff.rfl
        have huses : ∀ r ∈ (g.node irn).uses, Ready p b (g.enter irn w) r := by
          intro r hr
          unfold Ready
          rw [hentered, enter_order]
          exact hready.imp_right (Or.imp_right fun hdep hrdep => hdep (.head hr hrdep))
        have hk := foldlM_keeps (fun _ _ _ _ hr => visits_initTopological hr) (fun _ _ _ _ hm hf hr => ih hm hf hr)
          (hmarked.enter irn) (hfirst.enter irn) huses hfold
        refine ⟨hmarked', hleave hk.first fun huse _ => ?_, fun hbv => ?_⟩
        · -- the walk has come to the block of the node
          rcases hk.later (hvisits.rooted b huse) with hbw | hpw
          · rcases hready with hready | hready | hready
            · exact absurd (hentered.mp hbw) hready
            · exact hvisits.order p (by rwa [enter_order])
            · exact absurd (.single huse) hready
          · exact hpw
        · have hbw : b ∈ w₁.visited := by
            unfold IrGraph.leave at hbv
            split at hbv <;> exact (List.mem_cons.mp hbv).resolve_left fun h => hb h.symm
          exact (hk.later hbw).imp hentered.mp hlast

theorem cfgpred_precedes {depth : Nat} {order : List (Fin g.size)} (h : g.initOrder depth = some order)
    (hblock : (g.node b).isBlock = true) (hins : (g.node b).ins = before ++ p :: after)
    (hp : (g.node p).isLoopBreaker = false) (hpb : ¬ g.DependsOn p b) (hbefore : ∀ q ∈ before, ¬ g.DependsOn q b)
    {n : Fin g.size} (huse : b ∈ (g.node n).uses) (hn : n ≠ b) : Precedes order p n := by
  obtain ⟨w, hw, rfl⟩ := Option.map_eq_some_iff.mp h
  refine (initTopological_keeps hblock hins hp hpb hbefore (fun _ hn => absurd hn List.not_mem_nil) ?_
    (Or.inl List.not_mem_nil) hw).first n huse hn
  intro n _ _ l hl
  exact absurd (List.prefix_nil.mp hl) (by simp)

end Cfgpred

end Mjc.Irg.IrGraph

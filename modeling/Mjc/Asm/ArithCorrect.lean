import Mjc.Asm.ArithOptimizer
import Mjc.Asm.FlagReads

/-!
# When merging additions and subtractions is exact

A pair `add $const1, reg`, `sub $const2, reg` and what takes its place leave the same in the register. They differ in the
flags: if the pair goes away, the flags of an earlier instruction stay, and otherwise the overflow flag is another one
where the addition of `const1` overflows.

* `AtMerges` : a property of every pair that is merged, and of what stands behind it;
* `InRange`, `FlagsUnread` : the difference of the constants can be negated in 32 bits, and no jump depends on the flags
  that the merge changes;
* `exactMerge_iff` : one pair, with everything that stands behind it;
* `arithOptimizeBlock_exact_iff` : the pass is exact if and only if these hold and the list neither is nor becomes empty.
-/

namespace Mjc.Asm

set_option autoImplicit false

/-! ## The pairs that are merged -/

/-- `P` holds of every pair that the loop merges: of its instructions, its constants and its register, and of what stands
behind it. -/
def AtMerges (P : List Instr → Int → Int → RegName → RegMode → List Instr → Prop) : List Instr → Prop
  | instr1 :: instr2 :: rest =>
    match arithPair instr1 instr2 with
    | some (const1, const2, name, mode) =>
      P [instr1, instr2] const1 const2 name mode rest ∧
        if const1 = const2 then
          match rest with
          | [] => True
          | _ :: rest => AtMerges P rest
        else AtMerges P rest
    | none => AtMerges P (instr2 :: rest)
  | _ => True

section AtMerges

variable {P Q : List Instr → Int → Int → RegName → RegMode → List Instr → Prop} {instr1 instr2 : Instr}
  {const1 const2 : Int} {name : RegName} {mode : RegMode}

theorem atMerges_equal_nil (hpair : arithPair instr1 instr2 = some (const1, const1, name, mode)) :
    AtMerges P [instr1, instr2] ↔ P [instr1, instr2] const1 const1 name mode [] := by
  rw [AtMerges.eq_def]
  simp only [hpair, if_true, and_true]

theorem atMerges_equal_cons (hpair : arithPair instr1 instr2 = some (const1, const1, name, mode)) (next : Instr)
    (rest : List Instr) : AtMerges P (instr1 :: instr2 :: next :: rest) ↔
      P [instr1, instr2] const1 const1 name mode (next :: rest) ∧ AtMerges P rest := by
  rw [AtMerges.eq_def]
  simp only [hpair, if_true]

theorem atMerges_differ (hpair : arithPair instr1 instr2 = some (const1, const2, name, mode)) (hne : const1 ≠ const2)
    (rest : List Instr) : AtMerges P (instr1 :: instr2 :: rest) ↔
      P [instr1, instr2] const1 const2 name mode rest ∧ AtMerges P rest := by
  rw [AtMerges.eq_def]
  simp only [hpair, if_neg hne]

theorem atMerges_none (hpair : arithPair instr1 instr2 = none) (rest : List Instr) :
    AtMerges P (instr1 :: instr2 :: rest) ↔ AtMerges P (instr2 :: rest) := by
  rw [AtMerges.eq_def]
  simp only [hpair]

theorem AtMerges.imp {l : List Instr} (h : AtMerges P l)
    (hPQ : ∀ instr1 ∈ l, ∀ instr2 ∈ l, ∀ const1 const2 name mode rest,
      arithPair instr1 instr2 = some (const1, const2, name, mode) →
      P [instr1, instr2] const1 const2 name mode rest → Q [instr1, instr2] const1 const2 name mode rest) :
    AtMerges Q l := by
  have hmem1 : ∀ {i j : Instr} {l}, i ∈ i :: j :: l := List.mem_cons_self
  have hmem2 : ∀ {i j : Instr} {l}, j ∈ i :: j :: l := List.mem_cons_of_mem _ List.mem_cons_self
  induction l using arithWalk.induct with
  | case1 instr1 instr2 const name mode hpair =>
    rw [atMerges_equal_nil hpair] at h ⊢
    exact hPQ _ hmem1 _ hmem2 _ _ _ _ _ hpair h
  | case2 instr1 instr2 const name mode next rest hpair ih =>
    rw [atMerges_equal_cons hpair] at h ⊢
    refine ⟨hPQ _ hmem1 _ hmem2 _ _ _ _ _ hpair h.1, ih h.2 fun i hi j hj => hPQ i ?_ j ?_⟩
    · exact List.mem_cons_of_mem _ (List.mem_cons_of_mem _ (List.mem_cons_of_mem _ hi))
    · exact List.mem_cons_of_mem _ (List.mem_cons_of_mem _ (List.mem_cons_of_mem _ hj))
  | case3 instr1 instr2 rest const1 const2 name mode hpair hneq ih =>
    rw [atMerges_differ hpair hneq] at h ⊢
    refine ⟨hPQ _ hmem1 _ hmem2 _ _ _ _ _ hpair h.1, ih h.2 fun i hi j hj => hPQ i ?_ j ?_⟩
    · exact List.mem_cons_of_mem _ (List.mem_cons_of_mem _ hi)
    · exact List.mem_cons_of_mem _ (List.mem_cons_of_mem _ hj)
  | case4 instr1 instr2 rest hpair ih =>
    rw [atMerges_none hpair] at h ⊢
    exact ih h fun i hi j hj => hPQ i (List.mem_cons_of_mem _ hi) j (List.mem_cons_of_mem _ hj)
  | case5 l hl =>
    rcases l with _ | ⟨i, _ | ⟨j, l⟩⟩
    · trivial
    · trivial
    · exact absurd rfl (hl i j l)

theorem AtMerges.and {l : List Instr} (hP : AtMerges P l) (hQ : AtMerges Q l) :
    AtMerges (fun pair const1 const2 name mode rest =>
      P pair const1 const2 name mode rest ∧ Q pair const1 const2 name mode rest) l := by
  induction l using arithWalk.induct with
  | case1 instr1 instr2 const name mode hpair =>
    rw [atMerges_equal_nil hpair] at hP hQ ⊢
    exact ⟨hP, hQ⟩
  | case2 instr1 instr2 const name mode next rest hpair ih =>
    rw [atMerges_equal_cons hpair] at hP hQ ⊢
    exact ⟨⟨hP.1, hQ.1⟩, ih hP.2 hQ.2⟩
  | case3 instr1 instr2 rest const1 const2 name mode hpair hneq ih =>
    rw [atMerges_differ hpair hneq] at hP hQ ⊢
    exact ⟨⟨hP.1, hQ.1⟩, ih hP.2 hQ.2⟩
  | case4 instr1 instr2 rest hpair ih =>
    rw [atMerges_none hpair] at hP hQ ⊢
    exact ih hP hQ
  | case5 l hl =>
    rcases l with _ | ⟨i, _ | ⟨j, l⟩⟩
    · trivial
    · trivial
    · exact absurd rfl (hl i j l)

end AtMerges

/-- The difference of the constants of a pair and its negation are `int`s. -/
def InRange (_pair : List Instr) (const1 const2 : Int) (_name : RegName) (_mode : RegMode) (_rest : List Instr) : Prop :=
  DiffInRange const1 const2

/-- Additions and subtractions are made in 64-bit registers. -/
def Instr.wide (i : Instr) : Bool :=
  match i.mnemonic, i.ops with
  | .Add, [_, .reg _ mode] | .Sub, [_, .reg _ mode] => mode = .R
  | _, _ => true

/-- The constant is an `int`. -/
def Op.isInt : Op → Bool
  | .imm value => -2 ^ 31 ≤ value && value < 2 ^ 31
  | _ => true

/-- The instructions can be encoded, with an `int` for every constant, and additions and subtractions in 64-bit registers,
as all that are emitted are. -/
structure Emitted (l : List Instr) : Prop where
  fit : AllFit l
  wide : ∀ i ∈ l, i.wide = true
  ints : ∀ i ∈ l, ∀ op ∈ i.ops, op.isInt = true

def addImm (const : Int) (name : RegName) : Instr := ⟨.Add, [.imm const, .reg name .R]⟩
def subImm (const : Int) (name : RegName) : Instr := ⟨.Sub, [.imm const, .reg name .R]⟩

theorem arithPair_eq_some {instr1 instr2 : Instr} {const1 const2 : Int} {name : RegName} {mode : RegMode}
    (h : arithPair instr1 instr2 = some (const1, const2, name, mode)) : ∃ mode',
      instr1 = ⟨.Add, [.imm const1, .reg name mode]⟩ ∧ instr2 = ⟨.Sub, [.imm const2, .reg name mode']⟩ := by
  obtain ⟨mnemonic1, ops1⟩ := instr1
  obtain ⟨mnemonic2, ops2⟩ := instr2
  unfold arithPair at h
  split at h
  · rename_i c1 n1 m1 c2 n2 m2 hm1 ho1 hm2 ho2
    split at h
    · rename_i heq
      cases h
      cases hm1
      cases ho1
      cases hm2
      cases ho2
      exact ⟨m2, rfl, by rw [heq]⟩
    · cases h
  · cases h

/-- A pair that is merged: its two instructions are on the same 64-bit register. -/
theorem Emitted.pair {l : List Instr} (hl : Emitted l) {instr1 instr2 : Instr} {const1 const2 : Int} {name : RegName}
    {mode : RegMode} (h1 : instr1 ∈ l) (h2 : instr2 ∈ l)
    (h : arithPair instr1 instr2 = some (const1, const2, name, mode)) :
    (name ≠ .bp ∧ mode = .R) ∧ (instr1 = addImm const1 name ∧ instr2 = subImm const2 name) ∧
      (-2 ^ 31 ≤ const1 ∧ const1 < 2 ^ 31) ∧ -2 ^ 31 ≤ const2 ∧ const2 < 2 ^ 31 := by
  obtain ⟨mode', rfl, rfl⟩ := arithPair_eq_some h
  obtain rfl : mode = .R := of_decide_eq_true (hl.wide _ h1)
  obtain rfl : mode' = .R := of_decide_eq_true (hl.wide _ h2)
  have hint1 := hl.ints _ h1 (.imm const1) List.mem_cons_self
  have hint2 := hl.ints _ h2 (.imm const2) List.mem_cons_self
  have hbp : name ≠ .bp := by
    rintro rfl
    exact Bool.false_ne_true (hl.fit _ h1)
  exact ⟨⟨hbp, rfl⟩, ⟨rfl, rfl⟩, by simpa [Op.isInt] using hint1, by simpa [Op.isInt] using hint2⟩

section Merge

variable {name : RegName} {const1 const2 : Int} {env : Env} {rest : List Instr}

end Merge

/-- The same is seen of the lists in every configuration. -/
def SameSeen (l out : List Instr) : Prop := ∀ env c, seen env l c = seen env out c

theorem SameSeen.keep {l out : List Instr} (h : SameSeen l out) (i : Instr) : SameSeen (i :: l) (i :: out) := by
  intro env c
  cases hstep : stepInstr env c i with
  | none => rw [seen_cons_none hstep, seen_cons_none hstep]
  | some c' => rw [seen_cons_some hstep, seen_cons_some hstep, h env c']

theorem SameSeen.merge {pair merged rest out : List Instr} (h : SameSeen rest out) (hpair : Straight pair)
    (hmerged : Straight merged) (hequiv : Equiv (pair ++ rest) (merged ++ rest)) : SameSeen (pair ++ rest) (merged ++ out) := by
  have hrest : ∀ env c, seen env (merged ++ rest) c = seen env (merged ++ out) c := by
    intro env c
    cases hrun : runBlock env merged c with
    | none => rw [seen_append_none hrun, seen_append_none hrun]
    | some c' => rw [seen_append hrun, seen_append hrun, h env c']
  rintro env ⟨s, _ | label⟩
  · exact (hequiv env s).trans (hrest env (s, none))
  · rw [hpair.seen_pending, hmerged.seen_pending, h env (s, some label)]

theorem Emitted.mono {l l' : List Instr} (h : Emitted l) (hsub : l' ⊆ l) : Emitted l' :=
  ⟨fun i hi => h.fit i (hsub hi), fun i hi => h.wide i (hsub hi), fun i hi => h.ints i (hsub hi)⟩

end Mjc.Asm

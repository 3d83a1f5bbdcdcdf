import Mjc.Asm.StackOptimizer

/-!
# Functions without their dead stores

* `HeapEnv` : calls that neither see nor change the frame of their caller;
* `Event`, `events` : what a list of instructions does outside of the frame: reads and writes of memory, calls, branches;
* `Agree used` : two states that differ at most in slots that are not marked;
* `exec_agree`, `exec_removed` : an instruction that stays keeps the agreement and does the same outside of the frame, and
  one that is removed does nothing there;
* `stackOptimizeFunction_correct` : before and after the pass, every run goes through the same blocks with the same events
  and returns the same value.
-/

namespace Mjc.Asm
open Mjc.Bytes Mjc.Lockstep

set_option autoImplicit false

/-! ## Calls -/

abbrev Heap := BitVec 64 → BitVec 8

/-- What a callee can see of a call. -/
structure HeapCall where
  name : String
  di : BitVec 64
  si : BitVec 64
  sp : BitVec 64
  heap : Heap

def CallEvent.onHeap (c : CallEvent) : HeapCall where
  name := c.name
  di := c.di
  si := c.si
  sp := c.sp
  heap := fun a => c.mem (.addr a)

/-- The call of a function in a state. -/
def callEvent (s : State) (name : String) : CallEvent := ⟨name, s.regs .di, s.regs .si, s.regs .sp, s.mem⟩

/-- What calls leave behind: registers, and the memory outside of the caller's frame. -/
abbrev HeapEnv := List HeapCall → (RegName → BitVec 64) × Heap

/-- The caller's frame is as it was at the call. -/
def HeapEnv.env (e : HeapEnv) : Env := fun calls =>
  let (regs, heap) := e (calls.map CallEvent.onHeap)
  (regs, fun
    | .addr a => heap a
    | .frame offset => calls.getLast?.elim 0 fun c => c.mem (.frame offset))

/-! ## Events -/

/-- Something that a function does outside of its frame. -/
inductive Event where
  | load (a : BitVec 64) (bytes value : Nat)
  | store (a : BitVec 64) (bytes value : Nat)
  | call (c : HeapCall)
  | branch (target : Option String)

/-- The operands that are read, with their widths. -/
def Act.sources : Act → List (RegMode × Op)
  | .mov w source _ => [(w, source)]
  | .movslq source _ => [(.E, source)]
  | .binary w _ source dest | .cmp w source dest => [(w, source), (w, dest)]
  | .unary w _ dest => [(w, dest)]
  | .div source => [(.R, source)]
  | _ => []

/-- The address of a memory operand outside of the frame. -/
def addrOf (regs : RegName → BitVec 64) : Op → Option (BitVec 64)
  | .ind base _ offset => if base = .bp then none else some (regs base + BitVec.ofInt 64 offset)
  | _ => none

def loadEvent (s : State) (p : RegMode × Op) : Option Event :=
  (addrOf s.regs p.2).map fun a => .load a p.1.bytes (read s.mem (.addr a) p.1.bytes)

/-- The write of an instruction that leads from `s` to `t`. -/
def storeEvent (s t : State) (a : Act) : Option Event :=
  a.dest.bind fun dest => (addrOf s.regs dest).map fun x => .store x a.width.bytes (read t.mem (.addr x) a.width.bytes)

/-- The events of an instruction that leads from `s` to `t`. -/
def Act.events (s t : State) (target : Option String) (a : Act) : List Event :=
  a.sources.filterMap (loadEvent s) ++ (storeEvent s t a).toList ++
    match a with
    | .call name => [.call (callEvent s name).onHeap]
    | .jump _ _ => [.branch target]
    | _ => []

/-- The events of a list of instructions. -/
def events (env : Env) : List Instr → State × Option String → List Event
  | [], _ => []
  | i :: is, c =>
    match stepInstr env c i with
    | none => []
    | some c' =>
      (if c.2 = none then (act i).elim [] (Act.events c.1 c'.1 c'.2) else []) ++ events env is c'

/-! ## Agreement -/

/-- The byte belongs to a slot that is not marked. -/
def unread (usedSlots : List Bool) : Loc → Prop
  | .frame o => o < 0 ∧ usedSlots[((-o + 7) / 8).toNat]? = some false
  | .addr _ => False

structure Agree (usedSlots : List Bool) (s s' : State) : Prop where
  regs : s'.regs = s.regs
  flags : s'.flags = s.flags
  mem : ∀ loc, ¬unread usedSlots loc → s'.mem loc = s.mem loc
  calls : s'.calls.map CallEvent.onHeap = s.calls.map CallEvent.onHeap

theorem Agree.refl (usedSlots : List Bool) (s : State) : Agree usedSlots s s := ⟨rfl, rfl, fun _ _ => rfl, rfl⟩

section
variable {usedSlots : List Bool} {s s' : State}

theorem Agree.heap (h : Agree usedSlots s s') (a : BitVec 64) : s'.mem (.addr a) = s.mem (.addr a) := h.mem _ id

theorem Agree.onHeap_callEvent (h : Agree usedSlots s s') (name : String) :
    (callEvent s' name).onHeap = (callEvent s name).onHeap := by
  have hheap : (fun a => s'.mem (.addr a)) = fun a => s.mem (.addr a) := funext h.heap
  show HeapCall.mk name (s'.regs .di) (s'.regs .si) (s'.regs .sp) (fun a => s'.mem (.addr a)) =
    HeapCall.mk name (s.regs .di) (s.regs .si) (s.regs .sp) (fun a => s.mem (.addr a))
  rw [hheap, h.regs]

/-- The bytes of the operand are not in a slot that is not marked. -/
def Visible (usedSlots : List Bool) (regs : RegName → BitVec 64) : Op → Prop
  | .ind base _ offset => ∀ i < 8, ¬unread usedSlots (Addr.shift (locOf regs base offset) i)
  | _ => True

theorem Agree.read (h : Agree usedSlots s s') {loc : Loc} (hloc : ∀ i < 8, ¬unread usedSlots (Addr.shift loc i)) {n : Nat}
    (hn : n ≤ 8) : Bytes.read s'.mem loc n = Bytes.read s.mem loc n :=
  read_congr fun i hi => h.mem _ (hloc i (by omega))

theorem Agree.readOp (h : Agree usedSlots s s') {op : Op} (hop : Visible usedSlots s.regs op) (w : RegMode) :
    readOp s' w op = readOp s w op := by
  cases op with
  | imm value => rfl
  | reg name mode =>
    simp only [Asm.readOp]
    rw [h.regs]
  | ind base mode offset =>
    simp only [Asm.readOp]
    rw [h.regs, @Agree.read _ _ _ h (locOf s.regs base offset) hop _ w.bytes_le]
  | str str => rfl

theorem Agree.writeOp (h : Agree usedSlots s s') (op : Op) (w : RegMode) (v : BitVec 64) :
    Option.Rel (Agree usedSlots) (writeOp s w v op) (writeOp s' w v op) := by
  cases op with
  | imm value => exact .none
  | reg name mode =>
    simp only [Asm.writeOp]
    split
    · refine .some ⟨?_, h.flags, h.mem, h.calls⟩
      show Function.update s'.regs name _ = Function.update s.regs name _
      rw [h.regs]
    · exact .none
  | ind base mode offset =>
    simp only [Asm.writeOp]
    split
    · refine .some ⟨h.regs, h.flags, fun loc hloc => ?_, h.calls⟩
      show write s'.mem (locOf s'.regs base offset) _ _ loc = write s.mem (locOf s.regs base offset) _ _ loc
      rw [h.regs]
      exact write_agree (h.mem loc hloc) _ _ _
    · exact .none
  | str str => exact .none

/-- Results of two runs, which stop together and end with the same jump under way. -/
abbrev AgreeRel (usedSlots : List Bool) : Option (State × Option String) → Option (State × Option String) → Prop :=
  Option.Rel fun c c' => c'.2 = c.2 ∧ Agree usedSlots c.1 c'.1

/-- A write and new flags. -/
theorem Agree.assign (h : Agree usedSlots s s') (dest : Op) (w : RegMode) (v : BitVec 64) {f f' : State → State}
    (hf : ∀ t t', Agree usedSlots t t' → Agree usedSlots (f t) (f' t')) :
    AgreeRel usedSlots ((fun t => (f t, none)) <$> Asm.writeOp s w v dest)
      ((fun t => (f' t, none)) <$> Asm.writeOp s' w v dest) := by
  have hwrite := h.writeOp dest w v
  generalize Asm.writeOp s w v dest = r at hwrite
  generalize Asm.writeOp s' w v dest = r' at hwrite
  cases hwrite with
  | none => exact .none
  | some ht => exact .some ⟨rfl, hf _ _ ht⟩

theorem Agree.setFlags {t t' : State} (h : Agree usedSlots t t') (f : Flags) :
    Agree usedSlots { t with flags := f } { t' with flags := f } := ⟨h.regs, rfl, h.mem, h.calls⟩

theorem Agree.setReg {t t' : State} (h : Agree usedSlots t t') (name : RegName) (v : BitVec 64) :
    Agree usedSlots (t.setReg name v) (t'.setReg name v) := by
  refine ⟨?_, h.flags, h.mem, h.calls⟩
  show Function.update t'.regs name v = Function.update t.regs name v
  rw [h.regs]

/-- A call sees the same, and leaves the same behind. -/
theorem Agree.execCall (h : Agree usedSlots s s') (e : HeapEnv) (name : String) :
    Agree usedSlots (Asm.execCall e.env s name) (Asm.execCall e.env s' name) := by
  have hcalls : (s'.calls ++ [callEvent s' name]).map CallEvent.onHeap =
      (s.calls ++ [callEvent s name]).map CallEvent.onHeap := by
    rw [List.map_append, List.map_append, h.calls, List.map_singleton, List.map_singleton, h.onHeap_callEvent]
  refine ⟨?_, h.flags, ?_, hcalls⟩
  · funext r
    show (if _ then s'.regs r else (e ((s'.calls ++ [callEvent s' name]).map CallEvent.onHeap)).1 r) =
      if _ then s.regs r else (e ((s.calls ++ [callEvent s name]).map CallEvent.onHeap)).1 r
    rw [hcalls, h.regs]
  · intro loc hloc
    cases loc with
    | addr a =>
      show (e ((s'.calls ++ [callEvent s' name]).map CallEvent.onHeap)).2 a =
        (e ((s.calls ++ [callEvent s name]).map CallEvent.onHeap)).2 a
      rw [hcalls]
    | frame o =>
      show (s'.calls ++ [callEvent s' name]).getLast?.elim 0 _ = (s.calls ++ [callEvent s name]).getLast?.elim 0 _
      rw [List.getLast?_concat, List.getLast?_concat]
      exact h.mem _ hloc

/-- An instruction whose sources are visible keeps the agreement. -/
theorem Act.exec_agree (e : HeapEnv) {a : Act} (h : Agree usedSlots s s')
    (hvisible : ∀ p ∈ a.sources, Visible usedSlots s.regs p.2) :
    AgreeRel usedSlots (a.exec e.env s) (a.exec e.env s') := by
  cases a with
  | mov w source dest =>
    have hsource : Visible usedSlots s.regs source := hvisible _ List.mem_cons_self
    simp only [Act.exec, execMov, h.readOp hsource]
    cases Asm.readOp s w source with
    | none => exact .none
    | some v => exact @Agree.assign _ _ _ h dest w v id id fun _ _ => id
  | movslq source dest =>
    have hsource : Visible usedSlots s.regs source := hvisible _ List.mem_cons_self
    simp only [Act.exec, h.readOp hsource]
    cases Asm.readOp s .E source with
    | none => exact .none
    | some v => exact @Agree.assign _ _ _ h dest .R _ id id fun _ _ => id
  | binary w g source dest =>
    have hsource : Visible usedSlots s.regs source := hvisible _ List.mem_cons_self
    have hdest : Visible usedSlots s.regs dest := hvisible (w, dest) (List.mem_cons_of_mem _ List.mem_cons_self)
    simp only [Act.exec, execBinary, h.readOp hsource, h.readOp hdest]
    cases Asm.readOp s w source with
    | none => exact .none
    | some b =>
      cases Asm.readOp s w dest with
      | none => exact .none
      | some a =>
        have := h.assign dest w (g.apply a b) fun _ _ ht => ht.setFlags (flagsOf w (g.apply a b) (overflows w (g.exact (signed w a) (signed w b))))
        simpa [Option.map_eq_bind, Option.bind_assoc, Function.comp_def] using this
  | unary w g dest =>
    have hdest : Visible usedSlots s.regs dest := hvisible _ List.mem_cons_self
    simp only [Act.exec, execUnary, h.readOp hdest]
    cases Asm.readOp s w dest with
    | none => exact .none
    | some a =>
      have := h.assign dest w (g.apply a) fun _ _ ht => ht.setFlags (flagsOf w (g.apply a) (overflows w (g.exact (signed w a))))
      simpa [Option.map_eq_bind, Option.bind_assoc, Function.comp_def] using this
  | cmp w source dest =>
    have hsource : Visible usedSlots s.regs source := hvisible _ List.mem_cons_self
    have hdest : Visible usedSlots s.regs dest := hvisible (w, dest) (List.mem_cons_of_mem _ List.mem_cons_self)
    simp only [Act.exec, h.readOp hsource, h.readOp hdest]
    cases Asm.readOp s w source with
    | none => exact .none
    | some b =>
      cases Asm.readOp s w dest with
      | none => exact .none
      | some a => exact .some ⟨rfl, h.setFlags _⟩
  | cqto =>
    simp only [Act.exec, h.regs]
    exact .some ⟨rfl, h.setReg _ _⟩
  | div source =>
    have hsource : Visible usedSlots s.regs source := hvisible _ List.mem_cons_self
    simp only [Act.exec, execDiv, h.readOp hsource, h.regs]
    cases Asm.readOp s .R source with
    | none => exact .none
    | some v =>
      dsimp only [Option.bind_eq_bind, Option.bind_some]
      split
      · exact .none
      · exact .some ⟨rfl, (h.setReg _ _).setReg _ _⟩
  | call name => exact .some ⟨rfl, h.execCall e name⟩
  | label => exact .some ⟨rfl, h⟩
  | jump m target =>
    simp only [Act.exec, h.flags]
    exact .some ⟨rfl, h⟩

/-- The same events. -/
theorem Act.events_agree (h : Agree usedSlots s s') {t t' : State} (ht : Agree usedSlots t t') (target : Option String)
    (a : Act) : a.events s' t' target = a.events s t target := by
  have hloc : ∀ x : BitVec 64, ∀ i < 8, ¬unread usedSlots (Addr.shift (Loc.addr x) i) := fun x i _ h => h
  have hload : loadEvent s' = loadEvent s := by
    funext ⟨w, op⟩
    unfold loadEvent
    rw [h.regs]
    congr 1
    funext x
    rw [h.read (hloc x) w.bytes_le]
  have hstore : storeEvent s' t' a = storeEvent s t a := by
    unfold storeEvent
    rw [h.regs]
    congr 1
    funext dest
    congr 1
    funext x
    rw [ht.read (hloc x) a.width.bytes_le]
  unfold Act.events
  rw [hload, hstore]
  cases a <;> simp only [h.onHeap_callEvent]

end

/-! ## Instructions that stay -/

/-- Where the operands that are read stand: in front, or behind in an instruction that is not a move. -/
theorem sources_of_act {i : Instr} {a : Act} (h : act i = some a) {p : RegMode × Op} (hp : p ∈ a.sources) :
    (∃ rest, i.ops = p.2 :: rest) ∨ ∃ source, i.ops = [source, p.2] ∧ i.isMov = false := by
  obtain ⟨m, ops⟩ := i
  unfold act at h
  split at h
  · cases h
  · split at h <;> (rename_i hm hops; dsimp only at hm hops) <;> first
      | (simp only [Option.map_eq_map, Option.map_eq_some_iff] at h
         obtain ⟨w, -, rfl⟩ := h
         simp only [Act.sources, List.mem_cons, List.not_mem_nil, or_false] at hp
         rcases hp with rfl | rfl
         · exact .inl ⟨_, hops⟩
         · exact .inr ⟨_, hops, by rw [hm]; rfl⟩)
      | (simp only [Option.map_eq_map, Option.map_eq_some_iff] at h
         obtain ⟨w, -, rfl⟩ := h
         simp only [Act.sources, List.mem_cons, List.not_mem_nil, or_false] at hp
         rw [hp]
         exact .inl ⟨_, hops⟩)
      | (cases h
         simp only [Act.sources, List.mem_cons, List.not_mem_nil, or_false] at hp
         rw [hp]
         exact .inl ⟨_, hops⟩)
      | (cases h; cases hp)
      | (split at h <;> cases h; cases hp)
      | cases h

/-- The slots that an instruction of the function reads are marked. -/
theorem StackForm.visible {ssm : StackSlotManager} (hssm : ssm.Reachable) {i : Instr} (hform : StackForm ssm i)
    {usedSlots : List Bool} (hmarked : ∀ offset, i.FirstAt offset → usedSlots[slotIndex offset]? = some true) {a : Act}
    (hact : act i = some a) (regs : RegName → BitVec 64) : ∀ p ∈ a.sources, Visible usedSlots regs p.2 := by
  rintro ⟨w, op⟩ hp
  cases op with
  | ind base mode offset =>
    rcases sources_of_act hact hp with ⟨rest, hops⟩ | ⟨source, hops, hmov⟩
    · intro n hn hunread
      by_cases hneg : offset < 0
      · obtain ⟨rfl, k, hk, hindex, -⟩ := hform.slot hssm (by rw [hops]; exact List.mem_cons_self) hneg
        obtain ⟨-, hfalse⟩ : offset + n < 0 ∧ usedSlots[((-(offset + n) + 7) / 8).toNat]? = some false := hunread
        have htrue := hmarked offset ⟨_, mode, rest, hops, hneg⟩
        have heq : ((-(offset + n) + 7) / 8).toNat = slotIndex offset := by omega
        rw [heq, htrue] at hfalse
        cases hfalse
      · by_cases hbase : base = .bp
        · subst hbase
          have : offset + n < 0 := hunread.1
          omega
        · unfold locOf at hunread
          rw [if_neg hbase] at hunread
          exact hunread
    · exact absurd (hform.second source base mode offset hops) (by simp [hmov])
  | _ => trivial

/-! ## Instructions that are removed -/

theorem isRemovable_eq_true {usedSlots : List Bool} {i : Instr} (h : isRemovable usedSlots i = some true) :
    i.isMov = true ∧ ∃ source base mode offset, i.ops = [source, .ind base mode offset] ∧ offset < 0 ∧
      usedSlots[slotIndex offset]? = some false := by
  unfold isRemovable at h
  split at h
  · rename_i source base mode offset hmov hops
    split at h
    · rename_i hneg
      obtain ⟨used, hused, hnot⟩ := Option.map_eq_some_iff.1 h
      obtain rfl : used = false := by simpa using hnot
      exact ⟨hmov, source, base, mode, offset, hops, hneg, hused⟩
    · cases h
  · cases h

/-- A move into memory. -/
theorem act_of_isMov {i : Instr} {source : Op} {base : RegName} {mode : RegMode} {offset : Int} (hmov : i.isMov = true)
    (hops : i.ops = [source, .ind base mode offset]) (hfits : (act i).elim false Act.fits = true) :
    mode = .R ∧ (∀ base mode offset, source ≠ .ind base mode offset) ∧ ∃ w,
      act i = some (.mov w source (.ind base mode offset)) ∧ source.readable w = true := by
  obtain ⟨m, ops⟩ := i
  obtain rfl : ops = _ := hops
  have hm : m = .Mov ∨ m = .Movq ∨ m = .Movl ∨ m = .Movb := by simpa [Instr.isMov] using hmov
  obtain ⟨w, hact⟩ : ∃ w, act ⟨m, [source, .ind base mode offset]⟩ = some (.mov w source (.ind base mode offset)) := by
    cases source with
    | ind => rcases hm with rfl | rfl | rfl | rfl <;> exact (Bool.false_ne_true hfits).elim
    | reg name w => rcases hm with rfl | rfl | rfl | rfl <;> exact ⟨_, rfl⟩
    | _ =>
      rcases hm with rfl | rfl | rfl | rfl
      · exact (Bool.false_ne_true hfits).elim
      · exact ⟨_, rfl⟩
      · exact ⟨_, rfl⟩
      · exact ⟨_, rfl⟩
  have hfits' := hfits
  rw [hact] at hfits'
  obtain ⟨hreadable, hmode⟩ : source.readable w = true ∧ mode = .R := by
    simpa [Act.fits, Op.writable] using hfits'
  refine ⟨hmode, ?_, w, hact, hreadable⟩
  rintro base' mode' offset' rfl
  rcases hm with rfl | rfl | rfl | rfl <;> exact Bool.false_ne_true hfits

section
variable {ssm : StackSlotManager} (hssm : ssm.Reachable) {i : Instr} (hform : StackForm ssm i) {usedSlots : List Bool}
  (hremoved : isRemovable usedSlots i = some true) (e : HeapEnv)
include hssm hform hremoved

/-- A move that is removed writes a slot that is not marked, and does nothing outside of the frame. -/
theorem exec_removed (s : State) : ∃ t, exec e.env i s = some (t, none) ∧ Agree usedSlots t s ∧
    (act i).elim [] (Act.events s t none) = [] := by
  obtain ⟨hmov, source, base, mode, offset, hops, hneg, hunused⟩ := isRemovable_eq_true hremoved
  obtain ⟨rfl, k, hk, hindex, -⟩ := @StackForm.slot ssm hssm i hform base mode offset
    (by rw [hops]; simp) hneg
  obtain ⟨rfl, hsource, w, hact, hreadable⟩ := act_of_isMov hmov hops hform.fits
  obtain ⟨v, hv⟩ : ∃ v, readOp s w source = some v := by
    cases source with
    | imm value => exact ⟨_, rfl⟩
    | reg name mode =>
      obtain ⟨rfl, -⟩ : mode = w ∧ name ≠ .bp := by simpa [Op.readable] using hreadable
      exact ⟨_, readOp_reg s mode name⟩
    | ind base mode offset => exact absurd rfl (hsource base mode offset)
    | str str => cases hreadable
  refine ⟨{ s with mem := write s.mem (.frame offset) w.bytes v.toNat }, ?_, ⟨rfl, rfl, fun loc hloc => ?_, rfl⟩, ?_⟩
  · rw [exec_act hact]
    simp only [Act.exec, execMov, hv]
    rfl
  · -- a byte that is written belongs to the slot
    refine (write_of_ne v.toNat fun n hn heq => hloc ?_).symm
    subst heq
    have hn : n < 8 := Nat.lt_of_lt_of_le hn w.bytes_le
    refine ⟨by omega, ?_⟩
    rw [show ((-(offset + (n : Int)) + 7) / 8).toNat = slotIndex offset by omega]
    exact hunused
  · rw [hact]
    have hload : loadEvent s (w, source) = none := by
      unfold loadEvent addrOf
      cases source with
      | ind base mode offset => exact absurd rfl (hsource base mode offset)
      | _ => rfl
    show [(w, source)].filterMap (loadEvent s) ++ (storeEvent s _ _).toList ++ [] = []
    rw [List.filterMap_cons_none hload]
    rfl

end

/-! ## Lists -/

/-- The same jump under way, and states that agree. -/
def AgreePair (usedSlots : List Bool) (c c' : State × Option String) : Prop := c'.2 = c.2 ∧ Agree usedSlots c.1 c'.1

theorem AgreePair.trans {usedSlots : List Bool} {c c' c'' : State × Option String} (h : AgreePair usedSlots c c')
    (h' : AgreePair usedSlots c' c'') : AgreePair usedSlots c c'' :=
  ⟨h'.1.trans h.1, h'.2.regs.trans h.2.regs, h'.2.flags.trans h.2.flags,
    fun loc hloc => (h'.2.mem loc hloc).trans (h.2.mem loc hloc), h'.2.calls.trans h.2.calls⟩

/-- The events of one instruction; there are none if it is passed over. -/
def stepEvents (i : Instr) (c c' : State × Option String) : List Event :=
  if c.2 = none then (act i).elim [] (Act.events c.1 c'.1 c'.2) else []

theorem events_cons (env : Env) (i : Instr) (is : List Instr) (c : State × Option String) :
    events env (i :: is) c = (stepInstr env c i).elim [] fun c' => stepEvents i c c' ++ events env is c' := by
  rw [events]
  cases stepInstr env c i <;> rfl

section
variable {ssm : StackSlotManager} (hssm : ssm.Reachable) {usedSlots : List Bool} (e : HeapEnv)
include hssm

theorem stepInstr_kept {i : Instr} (hform : StackForm ssm i)
    (hmarked : ∀ offset, i.FirstAt offset → usedSlots[slotIndex offset]? = some true) {c c' : State × Option String}
    (h : AgreePair usedSlots c c') : Option.Rel (fun d d' => AgreePair usedSlots d d' ∧ stepEvents i c' d' = stepEvents i c d)
      (stepInstr e.env c i) (stepInstr e.env c' i) := by
  obtain ⟨s, pending⟩ := c
  obtain ⟨s', pending'⟩ := c'
  obtain ⟨rfl, hagree⟩ := h
  cases pending' with
  | none =>
    show Option.Rel _ (exec e.env i s) (exec e.env i s')
    cases hact : act i with
    | none =>
      rw [exec_eq_act, exec_eq_act, hact]
      exact .none
    | some a =>
      rw [exec_act hact, exec_act hact]
      have hexec := Act.exec_agree e hagree (hform.visible hssm hmarked hact s.regs)
      generalize a.exec e.env s = r at hexec
      generalize a.exec e.env s' = r' at hexec
      cases hexec with
      | none => exact .none
      | @some d d' hd =>
        refine .some ⟨hd, ?_⟩
        unfold stepEvents
        rw [hact, hd.1]
        exact Act.events_agree hagree hd.2 d.2 a
  | some label =>
    show Option.Rel _ (if _ then _ else _) (if _ then _ else _)
    split
    · exact .some ⟨⟨rfl, hagree⟩, rfl⟩
    · exact .some ⟨⟨rfl, hagree⟩, rfl⟩

theorem stepInstr_removed {i : Instr} (hform : StackForm ssm i) (hremoved : isRemovable usedSlots i = some true)
    (c : State × Option String) :
    ∃ d, stepInstr e.env c i = some d ∧ AgreePair usedSlots d c ∧ stepEvents i c d = [] := by
  obtain ⟨s, _ | label⟩ := c
  · obtain ⟨t, ht, hagree, hevents⟩ := exec_removed hssm hform hremoved e s
    exact ⟨(t, none), ht, ⟨rfl, hagree⟩, hevents⟩
  · have hlabel : i ≠ ⟨.Label, [.str label]⟩ := by
      rintro rfl
      cases hremoved
    exact ⟨(s, some label), if_neg hlabel, ⟨rfl, .refl usedSlots s⟩, rfl⟩

/-- The list without the stores that are removed. -/
theorem runBlock_filter {is : List Instr} (hforms : ∀ i ∈ is, StackForm ssm i)
    (hlength : ∀ i ∈ is, (isRemovable usedSlots i).isSome)
    (hmarked : ∀ i ∈ is, ∀ offset, i.FirstAt offset → usedSlots[slotIndex offset]? = some true)
    {c c' : State × Option String} (h : AgreePair usedSlots c c') :
    Option.Rel (AgreePair usedSlots) (runBlock e.env is c) (runBlock e.env (is.filter (keeps usedSlots)) c') ∧
      events e.env (is.filter (keeps usedSlots)) c' = events e.env is c := by
  induction is generalizing c c' with
  | nil => exact ⟨.some h, rfl⟩
  | cons i is ih =>
    replace ih := fun {c c'} (hc : AgreePair usedSlots c c') => ih (fun j hj => hforms j (List.mem_cons_of_mem i hj))
      (fun j hj => hlength j (List.mem_cons_of_mem i hj)) (fun j hj => hmarked j (List.mem_cons_of_mem i hj)) hc
    obtain ⟨remove, hremove⟩ := Option.isSome_iff_exists.1 (hlength i List.mem_cons_self)
    cases remove with
    | true =>
      have hkeeps : ¬keeps usedSlots i = true := by
        unfold keeps
        rw [hremove]
        exact Bool.false_ne_true
      rw [List.filter_cons_of_neg hkeeps, runBlock_cons, events_cons]
      obtain ⟨d, hd, hagree, hevents⟩ := stepInstr_removed hssm e (hforms i List.mem_cons_self) hremove c
      rw [hd, Option.bind_some, Option.elim_some, hevents]
      exact ih (hagree.trans h)
    | false =>
      have hkeeps : keeps usedSlots i = true := by
        unfold keeps
        rw [hremove]
        rfl
      rw [List.filter_cons_of_pos hkeeps, runBlock_cons, runBlock_cons, events_cons, events_cons]
      have hstep := stepInstr_kept hssm e (hforms i List.mem_cons_self) (hmarked i List.mem_cons_self) h
      generalize stepInstr e.env c i = r at hstep
      generalize stepInstr e.env c' i = r' at hstep
      cases hstep with
      | none => exact ⟨.none, rfl⟩
      | @some d d' hd =>
        obtain ⟨hrun, hevents⟩ := ih hd.1
        refine ⟨hrun, ?_⟩
        show stepEvents i c' d' ++ _ = stepEvents i c d ++ _
        rw [hd.2, hevents]

end

/-! ## Functions -/

/-- What is seen at the start of a block: where control is, the registers, the memory outside of the frame, and the events
of the block that is going to run. At the epilog, `%rax` is the value that is returned. -/
structure OutsideView where
  label : Option String
  regs : RegName → BitVec 64
  heap : Heap
  events : List Event

def outsideView (env : Env) (text : Text) (c : Nat × State) : OutsideView where
  label := labelAt text c
  regs := c.2.regs
  heap := fun a => c.2.mem (.addr a)
  events := (text[c.1]?).elim [] fun block => events env block.2 (c.2, none)

/-- The views of the first `n` blocks that run. -/
def outsideRun (env : Env) (text : Text) (n : Nat) (s : State) : List OutsideView :=
  trace (stepBlock env text) (outsideView env text) n (0, s)

theorem getElem?_flatTextOf (bs : List BasicBlock) (i : Nat) :
    (flatTextOf bs)[i]? = (bs[i]?).map fun b => (b.getLabelStr, b.flattenedInstrs) := List.getElem?_map

theorem blockAt_kept (usedSlots : List Bool) (bs : List BasicBlock) (label : String) :
    blockAt (flatTextOf (bs.map (BasicBlock.kept usedSlots))) label = blockAt (flatTextOf bs) label := by
  unfold blockAt flatTextOf
  rw [List.map_map, List.findIdx?_map, List.findIdx?_map]
  rfl

section
variable {ssm : StackSlotManager} (hssm : ssm.Reachable) {usedSlots : List Bool} (e : HeapEnv) {bs : List BasicBlock}
  (hforms : ∀ b ∈ bs, ∀ i ∈ b.flattenedInstrs, StackForm ssm i)
  (hlength : ∀ b ∈ bs, ∀ i ∈ b.flattenedInstrs, (isRemovable usedSlots i).isSome)
  (hmarked : ∀ b ∈ bs, ∀ i ∈ b.flattenedInstrs, ∀ offset, i.FirstAt offset → usedSlots[slotIndex offset]? = some true)

/-- The same block, and states that agree. -/
def SamePlace (usedSlots : List Bool) (c c' : Nat × State) : Prop := c'.1 = c.1 ∧ Agree usedSlots c.2 c'.2

include hssm hforms hlength hmarked

theorem stepBlock_kept {c c' : Nat × State} (h : SamePlace usedSlots c c') : Option.Rel (SamePlace usedSlots)
    (stepBlock e.env (flatTextOf bs) c) (stepBlock e.env (flatTextOf (bs.map (BasicBlock.kept usedSlots))) c') := by
  obtain ⟨i, s⟩ := c
  obtain ⟨i', s'⟩ := c'
  obtain ⟨rfl, hagree⟩ := h
  unfold stepBlock
  rw [getElem?_flatTextOf, getElem?_flatTextOf, List.getElem?_map]
  dsimp only
  cases hb : bs[i']? with
  | none => exact .none
  | some b =>
    have hmem := List.mem_of_getElem? hb
    have hrun := (runBlock_filter hssm e (hforms b hmem) (hlength b hmem) (hmarked b hmem)
      (show AgreePair usedSlots (s, none) (s', none) from ⟨rfl, hagree⟩)).1
    show Option.Rel _ ((runBlock e.env b.flattenedInstrs (s, none)).bind _)
      ((runBlock e.env (b.flattenedInstrs.filter (keeps usedSlots)) (s', none)).bind _)
    generalize runBlock e.env b.flattenedInstrs (s, none) = r at hrun
    generalize runBlock e.env (b.flattenedInstrs.filter (keeps usedSlots)) (s', none) = r' at hrun
    cases hrun with
    | none => exact .none
    | @some d d' hd =>
      obtain ⟨t, target⟩ := d
      obtain ⟨t', target'⟩ := d'
      obtain ⟨rfl, hagree⟩ := hd
      cases target' with
      | none => exact .some ⟨rfl, hagree⟩
      | some label =>
        show Option.Rel _ ((·, t) <$> blockAt _ label) ((·, t') <$> blockAt _ label)
        rw [blockAt_kept]
        cases blockAt (flatTextOf bs) label with
        | none => exact .none
        | some j => exact .some ⟨rfl, hagree⟩

theorem outsideView_kept {c c' : Nat × State} (h : SamePlace usedSlots c c') :
    outsideView e.env (flatTextOf bs) c = outsideView e.env (flatTextOf (bs.map (BasicBlock.kept usedSlots))) c' := by
  obtain ⟨i, s⟩ := c
  obtain ⟨i', s'⟩ := c'
  obtain ⟨rfl, hagree⟩ := h
  have hheap : (fun a => s.mem (.addr a)) = fun a => s'.mem (.addr a) := funext fun a => (hagree.heap a).symm
  unfold outsideView labelAt
  rw [getElem?_flatTextOf, getElem?_flatTextOf, List.getElem?_map]
  dsimp only
  rw [hagree.regs, hheap]
  cases hb : bs[i']? with
  | none => rfl
  | some b =>
    have hmem := List.mem_of_getElem? hb
    have hevents := (runBlock_filter hssm e (hforms b hmem) (hlength b hmem) (hmarked b hmem)
      (show AgreePair usedSlots (s, none) (s', none) from ⟨rfl, hagree⟩)).2
    show OutsideView.mk _ _ _ (events e.env b.flattenedInstrs (s, none)) =
      OutsideView.mk _ _ _ (events e.env (b.flattenedInstrs.filter (keeps usedSlots)) (s', none))
    rw [hevents]
    rfl

theorem outsideRun_kept (n : Nat) (s : State) :
    outsideRun e.env (flatTextOf (bs.map (BasicBlock.kept usedSlots))) n s = outsideRun e.env (flatTextOf bs) n s :=
  (rel_trace (fun _ _ => stepBlock_kept hssm e hforms hlength hmarked)
    (fun _ _ => outsideView_kept hssm e hforms hlength hmarked) n ⟨rfl, .refl usedSlots s⟩).symm

end

/-- The instruction has the word at this offset of the frame as its second operand. -/
def Instr.Stores (i : Instr) (offset : Int) : Prop := ∃ source mode, i.ops = [source, .ind .bp mode offset]

/-- The instruction reads the word at this offset of the frame. -/
def Instr.Loads (i : Instr) (offset : Int) : Prop :=
  ∃ a w mode, act i = some a ∧ (w, Op.ind .bp mode offset) ∈ a.sources

/-- A store into a slot that some instruction reads stays. -/
theorem keeps_of_loads {ssm : StackSlotManager} {usedSlots : List Bool} {i j : Instr} {offset : Int}
    (hi : (isRemovable usedSlots i).isSome) (hj : StackForm ssm j)
    (hmarked : ∀ offset, j.FirstAt offset → usedSlots[slotIndex offset]? = some true) (hstores : i.Stores offset)
    (hloads : j.Loads offset) : keeps usedSlots i = true := by
  obtain ⟨remove, hremove⟩ := Option.isSome_iff_exists.1 hi
  cases remove with
  | false =>
    unfold keeps
    rw [hremove]
    rfl
  | true =>
    obtain ⟨-, source, base, mode, offset', hops, hneg, hunused⟩ := isRemovable_eq_true hremove
    obtain ⟨source', mode', hops'⟩ := hstores
    rw [hops] at hops'
    cases hops'
    obtain ⟨a, w, mode, hact, hp⟩ := hloads
    rcases sources_of_act hact hp with ⟨rest, hops'⟩ | ⟨source, hops', hmov⟩
    · cases (hmarked offset ⟨_, mode, rest, hops', hneg⟩).symm.trans hunused
    · cases (hj.second source _ mode offset hops').symm.trans hmov

/-- The pass on a function of a method: it goes through; it removes moves into slots only, and none into a slot that an
instruction of any block reads; and every run goes through the same blocks, with the same registers and the same memory
outside of the frame at the start of each and at the epilog, the same reads and writes of that memory, the same calls and
the same branches. -/
theorem stackOptimizeFunction_correct {ssm : StackSlotManager} (hssm : ssm.Reachable) (f : Function)
    (hsize : f.arSize = ssm.currentOffset)
    (hforms : ∀ b ∈ f.orderedBasicBlocks, ∀ i ∈ b.flattenedInstrs, StackForm ssm i) :
    ∃ f' usedSlots, stackOptimizeFunction f = some f' ∧
      f'.orderedBasicBlocks = f.orderedBasicBlocks.map (BasicBlock.kept usedSlots) ∧
      (∀ b ∈ f.orderedBasicBlocks, ∀ i ∈ b.flattenedInstrs, ∀ b' ∈ f.orderedBasicBlocks, ∀ j ∈ b'.flattenedInstrs,
        ∀ offset, i.Stores offset → j.Loads offset → keeps usedSlots i = true) ∧
      (∀ b ∈ f.orderedBasicBlocks, ∀ i ∈ b.flattenedInstrs, keeps usedSlots i = false →
        i.isMov = true ∧ ∃ offset, offset < 0 ∧ i.Stores offset) ∧
      ∀ (e : HeapEnv) n s, outsideRun e.env (flatTextOf f'.orderedBasicBlocks) n s =
        outsideRun e.env (flatTextOf f.orderedBasicBlocks) n s := by
  obtain ⟨usedSlots, hblocks, hlength, hmarked⟩ := stackOptimizeBlocks_spec hssm hforms
  rw [← hsize] at hblocks
  have hnodup : ((f.orderedBasicBlocks.map (BasicBlock.kept usedSlots)).map BasicBlock.node).Nodup := by
    rw [stackOptimizeBlocks_nodes hblocks]
    exact f.nodup
  refine ⟨{ f with orderedBasicBlocks := f.orderedBasicBlocks.map (BasicBlock.kept usedSlots), nodup := hnodup },
    usedSlots, ?_, rfl, ?_, ?_, fun e => outsideRun_kept hssm e hforms hlength hmarked⟩
  · unfold stackOptimizeFunction
    split
    · rename_i hnone
      cases hnone.symm.trans hblocks
    · rename_i bs hsome
      obtain rfl := Option.some.inj (hsome.symm.trans hblocks)
      rfl
  · intro b hb i hi b' hb' j hj offset hstores hloads
    exact keeps_of_loads (hlength b hb i hi) (hforms b' hb' j hj) (hmarked b' hb' j hj) hstores hloads
  · intro b hb i hi hremoved
    obtain ⟨remove, hremove⟩ := Option.isSome_iff_exists.1 (hlength b hb i hi)
    unfold keeps at hremoved
    rw [hremove] at hremoved
    obtain rfl : remove = true := by simpa using hremoved
    obtain ⟨hmov, source, base, mode, offset, hops, hneg, -⟩ := isRemovable_eq_true hremove
    obtain ⟨rfl, -⟩ := @StackForm.slot ssm hssm i (hforms b hb i hi) base mode offset
      (by rw [hops]; simp) hneg
    exact ⟨hmov, offset, hneg, source, mode, hops⟩

/-- Two slots, for the nodes 1 and 2. -/
def sampleSlots : StackSlotManager where
  currentOffset := 24
  offsets := Function.update (Function.update (fun _ => none) 1 (some (-8))) 2 (some (-16))
  tmpSlots := fun _ => none

theorem sampleSlots_reachable : sampleSlots.Reachable :=
  have hfirst : StackSlotManager.Reachable { StackSlotManager.init with
      currentOffset := 16, offsets := Function.update (fun _ => none) 1 (some (-8)) } :=
    @StackSlotManager.Reachable.getStackSlot _ _ 1 _ .init rfl
  @StackSlotManager.Reachable.getStackSlot _ _ 2 _ hfirst rfl

/-- Two stores, of which only the second one is read. -/
def sampleStores : Function where
  fnName := "f"
  arSize := 24
  orderedBasicBlocks :=
    [{ node := 1, startPhiInstrs := [], phiInstrs := [], instrs := [], jumpInstrs := []
       flattenedInstrs := [⟨.Movq, [.imm 5, .ind .bp .R (-8)]⟩, ⟨.Movq, [.imm 6, .ind .bp .R (-16)]⟩,
         ⟨.Mov, [.ind .bp .R (-16), .reg .ax .R]⟩] }]
  nodup := by decide

theorem stackForm_sampleStores : ∀ b ∈ sampleStores.orderedBasicBlocks, ∀ i ∈ b.flattenedInstrs,
    StackForm sampleSlots i := by
  intro b hb i hi
  simp only [sampleStores, List.mem_singleton] at hb
  subst hb
  simp only [List.mem_cons, List.not_mem_nil, or_false] at hi
  have hslot : sampleSlots.HasOffset (-8) := ⟨1, .inl rfl⟩
  have hslot' : sampleSlots.HasOffset (-16) := ⟨2, .inl rfl⟩
  rcases hi with rfl | rfl | rfl
  · exact ⟨rfl, fun _ _ _ _ _ => rfl, by simp [hslot], by simp +contextual⟩
  · exact ⟨rfl, fun _ _ _ _ _ => rfl, by simp [hslot'], by simp +contextual⟩
  · exact ⟨rfl, fun _ _ _ _ _ => rfl, by simp [hslot'], by simp +contextual⟩

theorem stackOptimizeFunction_correct_sampleStores : ∃ f' usedSlots, stackOptimizeFunction sampleStores = some f' ∧
    f'.orderedBasicBlocks = sampleStores.orderedBasicBlocks.map (BasicBlock.kept usedSlots) ∧
    (∀ b ∈ sampleStores.orderedBasicBlocks, ∀ i ∈ b.flattenedInstrs, ∀ b' ∈ sampleStores.orderedBasicBlocks,
      ∀ j ∈ b'.flattenedInstrs, ∀ offset, i.Stores offset → j.Loads offset → keeps usedSlots i = true) ∧
    (∀ b ∈ sampleStores.orderedBasicBlocks, ∀ i ∈ b.flattenedInstrs, keeps usedSlots i = false →
      i.isMov = true ∧ ∃ offset, offset < 0 ∧ i.Stores offset) ∧
    ∀ (e : HeapEnv) n s, outsideRun e.env (flatTextOf f'.orderedBasicBlocks) n s =
      outsideRun e.env (flatTextOf sampleStores.orderedBasicBlocks) n s :=
  stackOptimizeFunction_correct sampleSlots_reachable sampleStores rfl stackForm_sampleStores

example : (stackOptimizeFunction sampleStores).map (fun f => f.orderedBasicBlocks.map BasicBlock.flattenedInstrs) =
    some [[⟨.Movq, [.imm 6, .ind .bp .R (-16)]⟩, ⟨.Mov, [.ind .bp .R (-16), .reg .ax .R]⟩]] := by
  decide

end Mjc.Asm

import Mjc.Asm.Blocks
import Mjc.Asm.SlotManager
import Mjc.Asm.StackMachine
import Mjc.Nesting

/-!
# Frames

Methods with their prologs and epilogs, and a program that runs on one stack.

* `Generated` : the slots of a method, from `AsmMethodPass::before` on; `Generated.argSlots`;
* `Piece`, `BlockCode.pieces` : the code of a block with its calls apart; `pieces_emit` : it is the emitted code;
* `Method`, `Program`, `Runtime` : what is run, and what the linker, the C library and the system do;
* `prolog`, `epilog` : `Function::writeProlog` and `Function::writeEpilog`;
* `plainStep`, `callStep`, `retStep` : the steps of a run. The prolog belongs to the call, the epilog to the return.
-/

namespace Mjc.Asm
open Mjc.Bytes StackSlotManager

set_option autoImplicit false

/-! ## Slots -/

/-- `AsmMethodPass::before`: the `Proj`s of the arguments, with their numbers. -/
def before (args : List (Nat × Nat)) : Gen Unit := args.forM fun arg => setSlot arg.1 (16 + arg.2 * 8)

/-- The slot managers of a method with these arguments. -/
inductive Generated (args : List (Nat × Nat)) : StackSlotManager → Prop where
  | before {s : StackSlotManager} (h : before args .init = some ((), s)) : Generated args s
  | getStackSlot {s s' : StackSlotManager} {node : Nat} {offset : Int} (h : Generated args s)
      (hs : getStackSlot node s = some (offset, s')) : Generated args s'
  | copySlot {s s' : StackSlotManager} {source dest : Nat} (h : Generated args s)
      (hs : copySlot source dest s = some ((), s')) : Generated args s'
  | getTmpSlot {s s' : StackSlotManager} {node : Nat} {offset : Int} (h : Generated args s)
      (hs : getTmpSlot node s = some (offset, s')) : Generated args s'

section
variable {s s' : StackSlotManager} {node : Nat} {offset : Int}

/-- What one slot more changes. -/
structure Grows (s s' : StackSlotManager) : Prop where
  ext : Ext s s'
  offsets : ∀ o, s'.HasOffset o → s.HasOffset o ∨ o < 0
  tmpSlots : ∀ node o, s'.tmpSlots node = some o → s.tmpSlots node = some o ∨ o < 0

theorem Grows.refl (s : StackSlotManager) : Grows s s :=
  ⟨Ext.refl s, fun _ ho => Or.inl ho, fun _ _ ho => Or.inl ho⟩

theorem grows_getStackSlot (hcurrent : 0 < s.currentOffset) (hs : getStackSlot node s = some (offset, s')) :
    Grows s s' ∧ s'.offsets node = some offset := by
  unfold getStackSlot at hs
  split at hs
  · rename_i o ho
    cases hs
    exact ⟨Grows.refl _, ho⟩
  · rename_i hnone
    cases hs
    refine ⟨⟨ext_update hnone _ _, fun o ho => ?_, fun _ _ ho => Or.inl ho⟩, Function.update_self ..⟩
    rcases hasOffset_update ho with rfl | ho
    · exact Or.inr (by omega)
    · exact Or.inl ho

theorem grows_copySlot {source : Nat} (hcurrent : 0 < s.currentOffset) (hs : copySlot source node s = some ((), s')) :
    Grows s s' := by
  unfold copySlot at hs
  split at hs
  · cases hs
  · rename_i hnone
    obtain ⟨⟨offset, t⟩, ht, hs⟩ := Option.bind_eq_some_iff.1 hs
    cases hs
    obtain ⟨hgrows, hoffset⟩ := grows_getStackSlot hcurrent ht
    refine ⟨fun x o hx => ?_, fun o ho => ?_, hgrows.tmpSlots⟩
    · have hne : x ≠ node := by
        rintro rfl
        exact hnone (by rw [hx]; exact Option.some_ne_none o)
      show Function.update t.offsets node (some offset) x = some o
      rw [Function.update_of_ne hne, hgrows.ext x o hx]
    · rcases hasOffset_update ho with rfl | ho
      · exact hgrows.offsets _ ⟨source, Or.inl hoffset⟩
      · exact hgrows.offsets _ ho

theorem grows_getTmpSlot (hcurrent : 0 < s.currentOffset) (hs : getTmpSlot node s = some (offset, s')) : Grows s s' := by
  unfold getTmpSlot at hs
  split at hs
  · cases hs
    exact Grows.refl _
  · cases hs
    have htmp : ∀ x o, Function.update s.tmpSlots node (some (-s.currentOffset)) x = some o →
        s.tmpSlots x = some o ∨ o < 0 := by
      intro x o hx
      by_cases hne : x = node
      · subst hne
        rw [Function.update_self] at hx
        obtain rfl := Option.some.inj hx
        exact Or.inr (by omega)
      · rw [Function.update_of_ne hne] at hx
        exact Or.inl hx
    refine ⟨Ext.refl s, fun o ⟨x, hx⟩ => ?_, htmp⟩
    rcases hx with hx | hx
    · exact Or.inl ⟨x, Or.inl hx⟩
    · exact (htmp x o hx).imp_left fun h => ⟨x, Or.inr h⟩

theorem before_cons (arg : Nat × Nat) (args : List (Nat × Nat)) (s : StackSlotManager) :
    before (arg :: args) s = (setSlot arg.1 (16 + arg.2 * 8) s).bind fun r => before args r.2 := rfl

/-- What holds once the slots of the arguments are set. -/
structure ArgSlots (args : List (Nat × Nat)) (s : StackSlotManager) : Prop where
  reachable : Reachable s
  params : ∀ arg ∈ args, s.offsets arg.1 = some (16 + (arg.2 : Int) * 8)
  offsets : ∀ o, s.HasOffset o → (∃ arg ∈ args, o = 16 + (arg.2 : Int) * 8) ∨ o < 0
  tmpSlots : ∀ node o, s.tmpSlots node = some o → o < 0

theorem ArgSlots.grows {args : List (Nat × Nat)} (h : ArgSlots args s) (hreachable : Reachable s') (hgrows : Grows s s') :
    ArgSlots args s' where
  reachable := hreachable
  params arg harg := hgrows.ext _ _ (h.params arg harg)
  offsets o ho := (hgrows.offsets o ho).elim (h.offsets o) Or.inr
  tmpSlots node o ho := (hgrows.tmpSlots node o ho).elim (h.tmpSlots node o) id

theorem ArgSlots.setSlot {args : List (Nat × Nat)} (h : ArgSlots args s) {arg : Nat × Nat}
    (hs : StackSlotManager.setSlot arg.1 (16 + arg.2 * 8) s = some ((), s')) : ArgSlots (args ++ [arg]) s' := by
  have hreachable : Reachable s' := .setSlot h.reachable hs
  unfold StackSlotManager.setSlot at hs
  split at hs
  · cases hs
  · rename_i hnone
    cases hs
    refine ⟨hreachable, fun a ha => ?_, fun o ho => ?_, h.tmpSlots⟩
    · by_cases hne : a.1 = arg.1
      · rcases List.mem_append.mp ha with ha | ha
        · rw [← hne, h.params a ha] at hnone
          exact absurd (Option.some_ne_none _) hnone
        · obtain rfl := List.mem_singleton.mp ha
          exact Function.update_self ..
      · rcases List.mem_append.mp ha with ha | ha
        · exact (Function.update_of_ne hne _ _).trans (h.params a ha)
        · exact absurd (congrArg Prod.fst (List.mem_singleton.mp ha)) hne
    · rcases hasOffset_update ho with rfl | ho
      · exact Or.inl ⟨arg, List.mem_append_right _ (List.mem_singleton.mpr rfl), rfl⟩
      · rcases h.offsets o ho with ⟨a, ha, hoa⟩ | hneg
        · exact Or.inl ⟨a, List.mem_append_left _ ha, hoa⟩
        · exact Or.inr hneg

theorem argSlots_before {done args : List (Nat × Nat)} (h : ArgSlots done s) (hs : before args s = some ((), s')) :
    ArgSlots (done ++ args) s' := by
  induction args generalizing done s with
  | nil =>
    cases hs
    rwa [List.append_nil]
  | cons arg args ih =>
    rw [before_cons] at hs
    obtain ⟨⟨⟨⟩, t⟩, ht, hs⟩ := Option.bind_eq_some_iff.1 hs
    rw [List.append_cons]
    exact ih (h.setSlot ht) hs

theorem Generated.argSlots {args : List (Nat × Nat)} (h : Generated args s) : ArgSlots args s := by
  have hpos : ∀ {s : StackSlotManager}, Reachable s → 0 < s.currentOffset := by
    intro s hs
    obtain ⟨k, hk⟩ := hs.sound.current
    omega
  induction h with
  | before hs =>
    have hinit : ArgSlots [] .init := by
      refine ⟨.init, List.forall_mem_nil _, ?_, fun _ _ ho => by cases ho⟩
      rintro o ⟨x, hx | hx⟩ <;> cases hx
    exact argSlots_before hinit hs
  | getStackSlot _ hs ih => exact ih.grows (.getStackSlot ih.reachable hs) (grows_getStackSlot (hpos ih.reachable) hs).1
  | copySlot _ hs ih => exact ih.grows (.copySlot ih.reachable hs) (grows_copySlot (hpos ih.reachable) hs)
  | getTmpSlot _ hs ih => exact ih.grows (.getTmpSlot ih.reachable hs) (grows_getTmpSlot (hpos ih.reachable) hs)

end

/-! ## Pieces of code -/

/-- Code without calls, or a call up to the point where its stack is given back. -/
inductive Piece where
  | code (is : List Instr)
  | call (c : CallCode)

/-- The code behind the call that gives the stack back. -/
def CallCode.addCode (c : CallCode) : List Instr := if 0 < c.addSize then [⟨.Add, [.imm c.addSize, rsp]⟩] else []

/-- The code that stores the result. -/
def resultCode (resultProj : Option Int) : List Instr := (resultProj.map fun slot => ⟨.Mov, [rax, slotOp slot]⟩).toList

def Piece.instrs : Piece → List Instr
  | .code is => is
  | .call c => c.before ++ ⟨.Call, [.str c.callee]⟩ :: c.addCode

def NodeCode.pieces : NodeCode → List Piece
  | .call c resultProj => [.call c, .code (resultCode resultProj)]
  | n => [.code n.code]

def BlockCode.pieces (b : BlockCode) : Option (List Piece) := do
  let startPhiInstrs ← b.startPhis.mapM StartPhi.code
  let jumpInstrs ← b.exit.jumpInstrs
  some (.code startPhiInstrs.flatten :: (b.body.flatMap NodeCode.pieces ++
    [.code (b.phiMoves.flatMap PhiMove.code), .code jumpInstrs]))

theorem NodeCode.pieces_code (n : NodeCode) : n.pieces.flatMap Piece.instrs = n.code := by
  cases n with
  | call c resultProj =>
    show (c.before ++ ⟨.Call, [.str c.callee]⟩ :: c.addCode) ++ (resultCode resultProj ++ []) = c.code resultProj
    unfold CallCode.code CallCode.after CallCode.addCode resultCode
    rw [List.append_nil, List.append_assoc, List.cons_append]
  | _ => exact List.append_nil _

/-- The pieces are the instructions of the emitted block. -/
theorem BlockCode.pieces_emit (b : BlockCode) :
    b.pieces.map (·.flatMap Piece.instrs) = b.emit.map BasicBlock.lists := by
  unfold BlockCode.pieces BlockCode.emit
  cases b.startPhis.mapM StartPhi.code with
  | none => rfl
  | some startPhiInstrs =>
    cases b.exit.jumpInstrs with
    | none => rfl
    | some jumpInstrs =>
      have hbody : (b.body.flatMap NodeCode.pieces).flatMap Piece.instrs = b.body.flatMap NodeCode.code := by
        rw [List.flatMap_assoc]
        exact congrArg (List.flatMap · b.body) (funext NodeCode.pieces_code)
      simp only [Option.bind_eq_bind, Option.bind_some, Option.map_some, List.flatMap_cons, List.flatMap_append, hbody,
        List.flatMap_nil, BasicBlock.lists, Piece.instrs, List.append_nil, List.append_assoc]

/-! ## The slots in the code -/

def NodeOp.slots : NodeOp → List Int
  | .const _ => []
  | .slot offset => [offset]

def CallCode.slots : CallCode → List Int
  | .print _ p => p.slots
  | .allocate n size _ _ => n.slots ++ size.slots
  | .method _ params => params.flatMap NodeOp.slots

def NodeCode.slots : NodeCode → List Int
  | .add firstOp secondOp slot => firstOp.slots ++ secondOp.slots ++ [slot]
  | .sub leftOp rightOp slot | .mul rightOp leftOp slot => leftOp.slots ++ rightOp.slots ++ [slot]
  | .div leftOp rightOp succ | .mod leftOp rightOp succ => leftOp.slots ++ rightOp.slots ++ succ.toList
  | .minus _ op slot | .load _ op slot => op.slots ++ [slot]
  | .store _ destOp sourceOp => destOp.slots ++ sourceOp.slots
  | .call c resultProj => c.slots ++ resultProj.toList
  | .ret op => op.elim [] NodeOp.slots

def StartPhi.slots : StartPhi → List Int
  | .bool _ _ truePred falsePred slot => truePred.slots ++ falsePred.slots ++ [slot]
  | .swap slot tmpSlot | .normal slot tmpSlot => [slot, tmpSlot]

def PhiMove.slots : PhiMove → List Int
  | .normal src slot | .swap src slot => src.slots ++ [slot]

def BlockExit.slots : BlockExit → List Int
  | .cond _ leftOp rightOp _ _ _ => leftOp.slots ++ rightOp.slots
  | _ => []

def BlockCode.slots (b : BlockCode) : List Int :=
  b.startPhis.flatMap StartPhi.slots ++ b.body.flatMap NodeCode.slots ++ b.phiMoves.flatMap PhiMove.slots ++ b.exit.slots

/-! ## Programs -/

/-- A method as it is emitted. Slot offsets and argument sizes are of type `int`. -/
structure Method where
  fnName : String
  nParams : Nat
  args : List (Nat × Nat)
  ssm : StackSlotManager
  blocks : List BlockCode
  code : List (String × List Piece)
  args_lt : ∀ arg ∈ args, arg.2 < nParams
  generated : Generated args ssm
  slots : ∀ b ∈ blocks, ∀ offset ∈ b.slots, ssm.HasOffset offset
  emitted : (blocks.mapM fun b => b.pieces.map fun pieces => (getBlockLabel b.node, pieces)) = some code
  ssm_lt : ssm.currentOffset < 2 ^ 31
  params_lt : 8 * nParams < 2 ^ 31
  sizes_lt : ∀ b ∈ blocks, ∀ c resultProj, .call c resultProj ∈ b.body → c.addSize < 2 ^ 31

/-- `ARsize`, which is `getLocVarUsedSize`. -/
def Method.arSize (m : Method) : Int := m.ssm.currentOffset

/-- The methods of a program. A call has as many parameters as the method that it calls. -/
structure Program where
  methods : List Method
  arity : ∀ m ∈ methods, ∀ b ∈ m.blocks, ∀ funcName params resultProj, .call (.method funcName params) resultProj ∈ b.body →
    ∀ g ∈ methods, g.fnName = funcName → params.length = g.nParams

namespace Program

variable (p : Program)

/-- The method that a call goes to; the other functions are those of the C library. -/
def callee : CallCode → Option Nat
  | .method funcName _ => p.methods.findIdx? (·.fnName = funcName)
  | _ => none

/-- The piece `k` of block `b` of method `m`. -/
def pieceAt (m b k : Nat) : Option Piece := do
  let method ← p.methods[m]?
  let block ← method.code[b]?
  block.2[k]?

end Program

/-- The addresses behind calls, and the functions of the C library, which respect the calling convention. -/
structure Runtime (p : Program) where
  map : MemoryMap
  addrOf : Nat → Nat → Nat → BitVec 64
  place : BitVec 64 → Option (Nat × Nat × Nat)
  place_addrOf : ∀ m b k c, p.pieceAt m b k = some (.call c) → place (addrOf m b k) = some (m, b, k)
  libc : String → Flat → Flat
  libc_bp : ∀ name s, (libc name s).regs .bp = s.regs .bp
  libc_sp : ∀ name s, (libc name s).regs .sp = s.regs .sp + 8
  libc_mem : ∀ name s x, (s.regs .sp).toNat + 8 ≤ x.toNat → x.toNat < map.stackHigh → (libc name s).mem x = s.mem x

/-! ## Prolog and epilog -/

/-- A line of the prolog or the epilog. -/
inductive Line where
  | pushq (name : RegName)
  | instr (i : Instr)
  | leave

def Line.run (map : MemoryMap) (s : Flat) : Line → Option Flat
  | .pushq name => s.push map (s.regs name)
  | .instr i => Prod.fst <$> stepFlat map (s, none) i
  | .leave => s.leave map

/-- `Function::writeProlog`. -/
def Method.prolog (m : Method) : List Line :=
  [.pushq .bp, .instr ⟨.Mov, [rsp, rbp]⟩] ++ if 0 < m.arSize then [.instr ⟨.Sub, [.imm m.arSize, rsp]⟩] else []

/-- `Function::writeEpilog` up to its `ret`. -/
def Method.epilog (m : Method) : List Line :=
  (if 0 < m.arSize then [.instr ⟨.Add, [.imm m.arSize, rsp]⟩] else []) ++ [.leave]

/-! ## Runs -/

/-- In front of a piece (the epilog, if there is no such block), or right behind a call instruction. -/
inductive Position where
  | at (m b k : Nat)
  | behind (m b k : Nat)
  deriving DecidableEq

structure Config where
  pos : Position
  state : Flat

variable (p : Program) (r : Runtime p)

/-- A call of the C library, without the code that gives the stack back. -/
def Runtime.callLibc {p : Program} (r : Runtime p) (m b k : Nat) (c : CallCode) (s : Flat) : Option Flat := do
  let (s, _) ← runCode r.map c.before (s, none)
  let s ← s.push r.map (r.addrOf m b k)
  some (r.libc c.callee s)

/-- A step inside a method. -/
def plainStep (c : Config) : Option Config :=
  match c.pos with
  | .at m b k => do
    let method ← p.methods[m]?
    let block ← method.code[b]?
    match block.2[k]? with
    | none => some ⟨.at m (b + 1) 0, c.state⟩
    | some (.code is) => do
      let (s, label) ← runCode r.map is (c.state, none)
      match label with
      | none => some ⟨.at m b (k + 1), s⟩
      | some label => (fun b' => ⟨.at m b' 0, s⟩) <$> method.code.findIdx? (·.1 = label)
    | some (.call cc) =>
      if p.callee cc = none then (fun s => ⟨.behind m b k, s⟩) <$> r.callLibc m b k cc c.state else none
  | .behind m b k =>
    match p.pieceAt m b k with
    | some (.call cc) => (fun s => ⟨.at m b (k + 1), s.1⟩) <$> runCode r.map cc.addCode (c.state, none)
    | _ => none

/-- The method and the call of a call step. -/
structure CallLabel where
  caller : Method
  code : CallCode

/-- The call that a method is about to make. -/
def callAt (c : Config) : Option CallLabel :=
  match c.pos with
  | .at m b k => do
    let method ← p.methods[m]?
    match p.pieceAt m b k with
    | some (.call cc) => some ⟨method, cc⟩
    | _ => none
  | .behind _ _ _ => none

/-- From a call to the first block of the callee. -/
def callStep (l : CallLabel) (c : Config) : Option Config :=
  match c.pos with
  | .at m b k => do
    let g ← p.callee l.code
    let method ← p.methods[g]?
    let (s, _) ← runCode r.map l.code.before (c.state, none)
    let s ← s.push r.map (r.addrOf m b k)
    let s ← method.prolog.foldlM (Line.run r.map) s
    some ⟨.at g 0 0, s⟩
  | .behind _ _ _ => none

/-- From the epilog to the instruction behind the call. -/
def retStep (c : Config) : Option Config :=
  match c.pos with
  | .at m b 0 => do
    let method ← p.methods[m]?
    if b = method.code.length then do
      let s ← method.epilog.foldlM (Line.run r.map) c.state
      let (target, s) ← s.pop r.map
      let (m, b, k) ← r.place target
      some ⟨.behind m b k, s⟩
    else none
  | _ => none

/-- A method `e` is called from outside: from an address that is not behind a call of the program. -/
structure Entry (e : Nat) (s : Flat) : Prop where
  room : ∀ m, p.methods[e]? = some m → (s.regs .sp).toNat + 8 + 8 * m.nParams ≤ r.map.stackHigh
  outside : r.place (s.word (s.regs .sp)) = none

/-- The first block of a method, after its prolog. -/
def start (e : Nat) (s : Flat) : Option Config := do
  let method ← p.methods[e]?
  let s ← method.prolog.foldlM (Line.run r.map) s
  some ⟨.at e 0 0, s⟩

/-- The running program. -/
def machine : Nesting.Machine Config CallLabel where
  plain c c' := plainStep p r c = some c'
  call l c c' := callAt p c = some l ∧ callStep p r l c = some c'
  ret c c' := retStep p r c = some c'

end Mjc.Asm

import Mathlib.Data.List.Basic
import Mjc.Bytes

/-!
# Straight-line sequences of integer nodes

The nodes that compute integers and pointers, in dependency order: operands are positions of earlier nodes.
The result `Proj` of a `Div`, a `Mod` or a `Load` is identified with the node itself.

* `Node`, `Typed` : the nodes, and what libfirm's verifier requires of the modes of their operands;
* `eval` : the value of every node and the heap at the end. A value is a 64-bit word; a value of mode `Is` is
  the sign extension of its 32 bits;
* `wide` : the same sequence read with 64-bit operations throughout: a loaded `int` is zero-extended, a
  negation of mode `Is` has 32 bits and keeps the upper half of the word that was there, a `Conv` changes
  nothing, and a division reads 32 bits of its operands.
-/

namespace Mjc.Firm
open Mjc.Bytes

set_option autoImplicit false

/-- The modes of values: 32 and 64-bit integers, pointers, booleans. -/
inductive Mode where
  | Is | Ls | P | Bu
  deriving DecidableEq, Repr

abbrev Word := BitVec 64

abbrev Heap := Word → BitVec 8

/-- The number of bytes of a mode in memory. -/
def Mode.bytes : Mode → Nat
  | .Is => 4
  | .Ls => 8
  | .P => 8
  | .Bu => 1

/-- The modes of 64 bits. -/
def Mode.Full (m : Mode) : Prop := m = .Ls ∨ m = .P

instance (m : Mode) : Decidable m.Full := inferInstanceAs (Decidable (m = .Ls ∨ m = .P))

inductive Node where
  | const (mode : Mode) (tarval : Int)
  | add (mode : Mode) (left right : Nat)
  | sub (mode : Mode) (left right : Nat)
  | mul (mode : Mode) (left right : Nat)
  | minus (mode : Mode) (op : Nat)
  | div (left right : Nat)
  | mod (left right : Nat)
  | conv (mode : Mode) (op : Nat)
  | load (mode : Mode) (ptr : Nat)
  | store (mode : Mode) (value ptr : Nat)
  deriving DecidableEq, Repr

/-- The mode of a node's value; a `Store` has none. -/
def Node.mode : Node → Option Mode
  | .const m _ | .add m _ _ | .sub m _ _ | .mul m _ _ | .minus m _ | .conv m _ | .load m _ => some m
  | .div _ _ | .mod _ _ => some .Ls
  | .store _ _ _ => none

/-- The mode of the node at a position. -/
def modeAt (nodes : List Node) (x : Nat) : Option Mode := nodes[x]?.bind Node.mode

/-- An operand that a node of the mode may have: an earlier value of 32 bits for `Is`, of 64 bits else. -/
def Operand (nodes : List Node) (i : Nat) (m : Mode) (x : Nat) : Prop :=
  x < i ∧ match m with
    | .Is => modeAt nodes x = some .Is
    | .Ls | .P => modeAt nodes x = some .Ls ∨ modeAt nodes x = some .P
    | .Bu => False

/-- What the verifier checks of a node. -/
def NodeTyped (nodes : List Node) (i : Nat) : Node → Prop
  | .const _ _ => True
  | .add m l r | .sub m l r | .mul m l r => Operand nodes i m l ∧ Operand nodes i m r
  | .minus m x => Operand nodes i m x
  | .div l r | .mod l r => Operand nodes i .Ls l ∧ Operand nodes i .Ls r
  | .conv m x => m ≠ .Bu ∧ (Operand nodes i .Is x ∨ Operand nodes i .Ls x)
  | .load _ p => Operand nodes i .P p
  | .store m v p => (v < i ∧ modeAt nodes v = some m) ∧ p < i ∧ modeAt nodes p = some .P

/-- A sequence in dependency order with well-moded operands. -/
def Typed (nodes : List Node) : Prop := ∀ i n, nodes[i]? = some n → NodeTyped nodes i n

instance (nodes : List Node) (i : Nat) (m : Mode) (x : Nat) : Decidable (Operand nodes i m x) :=
  match m with
  | .Is => inferInstanceAs (Decidable (x < i ∧ modeAt nodes x = some .Is))
  | .Ls => inferInstanceAs (Decidable (x < i ∧ (modeAt nodes x = some .Ls ∨ modeAt nodes x = some .P)))
  | .P => inferInstanceAs (Decidable (x < i ∧ (modeAt nodes x = some .Ls ∨ modeAt nodes x = some .P)))
  | .Bu => inferInstanceAs (Decidable (x < i ∧ False))

instance (nodes : List Node) (i : Nat) (n : Node) : Decidable (NodeTyped nodes i n) :=
  match n with
  | .const _ _ => isTrue trivial
  | .add m l r | .sub m l r | .mul m l r =>
    inferInstanceAs (Decidable (Operand nodes i m l ∧ Operand nodes i m r))
  | .minus m x => inferInstanceAs (Decidable (Operand nodes i m x))
  | .div l r | .mod l r => inferInstanceAs (Decidable (Operand nodes i .Ls l ∧ Operand nodes i .Ls r))
  | .conv m x => inferInstanceAs (Decidable (m ≠ .Bu ∧ (Operand nodes i .Is x ∨ Operand nodes i .Ls x)))
  | .load _ p => inferInstanceAs (Decidable (Operand nodes i .P p))
  | .store m v p =>
    inferInstanceAs (Decidable ((v < i ∧ modeAt nodes v = some m) ∧ p < i ∧ modeAt nodes p = some .P))

theorem forall_nodes {nodes : List Node} {P : Nat → Node → Prop} :
    (∀ i : Fin nodes.length, P i nodes[i]) ↔ ∀ (i : Nat) n, nodes[i]? = some n → P i n := by
  constructor
  · intro h i n hn
    obtain ⟨hi, rfl⟩ := List.getElem?_eq_some_iff.1 hn
    exact h ⟨i, hi⟩
  · intro h i
    exact h i _ (List.getElem?_eq_getElem i.isLt)

instance (nodes : List Node) : Decidable (Typed nodes) := decidable_of_iff _ forall_nodes

/-! ## Values -/

/-- The value of a mode that a word stands for. -/
def wrap : Mode → Word → Word
  | .Is, v => (v.setWidth 32).signExtend 64
  | .Ls, v => v
  | .P, v => v
  | .Bu, v => (v.setWidth 8).setWidth 64

/-- The signed quotient and remainder. -/
def quot (a b : Word) : Word := BitVec.ofInt 64 (a.toInt.tdiv b.toInt)
def rem (a b : Word) : Word := BitVec.ofInt 64 (a.toInt.tmod b.toInt)

/-- The value at a position. -/
def at_ (vals : List Word) (x : Nat) : Word := vals.getD x 0

/-- The value of a node and the heap after it; `none` for a division by zero. -/
def evalNode (vals : List Word) (heap : Heap) : Node → Option (Word × Heap)
  | .const m v => some (wrap m (BitVec.ofInt 64 v), heap)
  | .add m l r => some (wrap m (at_ vals l + at_ vals r), heap)
  | .sub m l r => some (wrap m (at_ vals l - at_ vals r), heap)
  | .mul m l r => some (wrap m (at_ vals l * at_ vals r), heap)
  | .minus m x => some (wrap m (-at_ vals x), heap)
  | .div l r => if at_ vals r = 0 then none else some (quot (at_ vals l) (at_ vals r), heap)
  | .mod l r => if at_ vals r = 0 then none else some (rem (at_ vals l) (at_ vals r), heap)
  | .conv m x => some (wrap m (at_ vals x), heap)
  | .load m p => some (wrap m (BitVec.ofNat 64 (read heap (at_ vals p) m.bytes)), heap)
  | .store m v p => some (0, write heap (at_ vals p) m.bytes (at_ vals v).toNat)

/-- Evaluate nodes one after the other; the value of a node is appended to the values before it. -/
def evalFrom (vals : List Word) (heap : Heap) : List Node → Option (List Word × Heap)
  | [] => some (vals, heap)
  | n :: ns =>
    match evalNode vals heap n with
    | some (v, heap') => evalFrom (vals ++ [v]) heap' ns
    | none => none

/-- The values of a sequence and the heap at its end. -/
def eval (nodes : List Node) (heap : Heap) : Option (List Word × Heap) := evalFrom [] heap nodes

/-! ## The 64-bit reading -/

/-- A `Const` at the position. -/
def isConst (nodes : List Node) (x : Nat) : Bool :=
  match nodes[x]? with
  | some (.const _ _) => true
  | _ => false

/-- A `Const`, or a `Conv` of one, at the position: `getNodeOp` makes an immediate of it. -/
def isImm (nodes : List Node) (x : Nat) : Bool :=
  match nodes[x]? with
  | some (.const _ _) => true
  | some (.conv _ c) => isConst nodes c
  | _ => false

/-- The low 32 bits, read with their sign. -/
def low (v : Word) : Word := (v.setWidth 32).signExtend 64

/-- The low bytes of one word below the upper bytes of another. -/
def merge (bytes : Nat) (v old : Word) : Word :=
  BitVec.ofNat 64 (v.toNat % 256 ^ bytes + 256 ^ bytes * (old.toNat / 256 ^ bytes))

/-- The word of node `i` with 64-bit operations; `init x` is the word found in the slot of `x` at the start. -/
def wideNode (nodes : List Node) (init : Nat → Word) (i : Nat) (ws : List Word) (heap : Heap) :
    Node → Word × Heap
  | .const _ v => (low (BitVec.ofInt 64 v), heap)
  | .add _ l r => (at_ ws l + at_ ws r, heap)
  | .sub _ l r => (at_ ws l - at_ ws r, heap)
  | .mul _ l r => (at_ ws l * at_ ws r, heap)
  | .minus m x => (merge m.bytes (-at_ ws x) (init i), heap)
  | .div l r => (quot (low (at_ ws l)) (low (at_ ws r)), heap)
  | .mod l r => (rem (low (at_ ws l)) (low (at_ ws r)), heap)
  | .conv _ x => (if !isConst nodes x && isImm nodes x then init x else at_ ws x, heap)
  | .load m p => (BitVec.ofNat 64 (read heap (at_ ws p) m.bytes), heap)
  | .store m v p => (0, write heap (at_ ws p) m.bytes (at_ ws v).toNat)

def wideFrom (nodes : List Node) (init : Nat → Word) (ws : List Word) (heap : Heap) :
    List Node → List Word × Heap
  | [] => (ws, heap)
  | n :: ns =>
    let (w, heap') := wideNode nodes init ws.length ws heap n
    wideFrom nodes init (ws ++ [w]) heap' ns

/-- The 64-bit reading of a sequence: the words of its nodes and the heap at its end. -/
def wide (nodes : List Node) (init : Nat → Word) (heap : Heap) : List Word × Heap :=
  wideFrom nodes init [] heap nodes

/-- The word stands for the value: its low 32 bits for `Is`, all of it for `Ls` and pointers. -/
def Agree : Mode → Word → Word → Prop
  | .Is, w, v => w.setWidth 32 = v.setWidth 32
  | .Ls, w, v => w = v
  | .P, w, v => w = v
  | .Bu, w, v => w.setWidth 8 = v.setWidth 8

instance (m : Mode) (w v : Word) : Decidable (Agree m w v) :=
  match m with
  | .Is => inferInstanceAs (Decidable (w.setWidth 32 = v.setWidth 32))
  | .Ls => inferInstanceAs (Decidable (w = v))
  | .P => inferInstanceAs (Decidable (w = v))
  | .Bu => inferInstanceAs (Decidable (w.setWidth 8 = v.setWidth 8))

end Mjc.Firm

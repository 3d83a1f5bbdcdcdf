import Mathlib.Data.List.Basic
import Mathlib.Logic.Function.Basic

/-!
# The symbol table

`symboltable.hpp`: a symbol holds its current definition, and the scope that definition was made in; an undo log
restores both when a scope is left.

* `SymbolTable` : the symbols, the log and the open scopes;
* `insert`, `enterScope`, `leaveScope`, `lookup`, `isDefinedInCurrentScope` : the operations;
* `Extends t t'` : `t'` comes from `t` by insertions that its log can undo;
* `leaveScope_of_extends` : leaving a scope gives back the table as it was when the scope was entered.

A scope is identified by its depth. Two open scopes have different depths; that a new scope has the depth of one
that was left before it is the case of a freed `Scope` whose address is used again.
-/

namespace Mjc.Sema

set_option autoImplicit false

/-- `Symbol`: the scope and the definition, null at first. -/
structure Symbol (D : Type) where
  currentScope : Option Nat
  currentDef : Option D
  deriving Repr

/-- `SymbolTable::Change`: what a symbol held before it was defined. -/
structure Change (D : Type) where
  sym : String
  prev : Symbol D
  deriving Repr

/-- `SymbolTable`, with the symbols of the string table. The head of `changes` is its back; `scopes` holds `oldSize`
of the open scopes, the innermost first. -/
structure SymbolTable (D : Type) where
  symbols : String → Symbol D
  changes : List (Change D)
  scopes : List Nat

namespace SymbolTable

variable {D : Type}

/-- A new table: every symbol is undefined, and no scope is open. -/
def empty : SymbolTable D := ⟨fun _ => ⟨none, none⟩, [], []⟩

/-- `currentScope.get()`. -/
def currentScope (t : SymbolTable D) : Option Nat :=
  match t.scopes with
  | [] => none
  | _ :: outer => some outer.length

def insert (t : SymbolTable D) (sym : String) (d : D) : SymbolTable D :=
  { t with
    symbols := Function.update t.symbols sym ⟨t.currentScope, some d⟩
    changes := ⟨sym, t.symbols sym⟩ :: t.changes }

def enterScope (t : SymbolTable D) : SymbolTable D := { t with scopes := t.changes.length :: t.scopes }

/-- `while (changes.size() > oldSize) changes.pop_back();`: the destructor of a change restores the symbol. -/
def unwind (oldSize : Nat) : List (Change D) → (String → Symbol D) → List (Change D) × (String → Symbol D)
  | [], symbols => ([], symbols)
  | c :: cs, symbols =>
    if oldSize < cs.length + 1 then unwind oldSize cs (Function.update symbols c.sym c.prev)
    else (c :: cs, symbols)

/-- `leaveScope`; without an open scope it dereferences a null pointer. -/
def leaveScope (t : SymbolTable D) : Option (SymbolTable D) :=
  match t.scopes with
  | [] => none
  | oldSize :: outer =>
    some ⟨(unwind oldSize t.changes t.symbols).2, (unwind oldSize t.changes t.symbols).1, outer⟩

def lookup (t : SymbolTable D) (sym : String) : Option D := (t.symbols sym).currentDef

def isDefinedInCurrentScope (t : SymbolTable D) (sym : String) : Bool :=
  (t.symbols sym).currentScope = t.currentScope

/-! ## Undoing -/

/-- Restore the symbols of some changes, the last change first. -/
def undo : List (Change D) → (String → Symbol D) → String → Symbol D
  | [], symbols => symbols
  | c :: cs, symbols => undo cs (Function.update symbols c.sym c.prev)

theorem undo_append (cs ds : List (Change D)) (symbols : String → Symbol D) :
    undo (cs ++ ds) symbols = undo ds (undo cs symbols) := by
  induction cs generalizing symbols with
  | nil => rfl
  | cons c cs ih => exact ih _

theorem unwind_append (cs ds : List (Change D)) (symbols : String → Symbol D) :
    unwind ds.length (cs ++ ds) symbols = (ds, undo cs symbols) := by
  induction cs generalizing symbols with
  | nil =>
    cases ds with
    | nil => rfl
    | cons d ds =>
      show unwind (ds.length + 1) (d :: ds) symbols = _
      unfold unwind
      rw [if_neg (Nat.lt_irrefl _)]
      rfl
  | cons c cs ih =>
    show unwind ds.length (c :: (cs ++ ds)) symbols = _
    unfold unwind
    rw [if_pos (by rw [List.length_append]; omega)]
    exact ih _

/-- `t'` has the scopes of `t`, and its log says how to get back to `t`. -/
structure Extends (t t' : SymbolTable D) : Prop where
  scopes : t'.scopes = t.scopes
  changes : ∃ cs, t'.changes = cs ++ t.changes ∧ undo cs t'.symbols = t.symbols

namespace Extends

theorem refl (t : SymbolTable D) : Extends t t := ⟨rfl, [], rfl, rfl⟩

theorem trans {t t' t'' : SymbolTable D} (h : Extends t t') (h' : Extends t' t'') : Extends t t'' := by
  obtain ⟨cs, hcs, hundo⟩ := h.changes
  obtain ⟨ds, hds, hundo'⟩ := h'.changes
  refine ⟨h'.scopes.trans h.scopes, ds ++ cs, ?_, ?_⟩
  · rw [hds, hcs, List.append_assoc]
  · rw [undo_append, hundo', hundo]

theorem insert (t : SymbolTable D) (sym : String) (d : D) : Extends t (t.insert sym d) := by
  refine ⟨rfl, [⟨sym, t.symbols sym⟩], rfl, ?_⟩
  show Function.update (Function.update t.symbols sym _) sym (t.symbols sym) = t.symbols
  rw [Function.update_idem, Function.update_eq_self]

/-- A fold of insertions. -/
theorem foldl_insert {α : Type} (sym : α → String) (d : α → D) (l : List α) (t : SymbolTable D) :
    Extends t (l.foldl (fun t a => t.insert (sym a) (d a)) t) := by
  induction l generalizing t with
  | nil => exact refl t
  | cons a l ih => exact (insert t (sym a) (d a)).trans (ih _)

end Extends

theorem leaveScope_of_extends {t t' : SymbolTable D} (h : Extends t.enterScope t') : t'.leaveScope = some t := by
  obtain ⟨cs, hcs, hundo⟩ := h.changes
  have hcs' : t'.changes = cs ++ t.changes := hcs
  unfold leaveScope
  rw [h.scopes]
  show some (SymbolTable.mk (unwind t.changes.length t'.changes t'.symbols).2
    (unwind t.changes.length t'.changes t'.symbols).1 t.scopes) = some t
  rw [hcs', unwind_append, hundo]
  rfl

end SymbolTable

end Mjc.Sema

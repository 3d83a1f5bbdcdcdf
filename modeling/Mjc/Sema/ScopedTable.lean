import Mathlib.Algebra.Group.Int.Defs
import Mathlib.Algebra.Group.Nat.Defs
import Mjc.MapStack
import Mjc.Sema.SymbolTable

/-!
# The symbol table as a stack of maps

`symboltable.cpp` with the scopes at their addresses, which may be used again once a scope is freed.

* `ScopedTable`, `step`, `run` : the table and its calls;
* `scopeMaps` : what a sequence of calls means, a stack of maps from symbols to definitions;
* `Represents` : the symbols, the log and the sizes saved in the scopes say what the maps say;
* `refinesMaps_of_inRange` : calls refine the maps as long as every scope is entered with less than 2^31 changes in the
  log, which is what `Scope` can hold of its `int parentSize`.
-/

namespace Mjc.Sema

set_option autoImplicit false

/-- `Scope`, at its address. Its parent is the next open scope. -/
structure Scope where
  addr : Nat
  oldSize : Nat
  deriving Repr

/-- `oldSize(parentSize)`: the size of the log goes through the `int` of the constructor of `Scope`. -/
@[irreducible]
def savedSize (size : Nat) : Nat := ((size : Int).bmod (2 ^ 32) % 2 ^ 64).toNat

theorem savedSize_of_lt {size : Nat} (h : size < 2 ^ 31) : savedSize size = size := by
  unfold savedSize
  rw [Int.bmod_def]
  omega

/-- `SymbolTable`, with the open scopes, the innermost first. -/
structure ScopedTable (D : Type) where
  symbols : String → Symbol D
  changes : List (Change D)
  scopes : List Scope

namespace ScopedTable

variable {D : Type}

def empty : ScopedTable D := ⟨fun _ => ⟨none, none⟩, [], []⟩

/-- `currentScope.get()`. -/
def currentScope (t : ScopedTable D) : Option Nat := t.scopes.head?.map Scope.addr

/-- `insert`; the definition may be null. -/
def insert (t : ScopedTable D) (sym : String) (d : Option D) : ScopedTable D :=
  { t with
    symbols := Function.update t.symbols sym ⟨t.currentScope, d⟩
    changes := ⟨sym, t.symbols sym⟩ :: t.changes }

/-- `enterScope`, with the address that `new` returns. -/
def enterScope (t : ScopedTable D) (addr : Nat) : ScopedTable D :=
  { t with scopes := ⟨addr, savedSize t.changes.length⟩ :: t.scopes }

/-- `leaveScope`; without an open scope it dereferences a null pointer. -/
def leaveScope (t : ScopedTable D) : Option (ScopedTable D) :=
  match t.scopes with
  | [] => none
  | scope :: parents =>
    let (changes, symbols) := SymbolTable.unwind scope.oldSize t.changes t.symbols
    some ⟨symbols, changes, parents⟩

theorem leaveScope_cons (symbols : String → Symbol D) (changes : List (Change D)) (scope : Scope)
    (parents : List Scope) : leaveScope ⟨symbols, changes, scope :: parents⟩ =
      some ⟨(SymbolTable.unwind scope.oldSize changes symbols).2, (SymbolTable.unwind scope.oldSize changes symbols).1,
        parents⟩ :=
  rfl

def lookup (t : ScopedTable D) (sym : String) : Option D := (t.symbols sym).currentDef

def isDefinedInCurrentScope (t : ScopedTable D) (sym : String) : Bool :=
  (t.symbols sym).currentScope = t.currentScope

/-! ## Calls -/

inductive Op (D : Type) where
  | enterScope (addr : Nat)
  | insert (sym : String) (d : Option D)
  | leaveScope

def step (t : ScopedTable D) : Op D → Option (ScopedTable D)
  | .enterScope addr => some (t.enterScope addr)
  | .insert sym d => some (t.insert sym d)
  | .leaveScope => t.leaveScope

def run (t : ScopedTable D) : List (Op D) → Option (ScopedTable D)
  | [] => some t
  | op :: ops => (t.step op).bind fun t => run t ops

theorem run_enterScope (t : ScopedTable D) (addr : Nat) (ops : List (Op D)) :
    t.run (.enterScope addr :: ops) = (t.enterScope addr).run ops :=
  rfl

theorem run_insert (t : ScopedTable D) (sym : String) (d : Option D) (ops : List (Op D)) :
    t.run (.insert sym d :: ops) = (t.insert sym d).run ops :=
  rfl

theorem run_leaveScope (t : ScopedTable D) : t.run [.leaveScope] = t.leaveScope := Option.bind_fun_some _

theorem run_append (t : ScopedTable D) (ops ops' : List (Op D)) :
    t.run (ops ++ ops') = (t.run ops).bind fun t => t.run ops' := by
  induction ops generalizing t with
  | nil => rfl
  | cons op ops ih =>
    show (t.step op).bind _ = ((t.step op).bind _).bind _
    cases t.step op with
    | none => rfl
    | some t' => exact ih t'

/-- Calls that may be made while the scopes at these addresses are open: a new scope is not put where an open one is,
insertions are made in an open scope, and only open scopes are left. -/
def Allowed : List Nat → List (Op D) → Prop
  | _, [] => True
  | addrs, .enterScope addr :: ops => addr ∉ addrs ∧ Allowed (addr :: addrs) ops
  | addrs, .insert _ _ :: ops => addrs ≠ [] ∧ Allowed addrs ops
  | addrs, .leaveScope :: ops => addrs ≠ [] ∧ Allowed addrs.tail ops

/-- What a call means for the maps. -/
def Op.mapOp : Op D → MapStack.Op String (Option D)
  | .enterScope _ => .enter
  | .insert sym d => .insert sym d
  | .leaveScope => .leave

/-- The maps after some calls: for each open scope the definitions inserted in it, the last one for each symbol. -/
def scopeMaps (ops : List (Op D)) : MapStack String (Option D) := MapStack.applyAll [] (ops.map Op.mapOp)

/-- The calls are a stack of maps: lookups see the last insertion in the innermost scope that has one, a symbol is
defined in the current scope if it was inserted there, leaving a scope gives back what was seen before it was entered,
and no symbol points to a scope that is not open. -/
structure RefinesMaps (ops : List (Op D)) (t : ScopedTable D) : Prop where
  lookup : ∀ sym, t.lookup sym = (MapStack.lookup (scopeMaps ops) sym).join
  isDefined : ∀ m outer, scopeMaps ops = m :: outer → ∀ sym, t.isDefinedInCurrentScope sym = (m sym).isSome
  restores : ∀ ops₀ addr inner, ops = ops₀ ++ .enterScope addr :: inner ++ [.leaveScope] →
    MapStack.inside 0 (inner.map Op.mapOp) = true → ∃ t₀, empty.run ops₀ = some t₀ ∧
      ∀ sym, t.lookup sym = t₀.lookup sym ∧ t.isDefinedInCurrentScope sym = t₀.isDefinedInCurrentScope sym
  no_dangling : ∀ sym addr, (t.symbols sym).currentScope = some addr → addr ∈ t.scopes.map Scope.addr

/-- Every scope is entered with less than 2^31 changes in the log. -/
def InRange (t : ScopedTable D) (ops : List (Op D)) : Prop :=
  ∀ ops₀ addr ops₁ t', ops = ops₀ ++ .enterScope addr :: ops₁ → t.run ops₀ = some t' → t'.changes.length < 2 ^ 31

/-! ## What the table represents -/

/-- The symbols that maps in scopes at these addresses give. -/
def symbolsOf : List Nat → MapStack String (Option D) → String → Symbol D
  | addr :: addrs, m :: maps, sym =>
    match m sym with
    | some d => ⟨some addr, d⟩
    | none => symbolsOf addrs maps sym
  | _, _, _ => ⟨none, none⟩

theorem symbolsOf_currentDef (addrs : List Nat) (maps : MapStack String (Option D)) (sym : String)
    (h : addrs.length = maps.length) :
    (symbolsOf addrs maps sym).currentDef = (MapStack.lookup maps sym).join := by
  induction maps generalizing addrs with
  | nil =>
    rw [List.length_eq_zero_iff.mp h]
    rfl
  | cons m maps ih =>
    obtain ⟨addr, addrs, rfl⟩ := List.exists_of_length_succ addrs h
    unfold symbolsOf
    rw [MapStack.lookup_cons]
    cases m sym with
    | some d => rfl
    | none => exact ih addrs (Nat.succ.inj h)

theorem symbolsOf_currentScope {addrs : List Nat} {maps : MapStack String (Option D)} {sym : String} {addr : Nat}
    (h : (symbolsOf addrs maps sym).currentScope = some addr) : addr ∈ addrs := by
  induction addrs generalizing maps with
  | nil => cases h
  | cons addr' addrs ih =>
    cases maps with
    | nil => cases h
    | cons m maps =>
      unfold symbolsOf at h
      cases hm : m sym with
      | some d =>
        rw [hm] at h
        exact List.mem_cons.mpr (Or.inl (Option.some.inj h).symm)
      | none =>
        rw [hm] at h
        exact List.mem_cons_of_mem _ (ih h)

theorem symbolsOf_insert (addr : Nat) (addrs : List Nat) (m : String → Option (Option D))
    (maps : MapStack String (Option D)) (sym : String) (d : Option D) :
    symbolsOf (addr :: addrs) (Function.update m sym (some d) :: maps) =
      Function.update (symbolsOf (addr :: addrs) (m :: maps)) sym ⟨some addr, d⟩ := by
  funext sym'
  by_cases h : sym' = sym
  · subst h
    rw [Function.update_self]
    unfold symbolsOf
    rw [Function.update_self]
  · rw [Function.update_of_ne h]
    unfold symbolsOf
    rw [Function.update_of_ne h]

/-- The log and the sizes of the scopes: what lies above the size saved in a scope leads back to the maps below it. -/
inductive Undoes : List Scope → MapStack String (Option D) → List (Change D) → Prop
  | nil : Undoes [] [] []
  | scope {addr oldSize : Nat} {scopes : List Scope} {m : String → Option (Option D)}
      {maps : MapStack String (Option D)} {above below : List (Change D)} (hsize : oldSize = below.length)
      (hundo : SymbolTable.undo above (symbolsOf (addr :: scopes.map Scope.addr) (m :: maps)) =
        symbolsOf (scopes.map Scope.addr) maps)
      (hbelow : Undoes scopes maps below) : Undoes (⟨addr, oldSize⟩ :: scopes) (m :: maps) (above ++ below)

theorem Undoes.length {scopes : List Scope} {maps : MapStack String (Option D)} {changes : List (Change D)}
    (h : Undoes scopes maps changes) : scopes.length = maps.length := by
  induction h with
  | nil => rfl
  | scope _ _ _ ih => exact congrArg (· + 1) ih

/-- The table holds these maps. -/
structure Represents (t : ScopedTable D) (maps : MapStack String (Option D)) : Prop where
  symbols : t.symbols = symbolsOf (t.scopes.map Scope.addr) maps
  undoes : Undoes t.scopes maps t.changes
  nodup : (t.scopes.map Scope.addr).Nodup

namespace Represents

variable {t : ScopedTable D} {maps : MapStack String (Option D)}

theorem empty : Represents (D := D) ScopedTable.empty [] := ⟨rfl, .nil, List.nodup_nil⟩

theorem enterScope (h : Represents t maps) {addr : Nat} (haddr : addr ∉ t.scopes.map Scope.addr)
    (hrange : t.changes.length < 2 ^ 31) : Represents (t.enterScope addr) maps.enter := by
  have hsymbols : symbolsOf (addr :: t.scopes.map Scope.addr) maps.enter = symbolsOf (t.scopes.map Scope.addr) maps :=
    rfl
  have hsize : savedSize t.changes.length = t.changes.length := savedSize_of_lt hrange
  refine ⟨h.symbols, ?_, List.nodup_cons.mpr ⟨haddr, h.nodup⟩⟩
  show Undoes (⟨addr, savedSize t.changes.length⟩ :: t.scopes) ((fun _ => none) :: maps) ([] ++ t.changes)
  exact .scope hsize hsymbols h.undoes

theorem insert (h : Represents t maps) (hopen : t.scopes ≠ []) (sym : String) (d : Option D) :
    Represents (t.insert sym d) (MapStack.insert maps sym d) := by
  obtain ⟨symbols, changes, scopes⟩ := t
  obtain ⟨hsymbols, hundoes, hnodup⟩ := h
  cases hundoes with
  | nil => exact absurd rfl hopen
  | @scope addr oldSize scopes m maps above below hsize hundo hbelow =>
    have hsymbols : symbols = symbolsOf (addr :: scopes.map Scope.addr) (m :: maps) := hsymbols
    refine ⟨?_, ?_, hnodup⟩
    · show Function.update symbols sym _ = _
      rw [hsymbols]
      exact (symbolsOf_insert _ _ _ _ _ _).symm
    · show Undoes _ _ ((⟨sym, symbols sym⟩ :: above) ++ below)
      refine .scope hsize ?_ hbelow
      -- the new change is undone first
      show SymbolTable.undo above (Function.update (symbolsOf (addr :: scopes.map Scope.addr)
        (Function.update m sym (some d) :: maps)) sym (symbols sym)) = _
      rw [symbolsOf_insert, Function.update_idem, hsymbols, Function.update_eq_self]
      exact hundo

theorem leaveScope (h : Represents t maps) (hopen : t.scopes ≠ []) :
    ∃ t', t.leaveScope = some t' ∧ Represents t' (MapStack.leave maps) ∧ t'.scopes = t.scopes.tail := by
  obtain ⟨symbols, changes, scopes⟩ := t
  obtain ⟨hsymbols, hundoes, hnodup⟩ := h
  cases hundoes with
  | nil => exact absurd rfl hopen
  | @scope addr oldSize scopes m maps above below hsize hundo hbelow =>
    have hunwind : SymbolTable.unwind oldSize (above ++ below) symbols =
        (below, symbolsOf (scopes.map Scope.addr) maps) := by
      rw [hsize, SymbolTable.unwind_append, ← hundo]
      exact congrArg (fun symbols => (below, SymbolTable.undo above symbols)) hsymbols
    refine ⟨⟨symbolsOf (scopes.map Scope.addr) maps, below, scopes⟩, ?_, ?_, rfl⟩
    · exact (leaveScope_cons symbols (above ++ below) ⟨addr, oldSize⟩ scopes).trans (by rw [hunwind])
    · exact ⟨rfl, hbelow, (List.nodup_cons.mp hnodup).2⟩

theorem lookup (h : Represents t maps) (sym : String) : t.lookup sym = (MapStack.lookup maps sym).join := by
  unfold ScopedTable.lookup
  rw [h.symbols]
  exact symbolsOf_currentDef _ _ _ (by rw [List.length_map, h.undoes.length])

theorem isDefinedInCurrentScope {m : String → Option (Option D)} {outer : MapStack String (Option D)}
    (h : Represents t (m :: outer)) (sym : String) : t.isDefinedInCurrentScope sym = (m sym).isSome := by
  obtain ⟨symbols, changes, scopes⟩ := t
  obtain ⟨hsymbols, hundoes, hnodup⟩ := h
  cases hundoes with
  | @scope addr _ scopes _ _ _ _ _ _ _ =>
    have hsymbols : symbols = symbolsOf (addr :: scopes.map Scope.addr) (m :: outer) := hsymbols
    have hfresh : addr ∉ scopes.map Scope.addr := (List.nodup_cons.mp hnodup).1
    show decide ((symbols sym).currentScope = some addr) = _
    rw [hsymbols]
    unfold symbolsOf
    cases m sym with
    | some d => exact decide_eq_true rfl
    | none => exact decide_eq_false fun hscope => hfresh (symbolsOf_currentScope hscope)

theorem step (h : Represents t maps) {op : Op D} (hallowed : Allowed (t.scopes.map Scope.addr) [op])
    (hrange : InRange t [op]) : ∃ t', t.step op = some t' ∧ Represents t' (MapStack.apply maps op.mapOp) := by
  cases op with
  | enterScope addr => exact ⟨_, rfl, h.enterScope hallowed.1 (hrange [] addr [] t rfl rfl)⟩
  | insert sym d => exact ⟨_, rfl, h.insert (fun hnil => hallowed.1 (congrArg (List.map Scope.addr) hnil)) sym d⟩
  | leaveScope =>
    obtain ⟨t', ht', hrep, _⟩ := h.leaveScope fun hnil => hallowed.1 (congrArg (List.map Scope.addr) hnil)
    exact ⟨t', ht', hrep⟩

end Represents

/-! ## Runs -/

/-- What may be called after a call. -/
theorem Allowed.tail {t t' : ScopedTable D} {op : Op D} {ops : List (Op D)} (h : t.step op = some t')
    (hallowed : Allowed (t.scopes.map Scope.addr) (op :: ops)) :
    Allowed (t'.scopes.map Scope.addr) ops := by
  cases op with
  | enterScope addr =>
    cases h
    exact hallowed.2
  | insert sym d =>
    cases h
    exact hallowed.2
  | leaveScope =>
    obtain ⟨symbols, changes, scopes⟩ := t
    cases scopes with
    | nil => cases h
    | cons scope scopes =>
      cases h
      exact hallowed.2

theorem Allowed.left {addrs : List Nat} {ops ops' : List (Op D)} (h : Allowed addrs (ops ++ ops')) :
    Allowed addrs ops := by
  induction ops generalizing addrs with
  | nil => trivial
  | cons op ops ih => cases op <;> exact ⟨h.1, ih h.2⟩

theorem InRange.left {t : ScopedTable D} {ops ops' : List (Op D)} (h : InRange t (ops ++ ops')) : InRange t ops := by
  intro ops₀ addr ops₁ t' hops hrun
  refine h ops₀ addr (ops₁ ++ ops') t' ?_ hrun
  rw [hops, List.append_assoc, List.cons_append]

theorem InRange.tail {t t' : ScopedTable D} {op : Op D} {ops : List (Op D)} (h : InRange t (op :: ops))
    (hstep : t.step op = some t') : InRange t' ops := by
  intro ops₀ addr ops₁ t₁ hops hrun
  refine h (op :: ops₀) addr ops₁ t₁ (congrArg (op :: ·) hops) ?_
  show (t.step op).bind _ = some t₁
  rw [hstep]
  exact hrun

theorem run_represents {t : ScopedTable D} {maps : MapStack String (Option D)} {ops : List (Op D)}
    (h : Represents t maps) (hallowed : Allowed (t.scopes.map Scope.addr) ops) (hrange : InRange t ops) :
    ∃ t', t.run ops = some t' ∧ Represents t' (MapStack.applyAll maps (ops.map Op.mapOp)) := by
  induction ops generalizing t maps with
  | nil => exact ⟨t, rfl, h⟩
  | cons op ops ih =>
    have hop : Allowed (t.scopes.map Scope.addr) [op] := @Allowed.left _ _ [op] ops hallowed
    have hopRange : InRange t [op] := @InRange.left _ _ [op] ops hrange
    obtain ⟨t₁, hstep, hrep⟩ := h.step hop hopRange
    obtain ⟨t', hrun, hrep'⟩ := ih hrep (Allowed.tail hstep hallowed) (hrange.tail hstep)
    refine ⟨t', ?_, hrep'⟩
    show (t.step op).bind _ = some t'
    rw [hstep]
    exact hrun

/-- Calls inside some scopes change nothing about the scopes below. -/
theorem run_inside {t t' : ScopedTable D} {ops : List (Op D)} (upper : List Scope) {scopes : List Scope}
    (hscopes : t.scopes = upper ++ scopes) (hinside : MapStack.inside upper.length (ops.map Op.mapOp) = true)
    (hrun : t.run ops = some t') : t'.scopes = scopes := by
  induction ops generalizing t upper with
  | nil =>
    have hupper : upper = [] := List.length_eq_zero_iff.mp (of_decide_eq_true hinside)
    cases hrun
    rw [hscopes, hupper]
    rfl
  | cons op ops ih =>
    obtain ⟨t₁, hstep, hrun⟩ := Option.bind_eq_some_iff.mp hrun
    cases op with
    | enterScope addr =>
      obtain rfl := Option.some.inj hstep
      exact ih (⟨addr, savedSize t.changes.length⟩ :: upper) (congrArg (_ :: ·) hscopes) hinside hrun
    | insert sym d =>
      obtain rfl := Option.some.inj hstep
      exact ih (t := t.insert sym d) upper hscopes hinside hrun
    | leaveScope =>
      cases upper with
      | nil => exact absurd hinside Bool.false_ne_true
      | cons scope upper =>
        obtain ⟨symbols, changes, _⟩ := t
        subst hscopes
        cases hstep
        exact ih upper rfl hinside hrun

theorem refinesMaps_of_inRange (ops : List (Op D)) (hallowed : Allowed [] ops) (hrange : InRange empty ops) :
    ∃ t, empty.run ops = some t ∧ RefinesMaps ops t := by
  obtain ⟨t, hrun, hrep⟩ := run_represents Represents.empty hallowed hrange
  refine ⟨t, hrun, hrep.lookup, ?_, ?_, ?_⟩
  · intro m outer hmaps
    have hrep : Represents t (scopeMaps ops) := hrep
    rw [hmaps] at hrep
    exact hrep.isDefinedInCurrentScope
  · intro ops₀ addr inner hops hinside
    subst hops
    rw [List.append_assoc] at hallowed hrange hrun hrep
    obtain ⟨t₀, hrun₀, hrep₀⟩ := run_represents Represents.empty hallowed.left hrange.left
    refine ⟨t₀, hrun₀, ?_⟩
    -- the maps and the scopes are those of the moment before the scope was entered
    have hmaps : MapStack.applyAll [] ((ops₀ ++ (Op.enterScope addr :: inner ++ [Op.leaveScope])).map Op.mapOp) =
        scopeMaps ops₀ := by
      rw [List.map_append, List.map_append]
      unfold MapStack.applyAll
      rw [List.foldl_append]
      exact MapStack.applyAll_bracket _ _ hinside
    have hscopes : t.scopes = t₀.scopes := by
      have hrun : (t₀.enterScope addr).run (inner ++ [.leaveScope]) = some t := by
        rw [run_append, hrun₀] at hrun
        exact hrun
      rw [run_append] at hrun
      obtain ⟨t₁, hrun₁, hleave⟩ := Option.bind_eq_some_iff.mp hrun
      rw [run_leaveScope] at hleave
      have hinner : t₁.scopes = ⟨addr, savedSize t₀.changes.length⟩ :: t₀.scopes :=
        run_inside [] rfl hinside hrun₁
      obtain ⟨symbols, changes, _⟩ := t₁
      subst hinner
      cases hleave
      rfl
    rw [hmaps] at hrep
    have hsymbols : t.symbols = t₀.symbols := by rw [hrep.symbols, hrep₀.symbols, hscopes]; rfl
    intro sym
    unfold ScopedTable.lookup ScopedTable.isDefinedInCurrentScope ScopedTable.currentScope
    rw [hsymbols, hscopes]
    exact ⟨rfl, rfl⟩
  · intro sym addr hscope
    rw [hrep.symbols] at hscope
    exact symbolsOf_currentScope hscope

/-! ## The size of the log -/

theorem unwind_length_le (oldSize : Nat) (changes : List (Change D)) (symbols : String → Symbol D) :
    (SymbolTable.unwind oldSize changes symbols).1.length ≤ changes.length := by
  induction changes generalizing symbols with
  | nil => exact Nat.le_refl _
  | cons c cs ih =>
    unfold SymbolTable.unwind
    split
    · exact Nat.le_succ_of_le (ih _)
    · exact Nat.le_refl _

theorem unwind_of_le {oldSize : Nat} {changes : List (Change D)} (h : changes.length ≤ oldSize)
    (symbols : String → Symbol D) : SymbolTable.unwind oldSize changes symbols = (changes, symbols) := by
  cases changes with
  | nil => rfl
  | cons c cs =>
    unfold SymbolTable.unwind
    exact if_neg (Nat.not_lt.mpr h)

theorem leaveScope_of_le {t : ScopedTable D} {addr oldSize : Nat} {parents : List Scope}
    (hscopes : t.scopes = ⟨addr, oldSize⟩ :: parents) (h : t.changes.length ≤ oldSize) :
    t.leaveScope = some { t with scopes := parents } := by
  obtain ⟨symbols, changes, _⟩ := t
  subst hscopes
  rw [leaveScope_cons, unwind_of_le h]

theorem run_changes_length {t t' : ScopedTable D} {ops : List (Op D)} (h : t.run ops = some t') :
    t'.changes.length ≤ t.changes.length + ops.length := by
  induction ops generalizing t with
  | nil =>
    obtain rfl := Option.some.inj h
    exact Nat.le_refl _
  | cons op ops ih =>
    obtain ⟨t₁, hstep, hrun⟩ := Option.bind_eq_some_iff.mp h
    have hlength : t₁.changes.length ≤ t.changes.length + 1 := by
      cases op with
      | enterScope addr =>
        obtain rfl := Option.some.inj hstep
        exact Nat.le_succ _
      | insert sym d =>
        obtain rfl := Option.some.inj hstep
        exact Nat.le_refl _
      | leaveScope =>
        obtain ⟨symbols, changes, scopes⟩ := t
        cases scopes with
        | nil => cases hstep
        | cons scope scopes =>
          obtain rfl := Option.some.inj hstep
          exact Nat.le_succ_of_le (unwind_length_le _ _ _)
    have := ih hrun
    rw [List.length_cons]
    omega

/-- Less than 2^31 calls cannot fill the log. -/
theorem inRange_of_length {ops : List (Op D)} (h : ops.length < 2 ^ 31) : InRange empty ops := by
  intro ops₀ addr ops₁ t hops hrun
  have hlength : t.changes.length ≤ 0 + ops₀.length := run_changes_length hrun
  rw [hops, List.length_append] at h
  omega

/-- A scope inside a scope, with a symbol defined in both. -/
theorem refinesMaps_nestedScopes :
    Allowed [] [.enterScope 0, .insert "a" (some 0), .enterScope 1, .insert "a" (some 1), .leaveScope] ∧
      ∃ t : ScopedTable Nat,
        empty.run [.enterScope 0, .insert "a" (some 0), .enterScope 1, .insert "a" (some 1), .leaveScope] = some t ∧
        RefinesMaps [.enterScope 0, .insert "a" (some 0), .enterScope 1, .insert "a" (some 1), .leaveScope] t := by
  have hallowed : Allowed [] [.enterScope 0, .insert "a" (some 0), .enterScope 1, .insert "a" (some 1), .leaveScope] := by
    simp [Allowed]
  exact ⟨hallowed, refinesMaps_of_inRange _ hallowed (inRange_of_length (by decide))⟩

theorem allowed_replicate_insert {addrs : List Nat} (hopen : addrs ≠ []) {ops : List (Op D)} (h : Allowed addrs ops)
    (n : Nat) (sym : String) (d : Option D) : Allowed addrs (List.replicate n (.insert sym d) ++ ops) := by
  induction n with
  | zero => exact h
  | succ n ih => exact ⟨hopen, ih⟩

theorem run_replicate_insert (t : ScopedTable D) (n : Nat) (sym : String) (d : Option D) :
    ∃ t', t.run (List.replicate n (.insert sym d)) = some t' ∧ t'.scopes = t.scopes ∧
      t'.changes.length = t.changes.length + n ∧ ∀ sym' ≠ sym, t'.lookup sym' = t.lookup sym' := by
  induction n generalizing t with
  | zero => exact ⟨t, rfl, rfl, rfl, fun _ _ => rfl⟩
  | succ n ih =>
    obtain ⟨t', hrun, hscopes, hlength, hlookup⟩ := ih (t.insert sym d)
    refine ⟨t', hrun, hscopes, ?_, ?_⟩
    · rw [hlength]
      show t.changes.length + 1 + n = _
      omega
    · intro sym' hne
      rw [hlookup sym' hne]
      show (Function.update t.symbols sym _ sym').currentDef = _
      rw [Function.update_of_ne hne]
      rfl

/-- A scope that is entered with `n` changes in the log. -/
def crowdedScope (n : Nat) : List (Op Nat) :=
  (.enterScope 0 :: List.replicate n (.insert "a" (some 0))) ++ .enterScope 1 :: [.insert "b" (some 1)] ++
    [.leaveScope]

theorem allowed_crowdedScope (n : Nat) : Allowed [] (crowdedScope n) := by
  unfold crowdedScope
  rw [List.append_assoc, List.cons_append]
  exact ⟨List.not_mem_nil, allowed_replicate_insert (by simp) (by simp [Allowed]) _ _ _⟩

/-- If the saved size is too large, the definition of the scope stays. -/
theorem not_refinesMaps_of_savedSize {n : Nat} (h : n < savedSize n) :
    ¬ ∃ t, empty.run (crowdedScope n) = some t ∧ RefinesMaps (crowdedScope n) t := by
  rintro ⟨t, hrun, hrefines⟩
  obtain ⟨t₀, hrun₀, hrestored⟩ := hrefines.restores _ _ _ rfl rfl
  obtain ⟨t₁, hrun₁, hscopes, hlength, hlookup⟩ :=
    run_replicate_insert (ScopedTable.enterScope (D := Nat) empty 0) n "a" (some 0)
  have ht : t₀ = t₁ := by
    rw [run_enterScope, hrun₁] at hrun₀
    exact (Option.some.inj hrun₀).symm
  subst ht
  have hlength : t₀.changes.length = n := hlength.trans (Nat.zero_add n)
  have hleave : ((t₀.enterScope 1).insert "b" (some 1)).leaveScope = some t := by
    unfold crowdedScope at hrun
    rw [List.append_assoc, run_append, hrun₀, Option.bind_some, List.cons_append, run_enterScope, List.singleton_append,
      run_insert, run_leaveScope] at hrun
    exact hrun
  have hkept : t.symbols = ((t₀.enterScope 1).insert "b" (some 1)).symbols := by
    have hle : ((t₀.enterScope 1).insert "b" (some 1)).changes.length ≤ savedSize t₀.changes.length := by
      rw [hlength]
      show t₀.changes.length + 1 ≤ savedSize n
      omega
    rw [leaveScope_of_le rfl hle] at hleave
    rw [← Option.some.inj hleave]
  have hb : t.lookup "b" = some 1 := by
    unfold ScopedTable.lookup
    rw [hkept]
    exact congrArg Symbol.currentDef (Function.update_self "b" (⟨some 1, some 1⟩ : Symbol Nat) t₀.symbols)
  have hb₀ : t₀.lookup "b" = none := hlookup "b" (by decide)
  have := (hrestored "b").1
  rw [hb, hb₀] at this
  cases this

/-- With 2^31 changes in the log the `int` is negative, and nothing of the scope is undone. -/
theorem not_refinesMaps_crowdedScope : Allowed [] (crowdedScope (2 ^ 31)) ∧
    ¬ ∃ t, empty.run (crowdedScope (2 ^ 31)) = some t ∧ RefinesMaps (crowdedScope (2 ^ 31)) t := by
  refine ⟨allowed_crowdedScope _, not_refinesMaps_of_savedSize ?_⟩
  unfold savedSize
  decide

end ScopedTable

/-! ## Depths as addresses

The table of semantic analysis tells scopes apart by their depth. It is the table here with every scope at its depth. -/

namespace SymbolTable

variable {D : Type}

def depthScopes : List Nat → List Scope
  | [] => []
  | oldSize :: outer => ⟨outer.length, oldSize⟩ :: depthScopes outer

def atDepths (t : SymbolTable D) : ScopedTable D := ⟨t.symbols, t.changes, depthScopes t.scopes⟩

theorem currentScope_atDepths (t : SymbolTable D) : t.atDepths.currentScope = t.currentScope := by
  obtain ⟨symbols, changes, scopes⟩ := t
  cases scopes <;> rfl

theorem insert_atDepths (t : SymbolTable D) (sym : String) (d : D) :
    t.atDepths.insert sym (some d) = (t.insert sym d).atDepths := by
  unfold ScopedTable.insert
  rw [currentScope_atDepths]
  rfl

theorem enterScope_atDepths (t : SymbolTable D) (h : t.changes.length < 2 ^ 31) :
    t.atDepths.enterScope t.scopes.length = t.enterScope.atDepths := by
  have hsize : savedSize t.atDepths.changes.length = t.changes.length := savedSize_of_lt h
  unfold ScopedTable.enterScope
  rw [hsize]
  rfl

theorem leaveScope_atDepths (t : SymbolTable D) : t.atDepths.leaveScope = t.leaveScope.map atDepths := by
  obtain ⟨symbols, changes, scopes⟩ := t
  cases scopes <;> rfl

theorem isDefinedInCurrentScope_atDepths (t : SymbolTable D) (sym : String) :
    t.atDepths.isDefinedInCurrentScope sym = t.isDefinedInCurrentScope sym := by
  unfold ScopedTable.isDefinedInCurrentScope SymbolTable.isDefinedInCurrentScope
  rw [currentScope_atDepths]
  rfl

end SymbolTable

end Mjc.Sema

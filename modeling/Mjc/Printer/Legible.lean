import Mjc.Parser.WellFormed
import Mjc.Printer.Pieces

/-!
# Printed texts are read back

* `spelled_nat` : a number is written as the lexer reads it;
* `exprPieces_legible`, `stmtPieces_legible`, `programPieces_legible` : no token of the printed text is continued by what
  is written after it;
* `print_tokenises` : the lexer reads the tokens of the printed text back.
-/

namespace Mjc.Printer
open Mjc.Ast Mjc.Lexer Mjc.Parser
open Mjc.Sema (sortByName sortByName_perm)

set_option autoImplicit false

/-! ## Numbers -/

theorem digit_of_isDigit {c : Char} (h : c.isDigit = true) : Digit (UInt8.ofNat c.toNat) := by
  have hc : 48 ≤ c.toNat ∧ c.toNat ≤ 57 := by
    unfold Char.isDigit at h
    rw [Bool.and_eq_true, decide_eq_true_eq, decide_eq_true_eq] at h
    exact ⟨UInt32.le_iff_toNat_le.mp h.1, UInt32.le_iff_toNat_le.mp h.2⟩
  unfold Digit
  rw [UInt8.le_iff_toNat_le, UInt8.le_iff_toNat_le, UInt8.toNat_ofNat']
  show 48 ≤ _ ∧ _ ≤ 57
  omega

/-- A positive number does not start with `0`. -/
theorem toDigits_head {n : Nat} (hn : 0 < n) : ∃ c cs, Nat.toDigits 10 n = c :: cs ∧ c ≠ '0' := by
  have hdigit : ∀ k < 10, 0 < k → k.digitChar ≠ '0' := by decide
  induction n using Nat.strong_induction_on with
  | _ n ih =>
    by_cases hlt : n < 10
    · exact ⟨n.digitChar, [], Nat.toDigits_of_lt_base hlt, hdigit n hlt hn⟩
    · obtain ⟨c, cs, hcs, hc⟩ := ih (n / 10) (by omega) (by omega)
      refine ⟨c, cs ++ [(n % 10).digitChar], ?_, hc⟩
      rw [Nat.toDigits_of_base_le (by decide) (by omega), hcs]
      rfl

theorem isDigit_ascii {c : Char} (h : c.isDigit = true) : c.toNat < 128 := by
  unfold Char.isDigit at h
  rw [Bool.and_eq_true, decide_eq_true_eq, decide_eq_true_eq] at h
  have := UInt32.le_iff_toNat_le.mp h.2
  exact lt_of_le_of_lt this (by decide)

theorem spelled_nat (n : Nat) : Spelled ⟨.IntLiteral, toString n⟩ := by
  have hstr : (toString n).toList = Nat.toDigits 10 n := Nat.toList_repr
  have hdigits : ∀ c ∈ Nat.toDigits 10 n, c.isDigit = true :=
    fun c hc => Nat.isDigit_of_mem_toDigits (by decide) (by decide) hc
  refine ⟨fun c hc => isDigit_ascii (hdigits c (hstr ▸ hc)), ?_⟩
  show Word (bytes (toString n).toList) .IntLiteral
  rw [hstr]
  by_cases hn : n = 0
  · subst hn
    exact .zero
  · obtain ⟨c, cs, hcs, hc⟩ := toDigits_head (Nat.pos_of_ne_zero hn)
    rw [hcs] at hdigits ⊢
    refine .integer (digit_of_isDigit (hdigits c List.mem_cons_self)) ?_ ?_
    · intro h0
      have htext : text (bytes [c]) = [c] :=
        text_bytes fun d hd => isDigit_ascii (hdigits d (by rw [List.mem_singleton.mp hd]; exact List.mem_cons_self))
      rw [show bytes [c] = [48] from congrArg (· :: []) h0] at htext
      exact hc (List.cons.inj htext).1.symm
    · intro b hb
      obtain ⟨d, hd, rfl⟩ := List.mem_map.mp hb
      exact digit_of_isDigit (hdigits d (List.mem_cons_of_mem _ hd))

/-! ## Gaps -/

theorem gap_space : Gap (bytes [' ']) := .blank (by decide) .nil

theorem gap_line (i : Nat) : Gap (bytes ('\n' :: List.replicate i '\t')) := by
  refine .of_blanks fun b hb => ?_
  obtain ⟨c, hc, rfl⟩ := List.mem_map.mp hb
  rcases List.mem_cons.mp hc with rfl | hc
  · decide
  · rw [List.eq_of_mem_replicate hc]; decide

theorem gap_comment {g : List Char} (u : List Char) (hg : g = '/' :: '*' :: u ++ ['*', '/'])
    (hascii : ((bytes u).all fun b => decide (b < 128)) = true) (hfirst : ¬ bytes ['*', '/'] <:+: bytes u) : Gap (bytes g) := by
  have hgap : Gap (bytes ['/', '*'] ++ bytes u ++ bytes ['*', '/'] ++ []) :=
    .comment ⟨fun b hb => of_decide_eq_true (List.all_eq_true.mp hascii b hb), hfirst⟩ .nil
  rw [List.append_nil, ← bytes_append, ← bytes_append] at hgap
  rw [hg]
  exact hgap

theorem gap_fields : Gap (bytes "/* fields: */".toList) :=
  gap_comment " fields: ".toList rfl (by decide) (by decide)

theorem gap_methods : Gap (bytes "/* methods: */".toList) :=
  gap_comment " methods: ".toList rfl (by decide) (by decide)

theorem gap_mainMethods : Gap (bytes "/* main methods: */".toList) :=
  gap_comment " main methods: ".toList rfl (by decide) (by decide)

/-! ## Types -/

section Legible

variable {ps : List Piece} {next : List Char}

/-- The keywords, operators and brackets that are written. -/
def fixedWords : List Token :=
  [⟨.LParen, "("⟩, ⟨.RParen, ")"⟩, ⟨.LBracket, "["⟩, ⟨.RBracket, "]"⟩, ⟨.LBrace, "\x7b"⟩, ⟨.RBrace, "\x7d"⟩,
    ⟨.Dot, "."⟩, ⟨.Comma, ","⟩, ⟨.Semicolon, ";"⟩, ⟨.Boolean, "boolean"⟩, ⟨.Int, "int"⟩, ⟨.Void, "void"⟩,
    ⟨.True, "true"⟩, ⟨.False, "false"⟩, ⟨.Null, "null"⟩, ⟨.This, "this"⟩, ⟨.New, "new"⟩, ⟨.If, "if"⟩,
    ⟨.Else, "else"⟩, ⟨.While, "while"⟩, ⟨.Return, "return"⟩, ⟨.Class, "class"⟩, ⟨.Public, "public"⟩,
    ⟨.Static, "static"⟩, ⟨.Identifier, "String"⟩, ⟨.Minus, "-"⟩, ⟨.Bang, "!"⟩, ⟨.Eq, "="⟩, ⟨.VBarVBar, "||"⟩,
    ⟨.AmpAmp, "&&"⟩, ⟨.EqEq, "=="⟩, ⟨.BangEq, "!="⟩, ⟨.Lt, "<"⟩, ⟨.LtEq, "<="⟩, ⟨.Gt, ">"⟩, ⟨.GtEq, ">="⟩,
    ⟨.Plus, "+"⟩, ⟨.Star, "*"⟩, ⟨.Slash, "/"⟩, ⟨.Percent, "%"⟩]

theorem spelled_fixed {t : Token} (h : t ∈ fixedWords) : Spelled t := by
  have hfixed : ∀ t ∈ fixedWords, isFixed t = true := by decide
  exact spelled_of_isFixed (hfixed t h)

theorem legible_word {type : TT} {str : String} (ht : ⟨type, str⟩ ∈ fixedWords) (hc : Closed (written ps ++ next))
    (h : Legible ps next) : Legible (sym type str :: ps) next :=
  .closed (spelled_fixed ht) hc h

theorem legible_punct {type : TT} {str : String} (ht : ⟨type, str⟩ ∈ fixedWords) (hp : isPunctuation str = true)
    (h : Legible ps next) : Legible (sym type str :: ps) next :=
  .punct (spelled_fixed ht) hp h

theorem legible_space (h : Legible ps next) : Legible (space :: ps) next := .gap gap_space h

theorem legible_line {i : Nat} (h : Legible ps next) : Legible (line i :: ps) next := .gap (gap_line i) h

theorem closed_space : Closed (written (space :: ps) ++ next) := closed_cons rfl

theorem closed_line {i : Nat} : Closed (written (line i :: ps) ++ next) := closed_cons rfl

theorem legible_name {x : String} (hx : IsIdent x) (hc : Closed (written ps ++ next)) (h : Legible ps next) :
    Legible (ident x :: ps) next :=
  .closed hx hc h

theorem legible_basic {type : BasicType} (ht : WfBasic type) (hc : Closed (written ps ++ next)) (h : Legible ps next) :
    Legible (basicPiece type :: ps) next := by
  rcases type with (_ | _ | _) | name
  · exact legible_word (by simp [fixedWords]) hc h
  · exact legible_word (by simp [fixedWords]) hc h
  · exact legible_word (by simp [fixedWords]) hc h
  · exact legible_name ht hc h

theorem brackets_legible (n : Nat) : Legible (brackets n) next := by
  induction n with
  | zero => exact .nil
  | succ n ih => exact legible_punct (by simp [fixedWords]) rfl (legible_punct (by simp [fixedWords]) rfl ih)

theorem closed_brackets (n : Nat) (h : Closed next) : Closed (written (brackets n) ++ next) := by
  cases n with
  | zero => exact h
  | succ n => exact closed_cons rfl

theorem typePieces_legible {type : Ty} (ht : WfTy type) (hc : Closed next) : Legible (typePieces type) next := by
  cases type with
  | basic type => exact legible_basic ht hc .nil
  | array elementType dimension =>
    exact legible_basic ht.1 (closed_brackets dimension hc) (brackets_legible dimension)

/-! ## Expressions -/

/-- The text of the pieces starts with a character that does not continue a prefix operator. -/
def Unsigned (ps : List Piece) : Prop := ∀ next, ∀ c ∈ (bytes (written ps ++ next)).head?, c ≠ 45 ∧ c ≠ 61

theorem Unsigned.append {qs : List Piece} (h : Unsigned ps) : Unsigned (ps ++ qs) := by
  intro next
  rw [written_append, List.append_assoc]
  exact h _

theorem unsigned_sym {type : TT} {str : String} (h : ∀ c ∈ (bytes str.toList).head?, c ≠ 45 ∧ c ≠ 61)
    (hne : str.toList ≠ []) : Unsigned (sym type str :: ps) := by
  intro next c hc
  cases hstr : str.toList with
  | nil => exact absurd hstr hne
  | cons d ds =>
    rw [hstr] at h
    rw [written_cons, sym, Piece.chars, hstr] at hc
    exact h c hc

theorem unsigned_of_head {type : TT} {str : String}
    (h : (bytes str.toList).head?.any (fun c => decide (c ≠ 45 ∧ c ≠ 61)) = true) : Unsigned (sym type str :: ps) := by
  refine unsigned_sym (fun c hc => ?_) fun hnil => ?_
  · rw [hc] at h
    exact of_decide_eq_true h
  · rw [hnil] at h
    cases h

theorem ident_letter {x : String} (hx : IsIdent x) : ∃ c cs, bytes x.toList = c :: cs ∧ Letter c := by
  have hop : ∀ o ∈ operators, o.2 ≠ Token.Type.Identifier := by decide
  have hw : Word (bytes x.toList) .Identifier := hx.word
  generalize hb : bytes x.toList = w at hw
  generalize ht : Token.Type.Identifier = t at hw
  cases hw with
  | identifier hc => exact ⟨_, _, rfl, hc⟩
  | zero => cases ht
  | integer => cases ht
  | operator h => exact absurd ht.symm (hop _ h)

theorem unsigned_ident {x : String} (hx : IsIdent x) : Unsigned (ident x :: ps) := by
  intro next c hc
  obtain ⟨d, ds, hd, hletter⟩ := ident_letter hx
  have hhead : bytes (written (ident x :: ps) ++ next) = d :: (ds ++ bytes (written ps ++ next)) := by
    rw [written_cons, List.append_assoc, bytes_append]
    show bytes x.toList ++ _ = _
    rw [hd]
    rfl
  rw [hhead] at hc
  obtain rfl : d = c := Option.some.inj hc
  constructor
  · rintro rfl; exact absurd hletter (by decide)
  · rintro rfl; exact absurd hletter (by decide)

/-- With the flag set, an expression starts neither with a sign nor with a digit. -/
theorem exprPieces_unsigned {e : Expr} (h : WfExpr e) : Unsigned (exprPieces true e) := by
  induction h with
  | intLiteral | binary | unary => rw [exprPieces]; exact unsigned_of_head (by decide)
  | boolLiteral value => cases value <;> exact unsigned_of_head (by decide)
  | nullLiteral | thisLiteral | newObject | newArray => exact unsigned_of_head (by decide)
  | varRef h => exact unsigned_ident h
  | fieldAccess _ _ ihl => rw [exprPieces]; exact ihl.append
  | methodInvocation _ _ _ ihl | arrayAccess _ _ ihl =>
    rw [exprPieces]
    simp only [List.append_assoc]
    exact ihl.append

/-- A digit does not continue a sign. -/
theorem unsigned_nat (n : Nat) : Unsigned (sym .IntLiteral (toString n) :: ps) := by
  have hstr : (toString n).toList = Nat.toDigits 10 n := Nat.toList_repr
  refine unsigned_sym (fun c hc => ?_) (by rw [hstr]; exact Nat.toDigits_ne_nil)
  obtain ⟨d, hd, rfl⟩ := List.mem_map.mp (List.mem_of_mem_head? hc)
  rw [hstr] at hd
  have hdigit := digit_of_isDigit (Nat.isDigit_of_mem_toDigits (by decide) (by decide) hd)
  constructor
  · intro h; rw [h] at hdigit; exact absurd hdigit (by decide)
  · intro h; rw [h] at hdigit; exact absurd hdigit (by decide)

theorem parens_legible {b : Bool} (h : ∀ next, Closed next → Legible ps next) (hc : Closed next) :
    Legible (parens b ps) next := by
  cases b with
  | false => exact h next hc
  | true =>
    refine legible_punct (by simp [fixedWords]) rfl (.append (h _ (closed_cons rfl)) ?_)
    exact legible_punct (by simp [fixedWords]) rfl .nil

theorem intPieces_legible (value : Int) (hc : Closed next) : Legible (intPieces value) next := by
  have hnat : Legible [sym .IntLiteral (toString value.natAbs)] next := .closed (spelled_nat _) hc .nil
  unfold intPieces
  by_cases hneg : value < 0
  · rw [if_pos hneg]
    exact .tok (spelled_fixed (by simp [fixedWords])) (apart_sign rfl (by decide) (unsigned_nat _ next)) hnat
  · rw [if_neg hneg]
    exact hnat

theorem opPieces_legible (op : BinaryOp) : Legible (opPieces op) next := by
  refine legible_space (legible_word ?_ closed_space (legible_space .nil))
  cases op <;> simp [fixedWords, opType, binaryOperationToString]

theorem unaryPiece_legible (op : UnaryOp) (hu : Unsigned ps) (h : Legible ps next) :
    Legible (unaryPiece op :: ps) next := by
  cases op with
  | neg => exact .tok (spelled_fixed (by simp [fixedWords])) (apart_sign rfl (by decide) (hu next)) h
  | not => exact .tok (spelled_fixed (by simp [fixedWords])) (apart_sign rfl (by decide) (hu next)) h

theorem moreArgPieces_legible {l : List Expr}
    (h : ∀ e ∈ l, ∀ b next, Closed next → Legible (exprPieces b e) next) (b : Bool) (hc : Closed next) :
    Legible (moreArgPieces b l) next ∧ Closed (written (moreArgPieces b l) ++ next) := by
  induction l generalizing b with
  | nil => rw [moreArgPieces]; exact ⟨.nil, hc⟩
  | cons e l ih =>
    rw [moreArgPieces]
    obtain ⟨hmore, hclosed⟩ := ih (fun e he => h e (List.mem_cons_of_mem _ he)) (after e)
    refine ⟨legible_punct (by simp [fixedWords]) rfl (legible_space (.append ?_ hmore)), closed_cons rfl⟩
    exact h e List.mem_cons_self b _ hclosed

theorem argPieces_legible {l : List Expr} (h : ∀ e ∈ l, ∀ b next, Closed next → Legible (exprPieces b e) next)
    (b : Bool) (hc : Closed next) : Legible (argPieces b l) next := by
  cases l with
  | nil => rw [argPieces]; exact .nil
  | cons e l =>
    rw [argPieces]
    obtain ⟨hmore, hclosed⟩ := moreArgPieces_legible (fun e he => h e (List.mem_cons_of_mem _ he)) (after e) hc
    exact .append (h e List.mem_cons_self b _ hclosed) hmore

/-- No token of an expression is continued by what stands after it. -/
theorem exprPieces_legible {e : Expr} (h : WfExpr e) (b : Bool) (next : List Char) (hc : Closed next) :
    Legible (exprPieces b e) next := by
  induction h generalizing b next with
  | intLiteral =>
    rw [exprPieces]
    exact parens_legible (fun next hc => intPieces_legible _ hc) hc
  | boolLiteral value =>
    rw [exprPieces]
    cases value <;> exact legible_word (by simp [fixedWords]) hc .nil
  | nullLiteral | thisLiteral => rw [exprPieces]; exact legible_word (by simp [fixedWords]) hc .nil
  | varRef hx => rw [exprPieces]; exact legible_name hx hc .nil
  | methodInvocation _ hn _ ihl iha =>
    rw [exprPieces]
    refine .append (.append (.append (ihl b _ (closed_cons rfl)) ?_) ?_) (legible_punct (by simp [fixedWords]) rfl .nil)
    · exact legible_punct (by simp [fixedWords]) rfl (legible_name hn (closed_cons rfl) (legible_punct (by simp [fixedWords]) rfl .nil))
    · exact argPieces_legible iha _ (closed_cons rfl)
  | fieldAccess _ hn ihl =>
    rw [exprPieces]
    exact .append (ihl b _ (closed_cons rfl)) (legible_punct (by simp [fixedWords]) rfl (legible_name hn hc .nil))
  | arrayAccess _ _ iha ihi =>
    rw [exprPieces]
    refine .append (.append (.append (iha b _ (closed_cons rfl)) ?_) (ihi _ _ (closed_cons rfl))) ?_
    · exact legible_punct (by simp [fixedWords]) rfl .nil
    · exact legible_punct (by simp [fixedWords]) rfl .nil
  | newObject hx =>
    rw [exprPieces]
    refine legible_word (by simp [fixedWords]) closed_space (legible_space (legible_name hx (closed_cons rfl) ?_))
    exact legible_punct (by simp [fixedWords]) rfl (legible_punct (by simp [fixedWords]) rfl .nil)
  | newArray ht _ _ ih =>
    rw [exprPieces]
    refine .append (.append (.append ?_ (ih _ _ (closed_cons rfl))) (legible_punct (by simp [fixedWords]) rfl .nil))
      (brackets_legible _)
    refine legible_word (by simp [fixedWords]) closed_space (legible_space (legible_basic ht (closed_cons rfl) ?_))
    exact legible_punct (by simp [fixedWords]) rfl .nil
  | binary _ _ ihl ihr =>
    rw [exprPieces]
    refine parens_legible (fun next hc => .append (.append (ihl _ _ ?_) (opPieces_legible _)) (ihr _ _ hc)) hc
    exact closed_space
  | unary he ih =>
    rw [exprPieces]
    exact parens_legible (fun next hc => unaryPiece_legible _ (exprPieces_unsigned he) (ih _ _ hc)) hc

/-! ## Statements -/

theorem semicolon_legible : Legible [sym .Semicolon ";"] next := legible_punct (by simp [fixedWords]) rfl .nil

theorem emptyBraces_legible : Legible emptyBraces next :=
  legible_punct (by simp [fixedWords]) rfl (legible_space (legible_punct (by simp [fixedWords]) rfl .nil))

theorem braces_legible {i : Nat} (h : ∀ next, Closed next → Legible ps next) : Legible (braces i ps) next := by
  refine legible_punct (by simp [fixedWords]) rfl (.append (h _ closed_line) ?_)
  exact legible_line (legible_punct (by simp [fixedWords]) rfl .nil)

theorem initPieces_legible {o : Option Expr} (h : ∀ e ∈ o, WfExpr e) (b : Bool) (hc : Closed next) :
    Legible (initPieces b o) next := by
  cases o with
  | none => exact .nil
  | some e => exact .append (opPieces_legible _) (exprPieces_legible (h e rfl) b next hc)

theorem closed_initPieces {o : Option Expr} (b : Bool) (hc : Closed next) : Closed (written (initPieces b o) ++ next) := by
  cases o with
  | none => exact hc
  | some e => exact closed_space

theorem returnPieces_legible {o : Option Expr} (h : ∀ e ∈ o, WfExpr e) (b : Bool) (hc : Closed next) :
    Legible (sym .Return "return" :: returnPieces b o) next := by
  cases o with
  | none => exact legible_word (by simp [fixedWords]) hc .nil
  | some e => exact legible_word (by simp [fixedWords]) closed_space (legible_space (exprPieces_legible (h e rfl) b next hc))

/-- The pieces of the statement are legible wherever they stand. -/
def LegibleStmt (s : Stmt) : Prop := ∀ i b next, Legible (stmtPieces i b s) next

theorem stmtsPieces_legible {l : List Stmt} (h : ∀ s ∈ l, LegibleStmt s) (i : Nat) (b : Bool) :
    Legible (stmtsPieces i b l) next := by
  induction l generalizing b with
  | nil => rw [stmtsPieces]; exact .nil
  | cons s l ih =>
    rw [stmtsPieces]
    exact legible_line (.append (h s List.mem_cons_self _ _ _) (ih (fun s hs => h s (List.mem_cons_of_mem _ hs)) _))

theorem bodyPieces_legible {o : Option Stmt} (h : ∀ s ∈ o, LegibleStmt s) (i : Nat) (b : Bool) :
    Legible (bodyPieces i b o) next := by
  cases o with
  | none => rw [bodyPieces]; exact emptyBraces_legible
  | some s =>
    have hs := h s rfl
    cases s with
    | block statements lonely => rw [bodyPieces]; exact hs i b next
    | _ =>
      simp only [bodyPieces]
      exact braces_legible fun next _ => legible_line (hs _ _ next)

theorem elsePieces_legible {o : Option Stmt} (h : ∀ s ∈ o, LegibleStmt s) (i : Nat) (b : Bool) :
    Legible (elsePieces i b o) next := by
  have helse {ps : List Piece} (hps : Legible ps next) : Legible (line i :: sym .Else "else" :: space :: ps) next :=
    legible_line (legible_word (by simp [fixedWords]) closed_space (legible_space hps))
  cases o with
  | none => rw [elsePieces]; exact .nil
  | some s =>
    have hs := h s rfl
    cases s with
    | block statements lonely =>
      rw [elsePieces]
      cases lonely with
      | true => exact .nil
      | false => exact helse (hs i b next)
    | _ =>
      simp only [elsePieces]
      exact helse (braces_legible fun next _ => legible_line (hs _ _ next))

/-- `if (c) ` and `while (c) `. -/
theorem condition_legible {type : TT} {str : String} {c : Expr} (hfix : ⟨type, str⟩ ∈ fixedWords) (hc : WfExpr c)
    (b : Bool) :
    Legible ([sym type str, space, sym .LParen "("] ++ exprPieces b c ++ [sym .RParen ")", space]) next := by
  refine .append (.append ?_ (exprPieces_legible hc b _ (closed_cons rfl))) ?_
  · exact legible_word hfix closed_space (legible_space (legible_punct (by simp [fixedWords]) rfl .nil))
  · exact legible_punct (by simp [fixedWords]) rfl (legible_space .nil)

theorem stmtPieces_legible {s : Stmt} (h : WfStmt s) : LegibleStmt s := by
  induction h with
  | @block statements lonely _ _ ih =>
    intro i b next
    rw [stmtPieces]
    cases lonely with
    | true => exact emptyBraces_legible
    | false => exact braces_legible fun next _ => stmtsPieces_legible ih _ _
  | varDecl ht hn hi =>
    intro i b next
    rw [stmtPieces]
    refine .append (.append (.append (typePieces_legible ht closed_space) ?_) (initPieces_legible hi b (closed_cons rfl)))
      semicolon_legible
    exact legible_space (legible_name hn (closed_initPieces b (closed_cons rfl)) .nil)
  | exprStmt h =>
    intro i b next
    rw [stmtPieces]
    exact .append (exprPieces_legible h b _ (closed_cons rfl)) semicolon_legible
  | ifStmt hc _ _ _ _ ih₁ ih₂ =>
    intro i b next
    rw [stmtPieces]
    exact .append (.append (condition_legible (by simp [fixedWords]) hc b) (bodyPieces_legible ih₁ _ _))
      (elsePieces_legible ih₂ _ _)
  | whileStmt hc _ _ ih =>
    intro i b next
    rw [stmtPieces]
    exact .append (condition_legible (by simp [fixedWords]) hc b) (bodyPieces_legible ih _ _)
  | returnStmt h =>
    intro i b next
    rw [stmtPieces]
    exact .append (returnPieces_legible h b (closed_cons rfl)) semicolon_legible

/-! ## Classes and programs -/

theorem listPieces_legible {α : Type} {pieces : Bool → α → List Piece} {after : Bool → α → Bool} {l : List α}
    (h : ∀ x ∈ l, ∀ b next, Legible (pieces b x) next) (b : Bool) : Legible (listPieces pieces after b l) next := by
  induction l generalizing b with
  | nil => exact .nil
  | cons x l ih => exact .append (h x List.mem_cons_self _ _) (ih (fun y hy => h y (List.mem_cons_of_mem _ hy)) _)

theorem fieldPieces_legible {f : Ast.Field} (h : WfField f) : Legible (fieldPieces f) next := by
  refine .append (.append ?_ (typePieces_legible h.type closed_space)) ?_
  · exact legible_line (legible_word (by simp [fixedWords]) closed_space (legible_space .nil))
  · exact legible_space (legible_name h.name (closed_cons rfl) semicolon_legible)

theorem fieldsPieces_legible {l : List Ast.Field} (h : ∀ f ∈ l, WfField f) : Legible (l.flatMap fieldPieces) next := by
  induction l with
  | nil => exact .nil
  | cons f l ih =>
    exact .append (fieldPieces_legible (h f List.mem_cons_self)) (ih fun f hf => h f (List.mem_cons_of_mem _ hf))

theorem paramPieces_legible {p : Parameter} (h : WfParameter p) (hc : Closed next) : Legible (paramPieces p) next :=
  .append (typePieces_legible h.type closed_space) (legible_space (legible_name h.name hc .nil))

theorem paramsPieces_legible {l : List Parameter} (h : ∀ p ∈ l, WfParameter p) (hc : Closed next) :
    Legible (paramsPieces l) next := by
  have hmore : ∀ l : List Parameter, (∀ p ∈ l, WfParameter p) →
      Legible (l.flatMap fun p => sym .Comma "," :: space :: paramPieces p) next ∧
        Closed (written (l.flatMap fun p => sym .Comma "," :: space :: paramPieces p) ++ next) := by
    intro l
    induction l with
    | nil => exact fun _ => ⟨.nil, hc⟩
    | cons p l ih =>
      intro h
      obtain ⟨hl, hclosed⟩ := ih fun p hp => h p (List.mem_cons_of_mem _ hp)
      rw [List.flatMap_cons]
      refine ⟨.append (legible_punct (by simp [fixedWords]) rfl (legible_space ?_)) hl, closed_cons rfl⟩
      exact paramPieces_legible (h p List.mem_cons_self) hclosed
  cases l with
  | nil => exact .nil
  | cons p l =>
    obtain ⟨hl, hclosed⟩ := hmore l fun p hp => h p (List.mem_cons_of_mem _ hp)
    exact .append (paramPieces_legible (h p List.mem_cons_self) hclosed) hl

theorem blockPieces_legible {block : Block} (h : WfBlock block) (i : Nat) (b : Bool) :
    Legible (blockPieces i b block) next :=
  stmtPieces_legible h i b next

theorem methodPieces_legible {m : RegularMethod} (h : WfRegularMethod m) (b : Bool) (next : List Char) :
    Legible (methodPieces b m) next := by
  refine .append (.append (.append (.append (.append ?_ (typePieces_legible h.returnType closed_space)) ?_)
    (paramsPieces_legible h.parameters (closed_cons rfl))) ?_) (blockPieces_legible h.block 1 b)
  · exact legible_line (legible_word (by simp [fixedWords]) closed_space (legible_space .nil))
  · exact legible_space (legible_name h.name (closed_cons rfl) (legible_punct (by simp [fixedWords]) rfl .nil))
  · exact legible_punct (by simp [fixedWords]) rfl (legible_space .nil)

theorem isIdent_string : IsIdent "String" := spelled_fixed (by simp [fixedWords])

theorem mainMethodPieces_legible {m : MainMethod} (h : WfMainMethod m) (b : Bool) (next : List Char) :
    Legible (mainMethodPieces b m) next := by
  refine .append ?_ (blockPieces_legible h.block 1 b)
  refine legible_line (legible_word (by simp [fixedWords]) closed_space (legible_space ?_))
  refine legible_word (by simp [fixedWords]) closed_space (legible_space (legible_word (by simp [fixedWords]) closed_space (legible_space ?_)))
  refine legible_name h.name (closed_cons rfl) (legible_punct (by simp [fixedWords]) rfl ?_)
  refine legible_name isIdent_string (closed_cons rfl) (legible_punct (by simp [fixedWords]) rfl (legible_punct (by simp [fixedWords]) rfl ?_))
  refine legible_space (legible_name h.argName (closed_cons rfl) (legible_punct (by simp [fixedWords]) rfl (legible_space .nil)))

theorem classPieces_legible {c : Ast.Class} (h : WfClass c) (b : Bool) (next : List Char) :
    Legible (classPieces b c) next := by
  have hfields : ∀ f ∈ sortByName Ast.Field.name c.fields, WfField f :=
    fun f hf => h.fields f ((sortByName_perm _ _).mem_iff.mp hf)
  have hmethods : ∀ m ∈ sortByName RegularMethod.name c.methods, ∀ b next, Legible (methodPieces b m) next :=
    fun m hm => methodPieces_legible (h.methods m ((sortByName_perm _ _).mem_iff.mp hm))
  have hmains : ∀ m ∈ sortByName MainMethod.name c.mainMethods, ∀ b next, Legible (mainMethodPieces b m) next :=
    fun m hm => mainMethodPieces_legible (h.mainMethods m ((sortByName_perm _ _).mem_iff.mp hm))
  have hlf : Gap (bytes ['\n']) := gap_line 0
  refine .append (.append (.append (.append (.append (.append ?_ (fieldsPieces_legible hfields)) ?_)
    (listPieces_legible hmethods _)) ?_) (listPieces_legible hmains _)) ?_
  · refine legible_word (by simp [fixedWords]) closed_space (legible_space (legible_name h.name closed_space (legible_space ?_)))
    exact legible_punct (by simp [fixedWords]) rfl (legible_line (.gap gap_fields .nil))
  · exact .gap hlf (legible_line (.gap gap_methods .nil))
  · exact .gap hlf (legible_line (.gap gap_mainMethods .nil))
  · exact legible_line (legible_punct (by simp [fixedWords]) rfl (legible_line .nil))

theorem programPieces_legible {p : Program} (h : WfProgram p) : Legible (programPieces p) next :=
  listPieces_legible (fun c hc => classPieces_legible (h c ((sortByName_perm _ _).mem_iff.mp hc))) false

end Legible

/-- The lexer reads the tokens of a printed program back. -/
theorem print_tokenises {p : Program} (h : WfProgram p) :
    Tokenises 0 (bytes (written (programPieces p))) (tokens (programPieces p) ++ [Token.eof]) .eof :=
  (programPieces_legible h).tokenises

/-- The parser returns well-formed programs for files. -/
theorem parseFile_wf {file : List UInt8} {p : Program} (h : parseFile file = some p) : Parser.WfProgram p := by
  unfold parseFile at h
  split at h
  next ts s hlex =>
    have hnamed := Parser.named_lexFile .normal file
    rw [hlex] at hnamed
    cases hparse : Parser.parseProgram (ts.map Prod.fst) with
    | error e =>
      rw [hparse] at h
      cases h
    | ok q =>
      rw [hparse] at h
      obtain rfl := Option.some.inj h
      exact Parser.parseProgram_wf hnamed hparse
  next => cases h

end Mjc.Printer

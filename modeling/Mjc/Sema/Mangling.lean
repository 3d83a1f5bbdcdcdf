import Mjc.Decodable
import Mjc.Lexer.Correctness
import Mjc.Sema.MainMethod

/-!
# Mangled names

`RegularMethod::createMangledName` maps different methods to different symbols.

* `isIdentifier` : the identifiers and the keywords (`isIdentifier_word`); `isIdentifier_size` : their bytes are their characters;
* `IsParamType` : the types of parameters; `delimited_paramType` : their codes can be read off the front of any text;
* `createMangledName_toList` : the parts of a mangled name;
* `createMangledName_inj` : equal symbols come from equal methods; no symbol is one of `externalSymbols`.
-/

namespace Mjc.Sema
open Mjc.Ast Mjc.Decodable Mjc.Lexer

set_option autoImplicit false

/-! ## Identifiers -/

/-- What `readNextToken` reads as an identifier or a keyword. -/
def isIdentifier (s : String) : Bool :=
  match s.toList with
  | [] => false
  | c :: cs => isAlphaOrUnderscore (ch c) && cs.all fun d => isAlphaNumOrUnderscore (ch d)

theorem isAlphaNumOrUnderscore_of_alpha {c : Int} (h : isAlphaOrUnderscore c = true) : isAlphaNumOrUnderscore c = true := by
  unfold isAlphaOrUnderscore at h
  unfold isAlphaNumOrUnderscore
  simp only [Bool.or_eq_true] at h ⊢
  tauto

theorem utf8Size_of_alphaNum {c : Char} (h : isAlphaNumOrUnderscore (ch c) = true) : c.utf8Size = 1 := by
  apply Char.utf8Size_eq_one_iff.mpr
  have hle : (ch c) ≤ 127 := by
    unfold isAlphaNumOrUnderscore at h
    simp only [Bool.or_eq_true, Bool.and_eq_true, decide_eq_true_eq] at h
    have hz : ch 'z' = 122 := rfl
    have hZ : ch 'Z' = 90 := rfl
    have hnine : ch '9' = 57 := rfl
    have hunder : ch '_' = 95 := rfl
    omega
  exact UInt32.le_iff_toNat_le.mpr (Int.ofNat_le.mp hle)

theorem isDigit_of_alpha {c : Char} (h : isAlphaOrUnderscore (ch c) = true) : c.isDigit = false := by
  unfold isAlphaOrUnderscore at h
  simp only [Bool.or_eq_true, Bool.and_eq_true, decide_eq_true_eq] at h
  have ha : ch 'a' = 97 := rfl
  have hA : ch 'A' = 65 := rfl
  have hunder : ch '_' = 95 := rfl
  have hnine : '9'.toNat = 57 := rfl
  have hch : ch c = c.toNat := rfl
  apply Bool.eq_false_iff.mpr
  intro hdigit
  have hle := (Char.isDigit_iff_toNat.mp hdigit).2
  omega

/-- The identifiers among the words of the lexer. -/
theorem isIdentifier_word {w : List UInt8} (h : Word w .Identifier) : isIdentifier (String.ofList (text w)) = true := by
  generalize ht : Token.Type.Identifier = t at h
  have hsigned : ∀ {b : UInt8}, Letter b ∨ Digit b → ch (Char.ofNat b.toNat) = signed b := by
    intro b hb
    show ((Char.ofNat b.toNat).toNat : Int) = signed b
    unfold signed
    rw [toNat_charOf, if_pos (letter_or_digit_lt hb)]
  cases h with
  | @identifier c cs hc hcs =>
    unfold isIdentifier
    rw [String.toList_ofList]
    refine Bool.and_eq_true_iff.mpr ⟨?_, List.all_eq_true.mpr fun d hd => ?_⟩
    · rw [hsigned (Or.inl hc), isAlphaOrUnderscore_signed]
      exact decide_eq_true hc
    · obtain ⟨b, hb, rfl⟩ := List.mem_map.mp hd
      rw [hsigned (hcs b hb), isAlphaNumOrUnderscore_signed]
      exact decide_eq_true (hcs b hb)
  | zero => cases ht
  | integer => cases ht
  | operator hop =>
    subst ht
    have htype : ∀ o ∈ operators, o.2 ≠ .Identifier := by decide
    exact absurd rfl (htype _ hop)

theorem utf8ByteSize_ofList {cs : List Char} (h : ∀ c ∈ cs, c.utf8Size = 1) : (String.ofList cs).utf8ByteSize = cs.length := by
  induction cs with
  | nil => rfl
  | cons c cs ih =>
    rw [String.ofList_cons, String.utf8ByteSize_append, String.utf8ByteSize_singleton, h c List.mem_cons_self,
      ih fun d hd => h d (List.mem_cons_of_mem c hd), List.length_cons, Nat.add_comm]

theorem isIdentifier_noDigitFirst {s : String} (h : isIdentifier s = true) : NoDigitFirst s.toList := by
  unfold isIdentifier at h
  cases hs : s.toList with
  | nil =>
    rw [hs] at h
    cases h
  | cons c cs =>
    rw [hs] at h
    exact ⟨c, cs, rfl, isDigit_of_alpha (Bool.and_eq_true_iff.mp h).1⟩

theorem isIdentifier_size {s : String} (h : isIdentifier s = true) : s.utf8ByteSize = s.toList.length := by
  have hsize : ∀ c ∈ s.toList, c.utf8Size = 1 := by
    unfold isIdentifier at h
    cases hs : s.toList with
    | nil =>
      rw [hs] at h
      cases h
    | cons c cs =>
      rw [hs] at h
      obtain ⟨hc, hcs⟩ := Bool.and_eq_true_iff.mp h
      intro d hd
      rcases List.mem_cons.mp hd with rfl | hd
      · exact utf8Size_of_alphaNum (isAlphaNumOrUnderscore_of_alpha hc)
      · exact utf8Size_of_alphaNum (List.all_eq_true.mp hcs d hd)
  have hlist := utf8ByteSize_ofList hsize
  rwa [String.ofList_toList] at hlist

/-- The length of an identifier and the identifier. -/
theorem toList_lengthPrefixed {s : String} (h : isIdentifier s = true) :
    (toString s.utf8ByteSize ++ s).toList = lengthPrefixed s.toList := by
  rw [String.toList_append, isIdentifier_size h]
  exact congrArg (· ++ s.toList) Nat.toList_repr

/-! ## Types -/

/-- `int`, `boolean` or a class type. -/
def IsElementType : BasicType → Prop
  | .primitive type => type ≠ .void
  | .classType name => isIdentifier name = true

/-- A type of a parameter. -/
def IsParamType : Ty → Prop
  | .basic type => IsElementType type
  | .array elementType dimension => IsElementType elementType ∧ 0 < dimension

theorem classType_head {name : String} (h : isIdentifier name = true) :
    ∃ c cs, (mangledBasicType (.classType name)).toList = c :: cs ∧ c.isDigit = true := by
  have htext : (mangledBasicType (.classType name)).toList = lengthPrefixed name.toList := toList_lengthPrefixed h
  rw [htext]
  unfold lengthPrefixed
  cases hd : Nat.toDigits 10 name.toList.length with
  | nil => exact absurd hd Nat.toDigits_ne_nil
  | cons c cs => exact ⟨c, cs ++ name.toList, rfl, isDigit_toDigits _ c (hd ▸ List.mem_cons_self)⟩

/-- The codes of element types begin with neither a `P` nor a `v`. -/
theorem mangledBasicType_head {type : BasicType} (h : IsElementType type) :
    ∃ c cs, (mangledBasicType type).toList = c :: cs ∧ c ≠ 'P' ∧ c ≠ 'v' := by
  cases type with
  | primitive type =>
    cases type with
    | boolean => exact ⟨'b', [], rfl, by decide, by decide⟩
    | int => exact ⟨'i', [], rfl, by decide, by decide⟩
    | void => exact absurd rfl h
  | classType name =>
    obtain ⟨c, cs, hc, hdigit⟩ := classType_head h
    refine ⟨c, cs, hc, ?_, ?_⟩
    · rintro rfl
      exact absurd hdigit (by decide)
    · rintro rfl
      exact absurd hdigit (by decide)

/-- A class type has no code of a primitive type. -/
theorem classType_ne_primitive {name : String} {type : PrimType} {r r' : List Char} (h : isIdentifier name = true)
    (htype : IsElementType (.primitive type)) :
    (mangledBasicType (.classType name)).toList ++ r ≠ (mangledBasicType (.primitive type)).toList ++ r' := by
  intro heq
  obtain ⟨c, cs, hc, hdigit⟩ := classType_head h
  rw [hc] at heq
  cases type with
  | boolean =>
    obtain rfl : c = 'b' := (List.cons.inj heq).1
    exact absurd hdigit (by decide)
  | int =>
    obtain rfl : c = 'i' := (List.cons.inj heq).1
    exact absurd hdigit (by decide)
  | void => exact absurd rfl htype

theorem delimited_elementType : Delimited IsElementType fun type => (mangledBasicType type).toList := by
  intro a b r r' ha hb h
  cases a with
  | primitive type =>
    cases b with
    | primitive type' =>
      cases type with
      | boolean =>
        cases type' with
        | boolean => exact ⟨rfl, (List.cons.inj h).2⟩
        | int => exact absurd (List.cons.inj h).1 (by decide)
        | void => exact absurd rfl hb
      | int =>
        cases type' with
        | boolean => exact absurd (List.cons.inj h).1 (by decide)
        | int => exact ⟨rfl, (List.cons.inj h).2⟩
        | void => exact absurd rfl hb
      | void => exact absurd rfl ha
    | classType name => exact absurd h.symm (classType_ne_primitive hb ha)
  | classType name =>
    cases b with
    | primitive type => exact absurd h (classType_ne_primitive ha hb)
    | classType name' =>
      have htext : lengthPrefixed name.toList ++ r = lengthPrefixed name'.toList ++ r' := by
        rw [← toList_lengthPrefixed ha, ← toList_lengthPrefixed hb]
        exact h
      obtain ⟨hname, hr⟩ := delimited_lengthPrefixed _ _ r r' (isIdentifier_noDigitFirst ha) (isIdentifier_noDigitFirst hb) htext
      exact ⟨congrArg BasicType.classType (String.toList_inj.mp hname), hr⟩

/-- The number of dimensions of a type, and what is below them. -/
def dimensions : Ty → Nat × BasicType
  | .basic type => (0, type)
  | .array elementType dimension => (dimension, elementType)

theorem mangledType_toList (type : Ty) :
    (mangledType type).toList = List.replicate (dimensions type).1 'P' ++ (mangledBasicType (dimensions type).2).toList := by
  cases type with
  | basic type => rfl
  | array elementType dimension =>
    unfold mangledType
    rw [String.toList_append, String.toList_ofList]
    rfl

theorem IsParamType.element {type : Ty} (h : IsParamType type) : IsElementType (dimensions type).2 := by
  cases type with
  | basic type => exact h
  | array elementType dimension => exact h.1

theorem dimensions_inj {a b : Ty} (ha : IsParamType a) (hb : IsParamType b) (h : dimensions a = dimensions b) : a = b := by
  cases a with
  | basic type =>
    cases b with
    | basic type' => exact congrArg Ty.basic (Prod.mk.inj h).2
    | array elementType dimension =>
      have hzero : 0 = dimension := (Prod.mk.inj h).1
      have hpos : 0 < dimension := hb.2
      omega
  | array elementType dimension =>
    cases b with
    | basic type =>
      have hzero : dimension = 0 := (Prod.mk.inj h).1
      have hpos : 0 < dimension := ha.2
      omega
    | array elementType' dimension' =>
      obtain ⟨rfl, rfl⟩ := Prod.mk.inj h
      rfl

theorem delimited_paramType : Delimited IsParamType fun type => (mangledType type).toList := by
  intro a b r r' ha hb h
  have hstop : ∀ {t : BasicType} (r : List Char), IsElementType t → Stops (· == 'P') ((mangledBasicType t).toList ++ r) := by
    intro t r ht
    obtain ⟨c, cs, hc, hP, -⟩ := mangledBasicType_head ht
    rw [hc]
    exact @stops_cons _ (· == 'P') c (beq_eq_false_iff_ne.mpr hP) (cs ++ r)
  have h : (mangledType a).toList ++ r = (mangledType b).toList ++ r' := h
  rw [mangledType_toList, mangledType_toList, List.append_assoc, List.append_assoc] at h
  obtain ⟨hdim, hrest⟩ := replicate_append_inj (hstop r ha.element) (hstop r' hb.element) h
  obtain ⟨helem, hr⟩ := delimited_elementType _ _ r r' ha.element hb.element hrest
  exact ⟨dimensions_inj ha hb (Prod.ext hdim helem), hr⟩

/-! ## Methods -/

/-- The codes of the parameters. -/
def parameterCodes (parameters : List Parameter) : List Char :=
  if parameters.isEmpty then ['v'] else (parameters.map Parameter.type).flatMap fun type => (mangledType type).toList

theorem createMangledName_toList {className name : String} (hclass : isIdentifier className = true)
    (hname : isIdentifier name = true) (parameters : List Parameter) :
    (createMangledName className name parameters).toList =
      ['_', 'Z', 'N'] ++ (lengthPrefixed className.toList ++
        (lengthPrefixed name.toList ++ ('E' :: parameterCodes parameters))) := by
  have hcodes : (if parameters.isEmpty then "v" else String.join (parameters.map fun p => mangledType p.type)).toList =
      parameterCodes parameters := by
    unfold parameterCodes
    split
    · rfl
    · rw [String.toList_join, List.flatMap_map, List.flatMap_map]
  unfold createMangledName
  rw [← toList_lengthPrefixed hclass, ← toList_lengthPrefixed hname, ← hcodes]
  simp only [String.toList_append, List.append_assoc]
  rfl

theorem mangledType_head {type : Ty} (h : IsParamType type) :
    ∃ c cs, (mangledType type).toList = c :: cs ∧ c ≠ 'v' := by
  obtain ⟨c, cs, hc, -, hv⟩ := mangledBasicType_head h.element
  rw [mangledType_toList, hc]
  cases (dimensions type).1 with
  | zero => exact ⟨c, cs, rfl, hv⟩
  | succ dimension => exact ⟨'P', List.replicate dimension 'P' ++ c :: cs, rfl, by decide⟩

/-- No list of parameters has the code of no parameters. -/
theorem parameterCodes_cons_ne {p : Parameter} (h : IsParamType p.type) (ps : List Parameter) :
    parameterCodes (p :: ps) ≠ ['v'] := by
  intro heq
  obtain ⟨c, cs, hc, hv⟩ := mangledType_head h
  have heq : (mangledType p.type).toList ++ (ps.map Parameter.type).flatMap (fun type => (mangledType type).toList) =
      ['v'] := heq
  rw [hc] at heq
  exact hv (List.cons.inj heq).1

theorem parameterCodes_inj {ps ps' : List Parameter} (h : ∀ p ∈ ps, IsParamType p.type)
    (h' : ∀ p ∈ ps', IsParamType p.type) (heq : parameterCodes ps = parameterCodes ps') :
    ps.map Parameter.type = ps'.map Parameter.type := by
  have htypes : ∀ {ps : List Parameter}, (∀ p ∈ ps, IsParamType p.type) →
      ∀ type ∈ ps.map Parameter.type, IsParamType type := by
    intro ps h type htype
    obtain ⟨p, hp, rfl⟩ := List.mem_map.mp htype
    exact h p hp
  have hne : ∀ type, IsParamType type → (mangledType type).toList ≠ [] := by
    intro type htype hnil
    obtain ⟨c, cs, hc, -⟩ := mangledType_head htype
    rw [hc] at hnil
    cases hnil
  cases ps with
  | nil =>
    cases ps' with
    | nil => rfl
    | cons p ps' => exact absurd heq.symm (parameterCodes_cons_ne (h' p List.mem_cons_self) ps')
  | cons p ps =>
    cases ps' with
    | nil => exact absurd heq (parameterCodes_cons_ne (h p List.mem_cons_self) ps)
    | cons p' ps' => exact delimited_paramType.flatMap_inj hne (htypes h) (htypes h') heq

/-- The entities of `FirmVisitor` that are no methods, and the functions of the runtime. -/
def externalSymbols : List String :=
  ["main", "print_int", "print_int_fast", "write_int", "flush_int", "read_int", "allocate", "calloc"]

theorem createMangledName_external (className name : String) (parameters : List Parameter) :
    createMangledName className name parameters ∉ externalSymbols := by
  intro hmem
  obtain ⟨rest, hrest⟩ : ∃ rest, (createMangledName className name parameters).toList = '_' :: rest := by
    unfold createMangledName
    simp only [String.append_assoc, String.toList_append]
    exact ⟨_, rfl⟩
  have hfirst : ∀ s ∈ externalSymbols, s.toList.head? ≠ some '_' := by decide
  exact hfirst _ hmem (by rw [hrest]; rfl)

/-- Different methods have different symbols, and none of these is the symbol of anything else. -/
theorem createMangledName_inj {className className' name name' : String} {parameters parameters' : List Parameter}
    (hclass : isIdentifier className = true) (hclass' : isIdentifier className' = true)
    (hname : isIdentifier name = true) (hname' : isIdentifier name' = true)
    (hparams : ∀ p ∈ parameters, IsParamType p.type) (hparams' : ∀ p ∈ parameters', IsParamType p.type) :
    (createMangledName className name parameters = createMangledName className' name' parameters' →
      className = className' ∧ name = name' ∧ parameters.map Parameter.type = parameters'.map Parameter.type) ∧
    createMangledName className name parameters ∉ externalSymbols := by
  refine ⟨fun heq => ?_, createMangledName_external className name parameters⟩
  have htext := congrArg String.toList heq
  rw [createMangledName_toList hclass hname, createMangledName_toList hclass' hname'] at htext
  obtain ⟨hc, htext⟩ := delimited_lengthPrefixed _ _ _ _ (isIdentifier_noDigitFirst hclass)
    (isIdentifier_noDigitFirst hclass') (List.append_cancel_left htext)
  obtain ⟨hn, htext⟩ := delimited_lengthPrefixed _ _ _ _ (isIdentifier_noDigitFirst hname)
    (isIdentifier_noDigitFirst hname') htext
  exact ⟨String.toList_inj.mp hc, String.toList_inj.mp hn,
    parameterCodes_inj hparams hparams' (List.cons.inj htext).2⟩

/-- The method of `mangling.java` with arrays of both kinds. -/
def sampleParameters : List Parameter :=
  [⟨.array (.primitive .int) 2, "x", 0⟩, ⟨.array (.classType "out") 1, "z", 1⟩, ⟨.basic (.classType "blub"), "w", 2⟩]

theorem createMangledName_inj_sample :
    createMangledName "B" "arrTest" sampleParameters = "_ZN1B7arrTestEPPiP3out4blub" ∧
      createMangledName "B" "arrTest" sampleParameters ∉ externalSymbols := by
  refine ⟨by decide +kernel, (@createMangledName_inj "B" "B" "arrTest" "arrTest" sampleParameters sampleParameters
    (by decide) (by decide) (by decide) (by decide) ?_ ?_).2⟩ <;>
  simp [sampleParameters, IsParamType, IsElementType, isIdentifier, isAlphaOrUnderscore, isAlphaNumOrUnderscore, ch]

end Mjc.Sema

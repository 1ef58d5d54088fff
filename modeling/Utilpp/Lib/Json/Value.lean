import Utilpp.Lib.Json.Reader

/-!
# JSON documents

What a text means: strings are byte strings in UTF-8, numbers are 64-bit integers or
floating-point numbers. The conversion of floating-point numbers is left open (`Doubles`): only
that a printed number reads back as itself is used. `read` turns a JSON text into a document
and `write` prints it, and `read_write` says that nothing is lost on the way.
-/

namespace Utilpp.Lib.Json

/-! ## Strings -/

/-- The UTF-8 bytes of a code point. -/
def utf8 (u : Nat) : List UInt8 :=
  if u < 0x80 then [UInt8.ofNat u]
  else if u < 0x800 then [UInt8.ofNat (0xC0 + u / 0x40), UInt8.ofNat (0x80 + u % 0x40)]
  else if u < 0x10000 then
    [UInt8.ofNat (0xE0 + u / 0x1000), UInt8.ofNat (0x80 + u / 0x40 % 0x40),
      UInt8.ofNat (0x80 + u % 0x40)]
  else
    [UInt8.ofNat (0xF0 + u / 0x40000), UInt8.ofNat (0x80 + u / 0x1000 % 0x40),
      UInt8.ofNat (0x80 + u / 0x40 % 0x40), UInt8.ofNat (0x80 + u % 0x40)]

def isHighSurrogate (u : Nat) : Bool := 0xD800 ≤ u && u ≤ 0xDBFF

def isLowSurrogate (u : Nat) : Bool := 0xDC00 ≤ u && u ≤ 0xDFFF

/-- The bytes of a string literal. A surrogate stands only in a pair. -/
def unescape : List StrUnit → Option (List UInt8)
  | [] => some []
  | .byte b :: units => (unescape units).map (b :: ·)
  | .code u :: units =>
      if isHighSurrogate u then
        match units with
        | .code l :: units =>
            if isLowSurrogate l then
              (unescape units).map (utf8 ((u - 0xD800) * 0x400 + (l - 0xDC00) + 0x10000) ++ ·)
            else none
        | _ => none
      else if isLowSurrogate u then none
      else (unescape units).map (utf8 u ++ ·)

/-- The units of a written string stand for the string. -/
theorem unescape_units (s : List UInt8) : unescape (s.map unitOf) = some s := by
  induction s with
  | nil => rfl
  | cons b s ih =>
      simp only [List.map_cons, unitOf]
      split
      · rename_i hcontrol
        have hb : b.toNat < 32 := hcontrol.1
        have hhigh : isHighSurrogate b.toNat = false := by
          simp only [isHighSurrogate, Bool.and_eq_false_iff, decide_eq_false_iff_not]
          omega
        have hlow : isLowSurrogate b.toNat = false := by
          simp only [isLowSurrogate, Bool.and_eq_false_iff, decide_eq_false_iff_not]
          omega
        have hutf : utf8 b.toNat = [b] := by
          rw [utf8, if_pos (by omega), UInt8.ofNat_toNat]
        rw [unescape.eq_def]
        simp [hhigh, hlow, ih, hutf]
      · simp [unescape, ih]

/-! ## Numbers -/

/-- The integers that fit a signed or an unsigned 64-bit number. -/
def Integer : Type := { n : Int // -(2 ^ 63) ≤ n ∧ n < 2 ^ 64 }

/-- A number of a document. -/
inductive Number (δ : Type) where
  | int (n : Integer)
  | double (d : δ)

/-- The value of a number text that is an integer, without fraction and exponent. -/
def integerValue (text : List UInt8) : Option Int :=
  match text with
  | [] => none
  | b :: digits =>
      if b = 45 then if digits.all isDigit then some (-(digitsValue digits : Int)) else none
      else if text.all isDigit then some (digitsValue text : Int) else none

/-- Floating-point numbers with their conversions. A number too large for the type has no
conversion. Printed numbers have a fraction or an exponent and read back as themselves. -/
structure Doubles where
  Double : Type
  toDouble : List UInt8 → Option Double
  text : Double → List UInt8
  isNumber_text : ∀ d, IsNumber (text d)
  integerValue_text : ∀ d, integerValue (text d) = none
  toDouble_text : ∀ d, toDouble (text d) = some d

/-- Floating-point numbers kept by their spelling, without a bound on their size. -/
def spelledDoubles : Doubles where
  Double := { text : List UInt8 // IsNumber text ∧ integerValue text = none }
  toDouble text :=
    if h : IsNumber text ∧ integerValue text = none then some ⟨text, h⟩
    else if h : IsNumber (text ++ [46, 48]) ∧ integerValue (text ++ [46, 48]) = none then
      some ⟨text ++ [46, 48], h⟩
    else none
  text d := d.val
  isNumber_text d := d.property.1
  integerValue_text d := d.property.2
  toDouble_text d := dif_pos d.property

variable (F : Doubles)

/-- The value of a number text: an integer if it is one and fits, a floating-point number
otherwise. -/
def readNumber (text : List UInt8) : Option (Number F.Double) :=
  match integerValue text with
  | none => (F.toDouble text).map .double
  | some n =>
      if h : -(2 ^ 63) ≤ n ∧ n < 2 ^ 64 then some (.int ⟨n, h⟩)
      else (F.toDouble text).map .double

/-- The text of a number. -/
def numberText : Number F.Double → List UInt8
  | .int n => integerText n.val
  | .double d => F.text d

theorem integerValue_integerText (n : Int) : integerValue (integerText n) = some n := by
  have hall : (decimal n.natAbs).all isDigit = true :=
    List.all_eq_true.mpr fun b hb => isDigit_of_mem_decimal hb
  unfold integerText
  split
  · simp only [integerValue, if_true, hall, digitsValue_decimal, Option.some.injEq]
    omega
  · obtain ⟨b, rest, hcons⟩ := List.exists_cons_of_ne_nil (decimal_ne_nil n.natAbs)
    have hb : b ≠ 45 := by
      rintro rfl
      simp [hcons, isDigit] at hall
    have hvalue := digitsValue_decimal n.natAbs
    rw [hcons] at hall hvalue ⊢
    simp only [integerValue, hb, if_false, hall, if_true, hvalue, Option.some.injEq]
    omega

theorem isNumber_numberText (x : Number F.Double) : IsNumber (numberText F x) := by
  cases x with
  | int n => exact isNumber_integerText n.val
  | double d => exact F.isNumber_text d

/-- A printed number reads back as itself. -/
theorem readNumber_numberText (x : Number F.Double) : readNumber F (numberText F x) = some x := by
  cases x with
  | int n =>
      simp only [readNumber, numberText, integerValue_integerText]
      rw [dif_pos n.property]
      rfl
  | double d => simp [readNumber, numberText, F.integerValue_text, F.toDouble_text]

/-! ## Documents -/

/-- A JSON document. -/
abbrev Document := Tree (List UInt8) (Number F.Double)

/-- The document of a syntax tree. -/
def Syntax.document (v : Syntax) : Option (Document F) := v.traverse unescape (readNumber F)

/-- The document of a JSON text. -/
def read (text : List UInt8) : Option (Document F) := (parse text).bind (Syntax.document F)

/-- The text of a document. -/
def write (v : Document F) : List UInt8 := render (numberText F) plain 0 v

/-- The spelling of a document means the document. -/
theorem document_spell (v : Document F) : Syntax.document F (spell (numberText F) v) = some v :=
  Tree.traverse_map unescape_units (readNumber_numberText F) v

/-- A written document reads back as itself. -/
theorem read_write (v : Document F) : read F (write F v) = some v := by
  have hparse : parse (write F v) = some (spell (numberText F) v) :=
    parse_of_reads (reads_render (isNumber_numberText F) v 0 (by simp [write]))
  simp [read, hparse, document_spell]

theorem zero_not_mem_write (v : Document F) : (0 : UInt8) ∉ write F v :=
  zero_not_mem_render (isNumber_numberText F) v 0

/-! ## Objects with raw members -/

/-- The text of an object with written members and member texts after them. -/
def objectText (members : List (List UInt8 × Document F)) (extra : List (List UInt8)) :
    List UInt8 :=
  123 :: (commas (members.map (fun m => memberText m.1 (render (numberText F) plain 1 m.2)) ++
    extra) ++ [125])

variable {F}

/-- The syntax of written members. -/
def spellMembers (members : List (List UInt8 × Document F)) : List (List StrUnit × Syntax) :=
  members.map fun m => (m.1.map unitOf, spell (numberText F) m.2)

theorem isMember_written (m : List UInt8 × Document F) :
    IsMember (memberText m.1 (render (numberText F) plain 1 m.2))
      (m.1.map unitOf, spell (numberText F) m.2) :=
  isMember_render (isNumber_numberText F) m.2 1 m.1

/-- Written members make an object. -/
theorem parse_objectText (members : List (List UInt8 × Document F)) :
    parse (objectText F members []) = some (.obj (spellMembers members)) := by
  simp only [objectText, List.append_nil]
  exact parse_object fun m _ => isMember_written m

/-- A JSON text after the written members is the value of the last member. -/
theorem parse_objectText_raw (members : List (List UInt8 × Document F)) (key : List UInt8)
    {raw : List UInt8} {w : Syntax} (hraw : parse raw = some w) :
    parse (objectText F members [memberText key raw]) =
      some (.obj (spellMembers members ++ [(key.map unitOf, w)])) := by
  let elements := (members.map fun m => (memberText m.1 (render (numberText F) plain 1 m.2),
    (m.1.map unitOf, spell (numberText F) m.2))) ++ [(memberText key raw, (key.map unitOf, w))]
  have hmember : ∀ m ∈ elements, IsMember m.1 m.2 := by
    intro m hm
    rcases List.mem_append.mp hm with hm | hm
    · obtain ⟨written, -, rfl⟩ := List.mem_map.mp hm
      exact isMember_written written
    · rw [List.mem_singleton.mp hm]
      exact isMember_of_parse hraw key
  have hparse := parse_object hmember
  simpa [elements, objectText, spellMembers, Function.comp_def] using hparse

/-- The syntax of written members means the members. -/
theorem document_spellMembers (members : List (List UInt8 × Document F)) :
    Syntax.document F (.obj (spellMembers members)) = some (.obj members) := by
  have hspell := document_spell F (.obj members)
  simpa only [spellMembers, spell, Tree.map, Tree.mapMembers_eq] using hspell

theorem document_append (members : List (List UInt8 × Document F)) (key : List UInt8)
    (w : Syntax) :
    Syntax.document F (.obj (spellMembers members ++ [(key.map unitOf, w)])) =
      (Syntax.document F w).map fun v => .obj (members ++ [(key, v)]) := by
  have hmembers : Tree.traverseMembers unescape (readNumber F) (spellMembers members) =
      some members := by
    have h := document_spellMembers members
    simp only [Syntax.document, Tree.traverse, Option.map_eq_some_iff] at h
    obtain ⟨ws, hws, heq⟩ := h
    cases heq
    exact hws
  simp only [Syntax.document, Tree.traverse, Tree.traverseMembers_append, hmembers,
    Tree.traverseMembers, unescape_units]
  cases Tree.traverse unescape (readNumber F) w <;> simp

/-- A member without a value makes the text of an object unreadable. -/
theorem readValue_objectText_empty (members : List (List UInt8 × Document F))
    (key : List UInt8) :
    readValue ((objectText F members [memberText key []]).length + 1)
      (objectText F members [memberText key []]) = none := by
  have hlen : ∀ m ∈ members, (memberText m.1 (render (numberText F) plain 1 m.2)).length ≤
      (objectText F members [memberText key []]).length := by
    intro m hm
    have hmem : memberText m.1 (render (numberText F) plain 1 m.2) ∈
        members.map (fun m => memberText m.1 (render (numberText F) plain 1 m.2)) ++
          [memberText key []] :=
      List.mem_append_left _ (List.mem_map_of_mem hm)
    have hcommas := length_le_commas hmem
    simp only [objectText, List.length_cons, List.length_append]
    omega
  exact readValue_no_value (fun m hm => (isMember_written m).2 _ (hlen m hm))
    (fun m _ => starts_memberText _ _) key

end Utilpp.Lib.Json

import Utilpp.Lib.LittleEndian

/-!
# Encodings of Unicode

An encoding gives every character a code of one to four bytes from which it can be told what the
character is. `utf8` and `utf16le` are two of them. A conversion between two encodings, as `iconv`
does it, converts as many whole characters as have room (`Converts`); `convert` is such a
conversion.
-/

namespace Utilpp.Lib.Unicode

/-- An encoding. `decode` finds the first character of a text. -/
structure Encoding where
  encode : Char → List UInt8
  decode : List UInt8 → Option Char
  encode_ne_nil : ∀ c, encode c ≠ []
  length_encode : ∀ c, (encode c).length ≤ 4
  decode_encode : ∀ c rest, decode (encode c ++ rest) = some c
  encode_of_decode : ∀ bytes c, decode bytes = some c → ∃ rest, bytes = encode c ++ rest

namespace Encoding

/-- The code of a text. -/
def encodeAll (e : Encoding) (cs : List Char) : List UInt8 := cs.flatMap e.encode

/-- The beginning of the code of a character, or nothing. -/
def Cut (e : Encoding) (tail : List UInt8) : Prop :=
  tail = [] ∨ ∃ c rest, rest ≠ [] ∧ tail ++ rest = e.encode c

variable {e : Encoding} {c : Char} {cs left : List Char} {tail : List UInt8}

@[simp] theorem encodeAll_nil : e.encodeAll [] = [] := rfl

theorem encodeAll_cons : e.encodeAll (c :: cs) = e.encode c ++ e.encodeAll cs := rfl

theorem encodeAll_append : e.encodeAll (cs ++ left) = e.encodeAll cs ++ e.encodeAll left :=
  List.flatMap_append

theorem length_encode_pos (e : Encoding) (c : Char) : 0 < (e.encode c).length :=
  List.length_pos_iff.mpr (e.encode_ne_nil c)

theorem length_le_encodeAll (e : Encoding) (cs : List Char) :
    cs.length ≤ (e.encodeAll cs).length := by
  induction cs with
  | nil => exact Nat.le_refl 0
  | cons c cs ih =>
      have hpos := e.length_encode_pos c
      rw [encodeAll_cons, List.length_append, List.length_cons]
      omega

theorem encodeAll_eq_nil : e.encodeAll cs = [] ↔ cs = [] := by
  refine ⟨fun h => ?_, fun h => h ▸ rfl⟩
  have hle := e.length_le_encodeAll cs
  rw [h] at hle
  exact List.length_eq_zero_iff.mp (Nat.le_zero.mp hle)

/-- No code is the beginning of another. -/
theorem eq_of_encode_append {c' : Char} {rest : List UInt8}
    (h : e.encode c = e.encode c' ++ rest) : c = c' := by
  have hself := e.decode_encode c []
  rw [List.append_nil, h, e.decode_encode, Option.some.injEq] at hself
  exact hself.symm

/-- The beginning of a code is not the code of another character. -/
theorem decode_cut (h : e.Cut tail) (htail : tail ≠ []) : e.decode tail = none := by
  obtain ⟨c, rest, hrest, hcode⟩ := h.resolve_left htail
  cases hdecode : e.decode tail with
  | none => rfl
  | some c' =>
      obtain ⟨more, rfl⟩ := e.encode_of_decode tail c' hdecode
      rw [List.append_assoc] at hcode
      obtain rfl : c = c' := e.eq_of_encode_append hcode.symm
      have hlen := congrArg List.length hcode
      rw [List.length_append, List.length_append] at hlen
      have hpos := List.length_pos_iff.mpr hrest
      omega

/-- The first bytes of a text are the code of its beginning and what is cut. -/
theorem take_encodeAll (e : Encoding) (cs : List Char) (n : Nat) :
    ∃ done left tail, cs = done ++ left ∧ e.Cut tail ∧
      (e.encodeAll cs).take n = e.encodeAll done ++ tail := by
  induction cs generalizing n with
  | nil => exact ⟨[], [], [], rfl, Or.inl rfl, List.take_nil⟩
  | cons c cs ih =>
      by_cases hn : n < (e.encode c).length
      · refine ⟨[], c :: cs, (e.encode c).take n, rfl,
          Or.inr ⟨c, (e.encode c).drop n, ?_, List.take_append_drop n _⟩, ?_⟩
        · exact List.ne_nil_of_length_pos (by rw [List.length_drop]; omega)
        · rw [encodeAll_cons, List.take_append_of_le_length (Nat.le_of_lt hn)]
          rfl
      · obtain ⟨done, left, tail, rfl, htail, htake⟩ := ih (n - (e.encode c).length)
        refine ⟨c :: done, left, tail, rfl, htail, ?_⟩
        rw [encodeAll_cons, List.take_append, List.take_of_length_le (Nat.not_lt.mp hn), htake,
          encodeAll_cons, List.append_assoc]

end Encoding

/-! ## UTF-8 -/

theorem utf8_decode_encode (c : Char) (rest : List UInt8) :
    ByteArray.utf8DecodeChar? (String.utf8EncodeChar c ++ rest).toByteArray 0 = some c := by
  rw [List.toByteArray_append]
  exact ByteArray.utf8DecodeChar?_utf8EncodeChar_append

/-- UTF-8 -/
def utf8 : Encoding where
  encode := String.utf8EncodeChar
  decode bytes := ByteArray.utf8DecodeChar? bytes.toByteArray 0
  encode_ne_nil _ := String.utf8EncodeChar_ne_nil
  length_encode c := by
    rw [String.length_utf8EncodeChar]
    exact c.utf8Size_le_four
  decode_encode := utf8_decode_encode
  encode_of_decode bytes c h := by
    obtain ⟨rest, hrest⟩ := ByteArray.exists_of_utf8DecodeChar?_eq_some h
    refine ⟨rest.data.toList, ?_⟩
    have hlist := congrArg (fun b => b.data.toList) hrest
    simpa using hlist

/-! ## UTF-16 -/

/-- The code units of a character. -/
def utf16Units (c : Char) : List UInt16 :=
  if c.toNat < 0x10000 then [UInt16.ofNat c.toNat]
  else
    -- a pair of surrogates
    [UInt16.ofNat (0xD800 + (c.toNat - 0x10000) / 0x400),
      UInt16.ofNat (0xDC00 + (c.toNat - 0x10000) % 0x400)]

/-- The bytes of code units, the low one first. -/
def unitBytes (units : List UInt16) : List UInt8 :=
  units.flatMap fun (unit : UInt16) => toBytes 2 unit.toNat

/-- The character of a pair of surrogates. -/
def joinSurrogates (unit low : Nat) : Char :=
  Char.ofNat (0x10000 + (unit - 0xD800) * 0x400 + (low - 0xDC00))

/-- The first character of little-endian code units. -/
def utf16leDecode : List UInt8 → Option Char
  | b₀ :: b₁ :: rest =>
      let unit := ofBytes [b₀, b₁]
      if unit < 0xD800 ∨ 0xE000 ≤ unit then some (Char.ofNat unit)
      else
        match rest with
        | b₂ :: b₃ :: _ =>
            let low := ofBytes [b₂, b₃]
            if unit < 0xDC00 ∧ 0xDC00 ≤ low ∧ low < 0xE000 then
              some (joinSurrogates unit low)
            else none
        | _ => none
  | _ => none

theorem toNat_cases (c : Char) : c.toNat < 0xD800 ∨ 0xDFFF < c.toNat ∧ c.toNat < 0x110000 := c.valid

theorem utf16Units_of_lt {c : Char} (h : c.toNat < 0x10000) :
    unitBytes (utf16Units c) = toBytes 2 c.toNat := by
  rw [utf16Units, if_pos h]
  show toBytes 2 (UInt16.ofNat c.toNat).toNat ++ [] = _
  rw [List.append_nil, UInt16.toNat_ofNat_of_lt' h]

theorem utf16Units_of_le {c : Char} (h : ¬ c.toNat < 0x10000) :
    unitBytes (utf16Units c) = toBytes 2 (0xD800 + (c.toNat - 0x10000) / 0x400) ++
      toBytes 2 (0xDC00 + (c.toNat - 0x10000) % 0x400) := by
  have hvalid := toNat_cases c
  have hhigh : 0xD800 + (c.toNat - 0x10000) / 0x400 < UInt16.size := by
    show _ < 65536
    omega
  have hlow : 0xDC00 + (c.toNat - 0x10000) % 0x400 < UInt16.size := by
    show _ < 65536
    omega
  rw [utf16Units, if_neg h]
  show toBytes 2 (UInt16.ofNat _).toNat ++ (toBytes 2 (UInt16.ofNat _).toNat ++ []) = _
  rw [List.append_nil, UInt16.toNat_ofNat_of_lt' hhigh, UInt16.toNat_ofNat_of_lt' hlow]

theorem toBytes_two (value : Nat) :
    toBytes 2 value = [UInt8.ofNat value, UInt8.ofNat (value / 256)] := rfl

/-- A unit is read as it was written. -/
theorem ofBytes_unit {value : Nat} (h : value < 0x10000) :
    ofBytes [UInt8.ofNat value, UInt8.ofNat (value / 256)] = value :=
  ofBytes_toBytes (n := 2) h

theorem unit_ofBytes (b₀ b₁ : UInt8) : toBytes 2 (ofBytes [b₀, b₁]) = [b₀, b₁] :=
  toBytes_ofBytes [b₀, b₁]

theorem ofBytes_pair_lt (b₀ b₁ : UInt8) : ofBytes [b₀, b₁] < 0x10000 := by
  have hlow := b₀.toNat_lt
  have hhigh := b₁.toNat_lt
  simp only [ofBytes]
  omega

theorem utf16leDecode_unit {b₀ b₁ : UInt8} {rest : List UInt8} {unit : Nat}
    (hunit : ofBytes [b₀, b₁] = unit) (h : unit < 0xD800 ∨ 0xE000 ≤ unit) :
    utf16leDecode (b₀ :: b₁ :: rest) = some (Char.ofNat unit) := by
  subst hunit
  exact if_pos h

theorem utf16leDecode_pair {b₀ b₁ b₂ b₃ : UInt8} {rest : List UInt8} {unit low : Nat}
    (hunit : ofBytes [b₀, b₁] = unit) (hlow : ofBytes [b₂, b₃] = low)
    (h : ¬ (unit < 0xD800 ∨ 0xE000 ≤ unit))
    (hpair : unit < 0xDC00 ∧ 0xDC00 ≤ low ∧ low < 0xE000) :
    utf16leDecode (b₀ :: b₁ :: b₂ :: b₃ :: rest) = some (joinSurrogates unit low) := by
  subst hunit
  subst hlow
  exact (if_neg h).trans (if_pos hpair)

theorem utf16le_decode_encode (c : Char) (rest : List UInt8) :
    utf16leDecode (unitBytes (utf16Units c) ++ rest) = some c := by
  have hvalid := toNat_cases c
  by_cases h : c.toNat < 0x10000
  · rw [utf16Units_of_lt h, toBytes_two, List.cons_append, List.cons_append,
      utf16leDecode_unit (ofBytes_unit h) (by omega), Char.ofNat_toNat]
  · rw [utf16Units_of_le h, toBytes_two, toBytes_two, List.append_assoc, List.cons_append,
      List.cons_append, List.cons_append, List.cons_append, List.nil_append,
      utf16leDecode_pair (ofBytes_unit (by omega)) (ofBytes_unit (by omega)) (by omega) (by omega),
      joinSurrogates]
    have hsame : 0x10000 + (0xD800 + (c.toNat - 0x10000) / 0x400 - 0xD800) * 0x400 +
        (0xDC00 + (c.toNat - 0x10000) % 0x400 - 0xDC00) = c.toNat := by omega
    rw [hsame, Char.ofNat_toNat]

theorem toNat_ofNat {n : Nat} (h : n.isValidChar) : (Char.ofNat n).toNat = n := by
  rw [Char.ofNat, dif_pos h]
  rfl

theorem utf16Units_join {unit low : Nat} (h : ¬ (unit < 0xD800 ∨ 0xE000 ≤ unit))
    (hpair : unit < 0xDC00 ∧ 0xDC00 ≤ low ∧ low < 0xE000) :
    unitBytes (utf16Units (joinSurrogates unit low)) = toBytes 2 unit ++ toBytes 2 low := by
  have hnat : (joinSurrogates unit low).toNat =
      0x10000 + (unit - 0xD800) * 0x400 + (low - 0xDC00) :=
    toNat_ofNat (by unfold Nat.isValidChar; omega)
  have hhigh : 0xD800 + ((joinSurrogates unit low).toNat - 0x10000) / 0x400 = unit := by omega
  have hlow : 0xDC00 + ((joinSurrogates unit low).toNat - 0x10000) % 0x400 = low := by omega
  rw [utf16Units_of_le (by omega), hhigh, hlow]

theorem utf16le_encode_of_decode (bytes : List UInt8) (c : Char)
    (h : utf16leDecode bytes = some c) : ∃ rest, bytes = unitBytes (utf16Units c) ++ rest := by
  unfold utf16leDecode at h
  split at h
  · rename_i b₀ b₁ rest
    have hunit := ofBytes_pair_lt b₀ b₁
    dsimp only at h
    split at h
    · rename_i hsingle
      cases h
      have hnat : (Char.ofNat (ofBytes [b₀, b₁])).toNat = ofBytes [b₀, b₁] :=
        toNat_ofNat (by unfold Nat.isValidChar; omega)
      refine ⟨rest, ?_⟩
      rw [utf16Units_of_lt (hnat.symm ▸ hunit), hnat, unit_ofBytes]
      rfl
    · rename_i hsurrogate
      split at h
      · rename_i b₂ b₃ rest
        have hlow := ofBytes_pair_lt b₂ b₃
        split at h
        · rename_i hpair
          have hc := Option.some.inj h
          subst hc
          refine ⟨rest, ?_⟩
          rw [utf16Units_join hsurrogate hpair, unit_ofBytes, unit_ofBytes]
          rfl
        · cases h
      · cases h
  · cases h

/-- UTF-16 with the low byte of a unit first, and no byte order mark. -/
def utf16le : Encoding where
  encode c := unitBytes (utf16Units c)
  decode := utf16leDecode
  encode_ne_nil c := by
    rw [utf16Units]
    split <;> exact List.cons_ne_nil _ _
  length_encode c := by
    rw [utf16Units]
    split
    · exact Nat.le_of_ble_eq_true rfl
    · exact Nat.le_refl 4
  decode_encode := utf16le_decode_encode
  encode_of_decode := utf16le_encode_of_decode

/-! ## Conversions -/

/-- How a call of `iconv` ends: with the whole input converted, with no room for the next
character, or at bytes that are no character. -/
inductive Status where
  | converted
  | e2big
  | einval
  | eilseq
  deriving DecidableEq, Repr

/-- What a call of `iconv` leaves of the input, and what it writes. -/
structure Answer where
  status : Status
  rest : List UInt8
  written : List UInt8
  deriving DecidableEq, Repr

/-- How a call ends at what is left of a text and of the code of a character. -/
def statusAt (left : List Char) (tail : List UInt8) : Status :=
  if left ≠ [] then .e2big else if tail ≠ [] then .einval else .converted

/-- `iconv` with the bytes of the input and the room for the output: it converts as many whole
characters as have room. -/
def Converts (src dst : Encoding) (iconv : List UInt8 → Nat → Answer) : Prop :=
  ∀ cs tail room, src.Cut tail → ∃ done left, cs = done ++ left ∧
    iconv (src.encodeAll cs ++ tail) room =
      ⟨statusAt left tail, src.encodeAll left ++ tail, dst.encodeAll done⟩ ∧
    (dst.encodeAll done).length ≤ room ∧
    ∀ c ∈ left.head?, room < (dst.encodeAll done).length + (dst.encode c).length

/-- One character after the other, as long as there is room behind `written`. -/
def convertFrom (src dst : Encoding) (room : Nat) : Nat → List UInt8 → List UInt8 → Answer
  | _, [], written => ⟨.converted, [], written⟩
  | 0, input, written => ⟨.einval, input, written⟩
  | n + 1, input, written =>
      match src.decode input with
      | none => ⟨.einval, input, written⟩
      | some c =>
          if written.length + (dst.encode c).length ≤ room then
            convertFrom src dst room n (input.drop (src.encode c).length)
              (written ++ dst.encode c)
          else ⟨.e2big, input, written⟩

/-- A conversion. -/
def convert (src dst : Encoding) (input : List UInt8) (room : Nat) : Answer :=
  convertFrom src dst room input.length input []

variable {src dst : Encoding}

/-- What is left of a character is not converted. -/
theorem convertFrom_cut {tail : List UInt8} (h : src.Cut tail) (room n : Nat)
    (written : List UInt8) :
    convertFrom src dst room n tail written = ⟨statusAt [] tail, tail, written⟩ := by
  cases tail with
  | nil => cases n <;> rfl
  | cons b tail =>
      cases n with
      | zero => rfl
      | succ n =>
          rw [convertFrom, Encoding.decode_cut h (List.cons_ne_nil b tail)]
          · rfl
          · exact nofun

theorem convertFrom_cons {room n : Nat} (c : Char) (more written : List UInt8) :
    convertFrom src dst room (n + 1) (src.encode c ++ more) written =
      if written.length + (dst.encode c).length ≤ room then
        convertFrom src dst room n more (written ++ dst.encode c)
      else ⟨.e2big, src.encode c ++ more, written⟩ := by
  rw [convertFrom, src.decode_encode]
  · dsimp only
    rw [List.drop_left]
  · exact fun h => src.encode_ne_nil c (List.append_eq_nil_iff.mp h).1

theorem convertFrom_spec {tail : List UInt8} (h : src.Cut tail) (room : Nat) {n : Nat}
    {cs : List Char} (hn : cs.length ≤ n) {written : List UInt8}
    (hwritten : written.length ≤ room) :
    ∃ done left, cs = done ++ left ∧
      convertFrom src dst room n (src.encodeAll cs ++ tail) written =
        ⟨statusAt left tail, src.encodeAll left ++ tail, written ++ dst.encodeAll done⟩ ∧
      (written ++ dst.encodeAll done).length ≤ room ∧
      ∀ c ∈ left.head?, room < (written ++ dst.encodeAll done).length + (dst.encode c).length := by
  induction cs generalizing n written with
  | nil =>
      refine ⟨[], [], rfl, ?_, ?_, nofun⟩
      · rw [Encoding.encodeAll_nil, List.nil_append, convertFrom_cut h, Encoding.encodeAll_nil,
          List.append_nil]
      · rwa [Encoding.encodeAll_nil, List.append_nil]
  | cons c cs ih =>
      obtain ⟨n, rfl⟩ : ∃ m, n = m + 1 := Nat.exists_eq_add_one.mpr (Nat.lt_of_lt_of_le
        (Nat.succ_pos _) hn)
      rw [Encoding.encodeAll_cons, List.append_assoc, convertFrom_cons]
      by_cases hroom : written.length + (dst.encode c).length ≤ room
      · rw [if_pos hroom]
        have hmore : (written ++ dst.encode c).length ≤ room := by rwa [List.length_append]
        obtain ⟨done, left, rfl, hcall, hfits, hnext⟩ := ih (Nat.le_of_succ_le_succ hn) hmore
        refine ⟨c :: done, left, rfl, ?_, ?_, ?_⟩
        · rw [hcall, Encoding.encodeAll_cons, List.append_assoc]
        · rwa [Encoding.encodeAll_cons, ← List.append_assoc]
        · rwa [Encoding.encodeAll_cons, ← List.append_assoc]
      · rw [if_neg hroom]
        refine ⟨[], c :: cs, rfl, ?_, ?_, fun c' hc' => ?_⟩
        · rw [Encoding.encodeAll_nil, List.append_nil, Encoding.encodeAll_cons, List.append_assoc]
          rfl
        · rwa [Encoding.encodeAll_nil, List.append_nil]
        · cases hc'
          rw [Encoding.encodeAll_nil, List.append_nil]
          exact Nat.lt_of_not_le hroom

theorem converts_convert (src dst : Encoding) : Converts src dst (convert src dst) := by
  intro cs tail room htail
  have hle : cs.length ≤ (src.encodeAll cs ++ tail).length := by
    have hcode := src.length_le_encodeAll cs
    rw [List.length_append]
    omega
  exact convertFrom_spec htail room hle (Nat.zero_le room)

end Utilpp.Lib.Unicode

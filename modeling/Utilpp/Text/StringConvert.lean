import Utilpp.Lib.Unicode

/-!
# Conversion of strings

`U8ToU16` and `U16ToU8` call `iconv` with a buffer of 100 bytes until the input is converted.
`U16ToU8` of a pointer takes the number of bytes, and `U16ToU8` of a view passes the number of code
units, so that it converts half of the view (`round_trip_iff`).
-/

namespace Utilpp.Text

open Lib Lib.Unicode

/-- `iconv` with a descriptor: the bytes of the input and the room in the output. -/
abbrev Iconv := List UInt8 → Nat → Answer

/-- The loop around `iconv`. `append` adds the bytes in `dest_str` to the result, or gives up.
Without fuel the loop has not ended. -/
def refill {α : Type} (iconv : Iconv) (append : List α → List UInt8 → Option (List α)) :
    Nat → List UInt8 → List α → Option (List α)
  | 0, _, _ => none
  | fuel + 1, input, result =>
      let answer := iconv input 100
      match answer.status, append result answer.written with
      | .converted, some result => some result
      | .e2big, some result => refill iconv append fuel answer.rest result
      | _, _ => some []

/-- The bytes of a string, as `U16ToU8` appends them. -/
def appendBytes (result written : List UInt8) : Option (List UInt8) := some (result ++ written)

/-- The code units in memory. -/
def unitsOf : List UInt8 → List UInt16
  | b₀ :: b₁ :: rest => UInt16.ofNat (ofBytes [b₀, b₁]) :: unitsOf rest
  | _ => []

/-- The code units that `U8ToU16` appends, which gives up on an odd number of bytes. -/
def appendUnits (result : List UInt16) (written : List UInt8) : Option (List UInt16) :=
  if written.length % 2 ≠ 0 then none else some (result ++ unitsOf written)

/-- `U8ToU16`, with what `iconv_open` returns. An empty string is null or converted at once. -/
def u8ToU16 (conv : Option Iconv) (str : List UInt8) : Option (List UInt16) :=
  if str.head?.getD 0 = 0 then some []
  else
    match conv with
    | none => some []
    | some iconv => refill iconv appendUnits (str.length + 1) str []

/-- `U16ToU8` of a pointer. `inStrLen` is what `iconv` takes for the number of bytes. -/
def u16ToU8 (conv : Option Iconv) (str : List UInt16) (inStrLen : Nat) : Option (List UInt8) :=
  if str.head?.getD 0 = 0 then some []
  else
    match conv with
    | none => some []
    | some iconv => refill iconv appendBytes (inStrLen + 1) ((unitBytes str).take inStrLen) []

/-- `U16ToU8` of a `std::u16string_view` -/
def u16ToU8View (conv : Option Iconv) (str : List UInt16) : Option (List UInt8) :=
  u16ToU8 conv str str.length

/-! ## The loop -/

variable {α : Type} {src dst : Encoding} {iconv : Iconv}
  {append : List α → List UInt8 → Option (List α)} {code : List Char → List α}

/-- The loop converts a whole text, or it gives up at what is cut. -/
theorem refill_spec (h : Converts src dst iconv)
    (happend : ∀ result cs, append result (dst.encodeAll cs) = some (result ++ code cs))
    (hcode : ∀ first second, code (first ++ second) = code first ++ code second)
    {tail : List UInt8} (htail : src.Cut tail) {fuel : Nat} {cs : List Char}
    (hfuel : cs.length < fuel) (result : List α) :
    refill iconv append fuel (src.encodeAll cs ++ tail) result =
      some (if tail = [] then result ++ code cs else []) := by
  induction fuel generalizing cs result with
  | zero => exact absurd hfuel (Nat.not_lt_zero _)
  | succ fuel ih =>
      obtain ⟨done, left, rfl, hcall, hfits, hnext⟩ := h cs tail 100 htail
      rw [refill, hcall]
      dsimp only
      rw [happend]
      cases left with
      | nil =>
          rw [List.append_nil]
          by_cases hempty : tail = []
          · subst hempty
            rfl
          · have hstatus : statusAt [] tail = .einval := by
              rw [statusAt, if_neg (not_not_intro rfl), if_pos hempty]
            rw [hstatus, if_neg hempty]
      | cons c left =>
          have hstatus : statusAt (c :: left) tail = .e2big := if_pos (List.cons_ne_nil c left)
          rw [hstatus]
          dsimp only
          -- a code of four bytes has room, so at least one character was converted
          have hdone : done ≠ [] := by
            rintro rfl
            have hlast := hnext c rfl
            have hfour := dst.length_encode c
            rw [Encoding.encodeAll_nil] at hlast
            simp only [List.length_nil] at hlast
            omega
          have hpos := List.length_pos_iff.mpr hdone
          rw [List.length_append] at hfuel
          rw [ih (by omega), hcode, List.append_assoc]

/-! ## Code units -/

/-- The code units of a text. -/
def utf16 (cs : List Char) : List UInt16 := cs.flatMap utf16Units

theorem utf16_append (first second : List Char) :
    utf16 (first ++ second) = utf16 first ++ utf16 second := List.flatMap_append

theorem unitBytes_cons (unit : UInt16) (units : List UInt16) :
    unitBytes (unit :: units) =
      UInt8.ofNat unit.toNat :: UInt8.ofNat (unit.toNat / 256) :: unitBytes units := rfl

theorem length_unitBytes (units : List UInt16) : (unitBytes units).length = 2 * units.length := by
  induction units with
  | nil => rfl
  | cons unit units ih =>
      rw [unitBytes_cons, List.length_cons, List.length_cons, ih, List.length_cons]
      omega

theorem unitsOf_unitBytes (units : List UInt16) : unitsOf (unitBytes units) = units := by
  induction units with
  | nil => rfl
  | cons unit units ih =>
      rw [unitBytes_cons, unitsOf, ofBytes_unit unit.toNat_lt, UInt16.ofNat_toNat, ih]

theorem encodeAll_utf16le (cs : List Char) : utf16le.encodeAll cs = unitBytes (utf16 cs) :=
  List.flatMap_assoc.symm

theorem appendUnits_encodeAll (result : List UInt16) (cs : List Char) :
    appendUnits result (utf16le.encodeAll cs) = some (result ++ utf16 cs) := by
  rw [encodeAll_utf16le, appendUnits, length_unitBytes, unitsOf_unitBytes]
  exact if_neg (by omega)

/-- Only the code of NUL begins with a zero. -/
theorem head_utf8 {cs : List Char} (hne : cs ≠ []) (hnul : Char.ofNat 0 ∉ cs) :
    (utf8.encodeAll cs).head?.getD 0 ≠ 0 := by
  obtain ⟨c, cs, rfl⟩ := List.exists_cons_of_ne_nil hne
  rw [Encoding.encodeAll_cons]
  obtain ⟨b, rest, hcode⟩ := List.exists_cons_of_ne_nil (utf8.encode_ne_nil c)
  rw [hcode]
  rintro rfl
  have hzero : utf8.encode c = utf8.encode (Char.ofNat 0) ++ rest := hcode
  rw [utf8.eq_of_encode_append hzero] at hnul
  exact hnul List.mem_cons_self

theorem head_utf16 {cs : List Char} (hne : cs ≠ []) (hnul : Char.ofNat 0 ∉ cs) :
    (utf16 cs).head?.getD 0 ≠ 0 := by
  obtain ⟨c, cs, rfl⟩ := List.exists_cons_of_ne_nil hne
  have hcode : utf16 (c :: cs) = utf16Units c ++ utf16 cs := rfl
  have hunits : utf16Units c ≠ [] := by
    rw [utf16Units]
    split <;> exact List.cons_ne_nil _ _
  obtain ⟨unit, rest, hcons⟩ := List.exists_cons_of_ne_nil hunits
  rw [hcode, hcons]
  rintro rfl
  have hzero : utf16le.encode c = utf16le.encode (Char.ofNat 0) ++ unitBytes rest :=
    congrArg unitBytes hcons
  rw [utf16le.eq_of_encode_append hzero] at hnul
  exact hnul List.mem_cons_self

/-! ## The functions -/

variable {cs : List Char} {iconv₁₆ iconv₈ : Iconv}

/-- `U8ToU16` converts a whole string. -/
theorem u8ToU16_eq (h : Converts utf8 utf16le iconv₁₆) (hnul : Char.ofNat 0 ∉ cs) :
    u8ToU16 (some iconv₁₆) (utf8.encodeAll cs) = some (utf16 cs) := by
  by_cases hne : cs = []
  · subst hne
    rfl
  · have hloop := refill_spec h appendUnits_encodeAll utf16_append (Or.inl rfl)
      (Nat.lt_succ_of_le (utf8.length_le_encodeAll cs)) []
    rw [List.append_nil, if_pos rfl, List.nil_append] at hloop
    rw [u8ToU16, if_neg (head_utf8 hne hnul)]
    exact hloop

/-- `U16ToU8` converts the characters in the first `inStrLen` bytes, and nothing when they end in
the middle of one. -/
theorem u16ToU8_eq (h : Converts utf16le utf8 iconv₈) (hne : cs ≠ []) (hnul : Char.ofNat 0 ∉ cs)
    (inStrLen : Nat) :
    ∃ done left tail, cs = done ++ left ∧
      (unitBytes (utf16 cs)).take inStrLen = utf16le.encodeAll done ++ tail ∧
      u16ToU8 (some iconv₈) (utf16 cs) inStrLen =
        some (if tail = [] then utf8.encodeAll done else []) := by
  obtain ⟨done, left, tail, rfl, htail, htake⟩ := utf16le.take_encodeAll cs inStrLen
  rw [encodeAll_utf16le] at htake
  refine ⟨done, left, tail, rfl, htake, ?_⟩
  have hfuel : done.length < inStrLen + 1 := by
    have hlen := congrArg List.length htake
    have hcode := utf16le.length_le_encodeAll done
    rw [List.length_take, List.length_append] at hlen
    omega
  have hloop : refill iconv₈ appendBytes (inStrLen + 1) (utf16le.encodeAll done ++ tail) [] =
      some (if tail = [] then [] ++ utf8.encodeAll done else []) :=
    refill_spec h (fun _ _ => rfl) (fun _ _ => Encoding.encodeAll_append) htail hfuel []
  rw [u16ToU8, if_neg (head_utf16 hne hnul), htake]
  exact hloop

/-- With the number of bytes, `U16ToU8` of a pointer is right. -/
theorem u16ToU8_bytes (h : Converts utf16le utf8 iconv₈) (hnul : Char.ofNat 0 ∉ cs) :
    u16ToU8 (some iconv₈) (utf16 cs) (2 * (utf16 cs).length) = some (utf8.encodeAll cs) := by
  by_cases hne : cs = []
  · subst hne
    rfl
  · have hall : (unitBytes (utf16 cs)).take (2 * (utf16 cs).length) =
        utf16le.encodeAll cs ++ [] := by
      rw [← length_unitBytes, List.take_length, List.append_nil, encodeAll_utf16le]
    have hfuel : cs.length < 2 * (utf16 cs).length + 1 := by
      rw [← length_unitBytes, ← encodeAll_utf16le]
      exact Nat.lt_succ_of_le (utf16le.length_le_encodeAll cs)
    have hloop : refill iconv₈ appendBytes (2 * (utf16 cs).length + 1)
        (utf16le.encodeAll cs ++ []) [] = some ([] ++ utf8.encodeAll cs) :=
      refill_spec h (fun _ _ => rfl) (fun _ _ => Encoding.encodeAll_append) (Or.inl rfl) hfuel []
    rw [u16ToU8, if_neg (head_utf16 hne hnul), hall]
    exact hloop

/-- With the number of code units, what `U16ToU8` returns is too short. -/
theorem u16ToU8View_ne (h : Converts utf16le utf8 iconv₈) (hne : cs ≠ [])
    (hnul : Char.ofNat 0 ∉ cs) :
    u16ToU8View (some iconv₈) (utf16 cs) ≠ some (utf8.encodeAll cs) := by
  obtain ⟨done, left, tail, rfl, htake, hcall⟩ := u16ToU8_eq h hne hnul (utf16 cs).length
  rw [u16ToU8View, hcall, ne_eq, Option.some.injEq]
  split
  · rename_i htail
    rw [Encoding.encodeAll_append, List.self_eq_append_right, Encoding.encodeAll_eq_nil]
    rintro rfl
    -- half of the bytes cannot be all of them
    have hlen := congrArg List.length htake
    rw [htail, List.append_nil, List.append_nil, List.length_take, encodeAll_utf16le,
      length_unitBytes] at hlen
    have hpos : 0 < (utf16le.encodeAll done).length := by
      refine List.length_pos_iff.mpr fun hnil => hne ?_
      rw [Encoding.encodeAll_eq_nil.mp hnil]
      rfl
    rw [encodeAll_utf16le, length_unitBytes] at hpos
    omega
  · exact fun hnil => hne (Encoding.encodeAll_eq_nil.mp hnil.symm)

/-- `U8ToU16` converts every string, `U16ToU8` with the number of bytes converts it back, and
`U16ToU8` of the view does so only when it is empty. -/
theorem round_trip_iff (h₁₆ : Converts utf8 utf16le iconv₁₆) (h₈ : Converts utf16le utf8 iconv₈)
    (cs : List Char) (hnul : Char.ofNat 0 ∉ cs) :
    u8ToU16 (some iconv₁₆) (utf8.encodeAll cs) = some (utf16 cs) ∧
      u16ToU8 (some iconv₈) (utf16 cs) (2 * (utf16 cs).length) = some (utf8.encodeAll cs) ∧
      ((∃ units, u8ToU16 (some iconv₁₆) (utf8.encodeAll cs) = some units ∧
        u16ToU8View (some iconv₈) units = some (utf8.encodeAll cs)) ↔ cs = []) := by
  have hwide := u8ToU16_eq h₁₆ hnul
  refine ⟨hwide, u16ToU8_bytes h₈ hnul, ?_, ?_⟩
  · rintro ⟨units, hunits, hback⟩
    cases hwide.symm.trans hunits
    by_contra hne
    exact u16ToU8View_ne h₈ hne hnul hback
  · rintro rfl
    exact ⟨[], rfl, rfl⟩

/-- The letter `é` comes back empty. -/
theorem round_trip_letter :
    u8ToU16 (some (convert utf8 utf16le)) (utf8.encodeAll [Char.ofNat 0xE9]) =
        some (utf16 [Char.ofNat 0xE9]) ∧
      u16ToU8View (some (convert utf16le utf8)) (utf16 [Char.ofNat 0xE9]) ≠
        some (utf8.encodeAll [Char.ofNat 0xE9]) := by
  obtain ⟨hwide, -, hback⟩ := round_trip_iff (converts_convert utf8 utf16le)
    (converts_convert utf16le utf8) [Char.ofNat 0xE9] (by decide)
  refine ⟨hwide, fun heq => ?_⟩
  exact absurd (hback.mp ⟨_, hwide, heq⟩) (List.cons_ne_nil _ _)

/-- Of `ab` the first letter comes back. -/
theorem not_round_trip :
    u8ToU16 (some (convert utf8 utf16le)) [0x61, 0x62] = some [0x61, 0x62] ∧
      u16ToU8View (some (convert utf16le utf8)) [0x61, 0x62] = some [0x61] := by
  decide

end Utilpp.Text

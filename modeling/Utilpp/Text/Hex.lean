import Mathlib.Algebra.Ring.Nat
import Mathlib.Data.List.TakeWhile

/-!
# Hexadecimal digits

`to_upper_hex` and `to_lower_hex` write two digits for each byte, and `hex_to_bin` reads them with a
table of 256 entries. The index of the table is a `char`, which has a sign, and the loops count with
an `int`; an index outside of the table and a counter beyond the largest `int` have no result.
`hex_codec` says for which bytes and strings the functions do what they are for.
-/

namespace Utilpp.Text

/-! ## The functions of the source -/

/-- `s_vecUpper` -/
def vecUpper : List UInt8 :=
  [0x30, 0x31, 0x32, 0x33, 0x34, 0x35, 0x36, 0x37, 0x38, 0x39, 0x41, 0x42, 0x43, 0x44, 0x45, 0x46]

/-- `s_vecLower` -/
def vecLower : List UInt8 :=
  [0x30, 0x31, 0x32, 0x33, 0x34, 0x35, 0x36, 0x37, 0x38, 0x39, 0x61, 0x62, 0x63, 0x64, 0x65, 0x66]

/-- `s_array` -/
def hexArray : List UInt8 := [
  255, 255, 255, 255, 255, 255, 255, 255, 255, 255, 255, 255, 255, 255, 255, 255,
  255, 255, 255, 255, 255, 255, 255, 255, 255, 255, 255, 255, 255, 255, 255, 255,
  255, 255, 255, 255, 255, 255, 255, 255, 255, 255, 255, 255, 255, 255, 255, 255,
    0,   1,   2,   3,   4,   5,   6,   7,   8,   9, 255, 255, 255, 255, 255, 255,
  255,  10,  11,  12,  13,  14,  15, 255, 255, 255, 255, 255, 255, 255, 255, 255,
  255, 255, 255, 255, 255, 255, 255, 255, 255, 255, 255, 255, 255, 255, 255, 255,
  255,  10,  11,  12,  13,  14,  15, 255, 255, 255, 255, 255, 255, 255, 255, 255,
  255, 255, 255, 255, 255, 255, 255, 255, 255, 255, 255, 255, 255, 255, 255, 255,
  255, 255, 255, 255, 255, 255, 255, 255, 255, 255, 255, 255, 255, 255, 255, 255,
  255, 255, 255, 255, 255, 255, 255, 255, 255, 255, 255, 255, 255, 255, 255, 255,
  255, 255, 255, 255, 255, 255, 255, 255, 255, 255, 255, 255, 255, 255, 255, 255,
  255, 255, 255, 255, 255, 255, 255, 255, 255, 255, 255, 255, 255, 255, 255, 255,
  255, 255, 255, 255, 255, 255, 255, 255, 255, 255, 255, 255, 255, 255, 255, 255,
  255, 255, 255, 255, 255, 255, 255, 255, 255, 255, 255, 255, 255, 255, 255, 255,
  255, 255, 255, 255, 255, 255, 255, 255, 255, 255, 255, 255, 255, 255, 255, 255,
  255, 255, 255, 255, 255, 255, 255, 255, 255, 255, 255, 255, 255, 255, 255, 255]

/-- `s_array[c]` for a `char`. -/
def hexArrayAt (c : UInt8) : Option UInt8 :=
  if 0 ≤ c.toInt8.toInt then hexArray[c.toInt8.toInt.toNat]? else none

/-- The loop of `to_hex` from the `i`-th byte on: what is written behind the first `2 * i`
characters. -/
def toHexFrom (vec : List UInt8) : List UInt8 → Nat → Option (List UInt8)
  | [], _ => some [0]
  | byte :: src, i => do
      let low ← vec[(byte &&& 0x0F).toNat]?
      let high ← vec[(byte >>> 4).toNat]?
      -- `2 * i + 1` is an `int`
      if 2 * i + 1 < 2 ^ 31 then (toHexFrom vec src (i + 1)).map fun des => high :: low :: des
      else none

/-- `to_hex`: what is written to `des`, with the terminator. -/
def toHex (src vec : List UInt8) : Option (List UInt8) := toHexFrom vec src 0

/-- `to_upper_hex` -/
def toUpperHex (src : List UInt8) : Option (List UInt8) := toHex src vecUpper

/-- `to_lower_hex` -/
def toLowerHex (src : List UInt8) : Option (List UInt8) := toHex src vecLower

/-- The loop of `hex_to_bin` from index `i` on, when `des` has been written. -/
def hexToBinFrom : List UInt8 → Nat → List UInt8 → Option (Bool × List UInt8)
  | first :: second :: src, i, des => do
      let high ← hexArrayAt first
      if high = 255 then return (false, des)
      let low ← hexArrayAt second
      if low = 255 then return (false, des)
      -- the counter goes on after the body of the loop
      if i + 2 < 2 ^ 31 then hexToBinFrom src (i + 2) (des ++ [high <<< 4 ||| low]) else none
  | _, _, des => some (true, des)

/-- `hex_to_bin`: its result and the bytes that it has written. -/
def hexToBin (src : List UInt8) : Option (Bool × List UInt8) :=
  if src.length % 2 ≠ 0 then some (false, []) else hexToBinFrom src 0 []

/-! ## Digits -/

/-- One of the characters from `0` to `9`, from `A` to `F` and from `a` to `f`. -/
def isHexDigit (c : UInt8) : Bool :=
  (0x30 ≤ c && c ≤ 0x39) || (0x41 ≤ c && c ≤ 0x46) || (0x61 ≤ c && c ≤ 0x66)

/-- The number that a digit stands for. -/
def digitValue (c : UInt8) : UInt8 :=
  if c ≤ 0x39 then c - 0x30 else if c ≤ 0x46 then c - 0x37 else c - 0x57

/-- `tolower` -/
def toLower (c : UInt8) : UInt8 := if 0x41 ≤ c && c ≤ 0x5A then c + 0x20 else c

theorem forall_byte {p : UInt8 → Prop} (h : ∀ n < 256, p (UInt8.ofNat n)) (c : UInt8) : p c := by
  have hc := h c.toNat c.toNat_lt
  rwa [UInt8.ofNat_toNat] at hc

/-- Both tables and the halves of a byte. They are evaluated here for all the bytes at once. -/
theorem byte_tables (c : UInt8) :
    hexArrayAt c = (if c < 0x80 then some (if isHexDigit c then digitValue c else 255) else none) ∧
      (isHexDigit c = true → hexArrayAt c = some (digitValue c) ∧ digitValue c < 16 ∧
        vecLower[(digitValue c).toNat]? = some (toLower c)) ∧
      c >>> 4 < 16 ∧ c &&& 0x0F < 16 ∧ (c >>> 4) <<< 4 ||| (c &&& 0x0F) = c :=
  forall_byte (p := fun c =>
    hexArrayAt c = (if c < 0x80 then some (if isHexDigit c then digitValue c else 255) else none) ∧
      (isHexDigit c = true → hexArrayAt c = some (digitValue c) ∧ digitValue c < 16 ∧
        vecLower[(digitValue c).toNat]? = some (toLower c)) ∧
      c >>> 4 < 16 ∧ c &&& 0x0F < 16 ∧ (c >>> 4) <<< 4 ||| (c &&& 0x0F) = c)
    (by decide +kernel) c

/-- The table has the values of the digits, and 255 for the other characters. Characters that are
negative have no entry. -/
theorem hexArrayAt_eq (c : UInt8) :
    hexArrayAt c =
      if c < 0x80 then some (if isHexDigit c then digitValue c else 255) else none :=
  (byte_tables c).1

theorem hexArrayAt_digit {c : UInt8} (h : isHexDigit c = true) :
    hexArrayAt c = some (digitValue c) ∧ digitValue c ≠ 255 ∧ digitValue c < 16 := by
  obtain ⟨hentry, hlt, -⟩ := (byte_tables c).2.1 h
  refine ⟨hentry, fun heq => ?_, hlt⟩
  rw [heq] at hlt
  exact absurd hlt (by decide)

theorem vecLower_digitValue {c : UInt8} (h : isHexDigit c = true) :
    vecLower[(digitValue c).toNat]? = some (toLower c) :=
  ((byte_tables c).2.1 h).2.2

/-- The alphabet has a digit for every number below 16. -/
def IsAlphabet (vec : List UInt8) : Prop :=
  ∀ x : UInt8, x < 16 → ∃ c, vec[x.toNat]? = some c ∧ isHexDigit c = true ∧ digitValue c = x

theorem isAlphabet_of_any {vec : List UInt8}
    (h : ∀ n < 16, vec[n]?.any (fun c => isHexDigit c && digitValue c == UInt8.ofNat n) = true) :
    IsAlphabet vec := by
  intro x hx
  have hdigit := h x.toNat (UInt8.lt_iff_toNat_lt.mp hx)
  cases hc : vec[x.toNat]? with
  | none =>
      rw [hc] at hdigit
      cases hdigit
  | some c =>
      rw [hc, Option.any_some, Bool.and_eq_true, beq_iff_eq, UInt8.ofNat_toNat] at hdigit
      exact ⟨c, rfl, hdigit⟩

theorem isAlphabet_vecUpper : IsAlphabet vecUpper := isAlphabet_of_any (by decide)

theorem isAlphabet_vecLower : IsAlphabet vecLower := isAlphabet_of_any (by decide)

/-- A byte is made of its halves. -/
theorem join_halves (b : UInt8) :
    b >>> 4 < 16 ∧ b &&& 0x0F < 16 ∧ (b >>> 4) <<< 4 ||| (b &&& 0x0F) = b :=
  (byte_tables b).2.2

/-- The halves of a byte that is made of two numbers. -/
theorem halves_join {high low : UInt8} (hhigh : high < 16) (hlow : low < 16) :
    (high <<< 4 ||| low) >>> 4 = high ∧ (high <<< 4 ||| low) &&& 0x0F = low := by
  have hall : ∀ n < 16, ∀ m < 16,
      (UInt8.ofNat n <<< 4 ||| UInt8.ofNat m) >>> 4 = UInt8.ofNat n ∧
        (UInt8.ofNat n <<< 4 ||| UInt8.ofNat m) &&& 0x0F = UInt8.ofNat m := by
    decide
  have h := hall high.toNat (UInt8.lt_iff_toNat_lt.mp hhigh)
    low.toNat (UInt8.lt_iff_toNat_lt.mp hlow)
  rwa [UInt8.ofNat_toNat, UInt8.ofNat_toNat] at h

/-- The bytes that a string of digits stands for. -/
def bytesOf : List UInt8 → List UInt8
  | high :: low :: s => (digitValue high <<< 4 ||| digitValue low) :: bytesOf s
  | _ => []

/-! ## Writing -/

/-- The digits of the bytes are written, as long as the counter fits. -/
theorem toHexFrom_spec {vec : List UInt8} (hvec : IsAlphabet vec) {src : List UInt8} {i : Nat}
    (hfits : i + src.length ≤ 2 ^ 30) :
    ∃ hex, toHexFrom vec src i = some (hex ++ [0]) ∧ hex.length = 2 * src.length ∧
      (∀ c ∈ hex, isHexDigit c = true) ∧ bytesOf hex = src := by
  induction src generalizing i with
  | nil => exact ⟨[], rfl, rfl, fun c hc => (List.not_mem_nil hc).elim, rfl⟩
  | cons byte src ih =>
      rw [List.length_cons] at hfits
      obtain ⟨hhigh, hlow, hjoin⟩ := join_halves byte
      obtain ⟨high, hvechigh, hhighdigit, hhighvalue⟩ := hvec _ hhigh
      obtain ⟨low, hveclow, hlowdigit, hlowvalue⟩ := hvec _ hlow
      obtain ⟨hex, hrest, hlength, hdigits, hbytes⟩ := ih (i := i + 1) (by omega)
      refine ⟨high :: low :: hex, ?_, ?_, ?_, ?_⟩
      · rw [toHexFrom, hvechigh, hveclow]
        simp only [Option.bind_eq_bind, Option.bind_some]
        rw [if_pos (by omega), hrest]
        rfl
      · rw [List.length_cons, List.length_cons, hlength, List.length_cons]
        omega
      · intro c hc
        rcases List.mem_cons.mp hc with rfl | hc
        · exact hhighdigit
        rcases List.mem_cons.mp hc with rfl | hc
        · exact hlowdigit
        exact hdigits c hc
      · rw [bytesOf, hhighvalue, hlowvalue, hjoin, hbytes]

/-- The counter fits when there is a result. -/
theorem le_of_toHexFrom {vec src des : List UInt8} {i : Nat} (h : toHexFrom vec src i = some des)
    (hsrc : src ≠ []) : i + src.length ≤ 2 ^ 30 := by
  induction src generalizing i des with
  | nil => exact absurd rfl hsrc
  | cons byte src ih =>
      obtain ⟨low, -, h⟩ := Option.bind_eq_some_iff.mp h
      obtain ⟨high, -, h⟩ := Option.bind_eq_some_iff.mp h
      split at h
      · rename_i hfits
        obtain ⟨rest, hrest, -⟩ := Option.map_eq_some_iff.mp h
        rw [List.length_cons]
        by_cases hnil : src = []
        · rw [hnil, List.length_nil]
          omega
        · have := ih hrest hnil
          omega
      · cases h

/-- The bytes of a string of digits are written in lower case. -/
theorem toHexFrom_bytesOf : ∀ {s : List UInt8} {i : Nat}, s.length % 2 = 0 →
    (∀ c ∈ s, isHexDigit c = true) → 2 * i + s.length < 2 ^ 31 →
    toHexFrom vecLower (bytesOf s) i = some (s.map toLower ++ [0])
  | [], _, _, _, _ => rfl
  | [_], _, heven, _, _ => absurd heven (by rw [List.length_singleton]; decide)
  | high :: low :: s, i, heven, hdigits, hfits => by
      rw [List.length_cons, List.length_cons] at heven hfits
      have hhigh := hdigits high List.mem_cons_self
      have hlow := hdigits low (List.mem_cons_of_mem _ List.mem_cons_self)
      obtain ⟨htop, hbottom⟩ := halves_join (hexArrayAt_digit hhigh).2.2 (hexArrayAt_digit hlow).2.2
      have hrest := toHexFrom_bytesOf (s := s) (i := i + 1) (by omega)
        (fun c hc => hdigits c (List.mem_cons_of_mem _ (List.mem_cons_of_mem _ hc))) (by omega)
      rw [bytesOf, toHexFrom, htop, hbottom, vecLower_digitValue hhigh, vecLower_digitValue hlow]
      simp only [Option.bind_eq_bind, Option.bind_some]
      rw [if_pos (by omega), hrest]
      rfl

/-! ## Reading -/

/-- The reader does not meet a character without an entry: the characters before the first one that
is no digit are counted, and that one is not negative. -/
def Readable (i : Nat) (s : List UInt8) : Prop :=
  i + (s.takeWhile isHexDigit).length < 2 ^ 31 ∧ ∀ c ∈ (s.dropWhile isHexDigit).head?, c < 0x80

theorem readable_cons {i : Nat} {c : UInt8} {s : List UInt8} (h : isHexDigit c = true) :
    Readable i (c :: s) ↔ Readable (i + 1) s := by
  rw [Readable, Readable, List.takeWhile_cons_of_pos h, List.dropWhile_cons_of_pos h,
    List.length_cons]
  constructor <;> exact fun hread => ⟨by omega, hread.2⟩

theorem readable_stop {i : Nat} {c : UInt8} {s : List UInt8} (h : isHexDigit c ≠ true)
    (hi : i < 2 ^ 31) : Readable i (c :: s) ↔ c < 0x80 := by
  rw [Readable, List.takeWhile_cons_of_neg h, List.dropWhile_cons_of_neg h, List.length_nil,
    List.head?_cons]
  simp only [Option.mem_some_iff, forall_eq']
  exact ⟨fun hread => hread.2, fun hlt => ⟨hi, hlt⟩⟩

theorem hexArrayAt_other {c : UInt8} (h : isHexDigit c ≠ true) :
    hexArrayAt c = if c < 0x80 then some 255 else none := by
  rw [hexArrayAt_eq, if_neg h]

theorem hexToBinFrom_cons {first second : UInt8} (hfirst : isHexDigit first = true)
    (hsecond : isHexDigit second = true) (src des : List UInt8) (i : Nat) :
    hexToBinFrom (first :: second :: src) i des =
      if i + 2 < 2 ^ 31 then
        hexToBinFrom src (i + 2) (des ++ [digitValue first <<< 4 ||| digitValue second])
      else none := by
  obtain ⟨hhigh, hhighne, -⟩ := hexArrayAt_digit hfirst
  obtain ⟨hlow, hlowne, -⟩ := hexArrayAt_digit hsecond
  rw [hexToBinFrom, hhigh, hlow]
  simp only [Option.bind_eq_bind, Option.bind_some, if_neg hhighne, if_neg hlowne]

/-- The loop has a result when it can read the string, and then it says whether the string is made
of digits. -/
theorem hexToBinFrom_spec : ∀ {s : List UInt8} {i : Nat} (des : List UInt8), s.length % 2 = 0 →
    i % 2 = 0 → i < 2 ^ 31 →
    (Readable i s → ∃ ok out, hexToBinFrom s i des = some (ok, des ++ out) ∧
      (ok = true ↔ ∀ c ∈ s, isHexDigit c = true) ∧ (ok = true → out = bytesOf s)) ∧
    (¬ Readable i s → hexToBinFrom s i des = none)
  | [], i, des, _, _, hi =>
      ⟨fun _ => ⟨true, [], by rw [List.append_nil]; rfl, by simp, fun _ => rfl⟩,
        fun h => absurd ⟨hi, by simp⟩ h⟩
  | [_], _, _, hlength, _, _ => absurd hlength (by rw [List.length_singleton]; decide)
  | first :: second :: s, i, des, hlength, heven, hi => by
      rw [List.length_cons, List.length_cons] at hlength
      by_cases hfirst : isHexDigit first = true
      · by_cases hsecond : isHexDigit second = true
        · rw [readable_cons hfirst, readable_cons hsecond, hexToBinFrom_cons hfirst hsecond]
          by_cases hnext : i + 2 < 2 ^ 31
          · obtain ⟨hread, hnot⟩ := hexToBinFrom_spec
              (des ++ [digitValue first <<< 4 ||| digitValue second])
              (s := s) (i := i + 2) (by omega) (by omega) hnext
            rw [if_pos hnext]
            refine ⟨fun h => ?_, hnot⟩
            obtain ⟨ok, out, hresult, hok, hout⟩ := hread h
            refine ⟨ok, (digitValue first <<< 4 ||| digitValue second) :: out, hresult.trans ?_,
              hok.trans ?_, fun h => ?_⟩
            · rw [List.append_assoc]
              rfl
            · simp only [List.mem_cons, forall_eq_or_imp, hfirst, hsecond, true_and]
            · rw [hout h, bytesOf]
          · rw [if_neg hnext]
            exact ⟨fun h => absurd h.1 (by omega), fun _ => rfl⟩
        · have hstop : i + 1 < 2 ^ 31 := by omega
          obtain ⟨hhigh, hhighne, -⟩ := hexArrayAt_digit hfirst
          rw [readable_cons hfirst, readable_stop hsecond hstop, hexToBinFrom, hhigh,
            hexArrayAt_other hsecond]
          simp only [Option.bind_eq_bind, Option.bind_some, if_neg hhighne]
          refine ⟨fun h => ⟨false, [], ?_, ?_, fun h => absurd h Bool.false_ne_true⟩, fun h => ?_⟩
          · rw [if_pos h, List.append_nil]
            rfl
          · simp only [Bool.false_eq_true, false_iff]
            exact fun hall => hsecond (hall second (List.mem_cons_of_mem _ List.mem_cons_self))
          · rw [if_neg h]
            rfl
      · rw [readable_stop hfirst hi, hexToBinFrom, hexArrayAt_other hfirst]
        refine ⟨fun h => ⟨false, [], ?_, ?_, fun h => absurd h Bool.false_ne_true⟩, fun h => ?_⟩
        · rw [if_pos h, List.append_nil]
          rfl
        · simp only [Bool.false_eq_true, false_iff]
          exact fun hall => hfirst (hall first List.mem_cons_self)
        · rw [if_neg h]
          rfl

theorem takeWhile_digits {s : List UInt8} (h : ∀ c ∈ s, isHexDigit c = true) :
    s.takeWhile isHexDigit = s ∧ s.dropWhile isHexDigit = [] :=
  ⟨List.takeWhile_eq_self_iff.mpr h, List.dropWhile_eq_nil_iff.mpr h⟩

theorem readable_digits {s : List UInt8} (h : ∀ c ∈ s, isHexDigit c = true) :
    Readable 0 s ↔ s.length < 2 ^ 31 := by
  obtain ⟨htake, hdrop⟩ := takeWhile_digits h
  rw [Readable, htake, hdrop, Nat.zero_add]
  exact ⟨fun hread => hread.1, fun hlt => ⟨hlt, by simp⟩⟩

/-- A string of digits is read when the counter of the loop fits. -/
theorem hexToBin_digits {s : List UInt8} (heven : s.length % 2 = 0)
    (h : ∀ c ∈ s, isHexDigit c = true) :
    hexToBin s = if s.length < 2 ^ 31 then some (true, bytesOf s) else none := by
  obtain ⟨hread, hnot⟩ := hexToBinFrom_spec (s := s) (i := 0) [] heven rfl (by decide)
  rw [readable_digits h] at hread hnot
  rw [hexToBin, if_neg (not_not_intro heven)]
  by_cases hlt : s.length < 2 ^ 31
  · obtain ⟨ok, out, hresult, hok, hout⟩ := hread hlt
    rw [if_pos hlt, hresult, hok.mpr h, hout (hok.mpr h), List.nil_append]
  · rw [if_neg hlt, hnot hlt]

/-! ## The codec -/

/-- Both functions write digits that `hex_to_bin` reads as the bytes again. -/
def RoundTrips (b : List UInt8) : Prop :=
  (∃ hex, toUpperHex b = some (hex ++ [0]) ∧ hexToBin hex = some (true, b)) ∧
    ∃ hex, toLowerHex b = some (hex ++ [0]) ∧ hexToBin hex = some (true, b)

/-- `hex_to_bin` reads inside its table and succeeds for an even number of digits, which
`to_lower_hex` writes again in lower case. -/
def Decodes (s : List UInt8) : Prop :=
  ∃ ok des, hexToBin s = some (ok, des) ∧
    (ok = true ↔ s.length % 2 = 0 ∧ ∀ c ∈ s, isHexDigit c = true) ∧
    (ok = true → toLowerHex des = some (s.map toLower ++ [0]))

theorem roundTrip_iff {vec : List UInt8} (hvec : IsAlphabet vec) (b : List UInt8) :
    (∃ hex, toHex b vec = some (hex ++ [0]) ∧ hexToBin hex = some (true, b)) ↔
      b.length < 2 ^ 30 := by
  by_cases hlt : b.length ≤ 2 ^ 30
  · obtain ⟨hex, hwrite, hlength, hdigits, hbytes⟩ :=
      toHexFrom_spec hvec (show 0 + b.length ≤ 2 ^ 30 by omega)
    have hread := hexToBin_digits (by omega) hdigits
    rw [hbytes, hlength] at hread
    constructor
    · rintro ⟨hex', hwrite', hread'⟩
      rw [toHex, hwrite, Option.some.injEq, List.append_left_inj] at hwrite'
      rw [← hwrite', hread] at hread'
      by_contra hnot
      rw [if_neg (by omega)] at hread'
      cases hread'
    · intro hlt
      rw [if_pos (by omega)] at hread
      exact ⟨hex, hwrite, hread⟩
  · constructor
    · rintro ⟨hex, hwrite, -⟩
      have := le_of_toHexFrom hwrite (by rintro rfl; exact hlt (Nat.zero_le _))
      omega
    · omega

/-- When `hex_to_bin` can be asked about a string. -/
theorem decodes_iff (s : List UInt8) : Decodes s ↔ s.length % 2 ≠ 0 ∨ Readable 0 s := by
  by_cases heven : s.length % 2 = 0
  · obtain ⟨hread, hnot⟩ := hexToBinFrom_spec (s := s) (i := 0) [] heven rfl (by decide)
    have hloop : hexToBin s = hexToBinFrom s 0 [] := if_neg (not_not_intro heven)
    rw [← hloop] at hread hnot
    constructor
    · rintro ⟨ok, des, hresult, -⟩
      refine .inr (by_contra fun h => ?_)
      rw [hnot h] at hresult
      cases hresult
    · rintro (hodd | h)
      · exact absurd heven hodd
      obtain ⟨ok, out, hresult, hok, hout⟩ := hread h
      refine ⟨ok, out, hresult, hok.trans (by rw [and_iff_right heven]), fun htrue => ?_⟩
      have hdigits := hok.mp htrue
      have hlt := (readable_digits hdigits).mp h
      rw [hout htrue]
      exact toHexFrom_bytesOf heven hdigits (by omega)
  · refine ⟨fun _ => .inl heven, fun _ => ⟨false, [], if_pos heven, ?_, ?_⟩⟩
    · simp only [Bool.false_eq_true, false_iff, not_and]
      exact fun h => absurd h heven
    · exact fun h => absurd h Bool.false_ne_true

/-- The functions are inverse for less than `2 ^ 30` bytes. `hex_to_bin` is right about a string of
odd length, and about one in which the first character that is no digit, if there is one, is not
negative and comes before the counter has reached the largest `int`. -/
theorem hex_codec (b s : List UInt8) :
    (RoundTrips b ↔ b.length < 2 ^ 30) ∧
      (Decodes s ↔ s.length % 2 ≠ 0 ∨
        ((s.takeWhile isHexDigit).length < 2 ^ 31 ∧
          ∀ c ∈ (s.dropWhile isHexDigit).head?, c < 0x80)) := by
  constructor
  · have hupper := roundTrip_iff isAlphabet_vecUpper b
    have hlower := roundTrip_iff isAlphabet_vecLower b
    exact (and_congr hupper hlower).trans and_self_iff
  · rw [decodes_iff, Readable, Nat.zero_add]

/-- A negative character is an index in front of the table. -/
theorem not_hex_codec : ¬ ((∀ b, RoundTrips b) ∧ ∀ s, Decodes s) := by
  rintro ⟨-, hdecodes⟩
  obtain ⟨ok, des, hresult, -⟩ := hdecodes [0xC3, 0xA4]
  have hnone : hexToBin [0xC3, 0xA4] = none := by decide
  rw [hnone] at hresult
  cases hresult

end Utilpp.Text

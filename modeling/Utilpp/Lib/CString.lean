import Mathlib.Algebra.Ring.Int.Defs
import Mathlib.Algebra.Ring.Nat
import Mathlib.Data.List.Infix
import Mathlib.Data.List.TakeWhile

/-!
# C strings, decimal text and the `stoi` parser

Memory is the list of bytes that can be read from a pointer on; its end is the end of the
mapped region. `strstr` follows the C function: it stops at the first match, at the first
NUL, or it runs off the mapped region. The lemmas say when a search stays inside a given
prefix of memory (`strstr_append`) and where it stops (`strstr_found`, `strstr_absent`).
`decimal` and `stoi` print and parse decimal numbers as `std::format` and `std::stoi` do.
-/

namespace Utilpp.Lib

/-- The bytes of ASCII characters. -/
def ascii (text : List Char) : List UInt8 := text.map fun c => UInt8.ofNat c.toNat

/-! ## Searching -/

/-- How a search in memory ends: at an offset, at the terminating NUL, or past the mapped
region. -/
inductive Search where
  | found (offset : Nat)
  | absent
  | unmapped
  deriving DecidableEq, Repr

/-- The same search seen from one byte earlier. -/
def Search.shift : Search → Search
  | .found n => .found (n + 1)
  | .absent => .absent
  | .unmapped => .unmapped

/-- The first occurrence of `needle` in the NUL-terminated string at the start of memory. -/
def strstr (needle : List UInt8) : List UInt8 → Search
  | [] => .unmapped
  | b :: rest =>
      if b = 0 then .absent
      else if needle.isPrefixOf (b :: rest) then .found 0
      else (strstr needle rest).shift

theorem strstr_nil (needle : List UInt8) : strstr needle [] = .unmapped := rfl

theorem strstr_cons (needle : List UInt8) (b : UInt8) (rest : List UInt8) :
    strstr needle (b :: rest) =
      if b = 0 then .absent
      else if needle.isPrefixOf (b :: rest) then .found 0
      else (strstr needle rest).shift := rfl

@[simp] theorem Search.shift_eq_unmapped {s : Search} : s.shift = .unmapped ↔ s = .unmapped := by
  cases s <;> simp [Search.shift]

@[simp] theorem Search.shift_eq_absent {s : Search} : s.shift = .absent ↔ s = .absent := by
  cases s <;> simp [Search.shift]

theorem Search.shift_eq_found {s : Search} {n : Nat} (h : s.shift = .found n) :
    ∃ m, s = .found m ∧ n = m + 1 := by
  cases s with
  | found m =>
      cases h
      exact ⟨m, rfl, rfl⟩
  | absent => cases h
  | unmapped => cases h

/-- A found occurrence splits memory at the needle, with no NUL and no match before it. -/
theorem strstr_split {needle memory : List UInt8} {n : Nat} (hne : needle ≠ [])
    (h : strstr needle memory = .found n) :
    ∃ line rest, memory = line ++ needle ++ rest ∧ line.length = n ∧ (0 : UInt8) ∉ line ∧
      ¬ needle <:+: line := by
  induction memory generalizing n with
  | nil => simp [strstr_nil] at h
  | cons b memory ih =>
      simp only [strstr_cons] at h
      split at h
      · cases h
      · rename_i hb
        split at h
        · rename_i hp
          cases h
          obtain ⟨rest, hrest⟩ := List.isPrefixOf_iff_prefix.mp hp
          exact ⟨[], rest, by simp [hrest], rfl, by simp, by simpa using hne⟩
        · rename_i hp
          obtain ⟨m, hm, rfl⟩ := Search.shift_eq_found h
          obtain ⟨line, rest, rfl, hlen, hzero, hline⟩ := ih hm
          refine ⟨b :: line, rest, rfl, by simp [hlen], ?_, ?_⟩
          · simpa using ⟨fun h0 => hb h0.symm, hzero⟩
          · rw [List.infix_cons_iff, not_or]
            refine ⟨fun hpre => hp (List.isPrefixOf_iff_prefix.mpr (hpre.trans ?_)), hline⟩
            exact ⟨needle ++ rest, by simp⟩

/-- A string without NUL that is shorter than the needle is searched to its end. -/
theorem strstr_short {needle memory : List UInt8} (hzero : (0 : UInt8) ∉ memory)
    (hlen : memory.length < needle.length) : strstr needle memory = .unmapped := by
  induction memory with
  | nil => rfl
  | cons b memory ih =>
      simp only [List.mem_cons, not_or] at hzero
      simp only [List.length_cons] at hlen
      have hb : b ≠ 0 := fun h => hzero.1 h.symm
      have hp : needle.isPrefixOf (b :: memory) = false := by
        rw [Bool.eq_false_iff]
        intro hp
        have := (List.isPrefixOf_iff_prefix.mp hp).length_le
        simp only [List.length_cons] at this
        omega
      simp [strstr_cons, hb, hp, ih hzero.2 (by omega)]

/-- A search that stops inside a block of memory does not depend on what follows the block. -/
theorem strstr_append {needle memory : List UInt8} (hneedle : (0 : UInt8) ∉ needle)
    (h : strstr needle memory ≠ .unmapped) (tail : List UInt8) :
    strstr needle (memory ++ tail) = strstr needle memory := by
  induction memory with
  | nil => exact absurd rfl h
  | cons b memory ih =>
      by_cases hb : b = 0
      · simp [strstr_cons, hb]
      by_cases hp : needle.isPrefixOf (b :: memory)
      · have hp' : needle.isPrefixOf (b :: (memory ++ tail)) :=
          List.isPrefixOf_iff_prefix.mpr
            ((List.isPrefixOf_iff_prefix.mp hp).trans ⟨tail, rfl⟩)
        simp [strstr_cons, hb, hp, hp']
      · have hrest : strstr needle memory ≠ .unmapped := by
          simpa [strstr_cons, hb, hp] using h
        -- A match that needs bytes of the tail would leave the rest of the block without NUL
        -- and shorter than the needle, so the search would have run off the block.
        have hp' : ¬ needle.isPrefixOf (b :: (memory ++ tail)) := by
          intro hmatch
          apply hrest
          have hpre := List.isPrefixOf_iff_prefix.mp hmatch
          have hblock : (b :: memory) <+: needle := by
            have hself : (b :: memory) <+: b :: (memory ++ tail) := ⟨tail, rfl⟩
            refine (List.prefix_or_prefix_of_prefix hself hpre).resolve_right ?_
            intro hbad
            exact hp (List.isPrefixOf_iff_prefix.mpr hbad)
          refine strstr_short (fun h0 => hneedle (hblock.subset (by simp [h0]))) ?_
          have := hblock.length_le
          simp only [List.length_cons] at this
          omega
        simp [strstr_cons, hb, hp, hp', ih hrest]

/-- A search whose needle has its first byte only once finds the needle right after a line that
does not contain it. -/
theorem strstr_found {c : UInt8} {cs line : List UInt8} (rest : List UInt8) (hc : c ≠ 0)
    (hcs : c ∉ cs) (hzero : (0 : UInt8) ∉ line) (hline : ¬ (c :: cs) <:+: line) :
    strstr (c :: cs) (line ++ (c :: cs) ++ rest) = .found line.length := by
  induction line with
  | nil => simp [strstr_cons, hc]
  | cons b line ih =>
      simp only [List.mem_cons, not_or] at hzero
      have hb : b ≠ 0 := fun h => hzero.1 h.symm
      have hp : ¬ (c :: cs).isPrefixOf (b :: (line ++ (c :: cs) ++ rest)) := by
        intro hmatch
        have hpre := List.isPrefixOf_iff_prefix.mp hmatch
        have hself : (b :: line) <+: b :: (line ++ (c :: cs) ++ rest) :=
          ⟨(c :: cs) ++ rest, by simp⟩
        rcases List.prefix_or_prefix_of_prefix hself hpre with hshort | hlong
        · obtain ⟨more, hmore⟩ := hshort
          cases more with
          | nil => exact hline (by simp [← hmore])
          | cons x more =>
              -- The match would overlap the needle itself and so repeat its first byte.
              obtain ⟨z, hz⟩ := hpre
              rw [← hmore] at hz
              simp only [List.cons_append, List.append_assoc, List.cons.injEq,
                List.append_cancel_left_eq] at hz hmore
              have hx : x = c := hz.2.1.trans hmore.1
              exact hcs (by rw [← hmore.2, hx]; simp)
        · exact hline hlong.isInfix
      have hrest : ¬ (c :: cs) <:+: line :=
        fun hin => hline (hin.trans (List.suffix_cons b line).isInfix)
      rw [List.cons_append, List.cons_append, strstr_cons, if_neg hb, if_neg hp, ih hzero.2 hrest]
      rfl

/-- A search runs off a block of memory exactly when the block has no NUL and no match. -/
theorem strstr_eq_unmapped {needle memory : List UInt8} (hne : needle ≠ []) :
    strstr needle memory = .unmapped ↔ (0 : UInt8) ∉ memory ∧ ¬ needle <:+: memory := by
  induction memory with
  | nil => simp [strstr_nil, hne]
  | cons b memory ih =>
      by_cases hb : b = 0
      · simp [strstr_cons, hb]
      have hb' : (0 : UInt8) ≠ b := fun h => hb h.symm
      by_cases hp : needle.isPrefixOf (b :: memory)
      · have hin : needle <:+: b :: memory := (List.isPrefixOf_iff_prefix.mp hp).isInfix
        simp [strstr_cons, hb, hp, hin]
      · have hp' : ¬ needle <+: b :: memory := fun h => hp (List.isPrefixOf_iff_prefix.mpr h)
        simp [strstr_cons, hb, hp, ih, List.infix_cons_iff, hp', hb']

/-- A search that ends at a NUL has met one. -/
theorem zero_mem_of_strstr_absent {needle memory : List UInt8}
    (h : strstr needle memory = .absent) : (0 : UInt8) ∈ memory := by
  induction memory with
  | nil => cases h
  | cons b memory ih =>
      by_cases hb : b = 0
      · simp [hb]
      by_cases hp : needle.isPrefixOf (b :: memory)
      · simp [strstr_cons, hb, hp] at h
      · have hrest : strstr needle memory = .absent := by simpa [strstr_cons, hb, hp] using h
        exact List.mem_cons_of_mem b (ih hrest)

/-- A search in a block of memory without NUL that has no match stops at a NUL after it. -/
theorem strstr_absent {needle text : List UInt8} (rest : List UInt8)
    (hneedle : (0 : UInt8) ∉ needle) (h : strstr needle text = .unmapped) :
    strstr needle (text ++ 0 :: rest) = .absent := by
  induction text with
  | nil => simp [strstr_cons]
  | cons b text ih =>
      have hb : b ≠ 0 := by
        intro hb
        simp [strstr_cons, hb] at h
      have hpre : ¬ needle.isPrefixOf (b :: text) := by
        intro hp
        simp [strstr_cons, hb, hp] at h
      have htext : strstr needle text = .unmapped := by simpa [strstr_cons, hb, hpre] using h
      have hp : ¬ needle.isPrefixOf (b :: (text ++ 0 :: rest)) := by
        intro hmatch
        have hlong := List.isPrefixOf_iff_prefix.mp hmatch
        have hself : (b :: text) <+: b :: (text ++ 0 :: rest) := ⟨0 :: rest, rfl⟩
        rcases List.prefix_or_prefix_of_prefix hself hlong with hshort | hinside
        · obtain ⟨more, rfl⟩ := hshort
          cases more with
          | nil => exact hpre (by simp)
          | cons x more =>
              -- The needle would have to continue over the terminating NUL.
              obtain ⟨z, hz⟩ := hlong
              simp only [List.cons_append, List.append_assoc, List.cons.injEq,
                List.append_cancel_left_eq] at hz
              exact hneedle (by simp [hz.2.1])
        · exact hpre (List.isPrefixOf_iff_prefix.mpr hinside)
      rw [List.cons_append, strstr_cons, if_neg hb, if_neg hp, ih htext]
      rfl

/-! ## Decimal numbers -/

/-- The decimal digits that `std::format("{}", n)` prints. -/
def decimal (n : Nat) : List UInt8 := ascii (Nat.toDigits 10 n)

/-- The digit bytes `'0'` to `'9'`. -/
def isDigit (b : UInt8) : Bool := 48 ≤ b.toNat && b.toNat ≤ 57

/-- The bytes that `isspace` accepts in the C locale. -/
def isSpace (b : UInt8) : Bool := b.toNat = 32 || (9 ≤ b.toNat && b.toNat ≤ 13)

/-- The value of a run of digit bytes. -/
def digitsValue (digits : List UInt8) : Nat :=
  digits.foldl (fun value b => 10 * value + (b.toNat - 48)) 0

/-- The two exceptions of `std::stoi`. -/
inductive StoiError where
  | invalidArgument
  | outOfRange
  deriving DecidableEq, Repr

/-- Splits off an optional sign; `true` stands for a minus. -/
def splitSign : List UInt8 → Bool × List UInt8
  | [] => (false, [])
  | b :: rest =>
      if b = 45 then (true, rest) else if b = 43 then (false, rest) else (false, b :: rest)

/-- `std::stoi` in base ten: leading white space, an optional sign, at least one digit, and the
value must fit `int`. What follows the digits is ignored. -/
def stoi (text : List UInt8) : Except StoiError Int :=
  let signed := splitSign (text.dropWhile isSpace)
  let digits := signed.2.takeWhile isDigit
  let value : Int := if signed.1 then -(digitsValue digits : Int) else digitsValue digits
  if digits = [] then .error .invalidArgument
  else if value < -(2 ^ 31) ∨ 2 ^ 31 ≤ value then .error .outOfRange
  else .ok value

/-- A decimal number consists of digit bytes. -/
theorem isDigit_of_mem_decimal {n : Nat} {b : UInt8} (h : b ∈ decimal n) : isDigit b := by
  obtain ⟨c, hc, rfl⟩ := List.mem_map.mp h
  have hd := Nat.isDigit_of_mem_toDigits (by decide) (by decide) hc
  have hrange : 48 ≤ c.toNat ∧ c.toNat ≤ 57 := by
    simpa [Char.isDigit, UInt32.le_iff_toNat_le] using hd
  have hbyte : (UInt8.ofNat c.toNat).toNat = c.toNat := by
    simp only [UInt8.toNat_ofNat']
    omega
  simp only [isDigit, hbyte]
  simpa using hrange

theorem decimal_ne_nil (n : Nat) : decimal n ≠ [] := by
  simp [decimal, ascii, Nat.toDigits_ne_nil]

/-- Reading back the printed digits gives the number. -/
theorem digitsValue_decimal (n : Nat) : digitsValue (decimal n) = n := by
  have hfold : ∀ (chars : List Char) (value : Nat), (∀ c ∈ chars, c.isDigit) →
      (ascii chars).foldl (fun value b => 10 * value + (b.toNat - 48)) value =
        Nat.ofDigitChars 10 chars value := by
    intro chars
    induction chars with
    | nil => simp [ascii]
    | cons c chars ih =>
        intro value hdigits
        have hd : 48 ≤ c.toNat ∧ c.toNat ≤ 57 := by
          simpa [Char.isDigit, UInt32.le_iff_toNat_le] using hdigits c (by simp)
        have hbyte : (UInt8.ofNat c.toNat).toNat = c.toNat := by
          simp only [UInt8.toNat_ofNat']
          omega
        have hrest := ih (10 * value + (c.toNat - 48)) (fun d hd => hdigits d (by simp [hd]))
        simp only [ascii, List.map_cons, List.foldl_cons, hbyte] at hrest ⊢
        rw [hrest, Nat.ofDigitChars_cons]
        rfl
  rw [digitsValue, decimal,
    hfold _ _ (fun c hc => Nat.isDigit_of_mem_toDigits (by decide) (by decide) hc),
    Nat.ofDigitChars_ten_toDigits]

/-- `stoi` of a number's decimal text is the number, as long as it fits `int`. -/
theorem stoi_decimal {n : Nat} (h : n < 2 ^ 31) : stoi (decimal n) = .ok n := by
  obtain ⟨b, rest, hcons⟩ := List.exists_cons_of_ne_nil (decimal_ne_nil n)
  have hdigits : ∀ x ∈ b :: rest, isDigit x := fun x hx =>
    isDigit_of_mem_decimal (by rw [hcons]; exact hx)
  have hb : 48 ≤ b.toNat ∧ b.toNat ≤ 57 := by simpa [isDigit] using hdigits b (by simp)
  have hspace : isSpace b = false := by
    simp only [isSpace, Bool.or_eq_false_iff, decide_eq_false_iff_not, Bool.and_eq_false_iff]
    omega
  have hminus : b ≠ 45 := by
    rintro rfl
    exact absurd hb.1 (by decide)
  have hplus : b ≠ 43 := by
    rintro rfl
    exact absurd hb.1 (by decide)
  have hrun : (b :: rest).takeWhile isDigit = b :: rest := List.takeWhile_eq_self_iff.mpr hdigits
  have hvalue : digitsValue (b :: rest) = n := by rw [← hcons, digitsValue_decimal]
  have hsign : splitSign ((b :: rest).dropWhile isSpace) = (false, b :: rest) := by
    simp [List.dropWhile, hspace, splitSign, hminus, hplus]
  have hrange : ¬ ((n : Int) < -(2 ^ 31) ∨ (2 : Int) ^ 31 ≤ n) := by omega
  rw [hcons]
  simp only [stoi, hsign, hrun, hvalue, Bool.false_eq_true, if_false]
  rw [if_neg (by simp), if_neg hrange]

end Utilpp.Lib

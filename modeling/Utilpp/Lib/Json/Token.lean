import Utilpp.Lib.CString

/-!
# Tokens of JSON text

Strings, numbers and white space as RFC 8259 spells them. `scanString` and `scanNumber` split
one token off the front of a text. A reader is local (`Extends`) when text that starts with a
byte no token can continue with does not change what it reads; this is what lets a JSON text
be pasted into a larger one.
-/

namespace Utilpp.Lib.Json

/-- A reader takes a value off the front of a text and returns the rest. -/
abbrev Reader (α : Type) := List UInt8 → Option (α × List UInt8)

/-! ## White space and delimiters -/

/-- Space, line feed, carriage return and tab. -/
def isWs (b : UInt8) : Bool := b == 32 || b == 10 || b == 13 || b == 9

/-- The text after the white space at its front. -/
def skipWs (text : List UInt8) : List UInt8 := text.dropWhile isWs

/-- The bytes a number is spelled with: digits, `+`, `-`, `.`, `E` and `e`. -/
def isNumberByte (b : UInt8) : Bool :=
  isDigit b || b == 43 || b == 45 || b == 46 || b == 69 || b == 101

/-- A byte that neither continues a number nor is white space, such as `,`, `]` or `}`. -/
def IsDelimiter (b : UInt8) : Prop := isWs b = false ∧ isNumberByte b = false

/-- A text that ends every token before it: it is empty or starts with a delimiter. -/
def Ends (tail : List UInt8) : Prop := ∀ b ∈ tail.head?, IsDelimiter b

/-- `q` reads from a text followed by one that ends its tokens what `p` reads from the text
alone. -/
def Extends {α : Type} (p q : Reader α) : Prop :=
  ∀ text x rest, p text = some (x, rest) →
    ∀ tail, Ends tail → q (text ++ tail) = some (x, rest ++ tail)

theorem ends_nil : Ends [] := by
  simp [Ends]

theorem ends_cons {b : UInt8} (hb : IsDelimiter b) (tail : List UInt8) : Ends (b :: tail) := by
  simpa [Ends] using hb

/-- A run of bytes ends where it ended when a text that does not continue it is appended. -/
theorem takeWhile_append_of_head {p : UInt8 → Bool} {tail : List UInt8}
    (htail : ∀ b ∈ tail.head?, p b = false) (text : List UInt8) :
    (text ++ tail).takeWhile p = text.takeWhile p := by
  induction text with
  | nil =>
      cases tail with
      | nil => rfl
      | cons b tail => simp [htail b rfl]
  | cons c text ih =>
      by_cases hc : p c
      · simp [hc, ih]
      · simp [hc]

theorem dropWhile_append_of_head {p : UInt8 → Bool} {tail : List UInt8}
    (htail : ∀ b ∈ tail.head?, p b = false) (text : List UInt8) :
    (text ++ tail).dropWhile p = text.dropWhile p ++ tail := by
  induction text with
  | nil =>
      cases tail with
      | nil => rfl
      | cons b tail => simp [htail b rfl]
  | cons c text ih =>
      by_cases hc : p c
      · simp [hc, ih]
      · simp [hc]

theorem skipWs_append {tail : List UInt8} (htail : Ends tail) (text : List UInt8) :
    skipWs (text ++ tail) = skipWs text ++ tail :=
  dropWhile_append_of_head (fun b hb => (htail b hb).1) text

theorem skipWs_of_ends {tail : List UInt8} (htail : Ends tail) : skipWs tail = tail := by
  simpa [skipWs] using skipWs_append htail []

theorem skipWs_cons {b : UInt8} (hb : isWs b = false) (text : List UInt8) :
    skipWs (b :: text) = b :: text := by
  simp [skipWs, hb]

/-! ## Strings -/

/-- One unit of a string literal: a byte, written as itself or by a two-character escape, or
the code unit of a `\uXXXX` escape. -/
inductive StrUnit where
  | byte (b : UInt8)
  | code (u : Nat)
  deriving DecidableEq, Repr

/-- The byte a two-character escape stands for. -/
def escaped (b : UInt8) : Option UInt8 :=
  if b = 34 then some 34          -- "
  else if b = 92 then some 92     -- \
  else if b = 47 then some 47     -- /
  else if b = 98 then some 8      -- b
  else if b = 102 then some 12    -- f
  else if b = 110 then some 10    -- n
  else if b = 114 then some 13    -- r
  else if b = 116 then some 9     -- t
  else none

/-- The value of a hexadecimal digit. -/
def hexValue (b : UInt8) : Option Nat :=
  if isDigit b then some (b.toNat - 48)
  else if 65 ≤ b.toNat ∧ b.toNat ≤ 70 then some (b.toNat - 55)
  else if 97 ≤ b.toNat ∧ b.toNat ≤ 102 then some (b.toNat - 87)
  else none

/-- The value of the four digits of a `\uXXXX` escape. -/
def hex4 (h₁ h₂ h₃ h₄ : UInt8) : Option Nat := do
  let d₁ ← hexValue h₁
  let d₂ ← hexValue h₂
  let d₃ ← hexValue h₃
  let d₄ ← hexValue h₄
  some (((d₁ * 16 + d₂) * 16 + d₃) * 16 + d₄)

/-- Puts a unit in front of a scanned string. -/
def consUnit (u : StrUnit) (scanned : List StrUnit × List UInt8) : List StrUnit × List UInt8 :=
  (u :: scanned.1, scanned.2)

/-- The units of a string literal up to its closing quote; the opening quote has been read.
Control characters stand in a string only as escapes. -/
def scanString : Reader (List StrUnit)
  | [] => none
  | b :: rest =>
      if b = 34 then some ([], rest)
      else if b = 92 then
        match rest with
        | [] => none
        | e :: rest =>
            if e = 117 then
              match rest with
              | h₁ :: h₂ :: h₃ :: h₄ :: rest => do
                  let u ← hex4 h₁ h₂ h₃ h₄
                  (scanString rest).map (consUnit (.code u))
              | _ => none
            else do
              let c ← escaped e
              (scanString rest).map (consUnit (.byte c))
      else if b.toNat < 32 then none
      else (scanString rest).map (consUnit (.byte b))

/-- The hexadecimal digits a writer uses. -/
def hexDigit (n : Nat) : UInt8 := UInt8.ofNat (if n < 10 then 48 + n else 55 + n)

/-- How a byte stands in a written string: quote, backslash and control characters are
escaped, every other byte is copied. -/
def escapeByte (b : UInt8) : List UInt8 :=
  if b = 34 then [92, 34]
  else if b = 92 then [92, 92]
  else if b = 8 then [92, 98]
  else if b = 12 then [92, 102]
  else if b = 10 then [92, 110]
  else if b = 13 then [92, 114]
  else if b = 9 then [92, 116]
  else if b.toNat < 32 then [92, 117, 48, 48, hexDigit (b.toNat / 16), hexDigit (b.toNat % 16)]
  else [b]

/-- The body of a written string. -/
def escape (s : List UInt8) : List UInt8 := s.flatMap escapeByte

/-- The unit that a written byte is read back as. -/
def unitOf (b : UInt8) : StrUnit :=
  if b.toNat < 32 ∧ b ≠ 8 ∧ b ≠ 12 ∧ b ≠ 10 ∧ b ≠ 13 ∧ b ≠ 9 then .code b.toNat else .byte b

theorem scanString_cons (b : UInt8) (rest : List UInt8) : scanString (b :: rest) =
    if b = 34 then some ([], rest)
    else if b = 92 then
      match rest with
      | [] => none
      | e :: rest =>
          if e = 117 then
            match rest with
            | h₁ :: h₂ :: h₃ :: h₄ :: rest => do
                let u ← hex4 h₁ h₂ h₃ h₄
                (scanString rest).map (consUnit (.code u))
            | _ => none
          else do
            let c ← escaped e
            (scanString rest).map (consUnit (.byte c))
    else if b.toNat < 32 then none
    else (scanString rest).map (consUnit (.byte b)) :=
  scanString.eq_def (b :: rest)

@[simp] theorem scanString_quote (rest : List UInt8) :
    scanString (34 :: rest) = some ([], rest) :=
  scanString_cons 34 rest

theorem scanString_code (h₁ h₂ h₃ h₄ : UInt8) (rest : List UInt8) :
    scanString (92 :: 117 :: h₁ :: h₂ :: h₃ :: h₄ :: rest) =
      (hex4 h₁ h₂ h₃ h₄).bind fun u => (scanString rest).map (consUnit (.code u)) :=
  scanString_cons 92 _

theorem scanString_short {e : UInt8} (he : e ≠ 117) (rest : List UInt8) :
    scanString (92 :: e :: rest) =
      (escaped e).bind fun c => (scanString rest).map (consUnit (.byte c)) :=
  (scanString_cons 92 (e :: rest)).trans (if_neg he)

theorem scanString_plain {b : UInt8} (hquote : b ≠ 34) (hslash : b ≠ 92)
    (hcontrol : ¬ b.toNat < 32) (rest : List UInt8) :
    scanString (b :: rest) = (scanString rest).map (consUnit (.byte b)) := by
  rw [scanString_cons, if_neg hquote, if_neg hslash, if_neg hcontrol]

/-- A scanned string begins with the unit in front of it. -/
theorem map_consUnit_eq_some {u : StrUnit} {scanned : Option (List StrUnit × List UInt8)}
    {x : List StrUnit} {rest : List UInt8}
    (h : scanned.map (consUnit u) = some (x, rest)) :
    ∃ units, scanned = some (units, rest) ∧ x = u :: units := by
  obtain ⟨⟨units, r⟩, hscan, heq⟩ := Option.map_eq_some_iff.mp h
  simp only [consUnit, Prod.mk.injEq] at heq
  obtain ⟨rfl, rfl⟩ := heq
  exact ⟨units, hscan, rfl⟩

/-- A string ends at its closing quote, whatever follows. -/
theorem scanString_append {text rest : List UInt8} {x : List StrUnit}
    (h : scanString text = some (x, rest)) (tail : List UInt8) :
    scanString (text ++ tail) = some (x, rest ++ tail) := by
  fun_induction scanString text generalizing x rest with
  | case1 => cases h
  | case2 text =>
      cases h
      simp
  | case3 => cases h
  | case4 _ h₁ h₂ h₃ h₄ text ih =>
      obtain ⟨u, hu, hmap⟩ := Option.bind_eq_some_iff.mp h
      obtain ⟨units, hscan, rfl⟩ := map_consUnit_eq_some hmap
      simp [scanString_code, hu, ih hscan, consUnit]
  | case5 => cases h
  | case6 e text he _ ih =>
      obtain ⟨c, hc, hmap⟩ := Option.bind_eq_some_iff.mp h
      obtain ⟨units, hscan, rfl⟩ := map_consUnit_eq_some hmap
      simp [scanString_short he, hc, ih hscan, consUnit]
  | case7 => cases h
  | case8 b text hquote hslash hcontrol ih =>
      obtain ⟨units, hscan, rfl⟩ := map_consUnit_eq_some h
      simp [scanString_plain hquote hslash hcontrol, ih hscan, consUnit]

/-- The control characters that have no short escape are written by their code. -/
theorem hex4_control {b : UInt8} (hb : b.toNat < 32) :
    hex4 48 48 (hexDigit (b.toNat / 16)) (hexDigit (b.toNat % 16)) = some b.toNat := by
  have hall : ∀ n < 32, hex4 48 48 (hexDigit (n / 16)) (hexDigit (n % 16)) = some n := by decide
  exact hall b.toNat hb

/-- A two-character escape is scanned as the byte it stands for. -/
theorem scanString_escaped {e c : UInt8} (he : e ≠ 117) (hc : escaped e = some c)
    (hunit : unitOf c = .byte c) (text : List UInt8) :
    scanString ([92, e] ++ text) = (scanString text).map (consUnit (unitOf c)) := by
  simp [scanString_short he, hc, hunit]

/-- One written byte is scanned as its unit. -/
theorem scanString_escapeByte (b : UInt8) (text : List UInt8) :
    scanString (escapeByte b ++ text) = (scanString text).map (consUnit (unitOf b)) := by
  unfold escapeByte
  split_ifs with hq hs hbs hff hlf hcr htab hcontrol
  · subst hq
    exact scanString_escaped (by decide) rfl (by decide) text
  · subst hs
    exact scanString_escaped (by decide) rfl (by decide) text
  · subst hbs
    exact scanString_escaped (by decide) rfl (by decide) text
  · subst hff
    exact scanString_escaped (by decide) rfl (by decide) text
  · subst hlf
    exact scanString_escaped (by decide) rfl (by decide) text
  · subst hcr
    exact scanString_escaped (by decide) rfl (by decide) text
  · subst htab
    exact scanString_escaped (by decide) rfl (by decide) text
  · have hunit : unitOf b = .code b.toNat := by
      simp [unitOf, hcontrol, hbs, hff, hlf, hcr, htab]
    simp [scanString_code, hex4_control hcontrol, hunit]
  · have hunit : unitOf b = .byte b := by
      simp [unitOf, hcontrol]
    simp [scanString_plain hq hs hcontrol, hunit]

/-- A written string is scanned up to its closing quote. -/
theorem scanString_escape (s rest : List UInt8) :
    scanString (escape s ++ 34 :: rest) = some (s.map unitOf, rest) := by
  induction s with
  | nil => simp [escape]
  | cons b s ih =>
      have happ : escape (b :: s) ++ 34 :: rest =
          escapeByte b ++ (escape s ++ 34 :: rest) := by simp [escape]
      rw [happ, scanString_escapeByte, ih]
      rfl

/-- A written string has no NUL. -/
theorem zero_not_mem_escape (s : List UInt8) : (0 : UInt8) ∉ escape s := by
  intro hzero
  obtain ⟨b, -, hb⟩ := List.mem_flatMap.mp hzero
  have hhex : ∀ n < 32, hexDigit (n / 16) ≠ 0 ∧ hexDigit (n % 16) ≠ 0 := by decide
  unfold escapeByte at hb
  split_ifs at hb with _ _ _ _ _ _ _ hcontrol
  · simp at hb
  · simp at hb
  · simp at hb
  · simp at hb
  · simp at hb
  · simp at hb
  · simp at hb
  · simp [(hhex _ hcontrol).1.symm, (hhex _ hcontrol).2.symm] at hb
  · rw [← List.mem_singleton.mp hb] at hcontrol
    exact hcontrol (by decide)

/-! ## Numbers -/

/-- Reads one part of a token after another. -/
def andThen (p q : Reader (List UInt8)) : Reader (List UInt8) := fun text => do
  let (x, rest) ← p text
  let (y, rest) ← q rest
  some (x ++ y, rest)

/-- Reads a part that is there only if its first byte is. -/
def optionally (first : UInt8 → Bool) (q : Reader (List UInt8)) : Reader (List UInt8)
  | [] => some ([], [])
  | b :: rest =>
      if first b then (q rest).map fun read => (b :: read.1, read.2) else some ([], b :: rest)

/-- Reads nothing. -/
def nothing : Reader (List UInt8) := fun text => some ([], text)

/-- One digit or more. -/
def scanDigits : Reader (List UInt8) := fun text =>
  if text.takeWhile isDigit = [] then none
  else some (text.takeWhile isDigit, text.dropWhile isDigit)

/-- The integer part of a number, which has no leading zeros. -/
def scanInt : Reader (List UInt8)
  | [] => none
  | b :: rest => if b = 48 then some ([48], rest) else scanDigits (b :: rest)

/-- `.` and digits. -/
def scanFraction : Reader (List UInt8) := optionally (· == 46) scanDigits

/-- `E` or `e`, a sign, and digits. -/
def scanExponent : Reader (List UInt8) :=
  optionally (fun b => b == 69 || b == 101)
    (andThen (optionally (fun b => b == 43 || b == 45) nothing) scanDigits)

/-- The text of a number: an optional minus, the integer part, an optional fraction and an
optional exponent, each as long as the text allows. -/
def scanNumber : Reader (List UInt8) :=
  andThen (optionally (· == 45) nothing) (andThen scanInt (andThen scanFraction scanExponent))

/-- The text is a number and nothing else. -/
def IsNumber (text : List UInt8) : Prop := scanNumber text = some (text, [])

instance (text : List UInt8) : Decidable (IsNumber text) :=
  inferInstanceAs (Decidable (scanNumber text = some (text, [])))

/-- A reader that takes only bytes numbers are spelled with. -/
def Spells (p : Reader (List UInt8)) : Prop :=
  ∀ text x rest, p text = some (x, rest) → ∀ b ∈ x, isNumberByte b

theorem andThen_eq_some {p q : Reader (List UInt8)} {text z rest : List UInt8} :
    andThen p q text = some (z, rest) ↔
      ∃ x middle y, p text = some (x, middle) ∧ q middle = some (y, rest) ∧ z = x ++ y := by
  simp only [andThen, Option.bind_eq_bind, Option.bind_eq_some_iff, Option.some.injEq,
    Prod.mk.injEq, Prod.exists]
  constructor
  · rintro ⟨x, middle, hp, y, r, hq, rfl, rfl⟩
    exact ⟨x, middle, y, hp, hq, rfl⟩
  · rintro ⟨x, middle, y, hp, hq, rfl⟩
    exact ⟨x, middle, hp, y, rest, hq, rfl, rfl⟩

theorem IsDelimiter.not_digit {b : UInt8} (hb : IsDelimiter b) : isDigit b = false := by
  have h := hb.2
  simp only [isNumberByte, Bool.or_eq_false_iff] at h
  exact h.1.1.1.1.1

theorem extends_andThen {p q : Reader (List UInt8)} (hp : Extends p p) (hq : Extends q q) :
    Extends (andThen p q) (andThen p q) := by
  intro text z rest h tail htail
  obtain ⟨x, middle, y, hx, hy, rfl⟩ := andThen_eq_some.mp h
  exact andThen_eq_some.mpr
    ⟨x, middle ++ tail, y, hp text x middle hx tail htail,
      hq middle y rest hy tail htail, rfl⟩

theorem extends_optionally {first : UInt8 → Bool} {q : Reader (List UInt8)}
    (hfirst : ∀ b, first b → isNumberByte b) (hq : Extends q q) :
    Extends (optionally first q) (optionally first q) := by
  intro text x rest h tail htail
  cases text with
  | nil =>
      cases h
      cases tail with
      | nil => rfl
      | cons b tail =>
          have hskip : first b = false := by
            rw [Bool.eq_false_iff]
            intro hyes
            exact absurd (hfirst b hyes) (by simp [(htail b rfl).2])
          simp [optionally, hskip]
  | cons c text =>
      by_cases hc : first c
      · simp only [optionally, hc, if_true] at h
        obtain ⟨⟨y, r⟩, hy, heq⟩ := Option.map_eq_some_iff.mp h
        cases heq
        simp [optionally, hc, hq text y r hy tail htail]
      · simp only [optionally, hc] at h
        cases h
        simp [optionally, hc]

theorem extends_nothing : Extends nothing nothing := by
  intro text x rest h tail htail
  cases h
  rfl

theorem extends_scanDigits : Extends scanDigits scanDigits := by
  intro text x rest h tail htail
  have hdigit : ∀ b ∈ tail.head?, isDigit b = false := fun b hb => (htail b hb).not_digit
  simp only [scanDigits, takeWhile_append_of_head hdigit, dropWhile_append_of_head hdigit] at h ⊢
  split at h
  · cases h
  · rename_i hne
    cases h
    rw [if_neg hne]

theorem extends_scanInt : Extends scanInt scanInt := by
  intro text x rest h tail htail
  cases text with
  | nil => cases h
  | cons c text =>
      by_cases hc : c = 48
      · subst hc
        cases h
        rfl
      · simp only [scanInt, hc, if_false] at h
        have hrest := extends_scanDigits (c :: text) x rest h tail htail
        simpa only [scanInt, List.cons_append, hc, if_false] using hrest

/-- A number ends before a delimiter. -/
theorem extends_scanNumber : Extends scanNumber scanNumber := by
  refine extends_andThen (extends_optionally (fun b hb => ?_) extends_nothing)
    (extends_andThen extends_scanInt (extends_andThen
      (extends_optionally (fun b hb => ?_) extends_scanDigits)
      (extends_optionally (fun b hb => ?_)
        (extends_andThen (extends_optionally (fun b hb => ?_) extends_nothing)
          extends_scanDigits))))
  all_goals simp [isNumberByte] at hb ⊢; grind

theorem spells_andThen {p q : Reader (List UInt8)} (hp : Spells p) (hq : Spells q) :
    Spells (andThen p q) := by
  intro text z rest h b hb
  obtain ⟨x, middle, y, hx, hy, rfl⟩ := andThen_eq_some.mp h
  rcases List.mem_append.mp hb with hb | hb
  · exact hp text x middle hx b hb
  · exact hq middle y rest hy b hb

theorem spells_optionally {first : UInt8 → Bool} {q : Reader (List UInt8)}
    (hfirst : ∀ b, first b → isNumberByte b) (hq : Spells q) : Spells (optionally first q) := by
  intro text x rest h b hb
  cases text with
  | nil =>
      cases h
      cases hb
  | cons c text =>
      by_cases hc : first c
      · simp only [optionally, hc, if_true] at h
        obtain ⟨⟨y, r⟩, hy, heq⟩ := Option.map_eq_some_iff.mp h
        cases heq
        rcases List.mem_cons.mp hb with rfl | hb
        · exact hfirst b hc
        · exact hq text y r hy b hb
      · simp only [optionally, hc] at h
        cases h
        cases hb

theorem spells_nothing : Spells nothing := by
  intro text x rest h b hb
  cases h
  cases hb

theorem spells_scanDigits : Spells scanDigits := by
  intro text x rest h b hb
  simp only [scanDigits] at h
  split at h
  · cases h
  · cases h
    simp [isNumberByte, List.mem_takeWhile_imp hb]

theorem spells_scanInt : Spells scanInt := by
  intro text x rest h b hb
  cases text with
  | nil => cases h
  | cons c text =>
      by_cases hc : c = 48
      · subst hc
        cases h
        rw [List.mem_singleton.mp hb]
        rfl
      · simp only [scanInt, hc, if_false] at h
        exact spells_scanDigits (c :: text) x rest h b hb

theorem spells_scanNumber : Spells scanNumber := by
  refine spells_andThen (spells_optionally (fun b hb => ?_) spells_nothing)
    (spells_andThen spells_scanInt (spells_andThen
      (spells_optionally (fun b hb => ?_) spells_scanDigits)
      (spells_optionally (fun b hb => ?_)
        (spells_andThen (spells_optionally (fun b hb => ?_) spells_nothing)
          spells_scanDigits))))
  all_goals simp [isNumberByte] at hb ⊢; grind

/-- A number starts with a byte numbers are spelled with. -/
theorem IsNumber.exists_cons {text : List UInt8} (h : IsNumber text) :
    ∃ b rest, text = b :: rest ∧ isNumberByte b := by
  cases text with
  | nil => cases h
  | cons b rest => exact ⟨b, rest, rfl, spells_scanNumber _ _ _ h b (by simp)⟩

theorem IsNumber.zero_not_mem {text : List UInt8} (h : IsNumber text) : (0 : UInt8) ∉ text :=
  fun hzero => absurd (spells_scanNumber _ _ _ h 0 hzero) (by decide)

/-! ## Printed integers -/

/-- Only zero is printed with a leading zero. -/
theorem head_toDigits {n : Nat} (h : (Nat.toDigits 10 n).head? = some '0') : n = 0 := by
  induction n using Nat.strongRecOn with
  | ind n ih =>
      by_cases hn : n < 10
      · have hone : ∀ m < 10, Nat.digitChar m = '0' → m = 0 := by decide
        rw [Nat.toDigits_of_lt_base hn] at h
        exact hone n hn (by simpa using h)
      · rw [Nat.toDigits_of_base_le (by decide) (by omega),
          List.head?_append_of_ne_nil _ Nat.toDigits_ne_nil] at h
        have hdiv := ih (n / 10) (by omega) h
        omega

theorem head_decimal {n : Nat} {rest : List UInt8} (h : decimal n = 48 :: rest) : n = 0 := by
  obtain ⟨c, chars, hchars⟩ := List.exists_cons_of_ne_nil (Nat.toDigits_ne_nil (n := n) (b := 10))
  have hdigit := Nat.isDigit_of_mem_toDigits (b := 10) (n := n) (c := c) (by decide) (by decide)
    (by simp [hchars])
  have hc : c.toNat = 48 := by
    have hrange : 48 ≤ c.toNat ∧ c.toNat ≤ 57 := by
      simpa [Char.isDigit, UInt32.le_iff_toNat_le] using hdigit
    have hbyte : UInt8.ofNat c.toNat = 48 := by
      simp only [decimal, ascii, hchars, List.map_cons, List.cons.injEq] at h
      exact h.1
    have htoNat := congrArg UInt8.toNat hbyte
    simp only [UInt8.toNat_ofNat', UInt8.reduceToNat] at htoNat
    omega
  refine head_toDigits ?_
  rw [hchars, List.head?_cons]
  congr 1
  exact Char.toNat_inj.mp hc

theorem scanInt_decimal (n : Nat) : scanInt (decimal n) = some (decimal n, []) := by
  have hrun : (decimal n).takeWhile isDigit = decimal n :=
    List.takeWhile_eq_self_iff.mpr fun b hb => isDigit_of_mem_decimal hb
  have hdrop : (decimal n).dropWhile isDigit = [] :=
    List.dropWhile_eq_nil_iff.mpr fun b hb => isDigit_of_mem_decimal hb
  obtain ⟨b, rest, hcons⟩ := List.exists_cons_of_ne_nil (decimal_ne_nil n)
  by_cases hb : b = 48
  · subst hb
    have hzero : n = 0 := head_decimal hcons
    subst hzero
    rfl
  · have hscan : scanInt (b :: rest) = scanDigits (b :: rest) := by simp [scanInt, hb]
    rw [hcons] at hrun hdrop ⊢
    simp [hscan, scanDigits, hrun, hdrop]

/-- The text of an integer. -/
def integerText (n : Int) : List UInt8 :=
  if n < 0 then 45 :: decimal n.natAbs else decimal n.natAbs

/-- The printed text of an integer is a number. -/
theorem isNumber_integerText (n : Int) : IsNumber (integerText n) := by
  have htail : andThen scanInt (andThen scanFraction scanExponent) (decimal n.natAbs) =
      some (decimal n.natAbs, []) :=
    andThen_eq_some.mpr ⟨decimal n.natAbs, [], [], scanInt_decimal n.natAbs, rfl, by simp⟩
  unfold integerText
  split
  · exact andThen_eq_some.mpr ⟨[45], decimal n.natAbs, decimal n.natAbs, rfl, htail, rfl⟩
  · refine andThen_eq_some.mpr ⟨[], decimal n.natAbs, decimal n.natAbs, ?_, htail, rfl⟩
    obtain ⟨b, rest, hcons⟩ := List.exists_cons_of_ne_nil (decimal_ne_nil n.natAbs)
    have hb : isDigit b := isDigit_of_mem_decimal (n := n.natAbs) (by simp [hcons])
    have hminus : b ≠ 45 := by
      intro hminus
      simp [hminus, isDigit] at hb
    simp [hcons, optionally, hminus]

end Utilpp.Lib.Json

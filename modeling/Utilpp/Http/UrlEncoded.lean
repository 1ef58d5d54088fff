import Mathlib.Computability.Language

/-!
# The test for encoded URLs

`IsNotUrlEncoded` walks over a URL and skips the two digits of a percent triplet. A read behind the
end of the string has no result here. `isNotUrlEncoded_iff` says which strings it lets through: the
concatenations of the characters and triplets of RFC 3986.
-/

namespace Utilpp.Http

open scoped Computability

/-- `std::isalnum` in the C locale. -/
def isalnum (c : UInt8) : Bool :=
  (0x30 ≤ c && c ≤ 0x39) || (0x41 ≤ c && c ≤ 0x5A) || (0x61 ≤ c && c ≤ 0x7A)

/-- `std::isxdigit` -/
def isxdigit (c : UInt8) : Bool :=
  (0x30 ≤ c && c ≤ 0x39) || (0x41 ≤ c && c ≤ 0x46) || (0x61 ≤ c && c ≤ 0x66)

/-- `IsUnreservedChar` -/
def isUnreservedChar (c : UInt8) : Bool :=
  -- - _ . ~
  isalnum c || c == 0x2D || c == 0x5F || c == 0x2E || c == 0x7E

/-- The other characters that the loop goes on behind. -/
def passesAsReserved (c : UInt8) : Bool :=
  -- : / ? #
  c == 0x3A || c == 0x2F || c == 0x3F || c == 0x23 ||
  -- [ ] @ !
  c == 0x5B || c == 0x5D || c == 0x40 || c == 0x21 ||
  -- $ & ' (
  c == 0x24 || c == 0x26 || c == 0x27 || c == 0x28 ||
  -- ) * + ,
  c == 0x29 || c == 0x2A || c == 0x2B || c == 0x2C ||
  -- ; =
  c == 0x3B || c == 0x3D

/-- Two digits follow the percent sign at `i`. The second is read when the first is a digit. -/
def hasTriplet (url : List UInt8) (i : Nat) : Option Bool :=
  if i + 2 < url.length then do
    let high ← url[i + 1]?
    if isxdigit high then
      let low ← url[i + 2]?
      return isxdigit low
    else return false
  else some false

/-- The loop of `IsNotUrlEncoded` from `i` on. -/
def isNotUrlEncodedFrom (url : List UInt8) (i : Nat) : Option Bool :=
  if h : i < url.length then do
    let c ← url[i]?
    if isUnreservedChar c then isNotUrlEncodedFrom url (i + 1)
    else if passesAsReserved c then isNotUrlEncodedFrom url (i + 1)
    else if c = 0x25 then
      if ← hasTriplet url i then isNotUrlEncodedFrom url (i + 3)
      else return true
    else return true
  else some false
termination_by url.length - i

/-- `IsNotUrlEncoded` -/
def isNotUrlEncoded (url : List UInt8) : Option Bool := isNotUrlEncodedFrom url 0

/-! ## The characters of RFC 3986 -/

/-- `ALPHA` or `DIGIT` or one of the four marks. -/
def IsUnreserved (c : UInt8) : Prop :=
  (0x41 ≤ c.toNat ∧ c.toNat ≤ 0x5A) ∨ (0x61 ≤ c.toNat ∧ c.toNat ≤ 0x7A) ∨
    (0x30 ≤ c.toNat ∧ c.toNat ≤ 0x39) ∨ c ∈ [0x2D, 0x2E, 0x5F, 0x7E]

/-- `gen-delims` -/
def genDelims : List UInt8 := [0x3A, 0x2F, 0x3F, 0x23, 0x5B, 0x5D, 0x40]

/-- `sub-delims` -/
def subDelims : List UInt8 :=
  [0x21, 0x24, 0x26, 0x27, 0x28, 0x29, 0x2A, 0x2B, 0x2C, 0x3B, 0x3D]

/-- `reserved` -/
def IsReserved (c : UInt8) : Prop := c ∈ genDelims ∨ c ∈ subDelims

/-- `HEXDIG`, in either case. -/
def IsHexDigit (c : UInt8) : Prop :=
  (0x30 ≤ c.toNat ∧ c.toNat ≤ 0x39) ∨ (0x41 ≤ c.toNat ∧ c.toNat ≤ 0x46) ∨
    (0x61 ≤ c.toNat ∧ c.toNat ≤ 0x66)

/-- What an encoded URL is made of. -/
inductive IsPiece : List UInt8 → Prop where
  | unreserved {c : UInt8} : IsUnreserved c → IsPiece [c]
  | reserved {c : UInt8} : IsReserved c → IsPiece [c]
  | triplet {high low : UInt8} : IsHexDigit high → IsHexDigit low → IsPiece [0x25, high, low]

/-- The pieces as a language. -/
def pieces : Language UInt8 := {piece | IsPiece piece}

theorem isUnreservedChar_iff (c : UInt8) : isUnreservedChar c = true ↔ IsUnreserved c := by
  have hmarks : [0x2D, 0x5F, 0x2E, 0x7E].Perm ([0x2D, 0x2E, 0x5F, 0x7E] : List UInt8) := by decide
  rw [IsUnreserved, ← hmarks.mem_iff]
  simp only [isUnreservedChar, isalnum, Bool.or_eq_true, Bool.and_eq_true, decide_eq_true_eq,
    beq_iff_eq, UInt8.le_iff_toNat_le, List.mem_cons, List.not_mem_nil, or_false, or_assoc]
  -- the digits come first in the source
  exact or_left_comm.trans (or_congr_right or_left_comm)

theorem passesAsReserved_iff (c : UInt8) : passesAsReserved c = true ↔ IsReserved c := by
  have hperm : [0x3A, 0x2F, 0x3F, 0x23, 0x5B, 0x5D, 0x40, 0x21, 0x24, 0x26, 0x27, 0x28, 0x29, 0x2A,
      0x2B, 0x2C, 0x3B, 0x3D].Perm (genDelims ++ subDelims) := by decide
  rw [IsReserved, ← List.mem_append, ← hperm.mem_iff]
  simp only [passesAsReserved, Bool.or_eq_true, beq_iff_eq, List.mem_cons, List.not_mem_nil,
    or_false, or_assoc]

theorem isxdigit_iff (c : UInt8) : isxdigit c = true ↔ IsHexDigit c := by
  simp only [isxdigit, IsHexDigit, Bool.or_eq_true, Bool.and_eq_true, decide_eq_true_eq,
    UInt8.le_iff_toNat_le, or_assoc]
  rfl

/-! The percent sign is none of them. -/

theorem IsUnreserved.ne_percent {c : UInt8} (h : IsUnreserved c) : c ≠ 0x25 := by
  rintro rfl
  revert h
  simp [IsUnreserved]

theorem IsReserved.ne_percent {c : UInt8} (h : IsReserved c) : c ≠ 0x25 := by
  rintro rfl
  revert h
  simp [IsReserved, genDelims, subDelims]

theorem IsHexDigit.ne_percent {c : UInt8} (h : IsHexDigit c) : c ≠ 0x25 := by
  rintro rfl
  revert h
  simp [IsHexDigit]

/-! ## Concatenations of pieces -/

theorem cons_mem_pieces {c : UInt8} {rest : List UInt8} (h : c :: rest ∈ pieces∗) :
    ∃ piece tail, IsPiece piece ∧ tail ∈ pieces∗ ∧ c :: rest = piece ++ tail := by
  obtain ⟨parts, hparts, hpieces⟩ := Language.mem_kstar.mp h
  cases parts with
  | nil => cases hparts
  | cons piece parts =>
      exact ⟨piece, parts.flatten, hpieces piece List.mem_cons_self,
        Language.join_mem_kstar fun part hmem => hpieces part (List.mem_cons_of_mem _ hmem), hparts⟩

theorem piece_append_mem {piece tail : List UInt8} (hpiece : IsPiece piece)
    (htail : tail ∈ pieces∗) : piece ++ tail ∈ pieces∗ := by
  obtain ⟨parts, rfl, hpieces⟩ := Language.mem_kstar.mp htail
  refine Language.mem_kstar.mpr ⟨piece :: parts, rfl, fun part hmem => ?_⟩
  rcases List.mem_cons.mp hmem with rfl | hmem
  · exact hpiece
  · exact hpieces part hmem

/-- A character that stands for itself goes before any concatenation. -/
theorem cons_mem_pieces_iff {c : UInt8} (hc : IsUnreserved c ∨ IsReserved c) (rest : List UInt8) :
    c :: rest ∈ pieces∗ ↔ rest ∈ pieces∗ := by
  have hne : c ≠ 0x25 := hc.elim IsUnreserved.ne_percent IsReserved.ne_percent
  constructor
  · intro h
    obtain ⟨piece, tail, hpiece, htail, heq⟩ := cons_mem_pieces h
    cases hpiece with
    | unreserved | reserved =>
        cases heq
        exact htail
    | triplet =>
        cases heq
        exact absurd rfl hne
  · intro h
    exact piece_append_mem (hc.elim .unreserved .reserved) h

/-- A percent sign begins a triplet. -/
theorem percent_mem_pieces_iff (rest : List UInt8) :
    0x25 :: rest ∈ pieces∗ ↔ ∃ high low tail, rest = high :: low :: tail ∧
      IsHexDigit high ∧ IsHexDigit low ∧ tail ∈ pieces∗ := by
  constructor
  · intro h
    obtain ⟨piece, tail, hpiece, htail, heq⟩ := cons_mem_pieces h
    cases hpiece with
    | unreserved hc | reserved hc =>
        cases heq
        exact absurd rfl hc.ne_percent
    | triplet hhigh hlow =>
        cases heq
        exact ⟨_, _, tail, rfl, hhigh, hlow, htail⟩
  · rintro ⟨high, low, tail, rfl, hhigh, hlow, htail⟩
    exact piece_append_mem (.triplet hhigh hlow) htail

theorem not_mem_pieces {c : UInt8} {rest : List UInt8} (hunreserved : ¬ IsUnreserved c)
    (hreserved : ¬ IsReserved c) (hne : c ≠ 0x25) : c :: rest ∉ pieces∗ := by
  intro h
  obtain ⟨piece, tail, hpiece, -, heq⟩ := cons_mem_pieces h
  cases hpiece with
  | unreserved hc =>
      cases heq
      exact hunreserved hc
  | reserved hc =>
      cases heq
      exact hreserved hc
  | triplet =>
      cases heq
      exact hne rfl

/-- In a concatenation every percent sign, wherever it stands, is followed by two digits. -/
theorem digits_of_mem_pieces {url : List UInt8} (h : url ∈ pieces∗) {before after : List UInt8}
    (heq : url = before ++ 0x25 :: after) :
    ∃ high low tail, after = high :: low :: tail ∧ IsHexDigit high ∧ IsHexDigit low := by
  obtain ⟨parts, rfl, hpieces⟩ := Language.mem_kstar.mp h
  clear h
  induction parts generalizing before with
  | nil =>
      have hlength := congrArg List.length heq
      simp at hlength
  | cons piece parts ih =>
      have hrest := fun part hmem => hpieces part (List.mem_cons_of_mem _ hmem)
      have hpiece := hpieces piece List.mem_cons_self
      rw [List.flatten_cons] at heq
      cases hpiece with
      | @unreserved c hc | @reserved c hc =>
          cases before with
          | nil =>
              exact absurd (List.cons.inj heq).1 hc.ne_percent
          | cons first before => exact ih hrest (List.cons.inj heq).2
      | @triplet high low hhigh hlow =>
          cases before with
          | nil => exact ⟨high, low, parts.flatten, (List.cons.inj heq).2.symm, hhigh, hlow⟩
          | cons first before =>
          cases before with
          | nil => exact absurd (List.cons.inj (List.cons.inj heq).2).1 hhigh.ne_percent
          | cons second before =>
          cases before with
          | nil =>
              exact absurd (List.cons.inj (List.cons.inj (List.cons.inj heq).2).2).1 hlow.ne_percent
          | cons third before =>
              exact ih hrest (List.cons.inj (List.cons.inj (List.cons.inj heq).2).2).2

/-! ## The walk -/

/-- The test for the two digits reads inside the string only. -/
theorem hasTriplet_spec (url : List UInt8) (i : Nat) :
    ∃ b, hasTriplet url i = some b ∧ (b = true ↔ ∃ high low tail,
      url.drop (i + 1) = high :: low :: tail ∧ IsHexDigit high ∧ IsHexDigit low ∧
        tail = url.drop (i + 3)) := by
  unfold hasTriplet
  by_cases hi : i + 2 < url.length
  · have hdrop : url.drop (i + 1) = url[i + 1] :: url[i + 2] :: url.drop (i + 3) := by
      rw [List.drop_eq_getElem_cons (by omega), List.drop_eq_getElem_cons hi]
    rw [if_pos hi, hdrop, List.getElem?_eq_getElem (by omega), List.getElem?_eq_getElem hi]
    simp only [Option.bind_eq_bind, Option.bind_some, List.cons.injEq, ← isxdigit_iff]
    by_cases hhigh : isxdigit url[i + 1] = true
    · refine ⟨_, if_pos hhigh, fun hlow => ⟨_, _, _, ⟨rfl, rfl, rfl⟩, hhigh, hlow, rfl⟩, ?_⟩
      rintro ⟨high, low, tail, ⟨rfl, rfl, rfl⟩, -, hlow, -⟩
      exact hlow
    · refine ⟨_, if_neg hhigh, fun h => absurd h Bool.false_ne_true, ?_⟩
      rintro ⟨high, low, tail, ⟨rfl, rfl, rfl⟩, h, -⟩
      exact absurd h hhigh
  · refine ⟨false, if_neg hi, fun h => absurd h Bool.false_ne_true, ?_⟩
    rintro ⟨high, low, tail, hdrop, -⟩
    have hlength := congrArg List.length hdrop
    rw [List.length_drop, List.length_cons, List.length_cons] at hlength
    omega

/-- From every place the walk ends with a result, which says whether the rest is encoded. -/
theorem isNotUrlEncodedFrom_spec (url : List UInt8) (i : Nat) :
    ∃ b, isNotUrlEncodedFrom url i = some b ∧ (b = false ↔ url.drop i ∈ pieces∗) := by
  rw [isNotUrlEncodedFrom]
  by_cases hi : i < url.length
  · rw [dif_pos hi, List.getElem?_eq_getElem hi, List.drop_eq_getElem_cons hi]
    simp only [Option.bind_eq_bind, Option.bind_some]
    by_cases hunreserved : isUnreservedChar url[i] = true
    · rw [if_pos hunreserved, cons_mem_pieces_iff (.inl ((isUnreservedChar_iff _).mp hunreserved))]
      exact isNotUrlEncodedFrom_spec url (i + 1)
    rw [if_neg hunreserved]
    by_cases hreserved : passesAsReserved url[i] = true
    · rw [if_pos hreserved, cons_mem_pieces_iff (.inr ((passesAsReserved_iff _).mp hreserved))]
      exact isNotUrlEncodedFrom_spec url (i + 1)
    rw [if_neg hreserved]
    by_cases hpercent : url[i] = 0x25
    · rw [if_pos hpercent, hpercent, percent_mem_pieces_iff]
      obtain ⟨b, htriplet, hb⟩ := hasTriplet_spec url i
      rw [htriplet, Option.bind_some]
      by_cases h : b = true
      · obtain ⟨high, low, tail, hdrop, hhigh, hlow, rfl⟩ := hb.mp h
        obtain ⟨result, hrest, hresult⟩ := isNotUrlEncodedFrom_spec url (i + 3)
        refine ⟨result, (if_pos h).trans hrest, hresult.trans ⟨fun hmem => ?_, ?_⟩⟩
        · exact ⟨high, low, _, hdrop, hhigh, hlow, hmem⟩
        · rintro ⟨high', low', tail', hdrop', -, -, hmem⟩
          cases hdrop.symm.trans hdrop'
          exact hmem
      · refine ⟨true, if_neg h, fun h => absurd h.symm Bool.false_ne_true, ?_⟩
        rintro ⟨high, low, tail, hdrop, hhigh, hlow, -⟩
        refine absurd (hb.mpr ⟨high, low, tail, hdrop, hhigh, hlow, ?_⟩) h
        have := congrArg (List.drop 2) hdrop
        rw [List.drop_drop] at this
        exact this.symm
    · rw [if_neg hpercent]
      refine ⟨true, rfl, fun h => absurd h.symm Bool.false_ne_true, fun h => ?_⟩
      exact absurd h (not_mem_pieces (mt (isUnreservedChar_iff _).mpr hunreserved)
        (mt (passesAsReserved_iff _).mpr hreserved) hpercent)
  · rw [dif_neg hi, List.drop_of_length_le (Nat.le_of_not_lt hi)]
    exact ⟨false, rfl, fun _ => Language.nil_mem_kstar _, fun _ => rfl⟩
termination_by url.length - i

/-- Every string has a result, so that no byte behind it is read. It is false for the
concatenations of pieces, and true when two digits are missing behind a percent sign. -/
theorem isNotUrlEncoded_iff (url : List UInt8) :
    ∃ b, isNotUrlEncoded url = some b ∧ (b = false ↔ url ∈ pieces∗) ∧
      ∀ before after, url = before ++ 0x25 :: after →
        (¬ ∃ high low tail, after = high :: low :: tail ∧ IsHexDigit high ∧ IsHexDigit low) →
        b = true := by
  obtain ⟨b, hresult, hb⟩ := isNotUrlEncodedFrom_spec url 0
  refine ⟨b, hresult, hb, fun before after heq hmissing => ?_⟩
  by_contra hfalse
  have hmem : url ∈ pieces∗ := hb.mp (Bool.eq_false_iff.mpr hfalse)
  exact hmissing (digits_of_mem_pieces hmem heq)

end Utilpp.Http

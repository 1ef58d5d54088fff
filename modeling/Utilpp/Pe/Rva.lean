import Mathlib.Data.UInt
import Mathlib.Order.CompletePartialOrder
import Mathlib.Order.Interval.Set.Disjoint

/-!
# Addresses of an image and places in its file

`Rva2Offset` goes through a section table for the place in the file of an address of the image. It
stops at the first section whose end is not below the address, and does not ask where that section
begins. The counter of the loop is an `int`, so it cannot go behind section `2 ^ 31 - 1`; there is
no result then. The fields of a section are `uint32_t` and wrap.
-/

namespace Utilpp.Pe

/-- What `Rva2Offset` reads of a `sectionHeader`. -/
structure SectionHeader where
  virtualAddress : UInt32
  sizeOfRawData : UInt32
  pointerToRawData : UInt32
deriving DecidableEq, Repr

/-- `x >= rva`, where `x` is the end of the section. -/
def SectionHeader.reaches (rva : UInt32) (s : SectionHeader) : Bool :=
  decide (s.virtualAddress + s.sizeOfRawData ≥ rva)

/-- The loop of `Rva2Offset` from section `i` on. -/
def rva2OffsetFrom (rva : UInt32) : Nat → List SectionHeader → Option Int32
  | _, [] => some (-1)
  | i, s :: rest =>
      let x := s.virtualAddress + s.sizeOfRawData
      if x ≥ rva then
        some (s.pointerToRawData + (rva + s.sizeOfRawData) - x).toInt32
      else if i + 1 < 2 ^ 31 then
        rva2OffsetFrom rva (i + 1) rest
      else none

/-- The place in the file of an address, and -1 for an address without one. -/
def rva2Offset (sections : List SectionHeader) (rva : UInt32) : Option Int32 :=
  rva2OffsetFrom rva 0 sections

/-! ## What a table says -/

/-- Two values of `unsigned int` that are the same as an `int` are the same. -/
theorem toInt32_inj {a b : UInt32} : a.toInt32 = b.toInt32 ↔ a = b :=
  ⟨fun h => congrArg Int32.toUInt32 h, congrArg _⟩

namespace SectionHeader

/-- The addresses of the bytes that the file has of a section. -/
def range (s : SectionHeader) : Set Nat :=
  Set.Ico s.virtualAddress.toNat (s.virtualAddress.toNat + s.sizeOfRawData.toNat)

/-- How far a section is moved between the image and the file. -/
def shift (s : SectionHeader) : UInt32 := s.pointerToRawData - s.virtualAddress

/-- `PointerToRawData + (rva - VirtualAddress)`, as an `int`. -/
def offset (s : SectionHeader) (rva : UInt32) : Int32 :=
  (s.pointerToRawData + (rva - s.virtualAddress)).toInt32

variable {s t : SectionHeader} {rva : UInt32}

theorem offset_inj : s.offset rva = t.offset rva ↔ s.shift = t.shift := by
  rw [offset, offset, toInt32_inj, shift, shift]
  constructor <;> intro h <;> grind

theorem offset_eq_neg_one :
    s.offset rva = -1 ↔ s.virtualAddress = rva + s.pointerToRawData + 1 := by
  rw [offset, show (-1 : Int32) = (-1 : UInt32).toInt32 from rfl, toInt32_inj]
  constructor <;> intro h <;> grind

/-- A section with the address ends behind it. -/
theorem reaches_of_mem
    (hsum : s.virtualAddress.toNat + s.sizeOfRawData.toNat < 2 ^ 32)
    (h : rva.toNat ∈ s.range) : s.reaches rva = true := by
  refine decide_eq_true ?_
  rw [ge_iff_le, UInt32.le_iff_toNat_le, UInt32.toNat_add, Nat.mod_eq_of_lt hsum]
  exact h.2.le

end SectionHeader

open SectionHeader

/-- What a table whose sections do not overlap says about an address. -/
structure Translates (sections : List SectionHeader) (rva : UInt32) (result : Option Int32) :
    Prop where
  inside : ∀ s ∈ sections, rva.toNat ∈ s.range → result = some (s.offset rva)
  outside : (∀ s ∈ sections, rva.toNat ∉ s.range) → result = some (-1)

/-! ## The loop -/

variable {rva : UInt32}

theorem rva2OffsetFrom_skip {s : SectionHeader} (h : s.reaches rva = false) (i : Nat)
    (rest : List SectionHeader) :
    rva2OffsetFrom rva i (s :: rest) =
      if i + 1 < 2 ^ 31 then rva2OffsetFrom rva (i + 1) rest else none :=
  if_neg (of_decide_eq_false h)

theorem rva2OffsetFrom_stop {s : SectionHeader} (h : s.reaches rva = true) (i : Nat)
    (rest : List SectionHeader) :
    rva2OffsetFrom rva i (s :: rest) = some (s.offset rva) := by
  have hcancel : s.pointerToRawData + (rva + s.sizeOfRawData) -
      (s.virtualAddress + s.sizeOfRawData) = s.pointerToRawData + (rva - s.virtualAddress) := by
    grind
  rw [rva2OffsetFrom, if_pos (of_decide_eq_true h), hcancel, offset]

/-- No section ends behind the address. -/
theorem rva2OffsetFrom_end {sections : List SectionHeader}
    (h : ∀ s ∈ sections, s.reaches rva = false) {i : Nat} (hi : i < 2 ^ 31) :
    rva2OffsetFrom rva i sections =
      if i + sections.length < 2 ^ 31 then some (-1) else none := by
  induction sections generalizing i with
  | nil => rw [List.length_nil, Nat.add_zero, if_pos hi, rva2OffsetFrom]
  | cons s rest ih =>
      obtain ⟨hs, hrest⟩ := List.forall_mem_cons.mp h
      rw [rva2OffsetFrom_skip hs, List.length_cons]
      by_cases hnext : i + 1 < 2 ^ 31
      · rw [if_pos hnext, ih hrest hnext, Nat.add_assoc, Nat.add_comm 1]
      · rw [if_neg hnext, if_neg (by omega)]

/-- The first section that ends behind the address is `s`. -/
theorem rva2OffsetFrom_append {before : List SectionHeader} {s : SectionHeader}
    (h : ∀ t ∈ before, t.reaches rva = false) (hs : s.reaches rva = true)
    (after : List SectionHeader) {i : Nat} (hi : i < 2 ^ 31) :
    rva2OffsetFrom rva i (before ++ s :: after) =
      if i + before.length < 2 ^ 31 then some (s.offset rva) else none := by
  induction before generalizing i with
  | nil => rw [List.nil_append, rva2OffsetFrom_stop hs, List.length_nil, Nat.add_zero, if_pos hi]
  | cons t rest ih =>
      obtain ⟨ht, hrest⟩ := List.forall_mem_cons.mp h
      rw [List.cons_append, rva2OffsetFrom_skip ht, List.length_cons]
      by_cases hnext : i + 1 < 2 ^ 31
      · rw [if_pos hnext, ih hrest hnext, Nat.add_assoc, Nat.add_comm 1]
      · rw [if_neg hnext, if_neg (by omega)]

theorem rva2Offset_of_find?_none {sections : List SectionHeader}
    (h : sections.find? (reaches rva) = none) :
    rva2Offset sections rva = if sections.length < 2 ^ 31 then some (-1) else none := by
  have hall : ∀ s ∈ sections, s.reaches rva = false :=
    fun s hs => Bool.eq_false_iff.mpr (List.find?_eq_none.mp h s hs)
  rw [rva2Offset, rva2OffsetFrom_end hall (by decide), Nat.zero_add]

/-- The loop comes to an end before its counter does. -/
def Scanned (sections : List SectionHeader) (rva : UInt32) : Prop :=
  sections.length < 2 ^ 31 ∨ ∃ s ∈ sections.take (2 ^ 31), s.reaches rva = true

theorem rva2Offset_of_find?_some {sections : List SectionHeader} {s : SectionHeader}
    (h : sections.find? (reaches rva) = some s) :
    (Scanned sections rva ∧ rva2Offset sections rva = some (s.offset rva)) ∨
      (¬ Scanned sections rva ∧ rva2Offset sections rva = none) := by
  obtain ⟨hs, before, after, rfl, hbefore⟩ := List.find?_eq_some_iff_append.mp h
  have hall : ∀ t ∈ before, t.reaches rva = false := fun t ht => by simpa using hbefore t ht
  have hoffset := rva2OffsetFrom_append hall hs after (show 0 < 2 ^ 31 by decide)
  rw [Nat.zero_add] at hoffset
  by_cases hlt : before.length < 2 ^ 31
  · rw [if_pos hlt] at hoffset
    refine .inl ⟨.inr ⟨s, ?_, hs⟩, hoffset⟩
    obtain ⟨k, hk⟩ := Nat.exists_eq_add_of_lt hlt
    rw [hk, Nat.add_assoc, List.take_length_add_append, List.take_succ_cons]
    exact List.mem_append_right _ List.mem_cons_self
  · rw [if_neg hlt] at hoffset
    refine .inr ⟨?_, hoffset⟩
    rintro (hshort | ⟨t, ht, hreach⟩)
    · rw [List.length_append] at hshort
      omega
    · rw [List.take_append_of_le_length (Nat.le_of_not_lt hlt)] at ht
      rw [hall t (List.mem_of_mem_take ht)] at hreach
      cases hreach

/-! ## When the answer is right -/

variable {sections : List SectionHeader}

/-- An address is in one section only. -/
theorem eq_of_mem_range (hapart : sections.Pairwise fun s t => Disjoint s.range t.range)
    {s t : SectionHeader} (hs : s ∈ sections) (ht : t ∈ sections)
    (hmem : rva.toNat ∈ s.range) (hmem' : rva.toNat ∈ t.range) : s = t := by
  have hone : sections.Pairwise fun s t => rva.toNat ∈ s.range → rva.toNat ∈ t.range → s = t :=
    hapart.imp fun h hs ht => absurd ht (Set.disjoint_left.mp h hs)
  have hother : sections.Pairwise fun t s => rva.toNat ∈ s.range → rva.toNat ∈ t.range → s = t :=
    hone.imp fun h hs ht => (h ht hs).symm
  exact List.Pairwise.forall_of_forall_of_flip (fun _ _ _ _ => rfl) hone hother hs ht hmem hmem'

theorem translates_of_mem (hapart : sections.Pairwise fun s t => Disjoint s.range t.range)
    {s : SectionHeader} (hs : s ∈ sections) (hmem : rva.toNat ∈ s.range)
    (result : Option Int32) :
    Translates sections rva result ↔ result = some (s.offset rva) := by
  constructor
  · intro h
    exact h.inside s hs hmem
  · intro h
    refine ⟨fun t ht htmem => ?_, fun hnone => absurd hmem (hnone s hs)⟩
    rw [eq_of_mem_range hapart ht hs htmem hmem, h]

theorem translates_of_forall_not_mem (hnone : ∀ s ∈ sections, rva.toNat ∉ s.range)
    (result : Option Int32) : Translates sections rva result ↔ result = some (-1) :=
  ⟨fun h => h.outside hnone, fun h => ⟨fun s hs hmem => absurd hmem (hnone s hs), fun _ => h⟩⟩

/-- The section that the loop stops at is moved by as much as the one that has the address, or
there is none and the result happens to be -1. -/
def Meets (sections : List SectionHeader) (rva : UInt32) (s : SectionHeader) : Prop :=
  (∃ t ∈ sections, rva.toNat ∈ t.range ∧ t.shift = s.shift) ∨
    ((∀ t ∈ sections, rva.toNat ∉ t.range) ∧ s.virtualAddress = rva + s.pointerToRawData + 1)

/-- The offset in the section `s` is the right answer. -/
theorem translates_offset_iff
    (hapart : sections.Pairwise fun s t => Disjoint s.range t.range) (s : SectionHeader) :
    Translates sections rva (some (s.offset rva)) ↔ Meets sections rva s := by
  by_cases hin : ∃ t ∈ sections, rva.toNat ∈ t.range
  · obtain ⟨t, ht, hmem⟩ := hin
    rw [translates_of_mem hapart ht hmem, Option.some.injEq, offset_inj]
    constructor
    · intro h
      exact .inl ⟨t, ht, hmem, h.symm⟩
    · rintro (⟨u, hu, humem, hshift⟩ | ⟨hnone, -⟩)
      · rw [← hshift, eq_of_mem_range hapart hu ht humem hmem]
      · exact absurd hmem (hnone t ht)
  · have hnone : ∀ t ∈ sections, rva.toNat ∉ t.range := fun t ht hmem => hin ⟨t, ht, hmem⟩
    rw [translates_of_forall_not_mem hnone, Option.some.injEq, offset_eq_neg_one]
    constructor
    · intro h
      exact .inr ⟨hnone, h⟩
    · rintro (⟨u, hu, humem, -⟩ | ⟨-, h⟩)
      · exact absurd humem (hnone u hu)
      · exact h

/-- A call without a result answers nothing. -/
theorem not_translates_none : ¬ Translates sections rva none := by
  intro h
  by_cases hin : ∃ t ∈ sections, rva.toNat ∈ t.range
  · obtain ⟨t, ht, hmem⟩ := hin
    cases h.inside t ht hmem
  · cases h.outside fun t ht hmem => hin ⟨t, ht, hmem⟩

/-- `Rva2Offset` is right about an address exactly when the first section that does not end below
it has the address, or gives the same result by chance. -/
theorem rva2Offset_iff
    (hsums : ∀ s ∈ sections, s.virtualAddress.toNat + s.sizeOfRawData.toNat < 2 ^ 32)
    (hapart : sections.Pairwise fun s t => Disjoint s.range t.range) (rva : UInt32) :
    Translates sections rva (rva2Offset sections rva) ↔
      Scanned sections rva ∧
        ∀ s, sections.find? (reaches rva) = some s → Meets sections rva s := by
  cases hfind : sections.find? (reaches rva) with
  | none =>
      have hnot : ∀ s ∈ sections, ¬ s.reaches rva = true := List.find?_eq_none.mp hfind
      have hout : ∀ s ∈ sections, rva.toNat ∉ s.range :=
        fun s hs hmem => hnot s hs (reaches_of_mem (hsums s hs) hmem)
      have hscanned : Scanned sections rva ↔ sections.length < 2 ^ 31 := by
        refine ⟨fun h => h.resolve_right ?_, .inl⟩
        rintro ⟨s, hs, hreach⟩
        exact hnot s (List.mem_of_mem_take hs) hreach
      rw [translates_of_forall_not_mem hout, rva2Offset_of_find?_none hfind, hscanned]
      constructor
      · intro h
        refine ⟨?_, fun _ hs => nomatch hs⟩
        by_contra hlong
        rw [if_neg hlong] at h
        cases h
      · rintro ⟨hshort, -⟩
        rw [if_pos hshort]
  | some s =>
      rcases rva2Offset_of_find?_some hfind with ⟨hscanned, hresult⟩ | ⟨hscanned, hresult⟩
      · rw [hresult, translates_offset_iff hapart]
        constructor
        · intro h
          refine ⟨hscanned, fun t ht => ?_⟩
          cases ht
          exact h
        · rintro ⟨-, h⟩
          exact h s rfl
      · rw [hresult]
        exact ⟨fun h => absurd h not_translates_none, fun h => absurd h.1 hscanned⟩

/-- Two sections side by side. -/
def sideBySide : List SectionHeader := [⟨0x1000, 0x200, 0x400⟩, ⟨0x1200, 0x200, 0x800⟩]

theorem sideBySide_apart : sideBySide.Pairwise fun s t => Disjoint s.range t.range :=
  List.pairwise_pair.mpr (Set.Ico_disjoint_Ico.mpr (by decide))

theorem rva2Offset_sideBySide :
    Translates sideBySide 0x1210 (rva2Offset sideBySide 0x1210) ↔
      Scanned sideBySide 0x1210 ∧
        ∀ s, sideBySide.find? (reaches 0x1210) = some s → Meets sideBySide 0x1210 s :=
  rva2Offset_iff (by decide) sideBySide_apart 0x1210

/-- The first address of a section is taken for the end of the one in front of it, and an address
in front of all sections for one of the first section. -/
theorem rva2Offset_wrong :
    (∀ s ∈ sideBySide, s.virtualAddress.toNat + s.sizeOfRawData.toNat < 2 ^ 32) ∧
      sideBySide.Pairwise (fun s t => Disjoint s.range t.range) ∧
      ¬ Translates sideBySide 0x1200 (rva2Offset sideBySide 0x1200) ∧
      ¬ Translates sideBySide 0x10 (rva2Offset sideBySide 0x10) := by
  refine ⟨by decide, sideBySide_apart, fun h => ?_, fun h => ?_⟩
  · have hinside := h.inside ⟨0x1200, 0x200, 0x800⟩ (by decide) ⟨by decide, by decide⟩
    exact absurd hinside (by decide)
  · have houtside := h.outside fun s hs hmem => by
      have hbelow : ∀ s ∈ sideBySide, (0x10 : UInt32).toNat < s.virtualAddress.toNat := by decide
      exact absurd hmem.1 (Nat.not_le.mpr (hbelow s hs))
    exact absurd houtside (by decide)

end Utilpp.Pe

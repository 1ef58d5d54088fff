import Mathlib.Order.CompletePartialOrder
import Mathlib.Order.Interval.Set.Disjoint
import Utilpp.Lib.Widths
import Utilpp.Pe.Image

/-!
# Where a new section goes

The layout of an image after `AddSec`. The bytes that it writes are the count of sections, the
header behind the last one and `SizeOfImage` (`Headers.patched`); all other fields are read as they
were in the file. The new section begins behind the last one's raw data, where it should begin
behind its virtual size: `addSec_iff` says when the result is an image again.
-/

namespace Utilpp.Pe

open Lib

/-! ## Alignment -/

/-- The first multiple of `align` from `size` on. -/
def alignUp (size align : Nat) : Nat :=
  if size % align = 0 then size else (size / align + 1) * align

theorem le_alignUp (size : Nat) {align : Nat} (h : 0 < align) : size ≤ alignUp size align := by
  unfold alignUp
  split
  · exact Nat.le_refl _
  · have hlt := Nat.lt_mul_div_succ size h
    rw [Nat.mul_comm] at hlt
    exact hlt.le

theorem dvd_alignUp (size align : Nat) : align ∣ alignUp size align := by
  unfold alignUp
  split
  · exact Nat.dvd_of_mod_eq_zero (by assumption)
  · exact Nat.dvd_mul_left _ _

/-- `AlignMent` rounds up when the result is a `DWORD`. -/
theorem alignMent_eq {size align : Nat} (h : 0 < align) (hlt : alignUp size align < 2 ^ 32) :
    alignMent size align = some (alignUp size align) := by
  unfold alignMent
  unfold alignUp at hlt ⊢
  rw [if_neg (Nat.ne_of_gt h)]
  split
  · rename_i hmod
    rw [if_pos hmod] at hlt
    rw [Nat.zero_add, Nat.mod_eq_of_lt hlt]
  · rename_i hmod
    rw [if_neg hmod] at hlt
    rw [Nat.zero_add, Nat.mod_eq_of_lt hlt]

/-! ## Reading the headers -/

/-- The headers of a file, field by field. -/
structure Reads (bytes : List UInt8) (pe : Headers) : Prop where
  nt : getNtHeader bytes = some pe.nt
  firstSection : firstSection bytes = some pe.firstSection
  sectionAlignment : sectionAlignment bytes = some pe.sectionAlignment
  fileAlignment : fileAlignment bytes = some pe.fileAlignment
  sizeOfImage : sizeOfImage bytes = some pe.sizeOfImage
  count : numberOfSections bytes = some pe.sections.length
  sections : readSections bytes pe.firstSection pe.sections.length = some pe.sections

theorem readSections_succ {bytes : List UInt8} {first count : Nat} {sections : List Section} :
    readSections bytes first (count + 1) = some sections ↔
      ∃ front s, readSections bytes first count = some front ∧
        Section.read bytes (first + 40 * count) = some s ∧ sections = front ++ [s] := by
  constructor
  · intro h
    obtain ⟨front, hfront, h⟩ := Option.bind_eq_some_iff.mp h
    obtain ⟨s, hs, h⟩ := Option.bind_eq_some_iff.mp h
    cases h
    exact ⟨front, s, hfront, hs, rfl⟩
  · rintro ⟨front, s, hfront, hs, rfl⟩
    rw [readSections, hfront, Option.bind_eq_bind, Option.bind_some, hs]
    rfl

theorem length_readSections {bytes : List UInt8} {first count : Nat} {sections : List Section}
    (h : readSections bytes first count = some sections) : sections.length = count := by
  induction count generalizing sections with
  | zero =>
      cases h
      rfl
  | succ count ih =>
      obtain ⟨front, s, hfront, -, rfl⟩ := readSections_succ.mp h
      rw [List.length_append, ih hfront]
      rfl

/-- Sections are read alike from files that agree on their headers. -/
theorem readSections_congr {bytes bytes' : List UInt8} {first count : Nat}
    (h : ∀ i < count, Section.read bytes' (first + 40 * i) = Section.read bytes (first + 40 * i)) :
    readSections bytes' first count = readSections bytes first count := by
  induction count with
  | zero => rfl
  | succ count ih =>
      rw [readSections, readSections, ih fun i hi => h i (Nat.lt_succ_of_lt hi),
        h count (Nat.lt_succ_self count)]

theorem readHeaders_iff {bytes : List UInt8} {pe : Headers} :
    readHeaders bytes = some pe ↔ Reads bytes pe := by
  constructor
  · intro h
    obtain ⟨nt, hnt, h⟩ := Option.bind_eq_some_iff.mp h
    obtain ⟨first, hfirst, h⟩ := Option.bind_eq_some_iff.mp h
    obtain ⟨sectionAlign, hsectionAlign, h⟩ := Option.bind_eq_some_iff.mp h
    obtain ⟨fileAlign, hfileAlign, h⟩ := Option.bind_eq_some_iff.mp h
    obtain ⟨size, hsize, h⟩ := Option.bind_eq_some_iff.mp h
    obtain ⟨count, hcount, h⟩ := Option.bind_eq_some_iff.mp h
    obtain ⟨sections, hsections, h⟩ := Option.bind_eq_some_iff.mp h
    cases h
    have hlength := length_readSections hsections
    subst hlength
    exact ⟨hnt, hfirst, hsectionAlign, hfileAlign, hsize, hcount, hsections⟩
  · intro h
    rw [readHeaders, h.nt, h.firstSection, h.sectionAlignment, h.fileAlignment, h.sizeOfImage,
      h.count]
    simp only [Option.bind_eq_bind, Option.bind_some, h.sections]

/-! ## What is written -/

namespace Headers

/-- Where the header of the next section goes. -/
def slot (pe : Headers) : Nat := pe.firstSection + 40 * pe.sections.length

/-- The count of sections and the new header. -/
def described (pe : Headers) (i : Nat) : Prop := Within (pe.nt + 6) 2 i ∨ Within pe.slot 40 i

/-- The bytes that are written: those and `SizeOfImage`. -/
def patched (pe : Headers) (i : Nat) : Prop := pe.described i ∨ Within (pe.nt + 80) 4 i

end Headers

/-- An image whose headers follow each other, with sections in the order of their addresses. -/
structure WellFormed (bytes : List UInt8) (pe : Headers) : Prop where
  reads : Reads bytes pe
  nt_ge : 64 ≤ pe.nt
  /-- the optional header goes at least up to `SizeOfImage` -/
  optional : pe.nt + 84 ≤ pe.firstSection
  sectionPower : ∃ k, pe.sectionAlignment = 2 ^ k
  filePower : ∃ k, pe.fileAlignment = 2 ^ k
  ordered : pe.sections.Pairwise fun s t => s.virtualAddress + s.virtualSize ≤ t.virtualAddress
  rawInside : ∀ s ∈ pe.sections, s.pointerToRawData + s.sizeOfRawData ≤ bytes.length

section

variable {bytes ys : List UInt8} {nt : Nat}

theorem numberOfSections_eq (h : getNtHeader bytes = some nt) :
    numberOfSections bytes = field bytes (nt + 6) 2 := by
  rw [numberOfSections, getFileHeader, h]
  rfl

theorem sectionAlignment_eq (h : getNtHeader bytes = some nt) :
    sectionAlignment bytes = field bytes (nt + 56) 4 := by
  rw [sectionAlignment, getOptHeader, h]
  rfl

theorem fileAlignment_eq (h : getNtHeader bytes = some nt) :
    fileAlignment bytes = field bytes (nt + 60) 4 := by
  rw [fileAlignment, getOptHeader, h]
  rfl

theorem sizeOfImage_eq (h : getNtHeader bytes = some nt) :
    sizeOfImage bytes = field bytes (nt + 80) 4 := by
  rw [sizeOfImage, getOptHeader, h]
  rfl

theorem firstSection_eq (h : getNtHeader bytes = some nt) :
    firstSection bytes = (field bytes (nt + 20) 2).map (nt + 24 + ·) := by
  rw [firstSection, getFileHeader, getOptHeader, h]
  simp only [Option.map_some, Option.bind_eq_bind, Option.bind_some]
  cases field bytes (nt + 20) 2 <;> rfl

end

section

variable {bytes ys zs : List UInt8} {pe : Headers} {prev : Section} {pos n : Nat}

/-- A field apart from what is written is read as before. -/
theorem field_frame (h : SameBut pe.patched bytes ys)
    (hcount : pos + n ≤ pe.nt + 6 ∨ pe.nt + 8 ≤ pos)
    (hslot : pos + n ≤ pe.slot ∨ pe.slot + 40 ≤ pos)
    (hsize : pos + n ≤ pe.nt + 80 ∨ pe.nt + 84 ≤ pos) : field ys pos n = field bytes pos n := by
  refine h.field fun i hi => ?_
  simp only [Headers.patched, Headers.described, Within] at hi ⊢
  omega

theorem Headers.firstSection_le_slot (pe : Headers) : pe.firstSection ≤ pe.slot :=
  Nat.le_add_right _ _

theorem WellFormed.alignment_pos (hwf : WellFormed bytes pe) :
    0 < pe.sectionAlignment ∧ 0 < pe.fileAlignment := by
  obtain ⟨k, hk⟩ := hwf.sectionPower
  obtain ⟨l, hl⟩ := hwf.filePower
  rw [hk, hl]
  exact ⟨Nat.two_pow_pos k, Nat.two_pow_pos l⟩

theorem WellFormed.getNtHeader (hwf : WellFormed bytes pe) (h : SameBut pe.patched bytes ys) :
    getNtHeader ys = some pe.nt := by
  have hnt := hwf.nt_ge
  have hoptional := hwf.optional
  have hfirst := pe.firstSection_le_slot
  rw [← hwf.reads.nt, Pe.getNtHeader, Pe.getNtHeader,
    field_frame h (by omega) (by omega) (by omega)]

theorem WellFormed.firstSection (hwf : WellFormed bytes pe) (h : SameBut pe.patched bytes ys) :
    firstSection ys = some pe.firstSection := by
  have hoptional := hwf.optional
  have hfirst := pe.firstSection_le_slot
  rw [← hwf.reads.firstSection, firstSection_eq (hwf.getNtHeader h),
    firstSection_eq hwf.reads.nt, field_frame h (by omega) (by omega) (by omega)]

theorem WellFormed.sectionAlignment (hwf : WellFormed bytes pe)
    (h : SameBut pe.patched bytes ys) : sectionAlignment ys = some pe.sectionAlignment := by
  have hoptional := hwf.optional
  have hfirst := pe.firstSection_le_slot
  rw [← hwf.reads.sectionAlignment, sectionAlignment_eq (hwf.getNtHeader h),
    sectionAlignment_eq hwf.reads.nt, field_frame h (by omega) (by omega) (by omega)]

theorem WellFormed.fileAlignment (hwf : WellFormed bytes pe)
    (h : SameBut pe.patched bytes ys) : fileAlignment ys = some pe.fileAlignment := by
  have hoptional := hwf.optional
  have hfirst := pe.firstSection_le_slot
  rw [← hwf.reads.fileAlignment, fileAlignment_eq (hwf.getNtHeader h),
    fileAlignment_eq hwf.reads.nt, field_frame h (by omega) (by omega) (by omega)]

theorem Section.read_congr
    (h : ∀ k, pos ≤ k → k + 4 ≤ pos + 24 → field ys k 4 = field bytes k 4) :
    Section.read ys pos = Section.read bytes pos := by
  rw [Section.read, Section.read, h (pos + 8) (by omega) (by omega),
    h (pos + 12) (by omega) (by omega), h (pos + 16) (by omega) (by omega),
    h (pos + 20) (by omega) (by omega)]

theorem Section.read_eq_some {s : Section} : Section.read bytes pos = some s ↔
    field bytes (pos + 8) 4 = some s.virtualSize ∧
      field bytes (pos + 12) 4 = some s.virtualAddress ∧
      field bytes (pos + 16) 4 = some s.sizeOfRawData ∧
      field bytes (pos + 20) 4 = some s.pointerToRawData := by
  constructor
  · intro h
    obtain ⟨virtualSize, h8, h⟩ := Option.bind_eq_some_iff.mp h
    obtain ⟨virtualAddress, h12, h⟩ := Option.bind_eq_some_iff.mp h
    obtain ⟨sizeOfRawData, h16, h⟩ := Option.bind_eq_some_iff.mp h
    obtain ⟨pointerToRawData, h20, h⟩ := Option.bind_eq_some_iff.mp h
    cases h
    exact ⟨h8, h12, h16, h20⟩
  · rintro ⟨h8, h12, h16, h20⟩
    rw [Section.read, h8, h12, h16, h20]
    rfl

/-- A number that goes into the new header. -/
theorem patch_slot {start : List UInt8} {off value : Nat}
    (h : SameBut (Within pe.slot 40) start ys) (hlength : pe.slot + 40 ≤ start.length)
    (hoff : off ≤ 36) (hvalue : value < 2 ^ 32) :
    ∃ zs, patch ys (pe.slot + off) (toBytes 4 value) = some zs ∧
      SameBut (Within pe.slot 40) start zs ∧ SameBut (Within (pe.slot + off) 4) ys zs ∧
      field zs (pe.slot + off) 4 = some value := by
  obtain ⟨zs, hzs⟩ := @patch_defined ys (pe.slot + off) (toBytes 4 value)
    (by rw [length_toBytes, h.length]; omega)
  have hsame := patch_sameBut hzs
  rw [length_toBytes] at hsame
  have hslot : SameBut (Within pe.slot 40) ys zs := hsame.mono fun i hi => by
    simp only [Within] at hi ⊢
    omega
  exact ⟨zs, hzs, h.trans hslot, hsame, field_patch hzs hvalue⟩

/-- A field of the new header that is written once. -/
theorem field_kept {off off' : Nat} (h : SameBut (Within (pe.slot + off) 4) ys zs)
    (hoff : off' + 4 ≤ off ∨ off + 4 ≤ off') :
    field zs (pe.slot + off') 4 = field ys (pe.slot + off') 4 := by
  refine h.field fun i hi => ?_
  simp only [Within] at hi ⊢
  omega

/-- The header of the new section, as it is written. -/
def newSection (pe : Headers) (prev : Section) (filesize secsize : Nat) : Section where
  virtualSize := secsize
  virtualAddress := prev.virtualAddress + alignUp prev.sizeOfRawData pe.sectionAlignment
  sizeOfRawData := alignUp secsize pe.fileAlignment
  pointerToRawData := alignUp filesize pe.fileAlignment

theorem describeSection_spec (hwf : WellFormed bytes pe)
    (hprev : Section.read bytes (pe.slot - 40) = some prev) {filesize secsize : Nat}
    (hsize : secsize < 2 ^ 32)
    (hvirtual : prev.virtualAddress + alignUp prev.sizeOfRawData pe.sectionAlignment < 2 ^ 32)
    (hraw : alignUp secsize pe.fileAlignment < 2 ^ 32)
    (hfile : alignUp filesize pe.fileAlignment < 2 ^ 32)
    (h : SameBut pe.described bytes ys) (hlength : pe.slot + 40 ≤ ys.length)
    (secname : Vector UInt8 8) :
    ∃ zs, describeSection ys pe.slot filesize secname secsize = some zs ∧
      SameBut (Within pe.slot 40) ys zs ∧
      Section.read zs pe.slot = some (newSection pe prev filesize secsize) := by
  have hnt := hwf.nt_ge
  have hoptional := hwf.optional
  have hfirst := pe.firstSection_le_slot
  obtain ⟨hsectionPos, hfilePos⟩ := hwf.alignment_pos
  -- what the steps before leave of the file
  have hframe : ∀ {y}, SameBut (Within pe.slot 40) ys y → SameBut pe.described bytes y :=
    fun hy => h.trans (hy.mono fun _ => .inr)
  have hpatched : ∀ {y}, SameBut (Within pe.slot 40) ys y → SameBut pe.patched bytes y :=
    fun hy => (hframe hy).mono fun _ => .inl
  obtain ⟨y1, hy1⟩ := @patch_defined ys pe.slot secname.toList
    (by rw [Vector.length_toList]; omega)
  have hs1 : SameBut (Within pe.slot 40) ys y1 := (patch_sameBut hy1).mono fun i hi => by
    simp only [Within, Vector.length_toList] at hi ⊢
    omega
  obtain ⟨y2, hy2, hs2, hd2, hf2⟩ := patch_slot hs1 hlength (by decide : 8 ≤ 36) hsize
  obtain ⟨y3, hy3, hs3, hd3, hf3⟩ := patch_slot hs2 hlength (by decide : 12 ≤ 36) hvirtual
  obtain ⟨y4, hy4, hs4, hd4, hf4⟩ := patch_slot hs3 hlength (by decide : 16 ≤ 36) hraw
  obtain ⟨y5, hy5, hs5, hd5, hf5⟩ := patch_slot hs4 hlength (by decide : 20 ≤ 36) hfile
  obtain ⟨y6, hy6, hs6, hd6, -⟩ :=
    @patch_slot y5 pe ys 36 0xE00000E0 hs5 hlength (by decide) (by decide)
  -- the header of the section in front
  have hread : Section.read y2 (pe.slot - 40) = some prev := by
    rw [← hprev]
    refine Section.read_congr fun k hlow hhigh => (hframe hs2).field fun i hi => ?_
    simp only [Headers.described, Within] at hi ⊢
    omega
  obtain ⟨-, hprevAddress, hprevSize, -⟩ := Section.read_eq_some.mp hread
  have hbefore : headerBefore pe.slot = some (pe.slot - 40) := if_pos (by omega)
  refine ⟨y6, ?_, hs6, Section.read_eq_some.mpr ⟨?_, ?_, ?_, ?_⟩⟩
  · unfold describeSection
    simp only [Option.bind_eq_bind]
    rw [hy1, Option.bind_some, hy2, Option.bind_some, hbefore, Option.bind_some,
      hprevAddress, Option.bind_some, hprevSize, Option.bind_some,
      hwf.sectionAlignment (hpatched hs2), Option.bind_some,
      alignMent_eq hsectionPos (by omega), Option.bind_some, hy3, Option.bind_some,
      hwf.fileAlignment (hpatched hs3), Option.bind_some, alignMent_eq hfilePos hraw,
      Option.bind_some, hy4, Option.bind_some, hwf.fileAlignment (hpatched hs4),
      Option.bind_some, alignMent_eq hfilePos hfile, Option.bind_some, hy5, Option.bind_some, hy6]
  · rw [field_kept hd6 (by decide), field_kept hd5 (by decide), field_kept hd4 (by decide),
      field_kept hd3 (by decide), hf2]
    rfl
  · rw [field_kept hd6 (by decide), field_kept hd5 (by decide), field_kept hd4 (by decide), hf3]
    rfl
  · rw [field_kept hd6 (by decide), field_kept hd5 (by decide), hf4]
    rfl
  · rw [field_kept hd6 (by decide), hf5]
    rfl

theorem countSection_spec (hwf : WellFormed bytes pe) (hcount : pe.sections.length + 1 < 2 ^ 16) :
    ∃ ys, countSection bytes = some ys ∧ SameBut (Within (pe.nt + 6) 2) bytes ys ∧
      field ys (pe.nt + 6) 2 = some (pe.sections.length + 1) := by
  have hfield : field bytes (pe.nt + 6) 2 = some pe.sections.length := by
    rw [← numberOfSections_eq hwf.reads.nt, hwf.reads.count]
  obtain ⟨ys, hys⟩ := @patch_defined bytes (pe.nt + 6) (toBytes 2 (pe.sections.length + 1))
    (by rw [length_toBytes]; exact (field_eq_some_iff.mp hfield).1)
  have hsame := patch_sameBut hys
  rw [length_toBytes] at hsame
  refine ⟨ys, ?_, hsame, field_patch hys hcount⟩
  rw [countSection, getFileHeader, hwf.reads.nt]
  show (field bytes (pe.nt + 6) 2).bind _ = _
  rw [hfield]
  exact hys

theorem getLastSec_eq (hwf : WellFormed bytes pe) (h : SameBut pe.patched bytes ys)
    (hcount : field ys (pe.nt + 6) 2 = some (pe.sections.length + 1)) :
    getLastSec ys = some pe.slot := by
  have hslot : pe.firstSection + 40 * (pe.sections.length + 1) - 40 = pe.slot := by
    unfold Headers.slot
    omega
  rw [getLastSec, numberOfSections_eq (hwf.getNtHeader h), hcount, hwf.firstSection h]
  simp only [Option.bind_eq_bind, Option.bind_some]
  rw [if_pos (by omega), hslot]

theorem setSizeOfImage_spec {s : Section} (hnt : getNtHeader ys = some pe.nt)
    (hroom : pe.nt + 84 ≤ ys.length) (hs : Section.read ys pe.slot = some s)
    (hsum : s.virtualAddress + s.sizeOfRawData < 2 ^ 32) :
    ∃ zs, setSizeOfImage ys pe.slot = some zs ∧ SameBut (Within (pe.nt + 80) 4) ys zs ∧
      field zs (pe.nt + 80) 4 = some (s.virtualAddress + s.sizeOfRawData) := by
  obtain ⟨-, haddress, hsize, -⟩ := Section.read_eq_some.mp hs
  obtain ⟨zs, hzs⟩ :=
    @patch_defined ys (pe.nt + 80) (toBytes 4 (s.virtualAddress + s.sizeOfRawData))
      (by rw [length_toBytes]; omega)
  have hsame := patch_sameBut hzs
  rw [length_toBytes] at hsame
  refine ⟨zs, ?_, hsame, field_patch hzs hsum⟩
  rw [setSizeOfImage, haddress, hsize, getOptHeader, hnt]
  exact hzs

theorem extendFile_eq {s : Section} (hs : Section.read ys pe.slot = some s)
    (hsum : s.pointerToRawData + s.sizeOfRawData < 2 ^ 32)
    (hlength : ys.length ≤ s.pointerToRawData) :
    extendFile ys pe.slot ys.length =
      if s.pointerToRawData + s.sizeOfRawData < 2 ^ 31 then
        some (ys ++ List.replicate (s.pointerToRawData + s.sizeOfRawData - ys.length) 0)
      else none := by
  obtain ⟨-, -, hsize, hpointer⟩ := Section.read_eq_some.mp hs
  rw [extendFile, hpointer, hsize]
  simp only [Option.bind_eq_bind, Option.bind_some, Nat.mod_eq_of_lt hsum, List.take_length]
  refine if_congr Iff.rfl ?_ rfl
  rw [patch, if_pos (by rw [List.length_replicate]; omega), List.take_zero, List.nil_append,
    Nat.zero_add, List.drop_replicate]

end

/-! ## The whole of `AddSec` -/

section

variable {bytes : List UInt8} {pe : Headers} {prev : Section} {secsize : Nat}

/-- The sums that `AddSec` makes do not wrap. -/
structure SumsFit (bytes : List UInt8) (pe : Headers) (prev : Section) (secsize : Nat) : Prop where
  virtual : prev.virtualAddress + alignUp prev.sizeOfRawData pe.sectionAlignment +
    alignUp secsize pe.fileAlignment < 2 ^ 32
  raw : alignUp bytes.length pe.fileAlignment + alignUp secsize pe.fileAlignment < 2 ^ 32

/-- What the headers of a file are behind `AddSec`, before the file is extended. -/
structure Written (bytes : List UInt8) (pe : Headers) (s : Section) (ys : List UInt8) : Prop where
  same : SameBut pe.patched bytes ys
  count : field ys (pe.nt + 6) 2 = some (pe.sections.length + 1)
  header : Section.read ys pe.slot = some s
  size : field ys (pe.nt + 80) 4 = some (s.virtualAddress + s.sizeOfRawData)

theorem addSec_eq (hwf : WellFormed bytes pe)
    (hprev : Section.read bytes (pe.slot - 40) = some prev) {size : Int32}
    (hsize : size.toUInt32.toNat = secsize) (hfit : SumsFit bytes pe prev secsize)
    (hcount : pe.sections.length + 1 < 2 ^ 16) (hslot : pe.slot + 40 ≤ bytes.length)
    (secname : Vector UInt8 8) :
    let s := newSection pe prev bytes.length secsize
    ∃ ys, Written bytes pe s ys ∧ addSec bytes secname size =
      if s.pointerToRawData + s.sizeOfRawData < 2 ^ 31 then
        some (ys ++ List.replicate (s.pointerToRawData + s.sizeOfRawData - bytes.length) 0)
      else none := by
  intro s
  have hnt := hwf.nt_ge
  have hoptional := hwf.optional
  have hfirst := pe.firstSection_le_slot
  obtain ⟨hsectionPos, hfilePos⟩ := hwf.alignment_pos
  have hvirtual := hfit.virtual
  have hraw := hfit.raw
  obtain ⟨y1, hy1, hs1, hc1⟩ := countSection_spec hwf hcount
  have hd1 : SameBut pe.described bytes y1 := hs1.mono fun _ => .inl
  obtain ⟨y2, hy2, hs2, hr2⟩ := @describeSection_spec bytes y1 pe prev hwf hprev bytes.length
    secsize (hsize ▸ UInt32.toNat_lt _) (by omega) (by omega) (by omega) hd1
    (by rw [hs1.length]; exact hslot) secname
  have hd2 : SameBut pe.described bytes y2 := hd1.trans (hs2.mono fun _ => .inr)
  have hc2 : field y2 (pe.nt + 6) 2 = some (pe.sections.length + 1) := by
    rw [← hc1]
    refine hs2.field fun i hi => ?_
    simp only [Within] at hi ⊢
    omega
  have hp2 : SameBut pe.patched bytes y2 := hd2.mono fun _ => .inl
  obtain ⟨y3, hy3, hs3, hf3⟩ := setSizeOfImage_spec (hwf.getNtHeader hp2)
    (by rw [hp2.length]; omega) hr2 hvirtual
  have hp3 : SameBut pe.patched bytes y3 := hp2.trans (hs3.mono fun _ => .inr)
  have hr3 : Section.read y3 pe.slot = some s := by
    rw [← hr2]
    refine Section.read_congr fun k hlow hhigh => hs3.field fun i hi => ?_
    simp only [Within] at hi ⊢
    omega
  have hc3 : field y3 (pe.nt + 6) 2 = some (pe.sections.length + 1) := by
    rw [← hc2]
    refine hs3.field fun i hi => ?_
    simp only [Within] at hi ⊢
    omega
  refine ⟨y3, ⟨hp3, hc3, hr3, hf3⟩, ?_⟩
  have hextend := extendFile_eq hr3 hraw (by
    rw [hp3.length]
    exact le_alignUp _ hfilePos)
  rw [hp3.length] at hextend
  rw [← hextend, addSec, hy1]
  simp only [Option.bind_eq_bind]
  rw [Option.bind_some, getLastSec_eq hwf (hd1.mono fun _ => .inl) hc1, Option.bind_some, hsize,
    hy2, Option.bind_some, hy3, Option.bind_some]

/-- The headers behind `AddSec`. -/
def newHeaders (pe : Headers) (s : Section) : Headers :=
  { pe with
    sizeOfImage := s.virtualAddress + s.sizeOfRawData
    sections := pe.sections ++ [s] }

theorem field_append_some {xs ys : List UInt8} {pos n value : Nat}
    (h : field xs pos n = some value) : field (xs ++ ys) pos n = some value := by
  rw [field_append (field_eq_some_iff.mp h).1, h]

theorem getNtHeader_append {xs ys : List UInt8} {nt : Nat} (h : getNtHeader xs = some nt) :
    getNtHeader (xs ++ ys) = some nt := by
  obtain ⟨value, hvalue, hlt⟩ := Option.bind_eq_some_iff.mp h
  rw [getNtHeader, field_append_some hvalue]
  exact hlt

theorem Section.read_append {xs ys : List UInt8} {pos : Nat} {s : Section}
    (h : Section.read xs pos = some s) : Section.read (xs ++ ys) pos = some s := by
  obtain ⟨h8, h12, h16, h20⟩ := Section.read_eq_some.mp h
  exact Section.read_eq_some.mpr ⟨field_append_some h8, field_append_some h12,
    field_append_some h16, field_append_some h20⟩

theorem readSections_append {xs ys : List UInt8} {first count : Nat} {sections : List Section}
    (h : readSections xs first count = some sections) :
    readSections (xs ++ ys) first count = some sections := by
  induction count generalizing sections with
  | zero => exact h
  | succ count ih =>
      obtain ⟨front, s, hfront, hs, rfl⟩ := readSections_succ.mp h
      exact readSections_succ.mpr ⟨front, s, ih hfront, Section.read_append hs, rfl⟩

/-- The file has the old headers and the new section. -/
theorem Written.readHeaders {s : Section} {ys : List UInt8} (hwf : WellFormed bytes pe)
    (h : Written bytes pe s ys) (zs : List UInt8) :
    readHeaders (ys ++ zs) = some (newHeaders pe s) := by
  have hoptional := hwf.optional
  have hold := hwf.getNtHeader h.same
  have hnt := @getNtHeader_append ys zs _ hold
  refine readHeaders_iff.mpr ⟨hnt, ?_, ?_, ?_, ?_, ?_, ?_⟩
  · obtain ⟨value, hvalue, hfirst⟩ := Option.map_eq_some_iff.mp
      ((firstSection_eq hold).symm.trans (hwf.firstSection h.same))
    rw [firstSection_eq hnt, field_append_some hvalue]
    exact congrArg some hfirst
  · rw [sectionAlignment_eq hnt]
    exact field_append_some ((sectionAlignment_eq hold).symm.trans (hwf.sectionAlignment h.same))
  · rw [fileAlignment_eq hnt]
    exact field_append_some ((fileAlignment_eq hold).symm.trans (hwf.fileAlignment h.same))
  · rw [sizeOfImage_eq hnt]
    exact field_append_some h.size
  · rw [numberOfSections_eq hnt, newHeaders, List.length_append]
    exact field_append_some h.count
  · -- the headers of the old sections are in front of the new one
    have hkept : readSections ys pe.firstSection pe.sections.length = some pe.sections := by
      rw [← hwf.reads.sections]
      refine readSections_congr fun i hi => Section.read_congr fun k hlow hhigh => ?_
      have hslot : pe.firstSection + 40 * i + 40 ≤ pe.slot := by
        unfold Headers.slot
        omega
      exact field_frame h.same (by omega) (by omega) (by omega)
    rw [newHeaders, List.length_append]
    exact readSections_succ.mpr ⟨pe.sections, s, readSections_append hkept,
      Section.read_append h.header, rfl⟩

/-! ## The layout -/

/-- The new section is placed like a section of an image: it shares no address and no byte with
another one, begins where the alignments allow, is covered by `SizeOfImage`, lies in the file, and
only headers were written to. -/
structure Added (bytes bytes' : List UInt8) (pe pe' : Headers) (s : Section) (secsize : Nat) :
    Prop where
  sections : pe'.sections = pe.sections ++ [s]
  virtualSize : s.virtualSize = secsize
  virtualApart : ∀ t ∈ pe.sections, Disjoint t.virtualRange s.virtualRange
  rawApart : ∀ t ∈ pe.sections, Disjoint t.rawRange s.rawRange
  rawInside : s.pointerToRawData + s.sizeOfRawData ≤ bytes'.length
  virtualAligned : pe.sectionAlignment ∣ s.virtualAddress
  rawAligned : pe.fileAlignment ∣ s.pointerToRawData
  covered : s.virtualAddress + s.virtualSize ≤ pe'.sizeOfImage
  unchanged : ∀ i < bytes.length, ¬ pe.patched i → bytes'[i]? = bytes[i]?
  /-- the new header is not written over the bytes of a section -/
  slotFree : ∀ t ∈ pe.sections, Disjoint t.rawRange (Set.Ico pe.slot (pe.slot + 40))

/-- When there is room for a new section where `AddSec` puts it. -/
structure Room (bytes : List UInt8) (pe : Headers) (prev : Section) (secsize : Nat) : Prop where
  count : pe.sections.length + 1 < 2 ^ 16
  slotInside : pe.slot + 40 ≤ bytes.length
  slotFree : ∀ t ∈ pe.sections, Disjoint t.rawRange (Set.Ico pe.slot (pe.slot + 40))
  newSize : alignUp bytes.length pe.fileAlignment + alignUp secsize pe.fileAlignment < 2 ^ 31
  aligned : pe.sectionAlignment ∣ prev.virtualAddress
  /-- the last section needs no more room than its raw data -/
  loaded : pe.sections ≠ [] →
    prev.virtualSize ≤ alignUp prev.sizeOfRawData pe.sectionAlignment

/-- The section in front of the new one is the last one. -/
theorem WellFormed.sections_eq (hwf : WellFormed bytes pe)
    (hprev : Section.read bytes (pe.slot - 40) = some prev) (hne : pe.sections ≠ []) :
    ∃ front, pe.sections = front ++ [prev] := by
  have hsections := hwf.reads.sections
  obtain ⟨n, hn⟩ := Nat.exists_eq_succ_of_ne_zero
    (Nat.ne_of_gt (List.length_pos_iff.mpr hne))
  rw [hn] at hsections
  obtain ⟨front, s, -, hs, hfront⟩ := readSections_succ.mp hsections
  have hpos : pe.slot - 40 = pe.firstSection + 40 * n := by
    unfold Headers.slot
    omega
  rw [hpos, hs] at hprev
  cases hprev
  exact ⟨front, hfront⟩

theorem describeSection_room {ys zs : List UInt8} {pesec filesize : Nat}
    {secname : Vector UInt8 8} (h : describeSection ys pesec filesize secname secsize = some zs) :
    pesec + 40 ≤ ys.length := by
  obtain ⟨y1, h1, h⟩ := Option.bind_eq_some_iff.mp h
  obtain ⟨y2, h2, h⟩ := Option.bind_eq_some_iff.mp h
  obtain ⟨_, -, h⟩ := Option.bind_eq_some_iff.mp h
  obtain ⟨_, -, h⟩ := Option.bind_eq_some_iff.mp h
  obtain ⟨_, -, h⟩ := Option.bind_eq_some_iff.mp h
  obtain ⟨_, -, h⟩ := Option.bind_eq_some_iff.mp h
  obtain ⟨_, -, h⟩ := Option.bind_eq_some_iff.mp h
  obtain ⟨y3, h3, h⟩ := Option.bind_eq_some_iff.mp h
  obtain ⟨_, -, h⟩ := Option.bind_eq_some_iff.mp h
  obtain ⟨_, -, h⟩ := Option.bind_eq_some_iff.mp h
  obtain ⟨y4, h4, h⟩ := Option.bind_eq_some_iff.mp h
  obtain ⟨_, -, h⟩ := Option.bind_eq_some_iff.mp h
  obtain ⟨_, -, h⟩ := Option.bind_eq_some_iff.mp h
  obtain ⟨y5, h5, h⟩ := Option.bind_eq_some_iff.mp h
  have hroom := (patch_eq_some_iff.mp h).1
  rw [length_toBytes, (patch_sameBut h5).length, (patch_sameBut h4).length,
    (patch_sameBut h3).length, (patch_sameBut h2).length, (patch_sameBut h1).length] at hroom
  exact hroom

/-- `AddSec` writes the whole new header. -/
theorem addSec_room (hwf : WellFormed bytes pe) (hcount : pe.sections.length + 1 < 2 ^ 16)
    {secname : Vector UInt8 8} {size : Int32} {bytes' : List UInt8}
    (h : addSec bytes secname size = some bytes') : pe.slot + 40 ≤ bytes.length := by
  obtain ⟨y1, hy1, hs1, hc1⟩ := countSection_spec hwf hcount
  obtain ⟨y1', hy1', h⟩ := Option.bind_eq_some_iff.mp h
  cases hy1.symm.trans hy1'
  obtain ⟨pesec, hpesec, h⟩ := Option.bind_eq_some_iff.mp h
  cases (getLastSec_eq hwf (hs1.mono fun _ hi => .inl (.inl hi)) hc1).symm.trans hpesec
  obtain ⟨y2, hy2, -⟩ := Option.bind_eq_some_iff.mp h
  rw [← hs1.length]
  exact describeSection_room hy2

/-- The new section has the addresses of no other one exactly when the last section ends at or in
front of it. -/
theorem virtualApart_iff (hwf : WellFormed bytes pe)
    (hprev : Section.read bytes (pe.slot - 40) = some prev) (hpos : 0 < secsize) :
    (∀ t ∈ pe.sections,
      Disjoint t.virtualRange (newSection pe prev bytes.length secsize).virtualRange) ↔
      (pe.sections ≠ [] →
        prev.virtualSize ≤ alignUp prev.sizeOfRawData pe.sectionAlignment) := by
  have hordered := hwf.ordered
  by_cases hne : pe.sections = []
  · rw [hne]
    exact ⟨fun _ h => absurd rfl h, fun _ _ ht => absurd ht List.not_mem_nil⟩
  · obtain ⟨front, hfront⟩ := hwf.sections_eq hprev hne
    rw [hfront, List.pairwise_append] at hordered
    constructor
    · intro h _
      have hprevApart := h prev (by rw [hfront]; exact List.mem_append_right _ List.mem_cons_self)
      simp only [Section.virtualRange, Set.Ico_disjoint_Ico, newSection] at hprevApart
      omega
    · intro h t ht
      have hle := h hne
      simp only [Section.virtualRange, Set.Ico_disjoint_Ico, newSection]
      rw [hfront, List.mem_append, List.mem_singleton] at ht
      rcases ht with ht | rfl
      · have hbelow := hordered.2.2 t ht prev List.mem_cons_self
        omega
      · omega

/-- `AddSec` adds a section to an image exactly when there is room for it where it puts it. -/
theorem addSec_iff (hwf : WellFormed bytes pe)
    (hprev : Section.read bytes (pe.slot - 40) = some prev) {size : Int32}
    (hsize : size.toInt = secsize) (hpos : 0 < secsize) (hfit : SumsFit bytes pe prev secsize)
    (secname : Vector UInt8 8) :
    (∃ bytes' pe' s, addSec bytes secname size = some bytes' ∧ readHeaders bytes' = some pe' ∧
      Added bytes bytes' pe pe' s secsize) ↔ Room bytes pe prev secsize := by
  obtain ⟨-, hfilePos⟩ := hwf.alignment_pos
  have hdword := toNat_toUInt32 hsize
  have hbegin := le_alignUp bytes.length hfilePos
  constructor
  · rintro ⟨bytes', pe', s, hadd, hread, hadded⟩
    have hcount : pe.sections.length + 1 < 2 ^ 16 := by
      have hreads := readHeaders_iff.mp hread
      have hfield := (numberOfSections_eq hreads.nt).symm.trans hreads.count
      have hlt := field_lt hfield
      rw [hadded.sections, List.length_append] at hlt
      exact hlt
    have hslot := addSec_room hwf hcount hadd
    obtain ⟨ys, hwritten, heq⟩ := addSec_eq hwf hprev hdword hfit hcount hslot secname
    rw [hadd] at heq
    split at heq
    · rename_i hnew
      cases heq
      rw [hwritten.readHeaders hwf] at hread
      cases hread
      have hsections : pe.sections ++ [newSection pe prev bytes.length secsize] =
          pe.sections ++ [s] := hadded.sections
      obtain rfl := List.cons.inj (List.append_cancel_left hsections) |>.1
      refine ⟨hcount, hslot, hadded.slotFree, hnew, ?_, ?_⟩
      · exact (Nat.dvd_add_left (dvd_alignUp _ _)).mp hadded.virtualAligned
      · exact (virtualApart_iff hwf hprev hpos).mp hadded.virtualApart
    · cases heq
  · intro hroom
    obtain ⟨ys, hwritten, heq⟩ :=
      addSec_eq hwf hprev hdword hfit hroom.count hroom.slotInside secname
    have hraw : bytes.length ≤ (newSection pe prev bytes.length secsize).pointerToRawData :=
      hbegin
    have hnew : (newSection pe prev bytes.length secsize).pointerToRawData +
        (newSection pe prev bytes.length secsize).sizeOfRawData < 2 ^ 31 := hroom.newSize
    rw [if_pos hnew] at heq
    refine ⟨_, _, newSection pe prev bytes.length secsize, heq, hwritten.readHeaders hwf _, ?_⟩
    refine ⟨rfl, rfl, (virtualApart_iff hwf hprev hpos).mpr hroom.loaded, fun t ht => ?_, ?_,
      ?_, dvd_alignUp _ _, ?_, fun i hi hnot => ?_, hroom.slotFree⟩
    · have hinside := hwf.rawInside t ht
      simp only [Section.rawRange, Set.Ico_disjoint_Ico]
      omega
    · rw [List.length_append, List.length_replicate, hwritten.same.length]
      omega
    · exact (Nat.dvd_add_left (dvd_alignUp _ _)).mpr hroom.aligned
    · exact Nat.add_le_add_left (le_alignUp secsize hfilePos) _
    · rw [List.getElem?_append_left (by rw [hwritten.same.length]; exact hi)]
      exact hwritten.same.getElem? i hnot

end

/-! ## A section of zeros -/

/-- A file with 256 bytes of headers, `raw` bytes behind them, and one section at `0x1000`. -/
def oneSection (virtualSize sizeOfRawData raw : Nat) : List UInt8 :=
  List.replicate 60 0 ++ toBytes 4 64 ++ List.replicate 6 0 ++ toBytes 2 1 ++
    List.replicate 12 0 ++ toBytes 2 60 ++ List.replicate 34 0 ++ toBytes 4 0x1000 ++
    toBytes 4 0x100 ++ List.replicate 16 0 ++ toBytes 4 0x2000 ++ List.replicate 8 0 ++
    toBytes 4 virtualSize ++ toBytes 4 0x1000 ++ toBytes 4 sizeOfRawData ++ toBytes 4 0x100 ++
    List.replicate 84 0 ++ List.replicate raw 0

/-- The headers of that file. -/
def oneSectionHeaders (virtualSize sizeOfRawData : Nat) : Headers :=
  ⟨64, 148, 0x1000, 0x100, 0x2000, [⟨virtualSize, 0x1000, sizeOfRawData, 0x100⟩]⟩

/-- The name of the new section. -/
def newName : Vector UInt8 8 := #v[46, 110, 101, 119, 0, 0, 0, 0]

theorem wellFormed_text :
    WellFormed (oneSection 0x80 0x100 0x100) (oneSectionHeaders 0x80 0x100) where
  reads := readHeaders_iff.mp (by decide +kernel)
  nt_ge := by decide
  optional := by decide
  sectionPower := ⟨12, rfl⟩
  filePower := ⟨8, rfl⟩
  ordered := List.pairwise_singleton _ _
  rawInside := by decide +kernel

theorem addSec_text :
    (∃ bytes' pe' s, addSec (oneSection 0x80 0x100 0x100) newName 10 = some bytes' ∧
      readHeaders bytes' = some pe' ∧
      Added (oneSection 0x80 0x100 0x100) bytes' (oneSectionHeaders 0x80 0x100) pe' s 10) ↔
    Room (oneSection 0x80 0x100 0x100) (oneSectionHeaders 0x80 0x100)
      ⟨0x80, 0x1000, 0x100, 0x100⟩ 10 :=
  addSec_iff wellFormed_text (by decide +kernel) (by decide) (by decide)
    ⟨by decide +kernel, by decide +kernel⟩ newName

/-- A last section that has no bytes in the file is overlapped by the new one. -/
theorem addSec_bss :
    WellFormed (oneSection 0x2000 0 0) (oneSectionHeaders 0x2000 0) ∧
      Section.read (oneSection 0x2000 0 0) ((oneSectionHeaders 0x2000 0).slot - 40) =
        some ⟨0x2000, 0x1000, 0, 0x100⟩ ∧
      SumsFit (oneSection 0x2000 0 0) (oneSectionHeaders 0x2000 0) ⟨0x2000, 0x1000, 0, 0x100⟩ 10 ∧
      ¬ ∃ bytes' pe' s, addSec (oneSection 0x2000 0 0) newName 10 = some bytes' ∧
        readHeaders bytes' = some pe' ∧
        Added (oneSection 0x2000 0 0) bytes' (oneSectionHeaders 0x2000 0) pe' s 10 := by
  refine ⟨⟨readHeaders_iff.mp (by decide +kernel), by decide, by decide, ⟨12, rfl⟩, ⟨8, rfl⟩,
    List.pairwise_singleton _ _, by decide +kernel⟩, by decide +kernel,
    ⟨by decide +kernel, by decide +kernel⟩, ?_⟩
  rintro ⟨bytes', pe', s, hadd, hread, hadded⟩
  have hresult : (addSec (oneSection 0x2000 0 0) newName 10).bind readHeaders =
      some ⟨64, 148, 0x1000, 0x100, 0x1100,
        [⟨0x2000, 0x1000, 0, 0x100⟩, ⟨10, 0x1000, 0x100, 0x100⟩]⟩ := by
    decide +kernel
  rw [hadd, Option.bind_some, hread, Option.some.injEq] at hresult
  subst hresult
  have hsections := hadded.sections
  cases hsections
  have hapart := hadded.virtualApart ⟨0x2000, 0x1000, 0, 0x100⟩ List.mem_cons_self
  rw [Section.virtualRange, Section.virtualRange, Set.Ico_disjoint_Ico] at hapart
  exact absurd hapart (by decide)

end Utilpp.Pe

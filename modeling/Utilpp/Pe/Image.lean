import Utilpp.Lib.Patch

/-!
# Adding a section to an image

`AddSec` works on the bytes of a PE file: it counts the new section, writes its header behind those
of the others, sets `SizeOfImage` and copies the file to a larger buffer. The structures of a PE
file are positions in the bytes; every access is `none` outside of the file. A `DWORD` is a number
below `2 ^ 32`, and `newSize` an `int`.
-/

namespace Utilpp.Pe

open Lib

/-- `AlignMent`. The division by zero has no result, and what is returned is used as a `DWORD`. -/
def alignMent (size align : Nat) (addr : Nat := 0) : Option Nat :=
  if align = 0 then none
  else if size % align = 0 then some ((addr + size) % 2 ^ 32)
  else some ((addr + (size / align + 1) * align) % 2 ^ 32)

/-! ## The headers -/

/-- `GetNtHeader`. The offset `e_lfanew` of the DOS header is a signed number. -/
def getNtHeader (pBase : List UInt8) : Option Nat := do
  let e_lfanew ← field pBase 60 4
  if e_lfanew < 2 ^ 31 then some e_lfanew else none

/-- `GetFileHeader`. -/
def getFileHeader (pBase : List UInt8) : Option Nat := (getNtHeader pBase).map (· + 4)

/-- `GetOptHeader`. -/
def getOptHeader (pBase : List UInt8) : Option Nat := (getNtHeader pBase).map (· + 24)

/-- `GetFileHeader(pBase)->NumberOfSections`. -/
def numberOfSections (pBase : List UInt8) : Option Nat := do
  let file ← getFileHeader pBase
  field pBase (file + 2) 2

/-- `IMAGE_FIRST_SECTION`: the section headers are behind the optional header. -/
def firstSection (pBase : List UInt8) : Option Nat := do
  let file ← getFileHeader pBase
  let opt ← getOptHeader pBase
  let sizeOfOptionalHeader ← field pBase (file + 16) 2
  some (opt + sizeOfOptionalHeader)

/-- `GetLastSec`. A section header has 40 bytes. -/
def getLastSec (pBase : List UInt8) : Option Nat := do
  let secNum ← numberOfSections pBase
  let firstSec ← firstSection pBase
  if 40 ≤ firstSec + 40 * secNum then some (firstSec + 40 * secNum - 40) else none

/-- `GetOptHeader(pBase)->SectionAlignment`. -/
def sectionAlignment (pBase : List UInt8) : Option Nat := do
  let opt ← getOptHeader pBase
  field pBase (opt + 32) 4

/-- `GetOptHeader(pBase)->FileAlignment`. -/
def fileAlignment (pBase : List UInt8) : Option Nat := do
  let opt ← getOptHeader pBase
  field pBase (opt + 36) 4

/-- `GetOptHeader(pBase)->SizeOfImage`. -/
def sizeOfImage (pBase : List UInt8) : Option Nat := do
  let opt ← getOptHeader pBase
  field pBase (opt + 56) 4

/-! ## `AddSec` -/

/-- `GetFileHeader(hpe)->NumberOfSections++`. The count is a `WORD`. -/
def countSection (hpe : List UInt8) : Option (List UInt8) := do
  let file ← getFileHeader hpe
  let count ← field hpe (file + 2) 2
  patch hpe (file + 2) (toBytes 2 (count + 1))

/-- `pesec - 1`, the header in front of `pesec`. -/
def headerBefore (pesec : Nat) : Option Nat := if 40 ≤ pesec then some (pesec - 40) else none

/-- The assignments to the header `pesec` of the new section. -/
def describeSection (hpe : List UInt8) (pesec filesize : Nat) (secname : Vector UInt8 8)
    (secsize : Nat) : Option (List UInt8) := do
  let hpe ← patch hpe pesec secname.toList
  let hpe ← patch hpe (pesec + 8) (toBytes 4 secsize)
  -- the last section that was there
  let previous ← headerBefore pesec
  let previousAddress ← field hpe (previous + 12) 4
  let previousSize ← field hpe (previous + 16) 4
  let sectionAlign ← sectionAlignment hpe
  let aligned ← alignMent previousSize sectionAlign
  let hpe ← patch hpe (pesec + 12) (toBytes 4 (previousAddress + aligned))
  let fileAlign ← fileAlignment hpe
  let sizeOfRawData ← alignMent secsize fileAlign
  let hpe ← patch hpe (pesec + 16) (toBytes 4 sizeOfRawData)
  let fileAlign ← fileAlignment hpe
  let pointerToRawData ← alignMent filesize fileAlign
  let hpe ← patch hpe (pesec + 20) (toBytes 4 pointerToRawData)
  patch hpe (pesec + 36) (toBytes 4 0xE00000E0)

/-- `GetOptHeader(hpe)->SizeOfImage = pesec->VirtualAddress + pesec->SizeOfRawData`. -/
def setSizeOfImage (hpe : List UInt8) (pesec : Nat) : Option (List UInt8) := do
  let virtualAddress ← field hpe (pesec + 12) 4
  let sizeOfRawData ← field hpe (pesec + 16) 4
  let opt ← getOptHeader hpe
  patch hpe (opt + 56) (toBytes 4 (virtualAddress + sizeOfRawData))

/-- The new buffer with the bytes of the old one. The size of the allocation is an `int`; a negative
one throws. -/
def extendFile (hpe : List UInt8) (pesec filesize : Nat) : Option (List UInt8) := do
  let pointerToRawData ← field hpe (pesec + 20) 4
  let sizeOfRawData ← field hpe (pesec + 16) 4
  let newSize := (pointerToRawData + sizeOfRawData) % 2 ^ 32
  if newSize < 2 ^ 31 then
    patch (List.replicate newSize 0) 0 (hpe.take filesize)
  else none

/-- `AddSec` on a file of `hpe.length` bytes. -/
def addSec (hpe : List UInt8) (secname : Vector UInt8 8) (secsize : Int32) :
    Option (List UInt8) := do
  let filesize := hpe.length
  let hpe ← countSection hpe
  let pesec ← getLastSec hpe
  let hpe ← describeSection hpe pesec filesize secname secsize.toUInt32.toNat
  let hpe ← setSizeOfImage hpe pesec
  extendFile hpe pesec filesize

/-! ## The sections of an image -/

/-- What a section header says about the place of a section. -/
structure Section where
  virtualSize : Nat
  virtualAddress : Nat
  sizeOfRawData : Nat
  pointerToRawData : Nat
  deriving DecidableEq, Repr

namespace Section

/-- The addresses of the section when the image is loaded. -/
def virtualRange (s : Section) : Set Nat :=
  Set.Ico s.virtualAddress (s.virtualAddress + s.virtualSize)

/-- The bytes of the section in the file. -/
def rawRange (s : Section) : Set Nat :=
  Set.Ico s.pointerToRawData (s.pointerToRawData + s.sizeOfRawData)

/-- The section whose header is at `pos`. -/
def read (bytes : List UInt8) (pos : Nat) : Option Section := do
  let virtualSize ← field bytes (pos + 8) 4
  let virtualAddress ← field bytes (pos + 12) 4
  let sizeOfRawData ← field bytes (pos + 16) 4
  let pointerToRawData ← field bytes (pos + 20) 4
  some ⟨virtualSize, virtualAddress, sizeOfRawData, pointerToRawData⟩

end Section

/-- The headers of an image, as far as they matter for its sections. -/
structure Headers where
  nt : Nat
  firstSection : Nat
  sectionAlignment : Nat
  fileAlignment : Nat
  sizeOfImage : Nat
  sections : List Section
  deriving DecidableEq, Repr

/-- The sections of the first `count` headers from `first` on. -/
def readSections (bytes : List UInt8) (first : Nat) : Nat → Option (List Section)
  | 0 => some []
  | count + 1 => do
      let sections ← readSections bytes first count
      let s ← Section.read bytes (first + 40 * count)
      some (sections ++ [s])

/-- The headers that stand in a file. -/
def readHeaders (bytes : List UInt8) : Option Headers := do
  let nt ← getNtHeader bytes
  let first ← firstSection bytes
  let sectionAlign ← sectionAlignment bytes
  let fileAlign ← fileAlignment bytes
  let size ← sizeOfImage bytes
  let count ← numberOfSections bytes
  let sections ← readSections bytes first count
  some ⟨nt, first, sectionAlign, fileAlign, size, sections⟩

end Utilpp.Pe

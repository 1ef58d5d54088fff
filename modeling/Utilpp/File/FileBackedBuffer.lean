import Utilpp.Lib.Transition
import Mathlib.Data.List.Sort
import Mathlib.Algebra.Ring.Nat

/-!
# The file-backed buffer

`FFileBackedBuffer` maps a file into memory. A write goes through the mapping, and its first address
and the one behind its last are put into a queue. `TickIO` takes all ranges out of the queue, merges
them and has the operating system flush them. The functions are those for Windows; what the file
system and the memory manager answer is an input of the call. Addresses are natural numbers.
-/

namespace Utilpp.File

open Lib

/-- `DirtyRange_t` -/
structure DirtyRange where
  beginPos : Nat
  endPos : Nat
  deriving DecidableEq, Repr

/-- The bytes of the file that are mapped from `base` on. -/
structure View where
  base : Nat
  length : Nat
  deriving DecidableEq, Repr

/-- `FFileBackedBuffer`: the size of `BackupFile` while it is open, and what `Data` points to. -/
structure FileBackedBuffer where
  backupFile : Option Nat := none
  data : Option View := none
  dirtyRanges : List DirtyRange := []
  dirtyRangeCache : List DirtyRange := []
  deriving DecidableEq, Repr

/-- The answer to `BackupFile.Open`. A handle can be left open when it fails. -/
inductive OpenAnswer where
  | failed (file : Option Nat)
  | existing (size : Nat)
  | created
  deriving DecidableEq, Repr

/-- The answer to `CreateFileMapping` and `MapViewOfFile`. -/
inductive MapAnswer where
  | noMapping
  | noView
  | view (base : Nat)
  deriving DecidableEq, Repr

/-- `std::sort` by the begin of the ranges. It is not stable. -/
structure SortByBegin where
  run : List DirtyRange → List DirtyRange
  perm : ∀ ranges, (run ranges).Perm ranges
  sorted : ∀ ranges, (run ranges).Pairwise fun a b => a.beginPos ≤ b.beginPos

/-- One of the orders in which `std::sort` can leave the ranges. -/
def insertionSort : SortByBegin where
  run := List.insertionSort fun a b => a.beginPos ≤ b.beginPos
  perm := List.perm_insertionSort _
  sorted ranges :=
    have : Std.Total fun a b : DirtyRange => a.beginPos ≤ b.beginPos :=
      ⟨fun a b => Nat.le_total a.beginPos b.beginPos⟩
    have : IsTrans DirtyRange fun a b => a.beginPos ≤ b.beginPos :=
      ⟨fun _ _ _ => Nat.le_trans⟩
    List.pairwise_insertionSort _ ranges

/-- The number of bytes that `CreateFileMapping` maps: it gets the low 32 bits of the size, and zero
stands for the whole file. -/
def mapLength (size : Nat) : Nat := if size % 2 ^ 32 = 0 then size else size % 2 ^ 32

/-- `std::numeric_limits<uint32_t>::max()`, a size that leaves the file as it is. -/
def keepSize : UInt32 := 0xFFFFFFFF

/-- The file as `Init` opens it, and whether it goes on to map it. -/
def initFile (size : UInt32) (opened : OpenAnswer) (resized : Bool) : Option Nat × Bool :=
  match opened with
  | .failed file => (file, false)
  | .existing n =>
      if n ≠ size.toNat ∧ size ≠ keepSize then
        if resized then (some size.toNat, true) else (some n, false)
      else (some n, true)
  | .created =>
      if size ≠ keepSize then
        if resized then (some size.toNat, true) else (some 0, false)
      else (some 0, true)

namespace FileBackedBuffer

/-- `BackupFile.GetSize`. -/
def getSize (b : FileBackedBuffer) : Nat := b.backupFile.getD 0

/-- `CloseMap`. -/
def closeMap (b : FileBackedBuffer) : FileBackedBuffer := { b with data := none }

/-- `OpenMap`. -/
def openMap (b : FileBackedBuffer) (answer : MapAnswer) : Bool × FileBackedBuffer :=
  match answer with
  | .noMapping => (false, b)
  | .noView => (false, { b with data := none })
  | .view base => (true, { b with data := some ⟨base, mapLength b.getSize⟩ })

/-- `Init`. A mapping of an earlier call is not closed. -/
def init (b : FileBackedBuffer) (size : UInt32) (opened : OpenAnswer) (resized : Bool)
    (answer : MapAnswer) : Bool × FileBackedBuffer :=
  let (file, goesOn) := initFile size opened resized
  let b := { b with backupFile := file }
  if goesOn then
    if b.getSize ≠ 0 then b.openMap answer else (true, b)
  else (false, b)

/-- `Close`. -/
def close (b : FileBackedBuffer) : FileBackedBuffer := { b.closeMap with backupFile := none }

/-- `Resize`, which asserts that the file is open. -/
def resize (b : FileBackedBuffer) (size : UInt32) (resized : Bool) (answer : MapAnswer) :
    Option (Bool × FileBackedBuffer) :=
  if b.backupFile.isSome then
    let b := b.closeMap
    if resized then some ({ b with backupFile := some size.toNat }.openMap answer)
    else some (false, b)
  else none

/-- `UpdateDirtyRange`. -/
def updateDirtyRange (b : FileBackedBuffer) (beginPos endPos : Nat) : FileBackedBuffer :=
  { b with dirtyRanges := b.dirtyRanges ++ [⟨beginPos, endPos⟩] }

/-- `WriteData` of `n` bytes. -/
def writeData (b : FileBackedBuffer) (target n : Nat) : FileBackedBuffer :=
  b.updateDirtyRange target (target + n)

end FileBackedBuffer

/-! ## Merging -/

/-- The loop over `try_dequeue_bulk`, which moves up to ten ranges at a time; `queue` are the ranges
in the order in which they come out. -/
def dequeueAll (cache queue : List DirtyRange) : List DirtyRange × List DirtyRange :=
  let tmp := queue.take 10
  if tmp.length < 10 then (cache ++ tmp, queue.drop 10)
  else dequeueAll (cache ++ tmp) (queue.drop 10)
termination_by queue.length
decreasing_by
  rename_i hfull
  rw [List.length_take] at hfull
  rw [List.length_drop]
  omega

/-- The body of the loop that merges the ranges; `w` is the index of the last range it keeps. An
access outside of the vector is not defined. -/
def mergeStep : List DirtyRange × Nat → Nat → Option (List DirtyRange × Nat)
  | (cache, w), i => do
      let next ← cache[i]?
      let last ← cache[w]?
      if next.beginPos ≤ last.endPos then
        some (cache.set w { last with endPos := max last.endPos next.endPos }, w)
      else some (cache.set (w + 1) next, w + 1)

/-- The loop and the `resize` behind it. -/
def mergeRanges (cache : List DirtyRange) : Option (List DirtyRange) := do
  let (cache, w) ← exec mergeStep (cache, 0) (List.range' 1 (cache.length - 1))
  some (cache.take (w + 1))

/-- `TickIO`, with the ranges that are flushed. `queue` is the order in which the ranges come out of
`DirtyRanges`, which is not the one in which several threads put them in. -/
def FileBackedBuffer.tickIo (b : FileBackedBuffer) (sort : SortByBegin) (queue : List DirtyRange) :
    Option (List DirtyRange × FileBackedBuffer) :=
  let (cache, rest) := dequeueAll b.dirtyRangeCache queue
  if cache.length = 0 then
    some ([], { b with dirtyRanges := rest, dirtyRangeCache := cache })
  else do
    let ranges ← mergeRanges (sort.run cache)
    some (ranges, { b with dirtyRanges := rest, dirtyRangeCache := [] })

end Utilpp.File

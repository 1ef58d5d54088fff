import Utilpp.Lib.Cells

/-!
# A path in two buffers

`FPathBuf` keeps a path in a buffer of bytes and in one of wide characters. Every operation comes in
a narrow and in a wide variant, which changes its own buffer; `Synced` and `WSynced` say which of
the two has the path, and the other one is converted when it is asked for. `FILE_NAMESPACES`, which
`UpdatePathLen` takes away, is defined for Windows only, where the separator is a backslash and wide
characters have 16 bits.
-/

namespace Utilpp.Path

open Lib Cells

/-! ## One buffer -/

/-- The units that the operations look for. -/
structure Units (α : Type) where
  nul : α
  sep : α
  slash : α
  question : α

/-- `PATH_MAX`, without the `PATH_PREFIX_MAX` units in front of the path. -/
@[irreducible] def pathMax : Nat := 32767 - 4

/-- A buffer from `GetBufInternal` on, and the length of the path in it. -/
structure Side (α : Type) where
  buf : Nat → α
  len : Nat

/-- `FILE_NAMESPACES` -/
def Units.fileNamespaces {α : Type} (u : Units α) : List α := [u.sep, u.sep, u.question, u.sep]

namespace Side

variable {α : Type} [DecidableEq α] (u : Units α) (side : Side α)

/-- The path in the buffer. -/
def view : List α := slice side.buf 0 side.len

omit [DecidableEq α] in
theorem length_view : side.view.length = side.len := length_slice

/-- The buffer gets a path and its terminator. -/
def assign (path : List α) : Side α :=
  { buf := store side.buf 0 (path ++ [u.nul]), len := path.length }

/-- The path ends with a backslash or a slash. -/
def endsWithSeparator : Bool :=
  decide (side.buf (side.len - 1) = u.sep ∨ side.buf (side.len - 1) = u.slash)

/-- The separator that `AppendPath` puts behind the path; no terminator follows it. -/
def addSeparator : Side α :=
  if side.endsWithSeparator u then side
  else { buf := store side.buf side.len [u.sep], len := side.len + 1 }

/-- The buffer gets more behind the path, and a terminator. -/
def append (path : List α) : Side α :=
  { buf := store side.buf side.len (path ++ [u.nul]), len := side.len + path.length }

/-- The loop of `PopPath` over the units below `n`, the last one first. -/
def popLoop (buf : Nat → α) : Nat → Nat → Option Nat → Option Nat
  | 0, _, lastCursor => lastCursor
  | i + 1, depth, lastCursor =>
      if depth = 0 then lastCursor
      else if buf i = u.sep then popLoop buf i (depth - 1) (some i)
      else popLoop buf i depth lastCursor

/-- Where `PopPath` cuts the path. -/
def lastCursor (depth : UInt32) : Option Nat := popLoop u side.buf side.len depth.toNat none

/-- The path is cut off with a terminator. -/
def truncate (cursor : Nat) : Side α := { buf := store side.buf cursor [u.nul], len := cursor }

/-- `strchr` for the separator: it looks up to the terminator, not up to the length. -/
def firstCursor : Option Nat :=
  (firstIndex side.buf (fun x => decide (x = u.sep ∨ x = u.nul)) pathMax).filter
    fun i => side.buf i = u.sep

/-- What remains behind the first separator; the length is a 32-bit number. -/
def rootless (cursor : Nat) : Nat := (side.len + 2 ^ 32 - cursor - 1) % 2 ^ 32

/-- The path is moved to the front, with its terminator. -/
def dropRoot (cursor : Nat) : Side α :=
  { buf := store side.buf 0 (slice side.buf (cursor + 1) ((side.rootless cursor + 1) % 2 ^ 32))
    len := side.rootless cursor }

/-- `strlen` -/
def stringLength : Nat := (firstIndex side.buf (fun x => decide (x = u.nul)) pathMax).getD pathMax

/-- The path is what stands in the first `newSize` units, without the prefix. -/
def updateLen (newSize : Nat) : Side α :=
  if 4 < newSize ∧ slice side.buf 0 4 = u.fileNamespaces then
    { buf := store side.buf 0 (slice side.buf 4 (newSize - 4)), len := newSize - 4 }
  else { side with len := newSize }

end Side

/-! ## Both buffers -/

/-- The units in `Buf`. -/
def narrowUnits : Units (BitVec 8) :=
  { nul := 0x00#8, sep := 0x5C#8, slash := 0x2F#8, question := 0x3F#8 }

/-- The units in `BufW`. -/
def wideUnits : Units (BitVec 16) :=
  { nul := 0x0000#16, sep := 0x005C#16, slash := 0x002F#16, question := 0x003F#16 }

/-- `MultiByteToWideChar` and `WideCharToMultiByte`. -/
structure Conversions where
  multiByteToWideChar : List (BitVec 8) → List (BitVec 16)
  wideCharToMultiByte : List (BitVec 16) → List (BitVec 8)

/-- `FPathBuf` -/
structure FPathBuf where
  narrow : Side (BitVec 8) := { buf := fun _ => 0, len := 0 }
  wide : Side (BitVec 16) := { buf := fun _ => 0, len := 0 }
  synced : Bool := true
  wSynced : Bool := true

/-- The operations, and the two views. Without a size, `UpdatePathLen` looks for the terminator. -/
inductive Call where
  | setPath (path : List (BitVec 8))
  | setPathW (path : List (BitVec 16))
  | appendPath (path : List (BitVec 8))
  | appendPathW (path : List (BitVec 16))
  | popPath (depth : UInt32) (bRemove : Bool)
  | popPathW (depth : UInt32) (bRemove : Bool)
  | popRootPath
  | popRootPathW
  | updatePathLen (newSize : Option Nat)
  | updatePathLenW (newSize : Option Nat)
  | getView
  | getViewW

namespace FPathBuf

variable (conv : Conversions) (s : FPathBuf)

/-- `OnPathChanged` -/
def onPathChanged (isWide : Bool) : FPathBuf := { s with synced := !isWide, wSynced := isWide }

/-- `U8ToU16Buf`, of the narrow path. -/
def u8ToU16Buf : List (BitVec 16) :=
  if s.narrow.buf 0 = narrowUnits.nul then [] else conv.multiByteToWideChar s.narrow.view

/-- `U16ToU8Buf`, of the wide path. -/
def u16ToU8Buf : List (BitVec 8) :=
  if s.wide.buf 0 = wideUnits.nul then [] else conv.wideCharToMultiByte s.wide.view

/-- `ToPathW` -/
def toPathW : FPathBuf :=
  if s.wSynced then s
  else { s with wide := s.wide.assign wideUnits (s.u8ToU16Buf conv), wSynced := true }

/-- `ToPath`, which asks for the wide buffer first. -/
def toPath : FPathBuf :=
  if s.synced then s
  else
    let s := s.toPathW conv
    { s with narrow := s.narrow.assign narrowUnits (s.u16ToU8Buf conv), synced := true }

/-- `GetView` -/
def getView : List (BitVec 8) × FPathBuf := ((s.toPath conv).narrow.view, s.toPath conv)

/-- `GetViewW` -/
def getViewW : List (BitVec 16) × FPathBuf := ((s.toPathW conv).wide.view, s.toPathW conv)

/-- `SetPath` -/
def setPath (path : List (BitVec 8)) : FPathBuf :=
  { s with narrow := s.narrow.assign narrowUnits path }.onPathChanged false

/-- `SetPathW` -/
def setPathW (path : List (BitVec 16)) : FPathBuf :=
  { s with wide := s.wide.assign wideUnits path }.onPathChanged true

/-- `AppendPath` -/
def appendPath (path : List (BitVec 8)) : FPathBuf :=
  let s := s.toPath conv
  let narrow := s.narrow.addSeparator narrowUnits
  -- with nothing to append it returns here
  if path = [] then { s with narrow := narrow }
  else { s with narrow := narrow.append narrowUnits path }.onPathChanged false

/-- `AppendPathW` -/
def appendPathW (path : List (BitVec 16)) : FPathBuf :=
  let s := s.toPathW conv
  let wide := s.wide.addSeparator wideUnits
  if path = [] then { s with wide := wide }
  else { s with wide := wide.append wideUnits path }.onPathChanged true

/-- `PopPath` and the names that it cuts off. -/
def popPath (depth : UInt32) (bRemove : Bool) : List (BitVec 8) × FPathBuf :=
  let s := s.toPath conv
  match s.narrow.lastCursor narrowUnits depth with
  | none => ([], s)
  | some cursor =>
      (s.narrow.view.drop (cursor + 1),
        if bRemove then
          { s with narrow := s.narrow.truncate narrowUnits cursor }.onPathChanged false
        else s)

/-- `PopPathW` and the names that it cuts off. -/
def popPathW (depth : UInt32) (bRemove : Bool) : List (BitVec 16) × FPathBuf :=
  let s := s.toPathW conv
  match s.wide.lastCursor wideUnits depth with
  | none => ([], s)
  | some cursor =>
      (s.wide.view.drop (cursor + 1),
        if bRemove then { s with wide := s.wide.truncate wideUnits cursor }.onPathChanged true
        else s)

/-- `PopRootPath` and the root that it takes away. -/
def popRootPath : Option (List (BitVec 8)) × FPathBuf :=
  let s := s.toPath conv
  match s.narrow.firstCursor narrowUnits with
  | none => (none, s)
  | some cursor =>
      (some (slice s.narrow.buf 0 cursor),
        { s with narrow := s.narrow.dropRoot cursor }.onPathChanged false)

/-- The bytes of wide characters. -/
def bytes (units : List (BitVec 16)) : List (BitVec 8) :=
  units.flatMap fun (unit : BitVec 16) => [unit.setWidth 8, (unit >>> 8).setWidth 8]

/-- `PopRootPathW` and the root that it takes away. -/
def popRootPathW : Option (List (BitVec 16)) × FPathBuf :=
  let s := s.toPathW conv
  match s.wide.firstCursor wideUnits with
  | none => (none, s)
  | some cursor =>
      let len := s.wide.rootless cursor
      -- what remains is copied into the narrow buffer
      let remaining := slice s.wide.buf (cursor + 1) ((len + 1) % 2 ^ 32)
      (some (slice s.wide.buf 0 cursor),
        { s with
          narrow := { s.narrow with buf := store s.narrow.buf 0 (bytes remaining) }
          wide := { s.wide with len := len } }.onPathChanged true)

/-- `UpdatePathLen` -/
def updatePathLen (newSize : Option Nat) : FPathBuf :=
  match newSize with
  | some newSize => { s with narrow := s.narrow.updateLen narrowUnits newSize }.onPathChanged false
  | none =>
      let s := s.toPath conv
      let newSize := s.narrow.stringLength narrowUnits
      { s with narrow := s.narrow.updateLen narrowUnits newSize }.onPathChanged false

/-- `UpdatePathLenW` -/
def updatePathLenW (newSize : Option Nat) : FPathBuf :=
  match newSize with
  | some newSize => { s with wide := s.wide.updateLen wideUnits newSize }.onPathChanged true
  | none =>
      let s := s.toPathW conv
      let newSize := s.wide.stringLength wideUnits
      { s with wide := s.wide.updateLen wideUnits newSize }.onPathChanged true

/-- The buffers after a call. -/
def after : Call → FPathBuf
  | .setPath path => s.setPath path
  | .setPathW path => s.setPathW path
  | .appendPath path => s.appendPath conv path
  | .appendPathW path => s.appendPathW conv path
  | .popPath depth bRemove => (s.popPath conv depth bRemove).2
  | .popPathW depth bRemove => (s.popPathW conv depth bRemove).2
  | .popRootPath => (s.popRootPath conv).2
  | .popRootPathW => (s.popRootPathW conv).2
  | .updatePathLen newSize => s.updatePathLen conv newSize
  | .updatePathLenW newSize => s.updatePathLenW conv newSize
  | .getView => (s.getView conv).2
  | .getViewW => (s.getViewW conv).2

end FPathBuf

end Utilpp.Path

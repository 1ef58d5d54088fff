import Utilpp.Lib.Block

/-!
# The character buffer

`FCharBuffer`: a growing allocation with a write cursor and a read cursor. Every operation returns
`none` when it writes or reads outside of an allocation, so that a defined result says that it did
not. The 64-bit counters are natural numbers; the parameter of `Reserve` and `Resize` is 32 bits
wide and the counters are truncated to it at the calls. Allocation is taken to succeed: the source
does not check for failure.
-/

namespace Utilpp.Buffer

open Lib

/-- The state of an `FCharBuffer`; a null `pBuf` is `none`. The pair of allocation functions is
the same in all buffers and left out. -/
structure FCharBuffer where
  bufSize : Nat
  pBuf : Option (Block UInt8)
  cursor : Nat
  readCursor : Nat
  deriving DecidableEq, Repr

namespace FCharBuffer

/-- The default constructor. -/
def new : FCharBuffer := ⟨0, none, 0, 0⟩

/-- `GetIncreasedSize`. -/
def getIncreasedSize (b : FCharBuffer) : Nat := (if b.bufSize = 0 then 64 else b.bufSize) * 2

/-- A copy of `cells` to `pBuf + pos`. No write goes through a null pointer or to an index from
`bufSize` on. -/
def write (b : FCharBuffer) (pos : Nat) (cells : List (Option UInt8)) : Option FCharBuffer :=
  match b.pBuf with
  | none => if cells = [] then some b else none
  | some block =>
      if pos + cells.length ≤ b.bufSize then
        (block.store pos cells).map fun block => { b with pBuf := some block }
      else none

/-- The first `n` bytes behind `pBuf`. -/
def read (b : FCharBuffer) (n : Nat) : Option (List (Option UInt8)) :=
  match b.pBuf with
  | none => if n = 0 then some [] else none
  | some block => block.load n

/-- A new allocation of `desiredSize` bytes; the first `copySize` bytes of the old one are copied
to it when `copies` holds. -/
def reallocate (b : FCharBuffer) (desiredSize copySize : Nat) (copies : Bool) :
    Option (Block UInt8) :=
  if copies then do
    let old ← b.read copySize
    (Block.fresh UInt8 desiredSize).store 0 old
  else some (Block.fresh UInt8 desiredSize)

/-- `Reserve`. -/
def reserve (b : FCharBuffer) (size : UInt32) : Option FCharBuffer :=
  let desiredSize := size.toNat
  if desiredSize ≤ b.bufSize then some b
  else do
    -- the bytes up to the cursor are kept
    let newbuf ← b.reallocate desiredSize b.cursor (0 < b.bufSize)
    some { b with bufSize := desiredSize, pBuf := some newbuf, readCursor := 0 }

/-- A call of `Reserve` that is made when `full` holds. -/
def reserveWhen (b : FCharBuffer) (full : Bool) (size : Nat) : Option FCharBuffer :=
  if full then b.reserve (UInt32.ofNat size) else some b

/-- The reallocation in `Resize`, with the number of bytes that it copied. -/
def grow (b : FCharBuffer) (desiredSize : Nat) : Option (FCharBuffer × Nat) :=
  if b.bufSize < desiredSize then do
    -- the cursor is converted to `uint32_t`
    let copySize := if b.pBuf.isSome then min (UInt32.ofNat b.cursor).toNat desiredSize else 0
    let newbuf ← b.reallocate desiredSize copySize (0 < copySize)
    some ({ b with bufSize := desiredSize, pBuf := some newbuf }, copySize)
  else some (b, 0)

/-- `Resize`. Whatever the reallocation did not copy is set to zero. -/
def resize (b : FCharBuffer) (size : UInt32) : Option FCharBuffer := do
  let desiredSize := size.toNat
  let (b, copySize) ← b.grow desiredSize
  let b ← b.write copySize (List.replicate (desiredSize - copySize) (some 0))
  some { b with cursor := desiredSize, readCursor := 0 }

/-- The constructor that takes a size. -/
def sized (size : Nat) : Option FCharBuffer := new.resize (UInt32.ofNat size)

/-- `Append`. -/
def append (b : FCharBuffer) (cstr : List (Option UInt8)) : Option FCharBuffer :=
  let size := cstr.length
  if size = 0 then some b
  else do
    let b ← b.reserveWhen (b.bufSize = 0 ∨ b.bufSize - 1 < size + b.cursor)
      (max b.getIncreasedSize (size + b.cursor + 2))
    let b ← b.write b.cursor cstr
    some { b with cursor := b.cursor + size }

/-- The copy and the new length that `Assign` and `ReserveAssign` end with. -/
def replace (b : FCharBuffer) (cstr : List (Option UInt8)) : Option FCharBuffer :=
  let size := cstr.length
  (if 0 < size then b.write 0 cstr else some b).map fun b => { b with cursor := size }

/-- `ReserveAssign`. -/
def reserveAssign (b : FCharBuffer) (cstr : List (Option UInt8)) : Option FCharBuffer := do
  let b ← b.reserve (UInt32.ofNat (cstr.length + 2))
  b.replace cstr

/-- `Assign`. -/
def assign (b : FCharBuffer) (cstr : List (Option UInt8)) : Option FCharBuffer := do
  let b ← b.resize (UInt32.ofNat (cstr.length + 2))
  b.replace cstr

/-- `Put`. -/
def put (b : FCharBuffer) (c : UInt8) : Option FCharBuffer := do
  let b ← b.reserveWhen (b.bufSize = 0 ∨ b.bufSize - 1 ≤ b.cursor) b.getIncreasedSize
  let b ← b.write b.cursor [some c]
  some { b with cursor := b.cursor + 1 }

/-- `Clear`. -/
def clear (b : FCharBuffer) : Option FCharBuffer :=
  let b := { b with cursor := 0, readCursor := 0 }
  if b.pBuf.isSome then b.write 0 [some 0] else some b

/-- `CStr`, with the bytes up to the terminator behind the pointer that it returns. -/
def cStr (b : FCharBuffer) : Option (FCharBuffer × List (Option UInt8)) := do
  let b ← b.reserveWhen (b.bufSize ≤ b.cursor) (b.cursor + 1)
  let b ← b.write b.cursor [some 0]
  let text ← b.read (b.cursor + 1)
  some (b, text)

/-- `SetLength`. -/
def setLength (b : FCharBuffer) (l : Nat) : FCharBuffer :=
  if l ≤ b.bufSize then { b with cursor := l } else b

/-- `Seekg`. -/
def seekg (b : FCharBuffer) (pos : Nat) : FCharBuffer :=
  { b with readCursor := if pos < b.cursor then pos else b.cursor }

/-- `Seekp`. -/
def seekp (b : FCharBuffer) (pos : Nat) : FCharBuffer :=
  { b with cursor := if pos < b.bufSize then pos else b.bufSize }

/-- `pBuf[pos]`. No read goes through a null pointer or to an index from `bufSize` on. -/
def fetch (b : FCharBuffer) (pos : Nat) : Option (Option UInt8) :=
  match b.pBuf with
  | none => none
  | some block => if pos < b.bufSize then block[pos]? else none

/-- `Peek`. -/
def peek (b : FCharBuffer) : Option (Option UInt8) := b.fetch b.readCursor

/-- `Take`. -/
def take (b : FCharBuffer) : Option (FCharBuffer × Option UInt8) := do
  let c ← b.fetch b.readCursor
  some ({ b with readCursor := b.readCursor + 1 }, c)

/-- The loop of `TrimNewline`. A byte that nothing was written to has some value. -/
def trimLoop (b : FCharBuffer) (unset : Nat → UInt8) : Nat → Option Nat
  | 0 => some 0
  | len + 1 => do
      let c ← b.fetch len
      let c := c.getD (unset len)
      -- a line feed or a carriage return
      if c = 10 ∨ c = 13 then b.trimLoop unset len else some (len + 1)

/-- `TrimNewline`. -/
def trimNewline (b : FCharBuffer) (unset : Nat → UInt8) : Option FCharBuffer :=
  if b.pBuf.isNone ∨ b.cursor = 0 then some b
  else do
    let len ← b.trimLoop unset b.cursor
    { b with cursor := len }.write len [some 0]

/-- `View`. -/
def view (b : FCharBuffer) : Option (List (Option UInt8)) := b.read b.cursor

/-- Copy assignment from `r`. -/
def copy (b r : FCharBuffer) : Option FCharBuffer := do
  let bytes ← r.view
  let b ← b.assign bytes
  some { b with readCursor := r.readCursor }

end FCharBuffer

/-! ## Several buffers -/

/-- An operation on one of the buffers of a program, or on two of them. The bytes of `append`,
`assign` and `reserveAssign` come from outside of the buffers. -/
inductive Op where
  | sized (i : Nat) (size : Nat)
  | append (i : Nat) (bytes : List UInt8)
  | assign (i : Nat) (bytes : List UInt8)
  | reserveAssign (i : Nat) (bytes : List UInt8)
  | put (i : Nat) (c : UInt8)
  | clear (i : Nat)
  | reserve (i : Nat) (size : UInt32)
  | copy (i j : Nat)
  | move (i j : Nat)
  | cStr (i : Nat)
  deriving DecidableEq, Repr

/-- The buffer an operation is called on. -/
def Op.target : Op → Nat
  | .sized i _ | .append i _ | .assign i _ | .reserveAssign i _ | .put i _ | .clear i
  | .reserve i _ | .copy i _ | .move i _ | .cStr i => i

/-- The buffers of a program. -/
abbrev Buffers := Nat → FCharBuffer

/-- Puts the result of an operation on buffer `i` in its place. -/
def Buffers.put (s : Buffers) (i : Nat) (result : Option FCharBuffer) : Option Buffers :=
  result.map (Function.update s i)

/-- One operation of the program. -/
def step (s : Buffers) : Op → Option Buffers
  | .sized i size => s.put i (FCharBuffer.sized size)
  | .append i bytes => s.put i ((s i).append (bytes.map some))
  | .assign i bytes => s.put i ((s i).assign (bytes.map some))
  | .reserveAssign i bytes => s.put i ((s i).reserveAssign (bytes.map some))
  | .put i c => s.put i ((s i).put c)
  | .clear i => s.put i (s i).clear
  | .reserve i size => s.put i ((s i).reserve size)
  -- an assignment from itself would read bytes that `Resize` has cleared or freed
  | .copy i j => if i = j then none else s.put i ((s i).copy (s j))
  -- `Swap` exchanges every field
  | .move i j => some (Function.update (Function.update s i (s j)) j (s i))
  | .cStr i => s.put i ((s i).cStr.map Prod.fst)

/-- Default-constructed buffers. -/
def init : Buffers := fun _ => .new

end Utilpp.Buffer

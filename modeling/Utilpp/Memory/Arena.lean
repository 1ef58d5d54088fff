import Utilpp.Lib.Span
import Utilpp.Lib.Transition
import Mathlib.Logic.Function.Basic

/-!
# The arena memory pool

`ArenaMemoryPool` hands out memory by moving an offset forward, first through a scratch buffer of
its owner and then through chunks it gets from `malloc`. A pointer is a region and an offset in
it. A chunk's region starts with the header that links the chunks; its payload is the rest.

Every request to `malloc` gets a region of its own or the null pointer; which of the two is an
input of the call. `blocks` keeps what the pool returned since the last `Clear`.
-/

namespace Utilpp.Memory

open Lib

/-- The memory a pointer can point into. -/
inductive Region where
  | scratch
  | chunk (id : Nat)
  deriving DecidableEq, Repr

structure Pointer where
  region : Region
  offset : Nat
  deriving DecidableEq, Repr

/-- The size of a request, rounded up to 8 bytes. -/
def alignSize (size : UInt64) : UInt64 := (size + 7) &&& ~~~7

/-- A block that was returned for a request of `size` bytes. -/
structure Block where
  ptr : Pointer
  size : UInt64
  deriving DecidableEq, Repr

/-- The bytes the pool sets aside for a block. -/
def Block.span (block : Block) : Span Region :=
  ⟨block.ptr.region, block.ptr.offset, (alignSize block.size).toNat⟩

/-- `sizeof(Chunk)` -/
def sizeofChunk : UInt64 := 8

/-- The fields of the pool, the process memory it works on (`allocated` is what was asked of
`malloc` for a chunk) and the blocks returned since the last `Clear`. -/
structure ArenaMemoryPool where
  heapChunkSize : UInt64
  heapHead : List Nat
  currentHeapChunk : Option Nat
  heapOffset : UInt64
  scratchSize : UInt64
  scratchOffset : UInt64
  isUsingScratch : Bool
  allocated : Nat → UInt64
  nextChunk : Nat
  bytes : Region → Nat → UInt8
  blocks : List Block

namespace ArenaMemoryPool

/-- A pool over a scratch buffer of `scratchSize` bytes. -/
def create (scratchSize heapChunkSize : UInt64) (bytes : Region → Nat → UInt8) :
    ArenaMemoryPool :=
  { heapChunkSize := heapChunkSize, heapHead := [], currentHeapChunk := none, heapOffset := 0,
    scratchSize := scratchSize, scratchOffset := 0, isUsingScratch := true,
    allocated := fun _ => 0, nextChunk := 0, bytes := bytes, blocks := [] }

/-- `m_isUsingScratch && m_scratchOffset + size <= m_scratchSize` -/
def fitsScratch (pool : ArenaMemoryPool) (size : UInt64) : Bool :=
  pool.isUsingScratch && decide (pool.scratchOffset + size ≤ pool.scratchSize)

/-- The current chunk, unless there is none or `m_heapOffset + size > m_heapChunkSize`. -/
def fittingChunk (pool : ArenaMemoryPool) (size : UInt64) : Option Nat :=
  if pool.heapOffset + size > pool.heapChunkSize then none else pool.currentHeapChunk

/-- `std::max(size, m_heapChunkSize)` -/
def allocSize (pool : ArenaMemoryPool) (size : UInt64) : UInt64 :=
  if size < pool.heapChunkSize then pool.heapChunkSize else size

/-- A new chunk, of at least `m_heapChunkSize` bytes, becomes the current one. -/
def openChunk (pool : ArenaMemoryPool) (size : UInt64) : ArenaMemoryPool :=
  { pool with
    heapHead := pool.nextChunk :: pool.heapHead
    currentHeapChunk := some pool.nextChunk
    heapOffset := 0
    allocated := Function.update pool.allocated pool.nextChunk (sizeofChunk + pool.allocSize size)
    nextChunk := pool.nextChunk + 1 }

/-- The next `size` bytes of the payload of `chunk`. -/
def takeHeap (pool : ArenaMemoryPool) (chunk : Nat) (size : UInt64) :
    Option Pointer × ArenaMemoryPool :=
  (some ⟨.chunk chunk, sizeofChunk.toNat + pool.heapOffset.toNat⟩,
    { pool with heapOffset := pool.heapOffset + size })

/-- `Malloc`. `granted` tells whether `malloc` returns memory, should it be called. -/
def malloc (pool : ArenaMemoryPool) (size : UInt64) (granted : Bool) :
    Option Pointer × ArenaMemoryPool :=
  if size = 0 then (none, pool)
  else
    -- the sum wraps for the last sizes below `2 ^ 64`
    let size := alignSize size
    if pool.fitsScratch size then
      (some ⟨.scratch, pool.scratchOffset.toNat⟩,
        { pool with scratchOffset := pool.scratchOffset + size })
    else
      -- the rest of the scratch buffer is not used again before `Clear`
      let pool := { pool with isUsingScratch := false }
      match pool.fittingChunk size with
      | some chunk => pool.takeHeap chunk size
      | none =>
          if granted then (pool.openChunk size).takeHeap pool.nextChunk size
          else (none, pool)

/-- `std::memcpy(dst, src, n)` -/
def memcpy (pool : ArenaMemoryPool) (dst src : Pointer) (n : Nat) : ArenaMemoryPool :=
  { pool with
    bytes := fun region i =>
      if region = dst.region ∧ dst.offset ≤ i ∧ i < dst.offset + n then
        pool.bytes src.region (src.offset + (i - dst.offset))
      else pool.bytes region i }

/-- `Free` has no effect. -/
def free (pool : ArenaMemoryPool) (_ptr : Pointer) : ArenaMemoryPool := pool

/-- `Realloc` -/
def realloc (pool : ArenaMemoryPool) (originalPtr : Option Pointer)
    (originalSize newSize : UInt64) (granted : Bool) : Option Pointer × ArenaMemoryPool :=
  match originalPtr with
  | none => pool.malloc newSize granted
  | some original =>
      if newSize = 0 then (none, pool.free original)
      else
        match pool.malloc newSize granted with
        | (none, pool) => (none, pool)
        | (some newPtr, pool) =>
            -- the old block stays where it is
            (some newPtr,
              if originalSize > 0 then pool.memcpy newPtr original (min originalSize.toNat newSize.toNat)
              else pool)

/-- `Clear` frees every chunk and starts again with the scratch buffer. -/
def clear (pool : ArenaMemoryPool) : ArenaMemoryPool :=
  { pool with
    heapHead := [], currentHeapChunk := none, heapOffset := 0, scratchOffset := 0,
    isUsingScratch := true, blocks := [] }

/-- What is returned to the caller counts as a block. -/
def record (result : Option Pointer × ArenaMemoryPool) (size : UInt64) : ArenaMemoryPool :=
  match result with
  | (none, pool) => pool
  | (some ptr, pool) => { pool with blocks := ⟨ptr, size⟩ :: pool.blocks }

end ArenaMemoryPool

/-- A call on the pool, or a write of its user to memory. -/
inductive Event where
  | malloc (size : UInt64) (granted : Bool)
  | realloc (originalPtr : Option Pointer) (originalSize newSize : UInt64) (granted : Bool)
  | free (ptr : Pointer)
  | clear
  | write (ptr : Pointer) (byte : UInt8)

open ArenaMemoryPool in
/-- The pool after one call. -/
def step (pool : ArenaMemoryPool) : Event → Option ArenaMemoryPool
  | .malloc size granted => some (record (pool.malloc size granted) size)
  | .realloc originalPtr originalSize newSize granted =>
      some (record (pool.realloc originalPtr originalSize newSize granted) newSize)
  | .free ptr => some (pool.free ptr)
  | .clear => some pool.clear
  | .write ptr byte =>
      some { pool with bytes := fun region i =>
        if region = ptr.region ∧ i = ptr.offset then byte else pool.bytes region i }

end Utilpp.Memory

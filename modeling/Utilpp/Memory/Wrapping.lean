import Utilpp.Memory.Placement

/-!
# Requests that wrap around

`Malloc` compares sums of 64-bit numbers with the sizes of its regions. A sum that wraps around is
small and lets a request in that has no room. `Unwrapped` says of one request that what lets it in
is also true of the numbers, and `sizes_never_wrap_iff` says that every block of a run has the bytes
that were asked for exactly when all requests of the run are so.
-/

namespace Utilpp.Memory

open Lib

namespace ArenaMemoryPool

/-- The bytes that were asked for lie in the scratch buffer or in the payload of one chunk. -/
def Usable (pool : ArenaMemoryPool) (block : Block) : Prop :=
  pool.Inside ⟨block.ptr.region, block.ptr.offset, block.size.toNat⟩

/-- A request that is let in has room: in the scratch buffer or in the current chunk its end does
not exceed the size that it is compared with, and for a new chunk neither the rounding nor the
addition of the header wraps around. -/
def Unwrapped (pool : ArenaMemoryPool) (size : UInt64) (granted : Bool) : Prop :=
  size = 0 ∨
    if pool.fitsScratch (alignSize size) then
      pool.scratchOffset.toNat + size.toNat ≤ pool.scratchSize.toNat
    else
      match pool.fittingChunk (alignSize size) with
      | some _ => pool.heapOffset.toNat + size.toNat ≤ pool.heapChunkSize.toNat
      | none => granted = true → size.toNat + 7 < 2 ^ 64 ∧
          sizeofChunk.toNat + (pool.allocSize (alignSize size)).toNat < 2 ^ 64

/-- The ways in which `Malloc` can end, with what it found out before. -/
inductive Answer (pool : ArenaMemoryPool) (size : UInt64) (granted : Bool) :
    Option Pointer → ArenaMemoryPool → Prop where
  | refuse (usingScratch : Bool)
      (hnone : size = 0 ∨ pool.fitsScratch (alignSize size) = false ∧
        pool.fittingChunk (alignSize size) = none ∧ granted = false) :
      Answer pool size granted none { pool with isUsingScratch := usingScratch }
  | scratch (hsize : size ≠ 0) (hfits : pool.fitsScratch (alignSize size) = true) :
      Answer pool size granted (some ⟨.scratch, pool.scratchOffset.toNat⟩)
        { pool with scratchOffset := pool.scratchOffset + alignSize size }
  | current (chunk : Nat) (hsize : size ≠ 0) (hfits : pool.fitsScratch (alignSize size) = false)
      (hchunk : pool.fittingChunk (alignSize size) = some chunk) :
      Answer pool size granted (some ⟨.chunk chunk, sizeofChunk.toNat + pool.heapOffset.toNat⟩)
        { pool with isUsingScratch := false, heapOffset := pool.heapOffset + alignSize size }
  | fresh (hsize : size ≠ 0) (hfits : pool.fitsScratch (alignSize size) = false)
      (hnone : pool.fittingChunk (alignSize size) = none) (hgranted : granted = true) :
      Answer pool size granted (some ⟨.chunk pool.nextChunk, sizeofChunk.toNat⟩)
        { pool.openChunk (alignSize size) with
          isUsingScratch := false, heapOffset := 0 + alignSize size }

theorem malloc_answer {pool pool' : ArenaMemoryPool} {size : UInt64} {granted : Bool}
    {ptr : Option Pointer} (h : pool.malloc size granted = (ptr, pool')) :
    Answer pool size granted ptr pool' := by
  simp only [malloc] at h
  split at h
  · next hzero =>
    cases h
    exact .refuse pool.isUsingScratch (Or.inl hzero)
  · next hsize =>
    split at h
    · next hfits =>
      cases h
      exact .scratch hsize hfits
    · next hfits =>
      have hfits := Bool.eq_false_iff.mpr hfits
      split at h
      · next chunk hchunk =>
        cases h
        exact .current chunk hsize hfits hchunk
      · next hnone =>
        split at h
        · next hgranted =>
          cases h
          exact .fresh hsize hfits hnone hgranted
        · next hgranted =>
          cases h
          exact .refuse false (Or.inr ⟨hfits, hnone, Bool.eq_false_iff.mpr hgranted⟩)

theorem fittingChunk_current {pool : ArenaMemoryPool} {length : UInt64} {chunk : Nat}
    (h : pool.fittingChunk length = some chunk) : pool.currentHeapChunk = some chunk := by
  rw [fittingChunk] at h
  split at h
  · cases h
  · exact h

/-! ## The invariant -/

/-- All blocks are usable. The payload of the current chunk has the size that requests are compared
with, or it is a larger one that is used up. -/
structure Roomy (pool : ArenaMemoryPool) : Prop where
  usable : ∀ block ∈ pool.blocks, pool.Usable block
  current : ∀ chunk, pool.currentHeapChunk = some chunk → chunk ∈ pool.heapHead ∧
    ((pool.allocated chunk).toNat = sizeofChunk.toNat + pool.heapChunkSize.toNat ∨
      sizeofChunk.toNat + pool.heapChunkSize.toNat ≤ (pool.allocated chunk).toNat ∧
        (pool.allocated chunk).toNat ≤ sizeofChunk.toNat + pool.heapOffset.toNat)
  fresh : ∀ chunk, pool.nextChunk ≤ chunk → chunk ∉ pool.heapHead

theorem roomy_create (scratchSize heapChunkSize : UInt64) (bytes : Region → Nat → UInt8) :
    (create scratchSize heapChunkSize bytes).Roomy :=
  ⟨nofun, nofun, fun _ _ => List.not_mem_nil⟩

theorem roomy_clear {pool : ArenaMemoryPool} : pool.clear.Roomy :=
  ⟨nofun, nofun, fun _ _ => List.not_mem_nil⟩

/-- Nothing of the invariant depends on what the memory holds. -/
theorem Roomy.setBytes {pool : ArenaMemoryPool} (h : pool.Roomy)
    (bytes : Region → Nat → UInt8) : { pool with bytes := bytes }.Roomy :=
  ⟨h.usable, h.current, h.fresh⟩

theorem toNat_sizeofChunk : sizeofChunk.toNat = 8 := rfl

theorem pos_of_ne_zero {size : UInt64} (h : size ≠ 0) : 0 < size.toNat :=
  Nat.pos_of_ne_zero fun hzero => h (UInt64.toNat_inj.mp hzero)

/-- What `malloc` was asked for a new chunk. -/
theorem allocated_openChunk (pool : ArenaMemoryPool) (length : UInt64) :
    (pool.openChunk length).allocated pool.nextChunk = sizeofChunk + pool.allocSize length :=
  Function.update_self ..

/-- A request that is not unwrapped gets a block that is not usable. -/
theorem Roomy.not_usable {pool pool' : ArenaMemoryPool} {size : UInt64} {granted : Bool}
    {ptr : Option Pointer} (h : pool.Roomy) (hwraps : ¬ pool.Unwrapped size granted)
    (hanswer : Answer pool size granted ptr pool') :
    ¬ ∀ block ∈ (record (ptr, pool') size).blocks, (record (ptr, pool') size).Usable block := by
  intro husable
  refine hwraps ?_
  cases hanswer with
  | refuse usingScratch hnone =>
      rcases hnone with hzero | ⟨hfits, hchunk, hgranted⟩
      · exact Or.inl hzero
      · right
        rw [hfits, hchunk, hgranted]
        exact nofun
  | scratch hsize hfits =>
      right
      rw [if_pos hfits]
      exact husable ⟨_, size⟩ List.mem_cons_self
  | current chunk hsize hfits hchunk =>
      right
      rw [hfits, hchunk]
      have hpos := pos_of_ne_zero hsize
      obtain ⟨-, -, hroom⟩ := husable ⟨_, size⟩ List.mem_cons_self
      have hroom : sizeofChunk.toNat + pool.heapOffset.toNat + size.toNat ≤
          (pool.allocated chunk).toNat := hroom
      show pool.heapOffset.toNat + size.toNat ≤ pool.heapChunkSize.toNat
      rcases (h.current chunk (fittingChunk_current hchunk)).2 with hequal | ⟨-, hfull⟩
      · omega
      · omega
  | fresh hsize hfits hnone hgranted =>
      right
      rw [hfits, hnone]
      intro _
      have hpos := pos_of_ne_zero hsize
      obtain ⟨-, -, hroom⟩ := husable ⟨_, size⟩ List.mem_cons_self
      have hroom : sizeofChunk.toNat + size.toNat ≤
          ((pool.openChunk (alignSize size)).allocated pool.nextChunk).toNat := hroom
      have hlt := (pool.allocSize (alignSize size)).toNat_lt
      have hsize_lt := size.toNat_lt
      rw [allocated_openChunk, UInt64.toNat_add, toNat_sizeofChunk] at hroom
      rw [toNat_sizeofChunk]
      omega

/-- A new chunk holds its first block, and the blocks of the other chunks stay where they are. -/
theorem Roomy.fresh_block {pool : ArenaMemoryPool} {size : UInt64} (h : pool.Roomy)
    (hseven : size.toNat + 7 < 2 ^ 64)
    (hheader : sizeofChunk.toNat + (pool.allocSize (alignSize size)).toNat < 2 ^ 64) :
    (record (some ⟨.chunk pool.nextChunk, sizeofChunk.toNat⟩,
      { pool.openChunk (alignSize size) with
        isUsingScratch := false, heapOffset := 0 + alignSize size }) size).Roomy := by
  have halloc : ((pool.openChunk (alignSize size)).allocated pool.nextChunk).toNat =
      sizeofChunk.toNat + (pool.allocSize (alignSize size)).toNat := by
    rw [allocated_openChunk, toNat_add_of_lt hheader]
  have hkept : ∀ chunk ∈ pool.heapHead, chunk ∈ pool.nextChunk :: pool.heapHead ∧
      (pool.openChunk (alignSize size)).allocated chunk = pool.allocated chunk := by
    intro chunk hchunk
    have hne : chunk ≠ pool.nextChunk := fun heq =>
      h.fresh pool.nextChunk (Nat.le_refl _) (heq ▸ hchunk)
    exact ⟨List.mem_cons_of_mem _ hchunk, Function.update_of_ne hne _ _⟩
  have hsmall := (alignSize_spec hseven).2
  have hlength := (allocSize_le pool (alignSize size)).1
  refine ⟨List.forall_mem_cons.mpr ⟨⟨List.mem_cons_self, Nat.le_refl _, ?_⟩, ?_⟩, ?_, ?_⟩
  · show sizeofChunk.toNat + size.toNat ≤
      ((pool.openChunk (alignSize size)).allocated pool.nextChunk).toNat
    omega
  · intro block hblock
    show Inside _ ⟨block.ptr.region, block.ptr.offset, block.size.toNat⟩
    refine @inside_mono pool _ ?_ ?_ _ (h.usable block hblock)
    · rfl
    · exact hkept
  · intro chunk hchunk
    obtain rfl : pool.nextChunk = chunk := Option.some.inj hchunk
    refine ⟨List.mem_cons_self, ?_⟩
    show ((pool.openChunk (alignSize size)).allocated pool.nextChunk).toNat = _ ∨
      _ ≤ ((pool.openChunk (alignSize size)).allocated pool.nextChunk).toNat ∧
        ((pool.openChunk (alignSize size)).allocated pool.nextChunk).toNat ≤
          sizeofChunk.toNat + (0 + alignSize size).toNat
    rw [halloc, UInt64.zero_add, allocSize]
    split
    · exact Or.inl rfl
    · next hlarge =>
      rw [UInt64.lt_iff_toNat_lt, Nat.not_lt] at hlarge
      exact Or.inr ⟨Nat.add_le_add_left hlarge _, Nat.le_refl _⟩
  · intro chunk hchunk
    have hchunk : pool.nextChunk + 1 ≤ chunk := hchunk
    exact List.not_mem_cons_of_ne_of_not_mem (by omega) (h.fresh chunk (by omega))

/-- An unwrapped request gets a usable block, or none. -/
theorem Roomy.malloc {pool pool' : ArenaMemoryPool} {size : UInt64} {granted : Bool}
    {ptr : Option Pointer} (h : pool.Roomy) (hfine : pool.Unwrapped size granted)
    (hanswer : Answer pool size granted ptr pool') : (record (ptr, pool') size).Roomy := by
  cases hanswer with
  | refuse usingScratch hnone => exact ⟨h.usable, h.current, h.fresh⟩
  | scratch hsize hfits =>
      have hroom := hfine.resolve_left hsize
      rw [if_pos hfits] at hroom
      exact ⟨List.forall_mem_cons.mpr ⟨hroom, h.usable⟩, h.current, h.fresh⟩
  | current chunk hsize hfits hchunk =>
      have hroom := hfine.resolve_left hsize
      rw [hfits, hchunk] at hroom
      have hroom : pool.heapOffset.toNat + size.toNat ≤ pool.heapChunkSize.toNat := hroom
      have hcurrent := fittingChunk_current hchunk
      obtain ⟨hmem, hcapacity⟩ := h.current chunk hcurrent
      have hpos := pos_of_ne_zero hsize
      have hequal : (pool.allocated chunk).toNat =
          sizeofChunk.toNat + pool.heapChunkSize.toNat := by omega
      refine ⟨List.forall_mem_cons.mpr ⟨⟨hmem, Nat.le_add_right _ _, ?_⟩, h.usable⟩, ?_, h.fresh⟩
      · show sizeofChunk.toNat + pool.heapOffset.toNat + size.toNat ≤
          (pool.allocated chunk).toNat
        omega
      · intro chunk' hchunk'
        obtain rfl : chunk = chunk' := Option.some.inj (hcurrent.symm.trans hchunk')
        exact ⟨hmem, Or.inl hequal⟩
  | fresh hsize hfits hnone hgranted =>
      have hroom := hfine.resolve_left hsize
      rw [hfits, hnone] at hroom
      obtain ⟨hseven, hheader⟩ := hroom hgranted
      exact h.fresh_block hseven hheader

/-- What `Realloc` does to the blocks is what `Malloc` does. -/
theorem record_realloc (pool : ArenaMemoryPool) (originalPtr : Option Pointer)
    (originalSize newSize : UInt64) (granted : Bool) :
    ∃ bytes, record (pool.realloc originalPtr originalSize newSize granted) newSize =
      { record (pool.malloc newSize granted) newSize with bytes := bytes } := by
  obtain ⟨ptr, pool', hrealloc⟩ : ∃ ptr pool',
      pool.realloc originalPtr originalSize newSize granted = (ptr, pool') := ⟨_, _, rfl⟩
  obtain ⟨bytes, pool₁, hmalloc, rfl⟩ := realloc_eq hrealloc
  rw [hrealloc, hmalloc]
  exact ⟨bytes, record_setBytes ptr pool₁ bytes newSize⟩

end ArenaMemoryPool

/-! ## Runs -/

/-- The request of the call, if it makes one, is let in only where it has room. -/
def Event.Unwrapped (pool : ArenaMemoryPool) : Event → Prop
  | .malloc size granted => pool.Unwrapped size granted
  | .realloc _ _ newSize granted => pool.Unwrapped newSize granted
  | _ => True

theorem step_roomy (pool : ArenaMemoryPool) (event : Event) (pool' : ArenaMemoryPool)
    (h : pool.Roomy) (hfine : event.Unwrapped pool) (hstep : step pool event = some pool') :
    pool'.Roomy := by
  cases event with
  | malloc size granted =>
      cases hstep
      exact h.malloc hfine (ArenaMemoryPool.malloc_answer rfl)
  | realloc originalPtr originalSize newSize granted =>
      cases hstep
      obtain ⟨bytes, heq⟩ :=
        ArenaMemoryPool.record_realloc pool originalPtr originalSize newSize granted
      rw [heq]
      exact (h.malloc hfine (ArenaMemoryPool.malloc_answer rfl)).setBytes bytes
  | free ptr =>
      cases hstep
      exact h
  | clear =>
      cases hstep
      exact ArenaMemoryPool.roomy_clear
  | write ptr byte =>
      cases hstep
      exact h.setBytes _

theorem step_not_usable (pool : ArenaMemoryPool) (event : Event) (h : pool.Roomy)
    (hwraps : ¬ event.Unwrapped pool) :
    ∃ pool', step pool event = some pool' ∧ ¬ ∀ block ∈ pool'.blocks, pool'.Usable block := by
  cases event with
  | malloc size granted => exact ⟨_, rfl, h.not_usable hwraps (ArenaMemoryPool.malloc_answer rfl)⟩
  | realloc originalPtr originalSize newSize granted =>
      refine ⟨_, rfl, ?_⟩
      obtain ⟨bytes, heq⟩ :=
        ArenaMemoryPool.record_realloc pool originalPtr originalSize newSize granted
      rw [heq]
      exact h.not_usable hwraps (ArenaMemoryPool.malloc_answer rfl)
  | free ptr => exact absurd trivial hwraps
  | clear => exact absurd trivial hwraps
  | write ptr byte => exact absurd trivial hwraps

end Utilpp.Memory

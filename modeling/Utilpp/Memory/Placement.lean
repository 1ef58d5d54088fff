import Utilpp.Memory.Arena

/-!
# Where the blocks of an arena lie

The blocks an arena returned since the last `Clear` share no byte, and each lies in the scratch
buffer or in the payload of one chunk. Both rest on the offsets being behind every block of their
region, which `Arranged` states, and both fail when one of the additions of `Malloc` overflows:
`NoOverflow` names them.
-/

namespace Utilpp.Memory

open Lib

/-! ## Rounding -/

/-- Clearing the low three bits of a 64-bit number rounds it down to a multiple of 8. -/
theorem and_mask_eq {n : Nat} (hn : n < 2 ^ 64) : n &&& (2 ^ 64 - 8) = n / 8 * 8 := by
  have hmask : ∀ i : Fin 64, (2 ^ 64 - 8).testBit i.val = decide (3 ≤ i.val) := by decide
  have hshift : n / 8 * 8 = (n >>> 3) <<< 3 := by
    rw [Nat.shiftRight_eq_div_pow, Nat.shiftLeft_eq]
  rw [hshift]
  apply Nat.eq_of_testBit_eq
  intro i
  rw [Nat.testBit_and, Nat.testBit_shiftLeft, Nat.testBit_shiftRight]
  by_cases hi : i < 64
  · rw [hmask ⟨i, hi⟩]
    by_cases hlow : 3 ≤ i
    · simp [hlow]
    · simp [hlow]
  · have hbit : n.testBit i = false :=
      Nat.testBit_lt_two_pow (Nat.lt_of_lt_of_le hn (Nat.pow_le_pow_right (by decide) (by omega)))
    by_cases hlow : 3 ≤ i
    · simp [hbit, hlow]
    · simp [hbit, hlow]

theorem alignSize_toNat {size : UInt64} (h : size.toNat + 7 < 2 ^ 64) :
    (alignSize size).toNat = (size.toNat + 7) / 8 * 8 := by
  rw [alignSize, UInt64.toNat_and, UInt64.toNat_add, Nat.mod_eq_of_lt (by simpa using h)]
  exact and_mask_eq h

/-- A rounded size is a multiple of 8, at least the request and not zero. -/
theorem alignSize_spec {size : UInt64} (h : size.toNat + 7 < 2 ^ 64) :
    8 ∣ (alignSize size).toNat ∧ size.toNat ≤ (alignSize size).toNat := by
  rw [alignSize_toNat h]
  omega

theorem toNat_add_of_lt {a b : UInt64} (h : a.toNat + b.toNat < 2 ^ 64) :
    (a + b).toNat = a.toNat + b.toNat := by
  rw [UInt64.toNat_add, Nat.mod_eq_of_lt h]

namespace ArenaMemoryPool

/-! ## One request -/

/-- None of the additions that `Malloc` evaluates for this request overflows. -/
def NoOverflow (pool : ArenaMemoryPool) (size : UInt64) : Prop :=
  size = 0 ∨
    size.toNat + 7 < 2 ^ 64 ∧
      (pool.isUsingScratch = true → pool.scratchOffset.toNat + (alignSize size).toNat < 2 ^ 64) ∧
      (pool.fitsScratch (alignSize size) = false →
        (pool.currentHeapChunk ≠ none →
          pool.heapOffset.toNat + (alignSize size).toNat < 2 ^ 64) ∧
        (pool.fittingChunk (alignSize size) = none →
          sizeofChunk.toNat + (pool.allocSize (alignSize size)).toNat < 2 ^ 64))

instance (pool : ArenaMemoryPool) (size : UInt64) : Decidable (pool.NoOverflow size) :=
  inferInstanceAs (Decidable (_ ∨ _))

/-- The ways a request for `length` bytes, already rounded, can end. -/
inductive Grant (pool : ArenaMemoryPool) (length : UInt64) :
    Option Pointer → ArenaMemoryPool → Prop where
  | refuse (usingScratch : Bool) :
      Grant pool length none { pool with isUsingScratch := usingScratch }
  | scratch (hroom : pool.scratchOffset.toNat + length.toNat ≤ pool.scratchSize.toNat) :
      Grant pool length (some ⟨.scratch, pool.scratchOffset.toNat⟩)
        { pool with scratchOffset := pool.scratchOffset + length }
  | current (chunk : Nat) (hcurrent : pool.currentHeapChunk = some chunk)
      (hroom : pool.heapOffset.toNat + length.toNat ≤ pool.heapChunkSize.toNat) :
      Grant pool length (some ⟨.chunk chunk, sizeofChunk.toNat + pool.heapOffset.toNat⟩)
        { pool with isUsingScratch := false, heapOffset := pool.heapOffset + length }
  | fresh (hsize : sizeofChunk.toNat + (pool.allocSize length).toNat < 2 ^ 64) :
      Grant pool length (some ⟨.chunk pool.nextChunk, sizeofChunk.toNat⟩)
        { pool.openChunk length with isUsingScratch := false, heapOffset := 0 + length }

theorem fitsScratch_room {pool : ArenaMemoryPool} {length : UInt64}
    (hfits : pool.fitsScratch length = true)
    (hno : pool.isUsingScratch = true → pool.scratchOffset.toNat + length.toNat < 2 ^ 64) :
    pool.scratchOffset.toNat + length.toNat ≤ pool.scratchSize.toNat := by
  rw [fitsScratch, Bool.and_eq_true, decide_eq_true_eq, UInt64.le_iff_toNat_le] at hfits
  rw [UInt64.toNat_add, Nat.mod_eq_of_lt (hno hfits.1)] at hfits
  exact hfits.2

theorem fittingChunk_room {pool : ArenaMemoryPool} {length : UInt64} {chunk : Nat}
    (hfits : pool.fittingChunk length = some chunk)
    (hno : pool.currentHeapChunk ≠ none → pool.heapOffset.toNat + length.toNat < 2 ^ 64) :
    pool.currentHeapChunk = some chunk ∧
      pool.heapOffset.toNat + length.toNat ≤ pool.heapChunkSize.toNat := by
  rw [fittingChunk] at hfits
  split at hfits
  · exact nomatch hfits
  · next hle =>
    refine ⟨hfits, ?_⟩
    rw [gt_iff_lt, UInt64.lt_iff_toNat_lt, UInt64.toNat_add,
      Nat.mod_eq_of_lt (hno (by rw [hfits]; exact Option.some_ne_none _))] at hle
    exact Nat.le_of_not_lt hle

/-- What a request does when none of its additions overflows. -/
theorem malloc_grant {pool pool' : ArenaMemoryPool} {size : UInt64} {granted : Bool}
    {ptr : Option Pointer} (hno : pool.NoOverflow size)
    (h : pool.malloc size granted = (ptr, pool')) :
    Grant pool (alignSize size) ptr pool' ∧ (ptr = none ∨ size.toNat + 7 < 2 ^ 64) := by
  simp only [malloc] at h
  split at h
  · cases h
    exact ⟨.refuse pool.isUsingScratch, Or.inl rfl⟩
  · next hsize =>
    obtain ⟨hseven, hscratch, hheap⟩ := hno.resolve_left hsize
    refine ⟨?_, Or.inr hseven⟩
    split at h
    · next hfits =>
      cases h
      exact .scratch (fitsScratch_room hfits hscratch)
    · next hfits =>
      obtain ⟨hcurrent, hopen⟩ := hheap (Bool.eq_false_iff.mpr hfits)
      split at h
      · next chunk hchunk =>
        cases h
        obtain ⟨hchunk, hroom⟩ := fittingChunk_room hchunk hcurrent
        exact .current chunk hchunk hroom
      · next hnone =>
        split at h
        · cases h
          exact .fresh (hopen hnone)
        · cases h
          exact .refuse false

/-! ## The invariant -/

/-- The bytes lie in the scratch buffer or in the payload of one of the pool's chunks. -/
def Inside (pool : ArenaMemoryPool) (span : Span Region) : Prop :=
  match span.owner with
  | .scratch => span.stop ≤ pool.scratchSize.toNat
  | .chunk chunk =>
      chunk ∈ pool.heapHead ∧ sizeofChunk.toNat ≤ span.start ∧
        span.stop ≤ (pool.allocated chunk).toNat

/-- The bytes of all blocks. -/
def spans (pool : ArenaMemoryPool) : List (Span Region) := pool.blocks.map Block.span

/-- What a user of the pool relies on. -/
structure WellPlaced (pool : ArenaMemoryPool) : Prop where
  disjoint : pool.spans.Pairwise Span.Disjoint
  inside : ∀ block ∈ pool.blocks, pool.Inside block.span
  size : ∀ block ∈ pool.blocks, block.size.toNat ≤ block.span.length
  aligned : ∀ block ∈ pool.blocks, 8 ∣ block.ptr.offset

/-- The blocks are well placed and the offsets are behind all of them. -/
structure Arranged (pool : ArenaMemoryPool) : Prop where
  placed : pool.WellPlaced
  scratchAligned : 8 ∣ pool.scratchOffset.toNat
  scratchUnused : Unused pool.spans .scratch pool.scratchOffset.toNat
  heapAligned : 8 ∣ pool.heapOffset.toNat
  heapUnused : ∀ chunk, pool.currentHeapChunk = some chunk →
    Unused pool.spans (.chunk chunk) (sizeofChunk.toNat + pool.heapOffset.toNat)
  heapHead : ∀ chunk, pool.currentHeapChunk = some chunk → chunk ∈ pool.heapHead ∧
    sizeofChunk.toNat + pool.heapChunkSize.toNat ≤ (pool.allocated chunk).toNat
  fresh : ∀ chunk, pool.nextChunk ≤ chunk →
    chunk ∉ pool.heapHead ∧ Unused pool.spans (.chunk chunk) 0

theorem arranged_create (scratchSize heapChunkSize : UInt64) (bytes : Region → Nat → UInt8) :
    (create scratchSize heapChunkSize bytes).Arranged where
  placed := ⟨List.Pairwise.nil, nofun, nofun, nofun⟩
  scratchAligned := Nat.dvd_zero 8
  scratchUnused := Unused.nil
  heapAligned := Nat.dvd_zero 8
  heapUnused _ _ := Unused.nil
  heapHead _ h := nomatch h
  fresh _ _ := ⟨List.not_mem_nil, Unused.nil⟩

/-- A block behind everything its region gave out joins blocks that are well placed. -/
theorem WellPlaced.cons {pool pool' : ArenaMemoryPool} {block : Block} (h : pool.WellPlaced)
    (hblocks : pool'.blocks = block :: pool.blocks)
    (hkept : ∀ span, pool.Inside span → pool'.Inside span)
    (hunused : Unused pool.spans block.ptr.region block.ptr.offset)
    (hinside : pool'.Inside block.span) (hsize : block.size.toNat + 7 < 2 ^ 64)
    (haligned : 8 ∣ block.ptr.offset) : pool'.WellPlaced where
  disjoint := by
    rw [spans, hblocks, List.map_cons]
    exact Unused.pairwise hunused h.disjoint
  inside := by
    rw [hblocks]
    exact List.forall_mem_cons.mpr ⟨hinside, fun b hb => hkept _ (h.inside b hb)⟩
  size := by
    rw [hblocks]
    exact List.forall_mem_cons.mpr ⟨(alignSize_spec hsize).2, h.size⟩
  aligned := by
    rw [hblocks]
    exact List.forall_mem_cons.mpr ⟨haligned, h.aligned⟩

theorem inside_mono {pool pool' : ArenaMemoryPool} (hscratch : pool'.scratchSize = pool.scratchSize)
    (hheap : ∀ chunk ∈ pool.heapHead,
      chunk ∈ pool'.heapHead ∧ pool'.allocated chunk = pool.allocated chunk)
    (span : Span Region) (h : pool.Inside span) : pool'.Inside span := by
  obtain ⟨owner, start, length⟩ := span
  cases owner with
  | scratch =>
      show _ ≤ _
      rw [hscratch]
      exact h
  | chunk id =>
      obtain ⟨hmem, hstart, hstop⟩ := h
      obtain ⟨hmem', halloc⟩ := hheap id hmem
      exact ⟨hmem', hstart, halloc ▸ hstop⟩

/-- A chunk has room for the request and for `m_heapChunkSize` bytes. -/
theorem allocSize_le (pool : ArenaMemoryPool) (size : UInt64) :
    size.toNat ≤ (pool.allocSize size).toNat ∧
      pool.heapChunkSize.toNat ≤ (pool.allocSize size).toNat := by
  rw [allocSize]
  split
  · next hlt => exact ⟨Nat.le_of_lt (UInt64.lt_iff_toNat_lt.mp hlt), Nat.le_refl _⟩
  · next hle =>
    exact ⟨Nat.le_refl _, Nat.le_of_not_lt fun hlt => hle (UInt64.lt_iff_toNat_lt.mpr hlt)⟩

/-- A block of the scratch memory. -/
theorem Arranged.scratch {pool : ArenaMemoryPool} (h : pool.Arranged) {size : UInt64}
    (hroom : pool.scratchOffset.toNat + (alignSize size).toNat ≤ pool.scratchSize.toNat)
    (hseven : size.toNat + 7 < 2 ^ 64) :
    (record (some ⟨.scratch, pool.scratchOffset.toNat⟩,
      { pool with scratchOffset := pool.scratchOffset + alignSize size }) size).Arranged := by
  have hoffset : (pool.scratchOffset + alignSize size).toNat =
      pool.scratchOffset.toNat + (alignSize size).toNat :=
    toNat_add_of_lt (Nat.lt_of_le_of_lt hroom pool.scratchSize.toNat_lt)
  constructor
  case placed =>
    exact h.placed.cons rfl (inside_mono rfl fun chunk hchunk => ⟨hchunk, rfl⟩)
      h.scratchUnused hroom hseven h.scratchAligned
  case scratchAligned =>
    show 8 ∣ (pool.scratchOffset + alignSize size).toNat
    rw [hoffset]
    exact Nat.dvd_add h.scratchAligned (alignSize_spec hseven).1
  case scratchUnused =>
    show Unused (_ :: _) _ (pool.scratchOffset + alignSize size).toNat
    rw [hoffset]
    exact Unused.bump h.scratchUnused
  case heapAligned => exact h.heapAligned
  case heapUnused =>
    exact fun chunk hchunk => (h.heapUnused chunk hchunk).cons (by simp [Block.span])
  case heapHead => exact h.heapHead
  case fresh =>
    exact fun chunk hchunk =>
      ⟨(h.fresh chunk hchunk).1, (h.fresh chunk hchunk).2.cons (by simp [Block.span])⟩

/-- A block of the current chunk. -/
theorem Arranged.current {pool : ArenaMemoryPool} (h : pool.Arranged) {size : UInt64} {chunk : Nat}
    (hcurrent : pool.currentHeapChunk = some chunk)
    (hroom : pool.heapOffset.toNat + (alignSize size).toNat ≤ pool.heapChunkSize.toNat)
    (hseven : size.toNat + 7 < 2 ^ 64) :
    (record (some ⟨.chunk chunk, sizeofChunk.toNat + pool.heapOffset.toNat⟩,
      { pool with isUsingScratch := false, heapOffset := pool.heapOffset + alignSize size })
        size).Arranged := by
  obtain ⟨hmem, hcapacity⟩ := h.heapHead chunk hcurrent
  have hoffset : (pool.heapOffset + alignSize size).toNat =
      pool.heapOffset.toNat + (alignSize size).toNat :=
    toNat_add_of_lt (Nat.lt_of_le_of_lt hroom pool.heapChunkSize.toNat_lt)
  constructor
  case placed =>
    refine h.placed.cons rfl (inside_mono rfl fun chunk hchunk => ⟨hchunk, rfl⟩)
      (h.heapUnused chunk hcurrent) ⟨hmem, Nat.le_add_right _ _, ?_⟩ hseven ?_
    · show sizeofChunk.toNat + pool.heapOffset.toNat + (alignSize size).toNat ≤ _
      exact Nat.le_trans (by omega) hcapacity
    · exact Nat.dvd_add (Nat.dvd_refl 8) h.heapAligned
  case scratchAligned => exact h.scratchAligned
  case scratchUnused => exact h.scratchUnused.cons (by simp [Block.span])
  case heapAligned =>
    show 8 ∣ (pool.heapOffset + alignSize size).toNat
    rw [hoffset]
    exact Nat.dvd_add h.heapAligned (alignSize_spec hseven).1
  case heapUnused =>
    intro chunk' hcurrent'
    obtain rfl : chunk = chunk' := Option.some.inj (hcurrent.symm.trans hcurrent')
    show Unused (_ :: _) _ (_ + (pool.heapOffset + alignSize size).toNat)
    rw [hoffset, ← Nat.add_assoc]
    exact Unused.bump (h.heapUnused chunk hcurrent)
  case heapHead => exact h.heapHead
  case fresh =>
    intro chunk' hchunk'
    obtain ⟨hout, hunused⟩ := h.fresh chunk' hchunk'
    refine ⟨hout, hunused.cons fun heq => hout ?_⟩
    exact Region.chunk.inj heq ▸ hmem

/-- The first block of a new chunk. -/
theorem Arranged.openChunk {pool : ArenaMemoryPool} (h : pool.Arranged) {size : UInt64}
    (hfit : sizeofChunk.toNat + (pool.allocSize (alignSize size)).toNat < 2 ^ 64)
    (hseven : size.toNat + 7 < 2 ^ 64) :
    (record (some ⟨.chunk pool.nextChunk, sizeofChunk.toNat⟩,
      { pool.openChunk (alignSize size) with
        isUsingScratch := false, heapOffset := 0 + alignSize size }) size).Arranged := by
  -- no block was ever returned from the memory of a chunk that did not exist
  obtain ⟨hout, hunused⟩ := h.fresh pool.nextChunk (Nat.le_refl _)
  have halloc : ((pool.openChunk (alignSize size)).allocated pool.nextChunk).toNat =
      sizeofChunk.toNat + (pool.allocSize (alignSize size)).toNat := by
    show (Function.update pool.allocated pool.nextChunk _ pool.nextChunk).toNat = _
    rw [Function.update_self, toNat_add_of_lt hfit]
  constructor
  case placed =>
    have hkept : ∀ chunk ∈ pool.heapHead, chunk ∈ pool.nextChunk :: pool.heapHead ∧
        (pool.openChunk (alignSize size)).allocated chunk = pool.allocated chunk := by
      intro chunk hchunk
      have hne : chunk ≠ pool.nextChunk := fun heq => hout (heq ▸ hchunk)
      exact ⟨List.mem_cons_of_mem _ hchunk, Function.update_of_ne hne _ _⟩
    refine h.placed.cons rfl (inside_mono rfl hkept)
      (fun s hs howner => Nat.le_trans (hunused s hs howner) (Nat.zero_le _))
      ⟨List.mem_cons_self, Nat.le_refl _, ?_⟩ hseven (Nat.dvd_refl 8)
    show _ ≤ ((pool.openChunk (alignSize size)).allocated pool.nextChunk).toNat
    rw [halloc]
    exact Nat.add_le_add_left (allocSize_le _ _).1 _
  case scratchAligned => exact h.scratchAligned
  case scratchUnused => exact h.scratchUnused.cons (by simp [Block.span])
  case heapAligned =>
    show 8 ∣ (0 + alignSize size).toNat
    rw [UInt64.zero_add]
    exact (alignSize_spec hseven).1
  case heapUnused =>
    intro chunk' hcurrent'
    obtain rfl : pool.nextChunk = chunk' := Option.some.inj hcurrent'
    show Unused (_ :: _) _ (_ + (0 + alignSize size).toNat)
    rw [UInt64.zero_add]
    exact Unused.bump fun s hs howner =>
      Nat.le_trans (hunused s hs howner) (Nat.zero_le _)
  case heapHead =>
    intro chunk' hcurrent'
    obtain rfl : pool.nextChunk = chunk' := Option.some.inj hcurrent'
    refine ⟨List.mem_cons_self, ?_⟩
    show _ ≤ ((pool.openChunk (alignSize size)).allocated pool.nextChunk).toNat
    rw [halloc]
    exact Nat.add_le_add_left (allocSize_le _ _).2 _
  case fresh =>
    intro chunk' hchunk'
    have hchunk' : pool.nextChunk + 1 ≤ chunk' := hchunk'
    obtain ⟨hout', hunused'⟩ := h.fresh chunk' (by omega)
    have hne : pool.nextChunk ≠ chunk' := by omega
    exact ⟨List.not_mem_cons_of_ne_of_not_mem hne.symm hout',
      hunused'.cons fun heq => hne (Region.chunk.inj heq)⟩

/-- A request that is granted, or refused, keeps the blocks well placed. -/
theorem Grant.arranged {pool pool' : ArenaMemoryPool} {size : UInt64} {ptr : Option Pointer}
    (hgrant : Grant pool (alignSize size) ptr pool') (hsize : ptr = none ∨ size.toNat + 7 < 2 ^ 64)
    (h : pool.Arranged) : (record (ptr, pool') size).Arranged := by
  cases hgrant with
  | refuse usingScratch =>
      exact ⟨⟨h.placed.disjoint, h.placed.inside, h.placed.size, h.placed.aligned⟩,
        h.scratchAligned, h.scratchUnused, h.heapAligned, h.heapUnused, h.heapHead, h.fresh⟩
  | scratch hroom => exact h.scratch hroom (hsize.resolve_left (Option.some_ne_none _))
  | current chunk hcurrent hroom =>
      exact h.current hcurrent hroom (hsize.resolve_left (Option.some_ne_none _))
  | fresh hfit => exact h.openChunk hfit (hsize.resolve_left (Option.some_ne_none _))

/-- Nothing of the arrangement depends on what the memory holds. -/
theorem Arranged.setBytes {pool : ArenaMemoryPool} (h : pool.Arranged)
    (bytes : Region → Nat → UInt8) : { pool with bytes := bytes }.Arranged :=
  ⟨⟨h.placed.disjoint, h.placed.inside, h.placed.size, h.placed.aligned⟩,
    h.scratchAligned, h.scratchUnused, h.heapAligned, h.heapUnused, h.heapHead, h.fresh⟩

theorem arranged_clear (pool : ArenaMemoryPool) : pool.clear.Arranged where
  placed := ⟨List.Pairwise.nil, nofun, nofun, nofun⟩
  scratchAligned := Nat.dvd_zero 8
  scratchUnused := Unused.nil
  heapAligned := Nat.dvd_zero 8
  heapUnused _ _ := Unused.nil
  heapHead _ h := nomatch h
  fresh _ _ := ⟨List.not_mem_nil, Unused.nil⟩

/-- `Realloc` is `Malloc` followed by a change of the memory. -/
theorem realloc_eq {pool pool' : ArenaMemoryPool} {originalPtr ptr : Option Pointer}
    {originalSize newSize : UInt64} {granted : Bool}
    (h : pool.realloc originalPtr originalSize newSize granted = (ptr, pool')) :
    ∃ bytes pool₁, pool.malloc newSize granted = (ptr, pool₁) ∧
      pool' = { pool₁ with bytes := bytes } := by
  cases originalPtr with
  | none => exact ⟨pool'.bytes, pool', h, rfl⟩
  | some original =>
      simp only [realloc] at h
      split at h
      · next hzero =>
        cases h
        exact ⟨pool.bytes, pool, by rw [malloc, if_pos hzero], rfl⟩
      · cases hmalloc : pool.malloc newSize granted with
        | mk result pool₁ =>
            rw [hmalloc] at h
            cases result with
            | none =>
                cases h
                exact ⟨_, _, rfl, rfl⟩
            | some newPtr =>
                cases h
                split
                · exact ⟨_, _, rfl, rfl⟩
                · exact ⟨_, _, rfl, rfl⟩

theorem Arranged.malloc {pool : ArenaMemoryPool} {size : UInt64} {granted : Bool}
    (h : pool.Arranged) (hno : pool.NoOverflow size) :
    (record (pool.malloc size granted) size).Arranged := by
  obtain ⟨hgrant, hsize⟩ := malloc_grant hno (rfl : pool.malloc size granted = (_, _))
  exact hgrant.arranged hsize h

theorem record_setBytes (ptr : Option Pointer) (pool : ArenaMemoryPool)
    (bytes : Region → Nat → UInt8) (size : UInt64) :
    record (ptr, { pool with bytes := bytes }) size =
      { record (ptr, pool) size with bytes := bytes } := by
  cases ptr with
  | none => rfl
  | some ptr => rfl

theorem Arranged.realloc {pool : ArenaMemoryPool} {originalPtr : Option Pointer}
    {originalSize newSize : UInt64} {granted : Bool} (h : pool.Arranged)
    (hno : pool.NoOverflow newSize) :
    (record (pool.realloc originalPtr originalSize newSize granted) newSize).Arranged := by
  obtain ⟨ptr, pool', hrealloc⟩ : ∃ ptr pool',
      pool.realloc originalPtr originalSize newSize granted = (ptr, pool') := ⟨_, _, rfl⟩
  obtain ⟨bytes, pool₁, hmalloc, rfl⟩ := realloc_eq hrealloc
  have harranged : (record (pool.malloc newSize granted) newSize).Arranged := h.malloc hno
  rw [hmalloc] at harranged
  rw [hrealloc, record_setBytes]
  exact harranged.setBytes bytes

/-- A request changes neither the memory nor the blocks that were returned before. -/
theorem Grant.kept {pool pool' : ArenaMemoryPool} {length : UInt64} {ptr : Option Pointer}
    (hgrant : Grant pool length ptr pool') :
    pool'.bytes = pool.bytes ∧ pool'.blocks = pool.blocks := by
  cases hgrant with
  | refuse => exact ⟨rfl, rfl⟩
  | scratch => exact ⟨rfl, rfl⟩
  | current => exact ⟨rfl, rfl⟩
  | fresh => exact ⟨rfl, rfl⟩

/-- A block that `Realloc` returns shares no byte with the earlier blocks, starts with the bytes of
the original one and leaves all earlier blocks as they were. -/
structure Moved (pool after : ArenaMemoryPool) (original block : Block) : Prop where
  placed : { after with blocks := block :: after.blocks }.WellPlaced
  earlier : after.blocks = pool.blocks
  copied : ∀ i < min original.size.toNat block.size.toNat,
    after.bytes block.ptr.region (block.ptr.offset + i) =
      pool.bytes original.ptr.region (original.ptr.offset + i)
  kept : ∀ b ∈ pool.blocks, ∀ i < b.span.length,
    after.bytes b.ptr.region (b.ptr.offset + i) = pool.bytes b.ptr.region (b.ptr.offset + i)

/-- Copying into a span changes no byte of a span that is disjoint from it. -/
theorem memcpy_bytes_of_disjoint {pool : ArenaMemoryPool} {dst src : Pointer} {n m i : Nat}
    {block : Block} (hdisjoint : Span.Disjoint ⟨dst.region, dst.offset, m⟩ block.span)
    (hn : n ≤ m) (hi : i < block.span.length) :
    (pool.memcpy dst src n).bytes block.ptr.region (block.ptr.offset + i) =
      pool.bytes block.ptr.region (block.ptr.offset + i) := by
  refine if_neg fun hhit => ?_
  have happart := hdisjoint hhit.1.symm
  simp only [Span.stop, Block.span] at happart hi
  omega

theorem memcpy_bytes_copied {pool : ArenaMemoryPool} {dst src : Pointer} {n i : Nat}
    (hi : i < n) :
    (pool.memcpy dst src n).bytes dst.region (dst.offset + i) =
      pool.bytes src.region (src.offset + i) := by
  have hhit : dst.region = dst.region ∧ dst.offset ≤ dst.offset + i ∧
      dst.offset + i < dst.offset + n := ⟨rfl, by omega, by omega⟩
  refine (if_pos hhit).trans ?_
  rw [Nat.add_sub_cancel_left]

/-- A new block that `Realloc` returns comes from `Malloc`, and the memory changes by the copy. -/
theorem realloc_some {pool after : ArenaMemoryPool} {original ptr : Pointer}
    {originalSize n : UInt64} {granted : Bool}
    (h : pool.realloc (some original) originalSize n granted = (some ptr, after)) :
    ∃ pool₁, pool.malloc n granted = (some ptr, pool₁) ∧
      after = if originalSize > 0 then
        pool₁.memcpy ptr original (min originalSize.toNat n.toNat) else pool₁ := by
  simp only [realloc] at h
  split at h
  · exact nomatch h
  · cases hmalloc : pool.malloc n granted with
    | mk result pool₁ =>
        rw [hmalloc] at h
        cases result with
        | none => exact nomatch h
        | some newPtr =>
            cases h
            exact ⟨pool₁, rfl, rfl⟩

theorem Arranged.moved {pool after : ArenaMemoryPool} {original : Block} {n : UInt64}
    {granted : Bool} {ptr : Pointer} (h : pool.Arranged) (hno : pool.NoOverflow n)
    (hrealloc : pool.realloc (some original.ptr) original.size n granted = (some ptr, after)) :
    Moved pool after original ⟨ptr, n⟩ := by
  obtain ⟨pool₁, hmalloc, hafter⟩ := realloc_some hrealloc
  obtain ⟨hgrant, hseven⟩ := malloc_grant hno hmalloc
  obtain ⟨hbytes, hblocks⟩ := hgrant.kept
  have hplaced : (record (some ptr, after) n).Arranged := by
    rw [← hrealloc]
    exact h.realloc hno
  have hn : n.toNat ≤ (alignSize n).toNat :=
    (alignSize_spec (hseven.resolve_left (Option.some_ne_none _))).2
  have hearlier : after.blocks = pool.blocks := by
    rw [hafter, ← hblocks]
    split
    · rfl
    · rfl
  have hdisjoint : ∀ b ∈ pool.blocks, (Block.span ⟨ptr, n⟩).Disjoint b.span := by
    intro b hb
    have hhead := (List.pairwise_cons.mp hplaced.placed.disjoint).1
    exact hhead _ (List.mem_map_of_mem (hearlier ▸ hb))
  refine ⟨hplaced.placed, hearlier, ?copied, ?kept⟩
  case copied =>
    intro i hi
    have hpositive : original.size > 0 := by
      rw [gt_iff_lt, UInt64.lt_iff_toNat_lt]
      exact Nat.lt_of_le_of_lt (Nat.zero_le i) (Nat.lt_of_lt_of_le hi (Nat.min_le_left _ _))
    rw [hafter, if_pos hpositive, ← hbytes]
    exact memcpy_bytes_copied hi
  case kept =>
    intro b hb i hi
    rw [hafter, ← hbytes]
    split
    · exact memcpy_bytes_of_disjoint (hdisjoint b hb) (Nat.le_trans (Nat.min_le_right _ _) hn) hi
    · rfl

end ArenaMemoryPool

/-! ## Runs -/

/-- None of the additions of the call overflows. -/
def Event.NoOverflow (pool : ArenaMemoryPool) : Event → Prop
  | .malloc size _ => pool.NoOverflow size
  | .realloc _ _ newSize _ => pool.NoOverflow newSize
  | _ => True

instance (pool : ArenaMemoryPool) : (event : Event) → Decidable (event.NoOverflow pool)
  | .malloc size _ => inferInstanceAs (Decidable (pool.NoOverflow size))
  | .realloc _ _ newSize _ => inferInstanceAs (Decidable (pool.NoOverflow newSize))
  | .free _ => .isTrue trivial
  | .clear => .isTrue trivial
  | .write _ _ => .isTrue trivial

theorem step_arranged (pool : ArenaMemoryPool) (event : Event) (pool' : ArenaMemoryPool)
    (h : pool.Arranged) (hno : event.NoOverflow pool) (hstep : step pool event = some pool') :
    pool'.Arranged := by
  cases event with
  | malloc size granted =>
      cases hstep
      exact h.malloc hno
  | realloc originalPtr originalSize newSize granted =>
      cases hstep
      exact h.realloc hno
  | free ptr =>
      cases hstep
      exact h
  | clear =>
      cases hstep
      exact ArenaMemoryPool.arranged_clear pool
  | write ptr byte =>
      cases hstep
      exact h.setBytes _

open ArenaMemoryPool in
/-- In every run without an overflowing addition the blocks returned since the last `Clear` are
well placed, and `Realloc` of one of them moves its bytes to a new block. -/
theorem arena_well_placed {scratchSize heapChunkSize : UInt64} {bytes : Region → Nat → UInt8}
    {events : List Event} {pool : ArenaMemoryPool}
    (hno : Guarded step (fun pool event => event.NoOverflow pool)
      (create scratchSize heapChunkSize bytes) events)
    (hrun : exec step (create scratchSize heapChunkSize bytes) events = some pool) :
    pool.WellPlaced ∧
      ∀ block ∈ pool.blocks, ∀ n granted ptr after, 0 < n → pool.NoOverflow n →
        pool.realloc (some block.ptr) block.size n granted = (some ptr, after) →
          Moved pool after block ⟨ptr, n⟩ := by
  have harranged : pool.Arranged :=
    exec_invariant step_arranged (arranged_create scratchSize heapChunkSize bytes) hno hrun
  exact ⟨harranged.placed, fun _ _ _ _ _ _ _ hfits hrealloc => harranged.moved hfits hrealloc⟩

open ArenaMemoryPool in
/-- A block in the scratch buffer, one in an oversized chunk, and the first one moved to the next
chunk. -/
theorem oversized_chunk_well_placed :
    let start := create 16 64 (fun _ i => i.toUInt8)
    let events := [Event.malloc 10 true, .malloc 100 true]
    Guarded step (fun pool event => event.NoOverflow pool) start events ∧
      ∃ pool, exec step start events = some pool ∧
        pool.blocks = [⟨⟨.chunk 0, 8⟩, 100⟩, ⟨⟨.scratch, 0⟩, 10⟩] ∧ pool.WellPlaced ∧
        ∃ after, pool.realloc (some ⟨.scratch, 0⟩) 10 20 true = (some ⟨.chunk 1, 8⟩, after) ∧
          Moved pool after ⟨⟨.scratch, 0⟩, 10⟩ ⟨⟨.chunk 1, 8⟩, 20⟩ := by
  intro start events
  have hno : Guarded step (fun pool event => event.NoOverflow pool) start events := by decide
  obtain ⟨hplaced, hmoved⟩ := arena_well_placed hno rfl
  exact ⟨hno, _, rfl, rfl, hplaced, _, rfl,
    hmoved ⟨⟨.scratch, 0⟩, 10⟩ (by decide) 20 true _ _ (by decide) (by decide) rfl⟩

open ArenaMemoryPool in
/-- The size of a chunk of `SIZE_MAX` bytes and its header wraps around, and the block lies behind
the 7 bytes that `malloc` was asked for. -/
theorem chunk_size_wraps :
    ∃ pool, exec step (create 0 0xFFFFFFFFFFFFFFFF fun _ _ => 0) [.malloc 16 true] = some pool ∧
      pool.blocks = [⟨⟨.chunk 0, 8⟩, 16⟩] ∧ pool.allocated 0 = 7 ∧ ¬ pool.WellPlaced := by
  refine ⟨_, rfl, by decide, by decide, fun hplaced => ?_⟩
  have hinside := (hplaced.inside ⟨⟨.chunk 0, 8⟩, 16⟩ (by decide)).2.2
  exact absurd hinside (by decide)

end Utilpp.Memory

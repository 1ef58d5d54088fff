import Utilpp.Download.File
import Mathlib.Algebra.BigOperators.Intervals
import Mathlib.Algebra.Order.BigOperators.Group.Finset

/-!
# The chunks of a file

Which bit of the flags each operation on a chunk changes, and that the chunks of a file add up to
its size. `ChunkNum` has 32 bits: a file with more chunks is downloaded up to the chunk where the
number wraps.
-/

namespace Utilpp.Download

open Lib

/-! ## Bits -/

theorem getLsbD_mask {j : Nat} (hj : j < 8) {q : Nat} (hq : q < 8) :
    (1#8 <<< j).getLsbD q = decide (q = j) := by
  have hall : ∀ a < 8, ∀ b < 8, (1#8 <<< a).getLsbD b = decide (b = a) := by decide
  exact hall j hj q hq

/-- Setting the bit `j` of byte `i` sets that bit of the row. -/
theorem bitAt_setByte {flags : List (BitVec 8)} {i j : Nat} (hi : i < flags.length) (hj : j < 8)
    (q : Nat) :
    bitAt (flags.modify i (· ||| 1#8 <<< j)) q = (bitAt flags q || decide (q = i * 8 + j)) := by
  rw [bitAt_modify]
  by_cases hq : q / 8 = i
  · have hmod : q % 8 < 8 := Nat.mod_lt _ (by decide)
    have hiff : (q % 8 = j) ↔ q = i * 8 + j := by omega
    rw [if_pos ⟨hq, hi⟩, BitVec.getLsbD_or, getLsbD_mask hj hmod, bitAt, hq]
    simp only [hiff]
  · have hne : q ≠ i * 8 + j := by omega
    rw [if_neg fun h => hq h.1]
    simp [hne]

theorem bitAt_setFlag {flags : List (BitVec 8)} {index : Nat} (h : index / 8 < flags.length)
    (q : Nat) : bitAt (setFlag flags index) q = (bitAt flags q || decide (q = index)) := by
  have hsplit : index / 8 * 8 + index % 8 = index := by omega
  rw [setFlag, bitAt_setByte h (Nat.mod_lt _ (by decide)), hsplit]

theorem bitAt_clearFlag (flags : List (BitVec 8)) (index q : Nat) :
    bitAt (clearFlag flags index) q = (bitAt flags q && decide (q ≠ index)) := by
  rw [clearFlag, bitAt_modify]
  have hmod : index % 8 < 8 := Nat.mod_lt _ (by decide)
  have hq8 : q % 8 < 8 := Nat.mod_lt _ (by decide)
  by_cases hq : q / 8 = index / 8
  · by_cases hlen : index / 8 < flags.length
    · have hiff : (q % 8 = index % 8) ↔ q = index := by omega
      rw [if_pos ⟨hq, hlen⟩, BitVec.getLsbD_and, BitVec.getLsbD_not, getLsbD_mask hmod hq8, bitAt,
        hq]
      simp [hq8, hiff]
    · rw [if_neg fun h => hlen h.2, bitAt_of_length_le (by omega)]
      simp
  · have hne : q ≠ index := by
      rintro rfl
      exact hq rfl
    rw [if_neg fun h => hq h.1]
    simp [hne]

theorem bitAt_replicate_zero (n q : Nat) : bitAt (List.replicate n (0 : BitVec 8)) q = false := by
  simp [bitAt]

theorem firstClear_eq_some {byte : BitVec 8} {n j : Nat} (h : firstClear byte n = some j) :
    j < n ∧ byte.getLsbD j = false ∧ ∀ q < j, byte.getLsbD q = true := by
  obtain ⟨hclear, before, after, hsplit, hbefore⟩ := List.find?_eq_some_iff_append.mp h
  have hj : j < n := List.mem_range.mp (by simp [hsplit])
  refine ⟨hj, by simpa using hclear, fun q hq => ?_⟩
  have hlength : before.length = j := by
    have hget : (List.range n)[before.length]? = some j := by simp [hsplit]
    obtain ⟨hlt, hvalue⟩ := List.getElem?_eq_some_iff.mp hget
    rwa [List.getElem_range] at hvalue
  have hmem : q ∈ before := by
    have hget : (List.range n)[q]? = some q := List.getElem?_range (Nat.lt_trans hq hj)
    rw [hsplit, List.getElem?_append_left (hlength ▸ hq)] at hget
    exact List.mem_of_getElem? hget
  simpa using hbefore q hmem

theorem firstClear_eq_none {byte : BitVec 8} {n : Nat} (h : firstClear byte n = none) :
    ∀ q < n, byte.getLsbD q = true := by
  intro q hq
  simpa using List.find?_eq_none.mp h q (List.mem_range.mpr hq)

/-- The scan of a byte that is not full finds a bit. -/
theorem firstClear_ne_none {byte : BitVec 8} (h : byte ≠ 255#8) : firstClear byte 8 ≠ none := by
  intro hnone
  refine h (BitVec.eq_of_getLsbD_eq fun q hq => ?_)
  rw [firstClear_eq_none hnone q hq]
  exact (getLsbD_ones q hq).symm

/-- The scan finds the lowest clear bit of the bytes it is given. -/
theorem scanBytes_eq_some {bytes : List (BitVec 8)} {start i j : Nat}
    (h : scanBytes bytes start = some (i, j)) :
    ∃ k, i = start + k ∧ k < bytes.length ∧ j < 8 ∧ bitAt bytes (k * 8 + j) = false ∧
      ∀ q < k * 8 + j, bitAt bytes q = true := by
  induction bytes generalizing start with
  | nil => cases h
  | cons byte bytes ih =>
      rw [scanBytes] at h
      split at h
      · rename_i hfull
        obtain ⟨k, rfl, hk, hj, hclear, hlower⟩ := ih h
        have hindex : (k + 1) * 8 + j = k * 8 + j + 8 := by omega
        refine ⟨k + 1, by omega, Nat.succ_lt_succ hk, hj, ?_, fun q hq => ?_⟩
        · rw [hindex, bitAt_cons_add _ _ (by decide)]
          exact hclear
        · by_cases hq8 : q < 8
          · rw [bitAt_cons_of_lt _ _ hq8, hfull]
            exact getLsbD_ones q hq8
          · obtain ⟨p, rfl⟩ := Nat.exists_eq_add_of_le (Nat.not_lt.mp hq8)
            rw [Nat.add_comm, bitAt_cons_add _ _ (by decide)]
            exact hlower p (by omega)
      · rename_i hnot
        cases hfirst : firstClear byte 8 with
        | none => exact absurd hfirst (firstClear_ne_none hnot)
        | some j' =>
            rw [hfirst] at h
            cases h
            obtain ⟨hj, hclear, hlower⟩ := firstClear_eq_some hfirst
            refine ⟨0, rfl, Nat.succ_pos _, hj, ?_, fun q hq => ?_⟩
            · rw [Nat.zero_mul, Nat.zero_add, bitAt_cons_of_lt _ _ hj]
              exact hclear
            · rw [Nat.zero_mul, Nat.zero_add] at hq
              rw [bitAt_cons_of_lt _ _ (Nat.lt_trans hq hj)]
              exact hlower q hq

theorem scanBytes_eq_none {bytes : List (BitVec 8)} {start : Nat}
    (h : scanBytes bytes start = none) : ∀ q < bytes.length * 8, bitAt bytes q = true := by
  induction bytes generalizing start with
  | nil =>
      intro q hq
      rw [List.length_nil, Nat.zero_mul] at hq
      exact absurd hq (Nat.not_lt_zero q)
  | cons byte bytes ih =>
      rw [scanBytes] at h
      split at h
      · rename_i hfull
        intro q hq
        rw [List.length_cons] at hq
        by_cases hq8 : q < 8
        · rw [bitAt_cons_of_lt _ _ hq8, hfull]
          exact getLsbD_ones q hq8
        · obtain ⟨p, rfl⟩ := Nat.exists_eq_add_of_le (Nat.not_lt.mp hq8)
          rw [Nat.add_comm, bitAt_cons_add _ _ (by decide)]
          exact ih h p (by omega)
      · rename_i hnot
        cases hfirst : firstClear byte 8 with
        | none => exact absurd hfirst (firstClear_ne_none hnot)
        | some j =>
            rw [hfirst] at h
            cases h

/-- The bytes before the last one have the same bits. -/
theorem bitAt_dropLast {flags : List (BitVec 8)} {q : Nat} (hq : q / 8 < flags.length - 1) :
    bitAt flags.dropLast q = bitAt flags q := by
  unfold bitAt
  rw [List.getD_eq_getElem?_getD, List.getD_eq_getElem?_getD, List.getElem?_dropLast, if_pos hq]

/-- A bit of the last byte. -/
theorem getLsbD_getLastD (flags : List (BitVec 8)) {j : Nat} (hj : j < 8) :
    (flags.getLastD 0).getLsbD j = bitAt flags ((flags.length - 1) * 8 + j) := by
  rw [bitAt_mul_add _ _ hj, List.getLastD_eq_getLast?, List.getLast?_eq_getElem?,
    List.getD_eq_getElem?_getD]

/-! ## Chunks of a file -/

/-- The number of chunks of a file. -/
def chunkCount (size : Int) : Nat := 1 + (size.toNat - 1) / downloadFileChunkSize

/-- The length of a chunk: 4 MiB, or what is left of the file. -/
def chunkLength (size : Int) (k : Nat) : Nat :=
  min (downloadFileChunkSize * (k + 1)) size.toNat - downloadFileChunkSize * k

theorem chunkLength_pos {size : Int} (hsize : 0 < size) {k : Nat} (hk : k < chunkCount size) :
    0 < chunkLength size k := by
  unfold chunkCount downloadFileChunkSize at hk
  unfold chunkLength downloadFileChunkSize
  omega

/-- The chunks of a file add up to its size. -/
theorem sum_chunkLength {size : Int} (hsize : 0 < size) :
    ∑ k ∈ Finset.range (chunkCount size), chunkLength size k = size.toNat := by
  have htotal : ∀ n, ∑ k ∈ Finset.range n, chunkLength size k =
      min (downloadFileChunkSize * n) size.toNat := by
    intro n
    induction n with
    | zero => simp
    | succ n ih =>
        rw [Finset.sum_range_succ, ih]
        unfold chunkLength downloadFileChunkSize
        omega
  -- the last chunk reaches the end of the file
  rw [htotal]
  unfold chunkCount downloadFileChunkSize
  omega

/-- The chunked download of a file whose size is known: the flags have one bit for every
chunk, and more only in their last byte. -/
structure DownloadFile.Sized (f : DownloadFile) : Prop where
  size_pos : 0 < f.size
  size_lt : f.size < 2 ^ 63
  chunkNum_eq : f.chunkNum = UInt32.ofNat (chunkCount f.size)
  complete_length : f.chunksCompleteFlag.length = (1 + (f.chunkNum - 1) / 8).toNat
  download_length : f.chunksDownloadFlag.length = (1 + (f.chunkNum - 1) / 8).toNat

namespace DownloadFile

/-- The number of chunks that are ever fetched. -/
def fetchable (f : DownloadFile) : Nat := if f.chunkNum = 0 then 2 ^ 32 else f.chunkNum.toNat

variable {f : DownloadFile}

theorem fetchable_pos : 0 < f.fetchable := by
  unfold fetchable
  split
  · decide
  · rename_i hne
    have hzero : f.chunkNum.toNat ≠ 0 := fun h => hne (UInt32.toNat_inj.mp h)
    omega

theorem fetchable_mod : f.fetchable % 2 ^ 32 = f.chunkNum.toNat := by
  have hlt := f.chunkNum.toNat_lt
  unfold fetchable
  split
  · rename_i hzero
    rw [hzero]
    rfl
  · omega

theorem fetchable_le : f.fetchable ≤ 2 ^ 32 := by
  have hlt := f.chunkNum.toNat_lt
  unfold fetchable
  split <;> omega

/-- The number of bytes of the flags. -/
theorem byteNum_eq : (1 + (f.chunkNum - 1) / 8).toNat = 1 + (f.fetchable - 1) / 8 := by
  have hmod := @fetchable_mod f
  have hle := @fetchable_le f
  have hpos := @fetchable_pos f
  have hone : (1 : UInt32).toNat = 1 := rfl
  have height : (8 : UInt32).toNat = 8 := rfl
  rw [UInt32.toNat_add, UInt32.toNat_div, UInt32.toNat_sub, hone, height]
  omega

theorem lastnum_eq : f.lastnum.toNat = f.fetchable - 8 * ((f.fetchable - 1) / 8) := by
  have hmod := @fetchable_mod f
  have hle := @fetchable_le f
  have hpos := @fetchable_pos f
  have height : (f.chunkNum % 8).toNat = f.chunkNum.toNat % 8 := UInt32.toNat_mod ..
  unfold lastnum
  split
  · rename_i hzero
    rw [hzero] at height
    have hz : f.chunkNum.toNat % 8 = 0 := height.symm
    show 8 = _
    omega
  · rename_i hne
    have hz : f.chunkNum.toNat % 8 ≠ 0 := by
      intro hz
      exact hne (UInt32.toNat_inj.mp (height.trans hz))
    rw [height]
    omega

/-- The index of a chunk in the last byte. -/
theorem lastIndex_eq {j : Nat} (hj : j < f.lastnum.toNat) :
    (f.chunkNum - f.lastnum + UInt32.ofNat j).toNat = 8 * ((f.fetchable - 1) / 8) + j := by
  have hmod := @fetchable_mod f
  have hle := @fetchable_le f
  have hpos := @fetchable_pos f
  have hlast := @lastnum_eq f
  have hofNat : (UInt32.ofNat j).toNat = j := UInt32.toNat_ofNat_of_lt' (by
    show j < 2 ^ 32
    omega)
  rw [UInt32.toNat_add, UInt32.toNat_sub, hofNat]
  omega

theorem Sized.fetchable_le_chunkCount (h : f.Sized) : f.fetchable ≤ chunkCount f.size := by
  have hcount : f.chunkNum.toNat = chunkCount f.size % 2 ^ 32 := by
    rw [h.chunkNum_eq]
    exact UInt32.toNat_ofNat ..
  have hone : 0 < chunkCount f.size := Nat.add_pos_left Nat.one_pos _
  have hmod := @fetchable_mod f
  have hle := @fetchable_le f
  omega

theorem Sized.lt_length_download (h : f.Sized) {q : Nat} (hq : q < f.fetchable) :
    q / 8 < f.chunksDownloadFlag.length := by
  rw [h.download_length, byteNum_eq]
  omega

theorem Sized.lt_length_complete (h : f.Sized) {q : Nat} (hq : q < f.fetchable) :
    q / 8 < f.chunksCompleteFlag.length := by
  rw [h.complete_length, byteNum_eq]
  omega

theorem setByte_eq_setFlag (flags : List (BitVec 8)) (i : Nat) {j : Nat} (hj : j < 8) :
    flags.modify i (· ||| 1#8 <<< j) = setFlag flags (i * 8 + j) := by
  have hdiv : (i * 8 + j) / 8 = i := by omega
  have hmod : (i * 8 + j) % 8 = j := by omega
  rw [setFlag, hdiv, hmod]

/-- The flags of the chunks that are being fetched have one bit for every chunk. -/
def Fitted (f : DownloadFile) : Prop :=
  f.chunksDownloadFlag.length = (1 + (f.chunkNum - 1) / 8).toNat

/-- Where the chunks of the last byte start. -/
def lastStart (f : DownloadFile) : Nat := 8 * ((f.fetchable - 1) / 8)

theorem lastStart_lt : f.lastStart < f.fetchable := by
  have hpos := @fetchable_pos f
  unfold lastStart
  omega

theorem Fitted.lastStart_eq (h : f.Fitted) :
    (f.chunksDownloadFlag.length - 1) * 8 = f.lastStart := by
  unfold Fitted at h
  rw [byteNum_eq] at h
  unfold lastStart
  omega

/-- `GetNotDownloadFilechunk` takes the first chunk that is not being fetched and marks it. -/
theorem Fitted.getNotDownloadFilechunk (h : f.Fitted) {index : UInt32} {f' : DownloadFile}
    (hget : f.getNotDownloadFilechunk = some (index, f')) :
    index.toNat < f.fetchable ∧ bitAt f.chunksDownloadFlag index.toNat = false ∧
      (∀ q < index.toNat, bitAt f.chunksDownloadFlag q = true) ∧
      f' = { f with chunksDownloadFlag := setFlag f.chunksDownloadFlag index.toNat } := by
  have hstart := h.lastStart_eq
  have hlast := @lastnum_eq f
  have hle := @fetchable_le f
  have hlt := @lastStart_lt f
  simp only [DownloadFile.getNotDownloadFilechunk] at hget
  split at hget
  · rename_i i j hscan
    cases hget
    obtain ⟨k, rfl, hk, hj, hclear, hlower⟩ := scanBytes_eq_some hscan
    rw [List.length_dropLast] at hk
    have hindex : (UInt32.ofNat ((0 + k) * 8 + j)).toNat = k * 8 + j := by
      rw [Nat.zero_add]
      exact UInt32.toNat_ofNat_of_lt' (by
        show k * 8 + j < 2 ^ 32
        omega)
    rw [hindex]
    refine ⟨by omega, ?_, fun q hq => ?_, by rw [setByte_eq_setFlag _ _ hj, Nat.zero_add]⟩
    · rw [← bitAt_dropLast (by omega)]
      exact hclear
    · rw [← bitAt_dropLast (by omega)]
      exact hlower q hq
  · rename_i hscan
    split at hget
    · rename_i j hfirst
      cases hget
      obtain ⟨hj, hclear, hlower⟩ := firstClear_eq_some hfirst
      have hindex : (f.chunkNum - f.lastnum + UInt32.ofNat j).toNat =
          (f.chunksDownloadFlag.length - 1) * 8 + j := by
        rw [lastIndex_eq hj, hstart]
        rfl
      rw [hindex]
      refine ⟨?_, ?_, fun q hq => ?_, by rw [setByte_eq_setFlag _ _ (by omega)]⟩
      · unfold lastStart at hstart
        omega
      · rw [← getLsbD_getLastD _ (by omega)]
        exact hclear
      · by_cases hbefore : q / 8 < f.chunksDownloadFlag.length - 1
        · rw [← bitAt_dropLast hbefore]
          exact scanBytes_eq_none hscan q (by rw [List.length_dropLast]; omega)
        · obtain ⟨p, rfl⟩ := Nat.exists_eq_add_of_le
            (show (f.chunksDownloadFlag.length - 1) * 8 ≤ q by omega)
          rw [← getLsbD_getLastD _ (by omega)]
          exact hlower p (by omega)
    · cases hget

/-- `GetNotDownloadFilechunk` finds nothing exactly when all chunks are being fetched. -/
theorem Fitted.getNotDownloadFilechunk_eq_none (h : f.Fitted) :
    f.getNotDownloadFilechunk = none ↔
      ∀ q < f.fetchable, bitAt f.chunksDownloadFlag q = true := by
  constructor
  · intro hnone q hq
    have hstart := h.lastStart_eq
    have hlast := @lastnum_eq f
    have hlt := @lastStart_lt f
    simp only [DownloadFile.getNotDownloadFilechunk] at hnone
    split at hnone
    · cases hnone
    · rename_i hscan
      split at hnone
      · cases hnone
      · rename_i hfirst
        by_cases hbefore : q / 8 < f.chunksDownloadFlag.length - 1
        · rw [← bitAt_dropLast hbefore]
          exact scanBytes_eq_none hscan q (by rw [List.length_dropLast]; omega)
        · obtain ⟨p, rfl⟩ := Nat.exists_eq_add_of_le
            (show (f.chunksDownloadFlag.length - 1) * 8 ≤ q by omega)
          unfold lastStart at hstart hlt
          rw [← getLsbD_getLastD _ (by omega)]
          exact firstClear_eq_none hfirst p (by omega)
  · intro hall
    cases hget : f.getNotDownloadFilechunk with
    | none => rfl
    | some found =>
        obtain ⟨hindex, hclear, -⟩ := h.getNotDownloadFilechunk hget
        rw [hall _ hindex] at hclear
        cases hclear

/-- `GetNotDownloadFilechunk` takes a chunk that is not being fetched and marks it. -/
theorem Sized.getNotDownloadFilechunk (h : f.Sized) {index : UInt32} {f' : DownloadFile}
    (hget : f.getNotDownloadFilechunk = some (index, f')) :
    index.toNat < f.fetchable ∧ bitAt f.chunksDownloadFlag index.toNat = false ∧
      f' = { f with chunksDownloadFlag := setFlag f.chunksDownloadFlag index.toNat } := by
  have hfitted : f.Fitted := h.download_length
  obtain ⟨hindex, hclear, -, hfile⟩ := hfitted.getNotDownloadFilechunk hget
  exact ⟨hindex, hclear, hfile⟩

theorem Sized.getChunkSize (h : f.Sized) {index : UInt32}
    (hindex : index.toNat < chunkCount f.size) :
    f.getChunkSize index = chunkLength f.size index.toNat := by
  have hpos := h.size_pos
  have hlt := h.size_lt
  unfold chunkCount downloadFileChunkSize at hindex
  unfold DownloadFile.getChunkSize DownloadFile.getRange chunkLength downloadFileChunkSize
  simp only []
  omega

/-- `SetFileSize` starts a chunked download. -/
theorem setFileSize_sized (f : DownloadFile) {size : Int} (hpos : 0 < size) (hlt : size < 2 ^ 63) :
    (f.setFileSize size).Sized := by
  rw [setFileSize, if_pos hpos]
  exact ⟨hpos, hlt, rfl, List.length_replicate, List.length_replicate⟩

theorem setFileSize_bits (f : DownloadFile) {size : Int} (hpos : 0 < size) (q : Nat) :
    bitAt (f.setFileSize size).chunksDownloadFlag q = false ∧
      bitAt (f.setFileSize size).chunksCompleteFlag q = false := by
  rw [setFileSize, if_pos hpos]
  exact ⟨bitAt_replicate_zero _ q, bitAt_replicate_zero _ q⟩

/-- The flags of a chunk that is being fetched, as seen by other operations. -/
theorem Sized.withDownloadFlag (h : f.Sized) {flags : List (BitVec 8)}
    (hlength : flags.length = f.chunksDownloadFlag.length) :
    Sized { f with chunksDownloadFlag := flags } :=
  { h with download_length := hlength.trans h.download_length }

theorem Sized.revert (h : f.Sized) (index : UInt32) :
    (f.revertDownloadFilechunk index).Sized :=
  h.withDownloadFlag (List.length_modify ..)

theorem Sized.complete (h : f.Sized) (index : UInt32) : (f.completeChunk index).Sized :=
  { h with complete_length := (List.length_modify ..).trans h.complete_length }

/-- The bytes of the chunks that are complete. -/
def doneSize (f : DownloadFile) : Nat :=
  ∑ k ∈ Finset.range (chunkCount f.size) with bitAt f.chunksCompleteFlag k,
    chunkLength f.size k

theorem doneSize_le (hpos : 0 < f.size) : f.doneSize ≤ f.size.toNat := by
  rw [← sum_chunkLength hpos]
  exact Finset.sum_le_sum_of_subset (Finset.filter_subset ..)

/-- When the complete chunks add up to the size of the file all chunks are complete. -/
theorem all_complete (h : f.Sized) (hsize : f.doneSize = f.size.toNat) {k : Nat}
    (hk : k < chunkCount f.size) : bitAt f.chunksCompleteFlag k = true := by
  by_contra hclear
  have hmem : k ∈ Finset.range (chunkCount f.size) := Finset.mem_range.mpr hk
  have hlt : f.doneSize < ∑ k ∈ Finset.range (chunkCount f.size), chunkLength f.size k :=
    Finset.sum_lt_sum_of_subset (Finset.filter_subset ..) hmem
      (fun hin => hclear (Finset.mem_filter.mp hin).2) (chunkLength_pos h.size_pos hk)
      (fun _ _ _ => Nat.zero_le _)
  rw [sum_chunkLength h.size_pos] at hlt
  omega

/-- `CompleteChunk` on a chunk that is not complete adds its size. -/
theorem doneSize_complete (h : f.Sized) {index : UInt32} (hindex : index.toNat < f.fetchable)
    (hclear : bitAt f.chunksCompleteFlag index.toNat = false) :
    (f.completeChunk index).doneSize = f.doneSize + chunkLength f.size index.toNat := by
  have hcount : index.toNat < chunkCount f.size :=
    Nat.lt_of_lt_of_le hindex h.fetchable_le_chunkCount
  have hfilter : (Finset.range (chunkCount f.size)).filter
      (fun k => bitAt (f.completeChunk index).chunksCompleteFlag k) =
        insert index.toNat ((Finset.range (chunkCount f.size)).filter
          (fun k => bitAt f.chunksCompleteFlag k)) := by
    ext k
    have hbit : bitAt (f.completeChunk index).chunksCompleteFlag k =
        (bitAt f.chunksCompleteFlag k || decide (k = index.toNat)) :=
      bitAt_setFlag (h.lt_length_complete hindex) k
    simp only [Finset.mem_filter, Finset.mem_range, Finset.mem_insert, hbit, Bool.or_eq_true,
      decide_eq_true_eq]
    constructor
    · rintro ⟨hk, hold | rfl⟩
      · exact .inr ⟨hk, hold⟩
      · exact .inl rfl
    · rintro (rfl | ⟨hk, hold⟩)
      · exact ⟨hcount, .inr rfl⟩
      · exact ⟨hk, .inl hold⟩
  have hnew : index.toNat ∉ (Finset.range (chunkCount f.size)).filter
      (fun k => bitAt f.chunksCompleteFlag k) := by
    intro hin
    rw [Finset.mem_filter, hclear] at hin
    exact absurd hin.2 Bool.false_ne_true
  have hsum : (f.completeChunk index).doneSize = ∑ k ∈ (Finset.range (chunkCount f.size)).filter
      (fun k => bitAt (f.completeChunk index).chunksCompleteFlag k), chunkLength f.size k := rfl
  rw [hsum, hfilter, Finset.sum_insert hnew, Nat.add_comm]
  rfl

/-- `CompleteChunk` counts the size of a chunk that is not complete. -/
theorem downloadSize_complete (h : f.Sized) {index : UInt32} (hindex : index.toNat < f.fetchable)
    (hclear : bitAt f.chunksCompleteFlag index.toNat = false)
    (hsize : f.downloadSize = f.doneSize) :
    (f.completeChunk index).downloadSize = (f.completeChunk index).doneSize := by
  have hcount : index.toNat < chunkCount f.size :=
    Nat.lt_of_lt_of_le hindex h.fetchable_le_chunkCount
  have hle : (f.completeChunk index).doneSize ≤ f.size.toNat := doneSize_le h.size_pos
  have hlt := h.size_lt
  rw [doneSize_complete h hindex hclear] at hle ⊢
  show (f.downloadSize + f.getChunkSize index) % 2 ^ 64 = _
  rw [h.getChunkSize hcount, hsize, Nat.mod_eq_of_lt (by omega)]

end DownloadFile

end Utilpp.Download

import Utilpp.Download.Chunks

/-!
# The sizes of chunks

The bytes of a file are divided into chunks in two ways: `GetRange` gives the first byte of a chunk
and the one behind its last, `FDownloadFile::GetChunkSize` only the size. `ranges_tile` says that
the ranges divide the file and that the sizes are theirs. `GetDownloadSize` adds up the sizes of the
complete chunks; it starts from a variable that is not set and counts too much
(`progress_exact_iff`).
-/

namespace Utilpp.Download

open Lib

/-- `FDownloadFile::GetChunkSize`; both operations are signed. -/
def FDownloadFile.getChunkSize (f : DownloadFile) (index : UInt32) : Int :=
  if (index.toNat : Int) < f.size.tdiv downloadFileChunkSize then downloadFileChunkSize
  else f.size.tmod downloadFileChunkSize

namespace DownloadFile

/-! ## Ranges -/

/-- The ranges of the chunks divide the bytes of the file in order, and the sizes are those of the
ranges. -/
structure Tiles (f : DownloadFile) : Prop where
  /-- There is a chunk, and no more than needed. -/
  count : f.chunkNum.toNat = (f.size.toNat + (downloadFileChunkSize - 1)) / downloadFileChunkSize
  first : (f.getRange 0).1 = 0
  last : ∀ index, index.toNat + 1 = f.chunkNum.toNat → (f.getRange index).2 = f.size
  next : ∀ index following, following.toNat = index.toNat + 1 → following < f.chunkNum →
    (f.getRange index).2 = (f.getRange following).1
  nonempty : ∀ index < f.chunkNum, (f.getRange index).1 < (f.getRange index).2
  short : ∀ index < f.chunkNum,
    (f.getRange index).2 - (f.getRange index).1 ≤ downloadFileChunkSize
  size : ∀ index < f.chunkNum,
    FDownloadFile.getChunkSize f index = (f.getRange index).2 - (f.getRange index).1

/-- Every number that the sizes and ranges of the chunks are computed from is a nonnegative 64-bit
number: `Size - 1`, the number of chunks, and the first byte of a chunk and of the one behind it. -/
structure NoOverflow (f : DownloadFile) : Prop where
  ceil : 0 ≤ f.size - 1 ∧ 1 + (f.size - 1) / downloadFileChunkSize < 2 ^ 63
  range : ∀ index < f.chunkNum, (downloadFileChunkSize : Int) * index.toNat < 2 ^ 63 ∧
    (downloadFileChunkSize : Int) * index.toNat + downloadFileChunkSize < 2 ^ 63

/-- A file whose chunks have 32-bit numbers has all of them. -/
theorem setFileSize_chunkNum (f : DownloadFile) {size : Int} (hpos : 0 < size)
    (hcount : chunkCount size < 2 ^ 32) :
    (f.setFileSize size).chunkNum.toNat = chunkCount size := by
  rw [setFileSize, if_pos hpos]
  exact UInt32.toNat_ofNat_of_lt' hcount

theorem lt_chunkCount {f : DownloadFile} (hnum : f.chunkNum.toNat = chunkCount f.size)
    {index : UInt32} (h : index < f.chunkNum) : index.toNat < chunkCount f.size :=
  hnum ▸ UInt32.lt_iff_toNat_lt.mp h

/-- A file with all of its chunks is divided by their ranges. -/
theorem tiles_of_chunkNum {f : DownloadFile} (hpos : 0 < f.size)
    (hnum : f.chunkNum.toNat = chunkCount f.size) : f.Tiles := by
  have hlt : ∀ index, index < f.chunkNum → index.toNat < chunkCount f.size :=
    fun _ => lt_chunkCount hnum
  have hzero : (0 : UInt32).toNat = 0 := rfl
  unfold chunkCount downloadFileChunkSize at hnum hlt
  constructor
  · rw [hnum]
    unfold downloadFileChunkSize
    omega
  · rw [getRange, hzero]
    simp
  · intro index hindex
    rw [getRange]
    unfold downloadFileChunkSize
    simp only []
    omega
  · intro index following hnext hfollowing
    have hfollowing := hlt following hfollowing
    rw [getRange, getRange]
    unfold downloadFileChunkSize
    simp only []
    omega
  · intro index hindex
    have hindex := hlt index hindex
    rw [getRange]
    unfold downloadFileChunkSize
    simp only []
    omega
  · intro index hindex
    rw [getRange]
    simp only []
    omega
  · intro index hindex
    have hindex := hlt index hindex
    rw [FDownloadFile.getChunkSize, getRange, Int.tdiv_eq_ediv_of_nonneg hpos.le,
      Int.tmod_eq_emod_of_nonneg hpos.le]
    unfold downloadFileChunkSize
    simp only []
    split
    · omega
    · omega

theorem noOverflow_of_chunkNum {f : DownloadFile} (hpos : 0 < f.size)
    (hnum : f.chunkNum.toNat = chunkCount f.size) : f.NoOverflow := by
  have hcount : chunkCount f.size < 2 ^ 32 := hnum ▸ f.chunkNum.toNat_lt
  have hlt : ∀ index, index < f.chunkNum → index.toNat < chunkCount f.size :=
    fun _ => lt_chunkCount hnum
  unfold chunkCount downloadFileChunkSize at hcount hlt
  constructor
  · unfold downloadFileChunkSize
    omega
  · intro index hindex
    have hindex := hlt index hindex
    unfold downloadFileChunkSize
    omega

/-- The ranges of the chunks of a file are its bytes in order, cut every 4 MiB. -/
theorem ranges_tile (f : DownloadFile) {size : Int} (hpos : 0 < size)
    (hcount : chunkCount size < 2 ^ 32) :
    (f.setFileSize size).Tiles ∧ (f.setFileSize size).NoOverflow := by
  have hnum := setFileSize_chunkNum f hpos hcount
  rw [← setFileSize_size f size] at hpos
  have hall : (f.setFileSize size).chunkNum.toNat = chunkCount (f.setFileSize size).size := by
    rw [hnum, setFileSize_size]
  exact ⟨tiles_of_chunkNum hpos hall, noOverflow_of_chunkNum hpos hall⟩

/-- A file of one byte more than two chunks. -/
theorem three_chunks_tile :
    (setFileSize {} 8388609).Tiles ∧ (setFileSize {} 8388609).chunkNum = 3 :=
  ⟨(ranges_tile {} (by decide) (by decide)).1, by decide⟩

/-! ## Progress -/

/-- The loop over the lowest `n` bits of a byte in `GetDownloadSize`. -/
def addBits (sum : UInt64) (byte : BitVec 8) (n : Nat) : UInt64 :=
  (List.range n).foldl
    (fun sum j => if byte.getLsbD j then sum + UInt64.ofNat downloadFileChunkSize else sum) sum

/-- The body of the loop over the bytes before the last one. -/
def addByte (sum : UInt64) (byte : BitVec 8) : UInt64 :=
  -- a full byte is added at once, and then bit by bit
  let sum := if byte = 255#8 then sum + UInt64.ofNat (downloadFileChunkSize * 8) else sum
  addBits sum byte 8

/-- `GetDownloadSize`; `unset` is what the variable that it does not set holds. -/
def getDownloadSize (f : DownloadFile) (unset : UInt64) : UInt64 :=
  let sum := f.chunksCompleteFlag.dropLast.foldl addByte unset
  addBits sum (f.chunksCompleteFlag.getLastD 0) f.lastnum.toNat

/-- `IsIntact`; the size is converted to an unsigned number. -/
def isIntact (f : DownloadFile) (unset : UInt64) : Bool :=
  UInt64.ofNat (f.size % 2 ^ 64).toNat == f.getDownloadSize unset

/-- The size of the chunks that are complete. -/
def completeSize (f : DownloadFile) : Nat :=
  ∑ k ∈ Finset.range f.fetchable with bitAt f.chunksCompleteFlag k, chunkLength f.size k

/-- The progress is the size of the complete chunks, and the file is intact when each of its chunks
has a flag and is complete. -/
structure ProgressExact (f : DownloadFile) (unset : UInt64) : Prop where
  downloadSize : (f.getDownloadSize unset).toNat = f.completeSize
  isIntact : f.isIntact unset = true ↔
    ∀ k < chunkCount f.size, k < f.fetchable ∧ bitAt f.chunksCompleteFlag k = true

/-- The bytes that a complete last chunk lacks to 4 MiB. -/
def lastLack (f : DownloadFile) : Nat :=
  if bitAt f.chunksCompleteFlag (f.fetchable - 1) = true then
    downloadFileChunkSize * f.fetchable - f.size.toNat
  else 0

/-- What `GetDownloadSize` counts too much: eight chunks for every full byte before the last one,
and the bytes that the last chunk lacks. -/
def surplus (f : DownloadFile) : Nat :=
  downloadFileChunkSize * 8 * f.chunksCompleteFlag.dropLast.count 255#8 + f.lastLack

theorem toNat_addBits (sum : UInt64) (byte : BitVec 8) (n : Nat) :
    (addBits sum byte n).toNat =
      (sum.toNat + downloadFileChunkSize * (List.range n).countP byte.getLsbD) % 2 ^ 64 := by
  have hchunk : (UInt64.ofNat downloadFileChunkSize).toNat = downloadFileChunkSize := rfl
  have hsum : sum.toNat < 2 ^ 64 := sum.toNat_lt
  unfold addBits
  induction n with
  | zero => exact (Nat.mod_eq_of_lt hsum).symm
  | succ n ih =>
      rw [List.range_succ, List.foldl_append, List.foldl_cons, List.foldl_nil, List.countP_append,
        List.countP_singleton, Nat.mul_add]
      split
      · rw [UInt64.toNat_add, ih, hchunk]
        omega
      · rw [ih, Nat.mul_zero, Nat.add_zero]

theorem toNat_addByte (sum : UInt64) (byte : BitVec 8) :
    (addByte sum byte).toNat = (sum.toNat + downloadFileChunkSize * 8 * [byte].count 255#8 +
      downloadFileChunkSize * (List.range 8).countP byte.getLsbD) % 2 ^ 64 := by
  have height : (UInt64.ofNat (downloadFileChunkSize * 8)).toNat = downloadFileChunkSize * 8 := rfl
  unfold addByte
  simp only [toNat_addBits, List.count_singleton, beq_iff_eq]
  split
  · rw [UInt64.toNat_add, height]
    omega
  · rw [Nat.mul_zero, Nat.add_zero]

/-- The loop over the bytes counts their set bits, and full bytes once more. -/
theorem toNat_foldl_addByte (sum : UInt64) (bytes : List (BitVec 8)) :
    (bytes.foldl addByte sum).toNat =
      (sum.toNat + downloadFileChunkSize * 8 * bytes.count 255#8 +
        downloadFileChunkSize * (List.range (bytes.length * 8)).countP (bitAt bytes)) % 2 ^ 64 := by
  have hsum : sum.toNat < 2 ^ 64 := sum.toNat_lt
  induction bytes generalizing sum with
  | nil => exact (Nat.mod_eq_of_lt hsum).symm
  | cons byte bytes ih =>
      have hbits : (List.range ((byte :: bytes).length * 8)).countP (bitAt (byte :: bytes)) =
          (List.range 8).countP byte.getLsbD +
            (List.range (bytes.length * 8)).countP (bitAt bytes) := by
        rw [List.length_cons, Nat.succ_mul, Nat.add_comm, List.range_add, List.countP_append,
          List.countP_map]
        refine congrArg₂ (· + ·) ?_ ?_
        · refine List.countP_congr fun j hj => ?_
          rw [bitAt_cons_of_lt _ _ (List.mem_range.mp hj)]
        · refine List.countP_congr fun j _ => ?_
          show bitAt (byte :: bytes) (8 + j) = true ↔ _
          rw [Nat.add_comm, bitAt_cons_add _ _ (by decide)]
      have hcount : (byte :: bytes).count 255#8 = [byte].count 255#8 + bytes.count 255#8 :=
        @List.count_append _ _ _ [byte] bytes
      rw [List.foldl_cons, ih _ (addByte sum byte).toNat_lt, toNat_addByte, hbits, hcount,
        Nat.mul_add, Nat.mul_add]
      omega

variable {f : DownloadFile}

/-- `GetDownloadSize` adds 4 MiB for every complete chunk, and the full bytes once more. -/
theorem toNat_getDownloadSize (h : f.Sized) (unset : UInt64) :
    (f.getDownloadSize unset).toNat =
      (unset.toNat + downloadFileChunkSize * 8 * f.chunksCompleteFlag.dropLast.count 255#8 +
        downloadFileChunkSize *
          (List.range f.fetchable).countP (bitAt f.chunksCompleteFlag)) % 2 ^ 64 := by
  have hlength := h.complete_length
  have hlast := @lastnum_eq f
  have hpos := @fetchable_pos f
  rw [byteNum_eq] at hlength
  have hsplit : f.fetchable = (f.chunksCompleteFlag.length - 1) * 8 + f.lastnum.toNat := by
    omega
  have hbits : (List.range f.fetchable).countP (bitAt f.chunksCompleteFlag) =
      (List.range (f.chunksCompleteFlag.dropLast.length * 8)).countP
          (bitAt f.chunksCompleteFlag.dropLast) +
        (List.range f.lastnum.toNat).countP (f.chunksCompleteFlag.getLastD 0).getLsbD := by
    rw [hsplit, List.range_add, List.countP_append, List.countP_map, List.length_dropLast]
    congr 1
    · refine List.countP_congr fun j hj => ?_
      rw [List.mem_range] at hj
      rw [bitAt_dropLast (by omega)]
    · refine List.countP_congr fun j hj => ?_
      rw [List.mem_range] at hj
      rw [Function.comp_apply, getLsbD_getLastD _ (by omega)]
  rw [getDownloadSize, toNat_addBits, toNat_foldl_addByte, hbits, Nat.mul_add]
  omega

/-- The complete chunks have 4 MiB each, but for the last one. -/
theorem completeSize_add_lastLack (h : f.Sized) :
    f.completeSize + f.lastLack = downloadFileChunkSize *
      (List.range f.fetchable).countP (bitAt f.chunksCompleteFlag) := by
  have hle := h.fetchable_le_chunkCount
  have hsum : ∀ n < f.fetchable,
      ∑ k ∈ Finset.range n with bitAt f.chunksCompleteFlag k, chunkLength f.size k =
        downloadFileChunkSize * (List.range n).countP (bitAt f.chunksCompleteFlag) := by
    intro n hn
    unfold chunkCount at hle
    rw [Finset.sum_filter]
    induction n with
    | zero => rfl
    | succ n ih =>
        have hlength : chunkLength f.size n = downloadFileChunkSize := by
          unfold downloadFileChunkSize at hle
          unfold chunkLength downloadFileChunkSize
          omega
        rw [Finset.sum_range_succ, ih (by omega), List.range_succ, List.countP_append,
          List.countP_singleton, hlength, Nat.mul_add]
        split
        · rw [Nat.mul_one]
        · rw [Nat.mul_zero]
  obtain ⟨last, hlast⟩ : ∃ last, f.fetchable = last + 1 :=
    ⟨f.fetchable - 1, (Nat.succ_pred_eq_of_pos fetchable_pos).symm⟩
  have hpos := h.size_pos
  have hlack : (if bitAt f.chunksCompleteFlag last = true then chunkLength f.size last else 0) +
      f.lastLack =
        downloadFileChunkSize * (if bitAt f.chunksCompleteFlag last = true then 1 else 0) := by
    rw [lastLack, hlast, Nat.add_sub_cancel]
    unfold chunkCount downloadFileChunkSize at hle
    unfold chunkLength downloadFileChunkSize
    split
    · omega
    · rfl
  have hinit := hsum last (by omega)
  rw [Finset.sum_filter] at hinit
  rw [completeSize, Finset.sum_filter, hlast, Finset.sum_range_succ, hinit, List.range_succ,
    List.countP_append, List.countP_singleton, Nat.mul_add, Nat.add_assoc, hlack]

/-- The complete chunks have the size of the file when each of its chunks is one of them. -/
theorem completeSize_eq_size_iff (h : f.Sized) : f.completeSize = f.size.toNat ↔
    ∀ k < chunkCount f.size, k < f.fetchable ∧ bitAt f.chunksCompleteFlag k = true := by
  have hpos := h.size_pos
  rcases Nat.lt_or_eq_of_le h.fetchable_le_chunkCount with hlt | heq
  · -- the chunks that have flags do not reach the end of the file
    have hsum := completeSize_add_lastLack h
    have hcount : (List.range f.fetchable).countP (bitAt f.chunksCompleteFlag) ≤ f.fetchable :=
      List.countP_le_length.trans_eq List.length_range
    have hshort : f.completeSize < f.size.toNat := by
      unfold chunkCount at hlt
      unfold downloadFileChunkSize at hlt hsum
      omega
    exact ⟨fun hsize => absurd hsize hshort.ne,
      fun hall => absurd (hall f.fetchable hlt).1 (Nat.lt_irrefl _)⟩
  · have hdone : f.completeSize = f.doneSize := by
      rw [completeSize, heq, doneSize]
    rw [hdone]
    constructor
    · intro hsize k hk
      exact ⟨heq ▸ hk, all_complete h hsize hk⟩
    · intro hall
      rw [← sum_chunkLength hpos, doneSize, Finset.filter_true_of_mem]
      exact fun k hk => (hall k (Finset.mem_range.mp hk)).2

/-- The progress is exact if and only if what the unset variable holds cancels what is counted too
much. -/
theorem progress_exact_iff (h : f.Sized) (unset : UInt64) :
    f.ProgressExact unset ↔ (unset.toNat + f.surplus) % 2 ^ 64 = 0 := by
  have hpos := h.size_pos
  have hlt := h.size_lt
  have hsum := toNat_getDownloadSize h unset
  rw [← completeSize_add_lastLack h] at hsum
  have hcomplete : f.completeSize ≤ f.size.toNat := by
    rw [← sum_chunkLength hpos]
    refine Finset.sum_le_sum_of_subset ((Finset.filter_subset ..).trans ?_)
    exact Finset.range_subset_range.mpr h.fetchable_le_chunkCount
  have hsize : (f.getDownloadSize unset).toNat = f.completeSize ↔
      (unset.toNat + f.surplus) % 2 ^ 64 = 0 := by
    rw [hsum, surplus]
    omega
  have htoNat : (UInt64.ofNat (f.size % 2 ^ 64).toNat).toNat = f.size.toNat := by
    rw [UInt64.toNat_ofNat_of_lt']
    · omega
    · show (f.size % 2 ^ 64).toNat < 2 ^ 64
      omega
  constructor
  · exact fun hexact => hsize.mp hexact.downloadSize
  · intro hzero
    refine ⟨hsize.mpr hzero, ?_⟩
    rw [isIntact, beq_iff_eq, ← UInt64.toNat_inj, htoNat, hsize.mpr hzero, eq_comm]
    exact completeSize_eq_size_iff h

/-- A file of two chunks and one byte with the first chunk complete, and an unset variable that
happens to be 0. -/
theorem first_chunk_exact : (completeChunk (setFileSize {} 8388609) 0).ProgressExact 0 :=
  (progress_exact_iff
    ⟨by decide, by decide, by decide, by decide, by decide⟩ 0).mpr (by decide)

/-- The same file with its last chunk complete: the byte is counted as 4 MiB. -/
theorem last_chunk_inexact :
    ¬(completeChunk (setFileSize {} 8388609) 2).ProgressExact 0 ∧
      (getDownloadSize (completeChunk (setFileSize {} 8388609) 2) 0).toNat = 4194304 ∧
      completeSize (completeChunk (setFileSize {} 8388609) 2) = 1 := by
  have hsize : completeSize (completeChunk (setFileSize {} 8388609) 2) = 1 := by decide
  have hdownload :
      (getDownloadSize (completeChunk (setFileSize {} 8388609) 2) 0).toNat = 4194304 := by
    decide
  refine ⟨fun hexact => ?_, hdownload, hsize⟩
  have heq := hexact.downloadSize
  rw [hsize, hdownload] at heq
  exact absurd heq (by decide)

end DownloadFile

end Utilpp.Download

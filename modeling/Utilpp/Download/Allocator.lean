import Utilpp.Download.Chunks
import Utilpp.Lib.Transition

/-!
# Handing out chunks

A download with its size known, as the requests for its chunks see it: a chunk is handed out, comes
back when its request fails, or is complete, and the download may be saved and resumed in between.
`handsOut_run` says that the lowest free chunk is handed out as long as there is one.
`IsAllChunkInDownload`, which asks the same question of the last byte only, gives the same answer as
long as no earlier chunk becomes free while the last byte is full (`tests_agree_iff`).
-/

namespace Utilpp.Download

open Lib

/-- A download and the chunks that are handed out. -/
structure Allocator where
  file : DownloadFile
  out : List UInt32

namespace Allocator

/-- The recovery record is written, and read by another process. -/
def resume (s : Allocator) (fs : FileSystem) : Allocator :=
  { file := (s.file.messageBuilder.toFile s.file.workPath).init fs, out := [] }

/-- `GetNotDownloadFilechunk`. -/
def take (s : Allocator) : Allocator :=
  match s.file.getNotDownloadFilechunk with
  | some (index, file) => { file, out := index :: s.out }
  | none => s

/-- What happens to the chunks of a download. -/
inductive Event where
  | take
  | revert (index : UInt32)
  | complete (index : UInt32)
  | resume (fs : FileSystem)

/-- One event. Only chunks that are handed out come back or are completed. -/
def step (s : Allocator) : Event → Option Allocator
  | .take => some s.take
  | .revert index =>
      if index ∈ s.out then
        some { file := s.file.revertDownloadFilechunk index, out := s.out.erase index }
      else none
  | .complete index =>
      if index ∈ s.out then
        some { file := s.file.completeChunk index, out := s.out.erase index }
      else none
  | .resume fs => some (s.resume fs)

/-- A new download whose size becomes known. -/
def start (fs : FileSystem) (url path : String) (content : Bool) (size : Int) : Allocator :=
  { file := (DownloadFile.init fs { url, path, content }).setFileSize size, out := [] }

/-- The chunk is handed out or complete. -/
def Taken (s : Allocator) (k : Nat) : Prop :=
  (∃ index ∈ s.out, index.toNat = k) ∨ bitAt s.file.chunksCompleteFlag k = true

/-- The purpose of `GetNotDownloadFilechunk`: it takes the lowest of the free chunks. -/
structure HandsOut (s : Allocator) : Prop where
  inside : ∀ index file, s.file.getNotDownloadFilechunk = some (index, file) →
    index < s.file.chunkNum
  free : ∀ index file, s.file.getNotDownloadFilechunk = some (index, file) →
    ¬ s.Taken index.toNat
  lowest : ∀ index file, s.file.getNotDownloadFilechunk = some (index, file) →
    ∀ k < index.toNat, s.Taken k
  exhausted : s.file.getNotDownloadFilechunk = none ↔ ∀ k < s.file.chunkNum.toNat, s.Taken k

/-- The two tests for a free chunk give the same answer. -/
def TestsAgree (s : Allocator) : Prop :=
  s.file.isAllChunkInDownload = true ↔ s.file.getNotDownloadFilechunk = none

/-! ## Flags -/

/-- The flags have one bit for every chunk, and there are chunks. -/
structure Flagged (flags : List (BitVec 8)) (chunkNum : UInt32) : Prop where
  some_chunk : chunkNum ≠ 0
  length : flags.length = (1 + (chunkNum - 1) / 8).toNat
  padding : ∀ k, chunkNum.toNat ≤ k → bitAt flags k = false

theorem Flagged.replicate {chunkNum : UInt32} (h : chunkNum ≠ 0) :
    Flagged (List.replicate (1 + (chunkNum - 1) / 8).toNat 0) chunkNum :=
  ⟨h, List.length_replicate, fun k _ => bitAt_replicate_zero _ k⟩

/-- There is a byte for every chunk. -/
theorem Flagged.lt_length {flags : List (BitVec 8)} {chunkNum : UInt32} (h : Flagged flags chunkNum)
    {k : Nat} (hk : k < chunkNum.toNat) : k / 8 < flags.length := by
  have hfetchable : DownloadFile.fetchable { chunkNum := chunkNum } = chunkNum.toNat :=
    if_neg h.some_chunk
  have hbytes := @DownloadFile.byteNum_eq { chunkNum := chunkNum }
  rw [hfetchable] at hbytes
  rw [h.length]
  show k / 8 < (1 + (chunkNum - 1) / 8).toNat
  have hbytes : (1 + (chunkNum - 1) / 8).toNat = 1 + (chunkNum.toNat - 1) / 8 := hbytes
  omega

theorem Flagged.setFlag {flags : List (BitVec 8)} {chunkNum : UInt32} (h : Flagged flags chunkNum)
    {k : Nat} (hk : k < chunkNum.toNat) : Flagged (setFlag flags k) chunkNum := by
  refine ⟨h.some_chunk, (List.length_modify ..).trans h.length, fun q hq => ?_⟩
  rw [bitAt_setFlag (h.lt_length hk), h.padding q hq, Bool.false_or, decide_eq_false_iff_not]
  omega

theorem Flagged.clearFlag {flags : List (BitVec 8)} {chunkNum : UInt32} (h : Flagged flags chunkNum)
    (k : Nat) : Flagged (clearFlag flags k) chunkNum := by
  refine ⟨h.some_chunk, (List.length_modify ..).trans h.length, fun q hq => ?_⟩
  rw [bitAt_clearFlag, h.padding q hq, Bool.false_and]

/-! ## The invariant -/

/-- A chunk is marked exactly if it is handed out or complete. -/
structure Marked (s : Allocator) : Prop where
  download : Flagged s.file.chunksDownloadFlag s.file.chunkNum
  complete : Flagged s.file.chunksCompleteFlag s.file.chunkNum
  marked : ∀ k, bitAt s.file.chunksDownloadFlag k = true ↔ s.Taken k
  nodup : s.out.Nodup
  pending : ∀ index ∈ s.out, bitAt s.file.chunksCompleteFlag index.toNat = false

/-- The recovery record has the complete chunks of the download, or no chunks at all. -/
def Recorded (s : Allocator) : Prop :=
  s.file.messageBuilder.chunkNum ≠ 0 →
    s.file.messageBuilder.chunkNum = s.file.chunkNum ∧
      s.file.messageBuilder.chunksCompleteFlag = s.file.chunksCompleteFlag

/-- A download with chunks is marked, and its record is true. -/
structure Kept (s : Allocator) : Prop where
  marked : s.file.chunkNum ≠ 0 → s.Marked
  recorded : s.Recorded

variable {s t : Allocator}

theorem Marked.fitted (h : s.Marked) : s.file.Fitted := h.download.length

theorem Marked.fetchable (h : s.Marked) : s.file.fetchable = s.file.chunkNum.toNat :=
  if_neg h.download.some_chunk

/-- A chunk that is handed out is a chunk of the download. -/
theorem Marked.lt_chunkNum (h : s.Marked) {index : UInt32} (hout : index ∈ s.out) :
    index.toNat < s.file.chunkNum.toNat := by
  by_contra hge
  have hbit := (h.marked index.toNat).mpr (.inl ⟨index, hout, rfl⟩)
  rw [h.download.padding _ (Nat.not_lt.mp hge)] at hbit
  cases hbit

/-- Marked chunks make `GetNotDownloadFilechunk` keep its promises. -/
theorem Marked.handsOut (h : s.Marked) : s.HandsOut where
  inside index file hget := by
    obtain ⟨hindex, -⟩ := h.fitted.getNotDownloadFilechunk hget
    rw [h.fetchable] at hindex
    exact UInt32.lt_iff_toNat_lt.mpr hindex
  free index file hget htaken := by
    obtain ⟨-, hclear, -⟩ := h.fitted.getNotDownloadFilechunk hget
    rw [(h.marked _).mpr htaken] at hclear
    cases hclear
  lowest index file hget k hk := by
    obtain ⟨-, -, hlower, -⟩ := h.fitted.getNotDownloadFilechunk hget
    exact (h.marked k).mp (hlower k hk)
  exhausted := by
    rw [h.fitted.getNotDownloadFilechunk_eq_none, h.fetchable]
    exact forall₂_congr fun k _ => h.marked k

/-- Taking a chunk takes the lowest free one. -/
theorem Marked.taken_take (h : s.Marked) {index : UInt32} {file : DownloadFile}
    (hget : s.file.getNotDownloadFilechunk = some (index, file)) (k : Nat) :
    Taken { file, out := index :: s.out } k ↔ s.Taken k ∨ k = index.toNat := by
  obtain ⟨-, -, -, rfl⟩ := h.fitted.getNotDownloadFilechunk hget
  simp only [Taken, List.exists_mem_cons_iff]
  constructor
  · rintro ((rfl | hout) | hcomplete)
    · exact .inr rfl
    · exact .inl (.inl hout)
    · exact .inl (.inr hcomplete)
  · rintro ((hout | hcomplete) | rfl)
    · exact .inl (.inr hout)
    · exact .inr hcomplete
    · exact .inl (.inl rfl)

theorem Marked.take (h : s.Marked) : s.take.Marked := by
  unfold Allocator.take
  split
  · rename_i index file hget
    have htaken := h.taken_take hget
    have hfree := h.handsOut.free index _ hget
    obtain ⟨hindex, hclear, -, rfl⟩ := h.fitted.getNotDownloadFilechunk hget
    rw [h.fetchable] at hindex
    refine ⟨h.download.setFlag hindex, h.complete, fun k => ?_, ?_, fun other hother => ?_⟩
    · rw [htaken, bitAt_setFlag (h.download.lt_length hindex), Bool.or_eq_true, decide_eq_true_eq,
        h.marked k]
    · exact List.nodup_cons.mpr ⟨fun hin => hfree (.inl ⟨index, hin, rfl⟩), h.nodup⟩
    · rcases List.mem_cons.mp hother with rfl | hin
      · exact Bool.eq_false_iff.mpr fun hcomplete => hfree (.inr hcomplete)
      · exact h.pending other hin
  · exact h

/-- What is handed out without the chunk. -/
theorem Marked.exists_mem_erase (h : s.Marked) (index : UInt32) (k : Nat) :
    (∃ other ∈ s.out.erase index, other.toNat = k) ↔
      (∃ other ∈ s.out, other.toNat = k) ∧ k ≠ index.toNat := by
  constructor
  · rintro ⟨other, hother, rfl⟩
    obtain ⟨hne, hin⟩ := h.nodup.mem_erase_iff.mp hother
    exact ⟨⟨other, hin, rfl⟩, fun heq => hne (UInt32.toNat_inj.mp heq)⟩
  · rintro ⟨⟨other, hin, rfl⟩, hne⟩
    exact ⟨other, h.nodup.mem_erase_iff.mpr ⟨fun heq => hne (heq ▸ rfl), hin⟩, rfl⟩

/-- A chunk that comes back is free. -/
theorem Marked.taken_revert (h : s.Marked) {index : UInt32} (hout : index ∈ s.out) (k : Nat) :
    Taken { file := s.file.revertDownloadFilechunk index, out := s.out.erase index } k ↔
      s.Taken k ∧ k ≠ index.toNat := by
  rw [Taken, h.exists_mem_erase]
  constructor
  · rintro (⟨hin, hne⟩ | hcomplete)
    · exact ⟨.inl hin, hne⟩
    · refine ⟨.inr hcomplete, ?_⟩
      rintro rfl
      exact absurd hcomplete (by simp [DownloadFile.revertDownloadFilechunk, h.pending index hout])
  · rintro ⟨hin | hcomplete, hne⟩
    · exact .inl ⟨hin, hne⟩
    · exact .inr hcomplete

theorem Marked.revert (h : s.Marked) {index : UInt32} (hout : index ∈ s.out) :
    Marked { file := s.file.revertDownloadFilechunk index, out := s.out.erase index } := by
  refine ⟨h.download.clearFlag _, h.complete, fun k => ?_, h.nodup.erase index,
    fun other hother => h.pending other (List.mem_of_mem_erase hother)⟩
  rw [h.taken_revert hout, ← h.marked k, DownloadFile.revertDownloadFilechunk, bitAt_clearFlag,
    Bool.and_eq_true, decide_eq_true_eq]

theorem Marked.bitAt_completeChunk (h : s.Marked) {index : UInt32} (hout : index ∈ s.out)
    (k : Nat) : bitAt (s.file.completeChunk index).chunksCompleteFlag k =
      (bitAt s.file.chunksCompleteFlag k || decide (k = index.toNat)) :=
  bitAt_setFlag (h.complete.lt_length (h.lt_chunkNum hout)) k

/-- A chunk that is completed stays taken. -/
theorem Marked.taken_complete (h : s.Marked) {index : UInt32} (hout : index ∈ s.out) (k : Nat) :
    Taken { file := s.file.completeChunk index, out := s.out.erase index } k ↔ s.Taken k := by
  rw [Taken, h.bitAt_completeChunk hout, Bool.or_eq_true, decide_eq_true_eq, h.exists_mem_erase]
  constructor
  · rintro (⟨hin, -⟩ | hcomplete | heq)
    · exact .inl hin
    · exact .inr hcomplete
    · exact .inl ⟨index, hout, heq.symm⟩
  · rintro (hin | hcomplete)
    · by_cases heq : k = index.toNat
      · exact .inr (.inr heq)
      · exact .inl ⟨hin, heq⟩
    · exact .inr (.inl hcomplete)

theorem Marked.completeChunk (h : s.Marked) {index : UInt32} (hout : index ∈ s.out) :
    Marked { file := s.file.completeChunk index, out := s.out.erase index } := by
  refine ⟨h.download, h.complete.setFlag (h.lt_chunkNum hout),
    fun k => (h.marked k).trans (h.taken_complete hout k).symm, h.nodup.erase index,
    fun other hother => ?_⟩
  obtain ⟨hne, hin⟩ := h.nodup.mem_erase_iff.mp hother
  have hnot : other.toNat ≠ index.toNat := fun heq => hne (UInt32.toNat_inj.mp heq)
  rw [h.bitAt_completeChunk hout, h.pending other hin, Bool.false_or, decide_eq_false_iff_not]
  exact hnot

theorem init_frame (fs : FileSystem) (file : DownloadFile) :
    (file.init fs).chunkNum = file.chunkNum ∧
      (file.init fs).chunksCompleteFlag = file.chunksCompleteFlag ∧
      (file.init fs).chunksDownloadFlag = file.chunksDownloadFlag ∧
      (file.messageBuilder.chunkNum = 0 → (file.init fs).messageBuilder.chunkNum = 0) := by
  unfold DownloadFile.init
  split
  · exact ⟨rfl, rfl, rfl, id⟩
  · simp only []
    split
    · exact ⟨rfl, rfl, rfl, fun _ => rfl⟩
    · exact ⟨rfl, rfl, rfl, fun _ => rfl⟩

/-- A resumed download has the complete chunks of its record, and its own record is empty. -/
theorem resume_file (s : Allocator) (fs : FileSystem) :
    (s.resume fs).file.chunkNum = s.file.messageBuilder.chunkNum ∧
      (s.resume fs).file.chunksCompleteFlag = s.file.messageBuilder.chunksCompleteFlag ∧
      (s.resume fs).file.chunksDownloadFlag = s.file.messageBuilder.chunksCompleteFlag ∧
      (s.resume fs).file.messageBuilder.chunkNum = 0 := by
  obtain ⟨hnum, hcomplete, hdownload, hbuilder⟩ :=
    init_frame fs (s.file.messageBuilder.toFile s.file.workPath)
  exact ⟨hnum, hcomplete, hdownload, hbuilder rfl⟩

/-- After it is resumed, a download has the complete chunks taken. -/
theorem Kept.taken_resume (h : s.Kept) (fs : FileSystem) (hne : s.file.messageBuilder.chunkNum ≠ 0)
    (k : Nat) : (s.resume fs).Taken k ↔ bitAt s.file.chunksCompleteFlag k = true := by
  obtain ⟨-, hcomplete, -, -⟩ := resume_file s fs
  rw [Taken, hcomplete, (h.recorded hne).2]
  constructor
  · rintro (⟨_, hin, -⟩ | hbit)
    · cases hin
    · exact hbit
  · exact .inr

theorem Kept.resume (h : s.Kept) (fs : FileSystem) : (s.resume fs).Kept := by
  obtain ⟨hnum, hcomplete, hdownload, hbuilder⟩ := resume_file s fs
  refine ⟨fun hne => ?_, fun hne => absurd hbuilder hne⟩
  have hrecord : s.file.messageBuilder.chunkNum ≠ 0 := hnum ▸ hne
  obtain ⟨heqNum, heqFlags⟩ := h.recorded hrecord
  have hmarked := h.marked (heqNum ▸ hrecord)
  have htaken := h.taken_resume fs hrecord
  have hflagged : Flagged s.file.messageBuilder.chunksCompleteFlag
      s.file.messageBuilder.chunkNum := by
    rw [heqNum, heqFlags]
    exact hmarked.complete
  refine ⟨?_, ?_, fun k => ?_, List.nodup_nil, fun _ hin => nomatch hin⟩
  · rw [hdownload, hnum]
    exact hflagged
  · rw [hcomplete, hnum]
    exact hflagged
  · rw [htaken, hdownload, heqFlags]

/-- Taking a chunk changes the marks only. -/
theorem take_frame (s : Allocator) : s.take.file.chunkNum = s.file.chunkNum ∧
    s.take.file.messageBuilder = s.file.messageBuilder ∧
    s.take.file.chunksCompleteFlag = s.file.chunksCompleteFlag := by
  unfold Allocator.take DownloadFile.getNotDownloadFilechunk
  simp only []
  split
  · rename_i hget
    split at hget
    · cases hget
      exact ⟨rfl, rfl, rfl⟩
    · split at hget
      · cases hget
        exact ⟨rfl, rfl, rfl⟩
      · cases hget
  · exact ⟨rfl, rfl, rfl⟩

theorem Kept.step (h : s.Kept) {event : Event} (hstep : s.step event = some t) : t.Kept := by
  cases event with
  | take =>
      cases hstep
      obtain ⟨hnum, hbuilder, hcomplete⟩ := take_frame s
      refine ⟨fun hne => (h.marked (hnum ▸ hne)).take, ?_⟩
      rw [Recorded, hnum, hbuilder, hcomplete]
      exact h.recorded
  | revert index =>
      rw [Allocator.step] at hstep
      split at hstep
      · rename_i hout
        cases hstep
        exact ⟨fun hne => (h.marked hne).revert hout, h.recorded⟩
      · cases hstep
  | complete index =>
      rw [Allocator.step] at hstep
      split at hstep
      · rename_i hout
        cases hstep
        refine ⟨fun hne => (h.marked hne).completeChunk hout, fun hne => ?_⟩
        exact ⟨(h.recorded hne).1, rfl⟩
      · cases hstep
  | resume fs =>
      cases hstep
      exact h.resume fs

/-- A new download has all its chunks free. -/
theorem start_free (fs : FileSystem) (url path : String) (content : Bool) {size : Int}
    (hsize : 0 < size) (k : Nat) : ¬ (start fs url path content size).Taken k := by
  have hbits :=
    (DownloadFile.setFileSize_bits (DownloadFile.init fs { url, path, content }) hsize k).2
  rintro (⟨_, hin, -⟩ | hcomplete)
  · cases hin
  · exact Bool.false_ne_true (hbits.symm.trans hcomplete)

theorem kept_start (fs : FileSystem) (url path : String) (content : Bool) {size : Int}
    (hsize : 0 < size) : (start fs url path content size).Kept := by
  have hbuilder := (init_frame fs { url, path, content }).2.2.2 rfl
  unfold start DownloadFile.setFileSize
  simp only [if_pos hsize]
  constructor
  · intro hne
    have hfree := start_free fs url path content hsize
    unfold start DownloadFile.setFileSize at hfree
    simp only [if_pos hsize] at hfree
    refine ⟨.replicate hne, .replicate hne, fun k => iff_of_false ?_ (hfree k), List.nodup_nil,
      fun _ hin => nomatch hin⟩
    rw [bitAt_replicate_zero]
    exact Bool.false_ne_true
  · intro hne
    split
    · rename_i hcontent
      simp only [hcontent, if_true] at hne
      exact absurd hbuilder hne
    · exact ⟨rfl, rfl⟩

theorem kept_run {fs : FileSystem} {url path : String} {content : Bool} {size : Int}
    (hsize : 0 < size) {events : List Event}
    (hrun : exec step (start fs url path content size) events = some s) : s.Kept := by
  have hkeep : ∀ (s : Allocator) event t, s.Kept → True → s.step event = some t → t.Kept :=
    fun _ _ _ h _ hstep => h.step hstep
  exact exec_invariant hkeep (kept_start fs url path content hsize) (guarded_true _ _) hrun

/-- In every state of a download with chunks, `GetNotDownloadFilechunk` takes the lowest free chunk,
and nothing when there is none. -/
theorem handsOut_run {fs : FileSystem} {url path : String} {content : Bool} {size : Int}
    (hsize : 0 < size) {events : List Event}
    (hrun : exec step (start fs url path content size) events = some s)
    (hchunks : s.file.chunkNum ≠ 0) : s.HandsOut :=
  ((kept_run hsize hrun).marked hchunks).handsOut

/-- Nine chunks: the first one comes back when all are handed out, and is handed out again. -/
def nineChunks : List Event :=
  [.take, .take, .take, .take, .take, .take, .take, .take, .take, .revert 0, .take]

/-- The states of a download of nine chunks keep the promises of `GetNotDownloadFilechunk`. -/
theorem nineChunks_handsOut : ∃ s,
    exec step (start rootFileSystem "http://host/file" "/file" false 33554433) nineChunks = some s ∧
      s.out = [0, 8, 7, 6, 5, 4, 3, 2, 1] ∧ s.HandsOut := by
  have hany : (exec step (start rootFileSystem "http://host/file" "/file" false 33554433)
      nineChunks).any (fun s => s.out = [0, 8, 7, 6, 5, 4, 3, 2, 1] ∧ s.file.chunkNum ≠ 0) = true := by
    decide
  obtain ⟨s, hrun, hs⟩ := (Option.any_eq_true _ _).mp hany
  obtain ⟨hout, hchunks⟩ := of_decide_eq_true hs
  exact ⟨s, hrun, hout, handsOut_run (by decide) hrun hchunks⟩

/-! ## The test of the last byte -/

/-- All chunks of the last byte are taken. -/
def LastTaken (s : Allocator) : Prop :=
  ∀ k, s.file.lastStart ≤ k → k < s.file.chunkNum.toNat → s.Taken k

/-- All chunks are taken. -/
def AllTaken (s : Allocator) : Prop := ∀ k < s.file.chunkNum.toNat, s.Taken k

/-- All chunks of the last byte are complete. -/
def LastComplete (s : Allocator) : Prop :=
  ∀ k, s.file.lastStart ≤ k → k < s.file.chunkNum.toNat →
    bitAt s.file.chunksCompleteFlag k = true

/-- All chunks are complete. -/
def AllComplete (s : Allocator) : Prop :=
  ∀ k < s.file.chunkNum.toNat, bitAt s.file.chunksCompleteFlag k = true

/-- No chunk before those of the last byte becomes free while all of the last byte are taken: when
a request fails, and when a download is resumed. -/
def FillsInOrder (s : Allocator) : Event → Prop
  | .revert index =>
      index ∈ s.out → s.file.chunkNum ≠ 0 → s.LastTaken → s.file.lastStart ≤ index.toNat
  | .resume _ => s.file.messageBuilder.chunkNum ≠ 0 → s.LastComplete → s.AllComplete
  | _ => True

/-- The last byte of the flags is full. -/
theorem Marked.isAllChunkInDownload_iff (h : s.Marked) :
    s.file.isAllChunkInDownload = true ↔ s.LastTaken := by
  have hstart := h.fitted.lastStart_eq
  have hlast := @DownloadFile.lastnum_eq s.file
  have hfetchable := h.fetchable
  have hlt := @DownloadFile.lastStart_lt s.file
  have hmask : ∀ n ≤ 8, ∀ j < 8, (255#8 >>> (8 - n)).getLsbD j = decide (j < n) := by decide
  have hlastnum : s.file.lastnum.toNat = s.file.chunkNum.toNat - s.file.lastStart := by
    rw [hlast, ← hfetchable]
    rfl
  have hsmall : s.file.lastnum.toNat ≤ 8 := by
    rw [hlast]
    omega
  rw [DownloadFile.isAllChunkInDownload, beq_iff_eq]
  constructor
  · intro heq k hk hkn
    obtain ⟨j, rfl⟩ := Nat.exists_eq_add_of_le hk
    have hj : j < s.file.lastnum.toNat := by omega
    have hbit := getLsbD_getLastD s.file.chunksDownloadFlag (Nat.lt_of_lt_of_le hj hsmall)
    rw [heq, hmask _ hsmall j (by omega), decide_eq_true hj, hstart] at hbit
    exact (h.marked _).mp hbit.symm
  · intro hall
    refine BitVec.eq_of_getLsbD_eq fun j hj => ?_
    rw [getLsbD_getLastD _ hj, hmask _ hsmall j hj, hstart]
    by_cases hin : j < s.file.lastnum.toNat
    · rw [decide_eq_true hin]
      exact (h.marked _).mpr (hall _ (Nat.le_add_right _ _) (by omega))
    · rw [decide_eq_false hin]
      exact h.download.padding _ (by omega)

/-- The tests agree unless the last byte is full and a chunk before it is free. -/
theorem Marked.testsAgree_iff (h : s.Marked) :
    s.TestsAgree ↔ (s.LastTaken → s.AllTaken) := by
  rw [TestsAgree, h.isAllChunkInDownload_iff, h.handsOut.exhausted]
  exact ⟨fun hiff => hiff.mp, fun hall => ⟨hall, fun htaken k _ hk => htaken k hk⟩⟩

/-- With chunks, the two tests agree. -/
def Agrees (s : Allocator) : Prop := s.file.chunkNum ≠ 0 → s.TestsAgree

theorem Marked.agrees_take (h : s.Marked) (hagree : s.TestsAgree) : s.take.TestsAgree := by
  have hnum := (take_frame s).1
  have hstart : s.take.file.lastStart = s.file.lastStart := by
    unfold DownloadFile.lastStart DownloadFile.fetchable
    rw [hnum]
  rw [h.take.testsAgree_iff]
  intro hlast
  rw [h.testsAgree_iff] at hagree
  unfold LastTaken at hlast
  unfold AllTaken
  rw [hstart, hnum] at hlast
  rw [hnum]
  revert hlast
  unfold Allocator.take
  split
  · rename_i index file hget
    have htaken := h.taken_take hget
    intro hlast k hk
    rw [htaken]
    by_cases hbefore : k < index.toNat
    · exact .inl (h.handsOut.lowest index file hget k hbefore)
    · by_cases hindex : s.file.lastStart ≤ index.toNat
      · exact (htaken k).mp (hlast k (by omega) hk)
      · refine .inl (hagree (fun q hq hqn => ?_) k hk)
        refine ((htaken q).mp (hlast q hq hqn)).resolve_right ?_
        rintro rfl
        exact hindex hq
  · exact hagree

/-- Reverting a chunk keeps the tests in agreement unless the last byte is full and the chunk is
before it. -/
theorem Marked.agrees_revert (h : s.Marked) {index : UInt32} (hout : index ∈ s.out) :
    TestsAgree { file := s.file.revertDownloadFilechunk index, out := s.out.erase index } ↔
      (s.LastTaken → s.file.lastStart ≤ index.toNat) := by
  have htaken := h.taken_revert hout
  have hindex := h.lt_chunkNum hout
  rw [(h.revert hout).testsAgree_iff]
  constructor
  · intro hrevert hlast
    by_contra hbefore
    have hall := hrevert fun k hk hkn => (htaken k).mpr ⟨hlast k hk hkn, ?_⟩
    · exact ((htaken _).mp (hall _ hindex)).2 rfl
    · rintro rfl
      exact hbefore hk
  · intro hbefore hlast
    have hstart : s.LastTaken := fun k hk hkn => ((htaken k).mp (hlast k hk hkn)).1
    exact absurd rfl ((htaken _).mp (hlast _ (hbefore hstart) hindex)).2

theorem Marked.agrees_complete (h : s.Marked) {index : UInt32} (hout : index ∈ s.out)
    (hagree : s.TestsAgree) :
    TestsAgree { file := s.file.completeChunk index, out := s.out.erase index } := by
  have htaken := h.taken_complete hout
  rw [(h.completeChunk hout).testsAgree_iff]
  rw [h.testsAgree_iff] at hagree
  exact fun hlast k hk =>
    (htaken k).mpr (hagree (fun q hq hqn => (htaken q).mp (hlast q hq hqn)) k hk)

/-- A resumed download has the tests in agreement unless its last byte is complete and a chunk
before it is not. -/
theorem Kept.agrees_resume (h : s.Kept) (fs : FileSystem)
    (hne : s.file.messageBuilder.chunkNum ≠ 0) :
    (s.resume fs).TestsAgree ↔ (s.LastComplete → s.AllComplete) := by
  have htaken := h.taken_resume fs hne
  have hnum : (s.resume fs).file.chunkNum = s.file.chunkNum :=
    (resume_file s fs).1.trans (h.recorded hne).1
  have hstart : (s.resume fs).file.lastStart = s.file.lastStart := by
    unfold DownloadFile.lastStart DownloadFile.fetchable
    rw [hnum]
  have hmarked := (h.resume fs).marked ((resume_file s fs).1 ▸ hne)
  rw [hmarked.testsAgree_iff]
  unfold LastTaken AllTaken LastComplete AllComplete
  simp only [htaken, hnum, hstart]

/-- A step keeps the tests in agreement exactly if chunks become free in order. -/
theorem Kept.agrees_step (h : s.Kept) (hagrees : s.Agrees) {event : Event}
    (hstep : s.step event = some t) : t.Agrees ↔ s.FillsInOrder event := by
  cases event with
  | take =>
      cases hstep
      have hnum := (take_frame s).1
      refine iff_of_true (fun hne => ?_) trivial
      exact (h.marked (hnum ▸ hne)).agrees_take (hagrees (hnum ▸ hne))
  | revert index =>
      rw [Allocator.step] at hstep
      split at hstep
      · rename_i hout
        cases hstep
        refine ⟨fun hgood _ hne => ?_, fun hok hne => ?_⟩
        · exact ((h.marked hne).agrees_revert hout).mp (hgood hne)
        · exact ((h.marked hne).agrees_revert hout).mpr (hok hout hne)
      · cases hstep
  | complete index =>
      rw [Allocator.step] at hstep
      split at hstep
      · rename_i hout
        cases hstep
        exact iff_of_true (fun hne => (h.marked hne).agrees_complete hout (hagrees hne)) trivial
      · cases hstep
  | resume fs =>
      cases hstep
      have hnum := (resume_file s fs).1
      refine ⟨fun hgood hne => ?_, fun hok hne => ?_⟩
      · exact (h.agrees_resume fs hne).mp (hgood (hnum ▸ hne))
      · exact (h.agrees_resume fs (hnum ▸ hne)).mpr (hok (hnum ▸ hne))

/-- A step that frees chunks out of order is possible. -/
theorem step_of_not_fillsInOrder {event : Event} (h : ¬ s.FillsInOrder event) :
    ∃ t, s.step event = some t := by
  cases event with
  | take => exact ⟨_, rfl⟩
  | resume fs => exact ⟨_, rfl⟩
  | complete index => exact absurd trivial h
  | revert index =>
      by_cases hout : index ∈ s.out
      · exact ⟨_, if_pos hout⟩
      · exact absurd (fun hin => absurd hin hout) h

/-- The two tests agree in every state of a run exactly if, in every step of the run, no chunk
before those of the last byte becomes free while these are taken. -/
theorem tests_agree_iff (fs : FileSystem) (url path : String) (content : Bool) {size : Int}
    (hsize : 0 < size) (events : List Event) :
    (∀ first, first <+: events → ∀ s,
        exec step (start fs url path content size) first = some s → s.Agrees) ↔
      Guarded step FillsInOrder (start fs url path content size) events := by
  have hstart : (start fs url path content size).Kept ∧
      (start fs url path content size).Agrees := by
    have hkept := kept_start fs url path content hsize
    refine ⟨hkept, fun hne => ?_⟩
    have hmarked := hkept.marked hne
    have hlt : (start fs url path content size).file.lastStart <
        (start fs url path content size).file.chunkNum.toNat :=
      hmarked.fetchable ▸ DownloadFile.lastStart_lt
    rw [hmarked.testsAgree_iff]
    exact fun hlast =>
      absurd (hlast _ (Nat.le_refl _) hlt) (start_free fs url path content hsize _)
  have hgood : ∀ s : Allocator, s.Kept ∧ s.Agrees → s.Agrees := fun _ h => h.2
  refine exec_always_iff hgood ?_ ?_ hstart events
  · intro s event t h hok hstep
    exact ⟨h.1.step hstep, (h.1.agrees_step h.2 hstep).mpr hok⟩
  · intro s event h hnot
    obtain ⟨t, hstep⟩ := step_of_not_fillsInOrder hnot
    exact ⟨t, hstep, fun hgood => hnot ((h.1.agrees_step h.2 hstep).mp hgood)⟩

/-- The only chunk of a download comes back. -/
theorem only_chunk_reverted_agrees : ∃ s,
    exec step (start rootFileSystem "http://host/file" "/file" false 100) [.take, .revert 0] =
      some s ∧ s.Agrees := by
  have hsome : (exec step (start rootFileSystem "http://host/file" "/file" false 100)
      [.take, .revert 0]).isSome = true := by decide
  obtain ⟨s, hrun⟩ := Option.isSome_iff_exists.mp hsome
  have hguard : Guarded step FillsInOrder
      (start rootFileSystem "http://host/file" "/file" false 100) [.take, .revert 0] := by
    refine ⟨trivial, fun t ht => ⟨fun _ _ _ => ?_, fun _ _ => trivial⟩⟩
    cases ht
    decide
  exact ⟨s, hrun, (tests_agree_iff rootFileSystem "http://host/file" "/file" false (by decide)
    [.take, .revert 0]).mpr hguard _ (List.prefix_refl _) s hrun⟩

/-- Of nine chunks that are handed out the first one comes back: all chunks are said to be in
download. -/
theorem reverted_chunk_overlooked : ∃ s,
    exec step (start rootFileSystem "http://host/file" "/file" false 33554433)
      (nineChunks.take 10) = some s ∧
    s.file.isAllChunkInDownload = true ∧ s.file.getNotDownloadFilechunk ≠ none ∧ ¬ s.Agrees := by
  have hany : (exec step (start rootFileSystem "http://host/file" "/file" false 33554433)
      (nineChunks.take 10)).any (fun s => s.file.chunkNum ≠ 0 ∧
        s.file.isAllChunkInDownload = true ∧ s.file.getNotDownloadFilechunk.isSome) = true := by
    decide
  obtain ⟨s, hrun, hs⟩ := (Option.any_eq_true _ _).mp hany
  obtain ⟨hchunks, hfull, hfree⟩ := of_decide_eq_true hs
  have hne : s.file.getNotDownloadFilechunk ≠ none := Option.isSome_iff_ne_none.mp hfree
  exact ⟨s, hrun, hfull, hne, fun hagrees => hne ((hagrees hchunks).mp hfull)⟩

end Allocator

end Utilpp.Download

import Utilpp.Download.Wiring

/-!
# Counting the chunks

`TickIO` writes a chunk as soon as its last byte has been reported, which may be before the callback
at the end of its request. When this callback then reports a failure it takes the chunk back
although it has been written, and `Tick` fetches it a second time. In every run without such a
failure each chunk is counted once, the size of a download is that of its complete chunks, and a
download in chunks ends well with all its chunks.
-/

namespace Utilpp.Download

open Lib

namespace DownloadFile

/-- What a file has counted. -/
structure Accounted (file : DownloadFile) : Prop where
  size : 0 < file.size → file.downloadSize = file.doneSize
  finished : 0 < file.size → file.status = .finished → file.code = .ok →
    ∀ k < chunkCount file.size, bitAt file.chunksCompleteFlag k = true
  plain : file.status = .download → file.size ≤ 0
  unstarted : file.status = .idle ∨ file.status = .init → file.size = 0 ∧ file.downloadSize = 0

/-- Every chunk that is complete is marked as being fetched. -/
def Covered (file : DownloadFile) : Prop :=
  ∀ k, bitAt file.chunksCompleteFlag k = true → bitAt file.chunksDownloadFlag k = true

/-- The count of a file does not change. -/
structure SameCount (file file' : DownloadFile) : Prop where
  size : file'.size = file.size
  complete : file'.chunksCompleteFlag = file.chunksCompleteFlag
  downloadSize : file'.downloadSize = file.downloadSize
  status : file'.status = file.status
  code : file'.code = file.code

variable {file file' : DownloadFile}

theorem SameCount.refl (file : DownloadFile) : SameCount file file := ⟨rfl, rfl, rfl, rfl, rfl⟩

theorem SameCount.accounted (h : SameCount file file') (hcount : file.Accounted) :
    file'.Accounted := by
  have hdone : file'.doneSize = file.doneSize := by
    unfold doneSize
    rw [h.size, h.complete]
  constructor
  · rw [h.size, h.downloadSize, hdone]
    exact hcount.size
  · rw [h.size, h.status, h.code, h.complete]
    exact hcount.finished
  · rw [h.size, h.status]
    exact hcount.plain
  · rw [h.size, h.status, h.downloadSize]
    exact hcount.unstarted

theorem accounted_new (hsize : file.size = 0) (hdownload : file.downloadSize = 0) :
    file.Accounted where
  size h := absurd (hsize ▸ h) (Int.lt_irrefl 0)
  finished h := absurd (hsize ▸ h) (Int.lt_irrefl 0)
  plain _ := Int.le_of_eq hsize
  unstarted _ := ⟨hsize, hdownload⟩

/-- A download in chunks ends well when the size that it has counted is that of the file. -/
theorem Accounted.finish_ok (h : file.Accounted) (hsized : file.Sized)
    (hsize : (file.downloadSize : Int) = file.size) : (file.finish .ok).Accounted where
  size := h.size
  finished hpos _ _ k hk := by
    have hdone : file.doneSize = file.size.toNat := by
      rw [← h.size hpos]
      omega
    exact all_complete hsized hdone hk
  plain hstatus := nomatch hstatus
  unstarted hstatus := nomatch hstatus

/-- A download may fail with any count. -/
theorem Accounted.finish_failed {err : EDownloadCode} (herr : err ≠ .ok) (msg : String)
    (hsize : 0 < file.size → file.downloadSize = file.doneSize) :
    (file.finish err msg).Accounted where
  size := hsize
  finished _ _ hcode := absurd hcode herr
  plain hstatus := nomatch hstatus
  unstarted hstatus := nomatch hstatus

/-- A download in chunks is neither finished nor unstarted. -/
theorem Accounted.downloadChunk (hstatus : file.status = .downloadChunk)
    (hsize : 0 < file.size → file.downloadSize = file.doneSize) : file.Accounted where
  size := hsize
  finished _ hfinished := nomatch hstatus.symm.trans hfinished
  plain hplain := nomatch hstatus.symm.trans hplain
  unstarted hunstarted :=
    hunstarted.elim (fun hidle => nomatch hstatus.symm.trans hidle)
      (fun hinit => nomatch hstatus.symm.trans hinit)

/-- A download without a length has no chunks to count. -/
theorem accounted_plain (hsize : file.size ≤ 0)
    (hunstarted : file.status ≠ .idle ∧ file.status ≠ .init) : file.Accounted where
  size hpos := absurd hsize (Int.not_le.mpr hpos)
  finished hpos := absurd hsize (Int.not_le.mpr hpos)
  plain _ := hsize
  unstarted hstatus := (hstatus.elim hunstarted.1 hunstarted.2).elim

/-- A file whose size becomes known has no complete chunks. -/
theorem setFileSize_count (file : DownloadFile) (hdownload : file.downloadSize = 0) (size : Int)
    (hpos : 0 < (file.setFileSize size).size) :
    (file.setFileSize size).downloadSize = (file.setFileSize size).doneSize := by
  rw [setFileSize_size] at hpos
  have hempty : (file.setFileSize size).doneSize = 0 := by
    unfold doneSize
    rw [Finset.filter_false_of_mem]
    · exact Finset.sum_empty
    · intro k _
      rw [(setFileSize_bits file hpos k).2]
      exact Bool.false_ne_true
  obtain ⟨-, -, -, -, hsame⟩ := file.setFileSize_frame size
  rw [hempty, hsame, hdownload]

theorem accounted_onHead (hdownload : file.downloadSize = 0) (hsize : file.size = 0)
    (result : HeadResult) : (file.onHead result).Accounted := by
  have hnot : 0 < file.size → file.downloadSize = file.doneSize :=
    fun hpos => absurd (hsize ▸ hpos) (Int.lt_irrefl 0)
  cases result with
  | netError =>
      show (file.finish .serverError "net error").Accounted
      exact .finish_failed (by decide) _ hnot
  | answered contentLength name =>
      have hcount := setFileSize_count file hdownload contentLength.val
      simp only [onHead]
      split
      · exact .finish_failed (by decide) _ hnot
      · generalize file.setFileSize contentLength.val = sized at hcount ⊢
        cases name with
        | parseError =>
            show (sized.finish .serverError "filename parse error").Accounted
            exact .finish_failed (by decide) _ hcount
        | fileExist =>
            show (sized.finish .fileExist "file exist").Accounted
            exact .finish_failed (by decide) _ hcount
        | free =>
            simp only []
            split
            · exact .downloadChunk rfl hcount
            · rename_i hpos
              refine accounted_plain (Int.not_lt.mp hpos) ?_
              show EFileTaskStatus.download ≠ .idle ∧ EFileTaskStatus.download ≠ .init
              decide

/-- A chunk that is not marked can be marked. -/
theorem Covered.mark (h : file.Covered) (hsized : file.Sized) {index : Nat}
    (hindex : index < file.fetchable) :
    Covered { file with chunksDownloadFlag := setFlag file.chunksDownloadFlag index } := by
  intro k hk
  show bitAt (setFlag file.chunksDownloadFlag index) k = true
  rw [bitAt_setFlag (hsized.lt_length_download hindex), h k hk, Bool.true_or]

/-- A chunk that is not complete can be taken back. -/
theorem Covered.revert (h : file.Covered) {index : UInt32}
    (hclear : bitAt file.chunksCompleteFlag index.toNat = false) :
    (file.revertDownloadFilechunk index).Covered := by
  intro k hk
  have hne : k ≠ index.toNat := by
    rintro rfl
    exact Bool.false_ne_true (hclear.symm.trans hk)
  show bitAt (clearFlag file.chunksDownloadFlag index.toNat) k = true
  rw [bitAt_clearFlag, h k hk, Bool.true_and, decide_eq_true_eq]
  exact hne

theorem Covered.clear (h : file.Covered) {k : Nat}
    (hclear : bitAt file.chunksDownloadFlag k = false) :
    bitAt file.chunksCompleteFlag k = false := by
  by_contra hset
  have hmarked := h k (Bool.not_eq_false _ ▸ hset)
  exact Bool.false_ne_true (hclear.symm.trans hmarked)

/-- A chunk that is marked can be completed. -/
theorem Covered.complete (h : file.Covered) {index : UInt32} (hmarked : Marked file index) :
    (file.completeChunk index).Covered := by
  intro k hk
  have hbit : bitAt (file.completeChunk index).chunksCompleteFlag k =
      (bitAt file.chunksCompleteFlag k || decide (k = index.toNat)) :=
    bitAt_setFlag (hmarked.sized.lt_length_complete hmarked.index_lt) k
  rw [hbit, Bool.or_eq_true, decide_eq_true_eq] at hk
  show bitAt file.chunksDownloadFlag k = true
  obtain hold | rfl := hk
  · exact h k hold
  · exact hmarked.bit

/-- `CompleteChunk` keeps the count when the chunk is not complete. -/
theorem Accounted.complete (h : file.Accounted) {index : UInt32} (hmarked : Marked file index)
    (hclear : bitAt file.chunksCompleteFlag index.toNat = false) :
    (file.completeChunk index).Accounted where
  size hpos := downloadSize_complete hmarked.sized hmarked.index_lt hclear (h.size hpos)
  finished hpos hstatus hcode k hk := by
    show bitAt (setFlag file.chunksCompleteFlag index.toNat) k = true
    rw [bitAt_setFlag (hmarked.sized.lt_length_complete hmarked.index_lt),
      h.finished hpos hstatus hcode k hk, Bool.true_or]
  plain := h.plain
  unstarted hstatus := (hstatus.elim hmarked.started.1 hmarked.started.2).elim

end DownloadFile

namespace Downloader

variable {d d' : Downloader}

/-- The count of the downloader: what is still in a buffer is not complete, what `Tick` can fetch is
not complete, and what was counted is. -/
structure Counted (d : Downloader) : Prop where
  wired : d.Wired
  accounted : ∀ f, (d.files f).Accounted
  listed : ∀ c, d.Listed c → ¬ d.Written c
  covered : ∀ f ∈ d.tasks, (d.files f).status = .downloadChunk → (d.files f).Covered
  completed_nodup : d.completed.Nodup
  completed_lt : ∀ e ∈ d.completed, e.1 < d.fileCount
  completed_started : ∀ e ∈ d.completed,
    (d.files e.1).status ≠ .idle ∧ (d.files e.1).status ≠ .init
  completed_bit : ∀ e ∈ d.completed, bitAt (d.files e.1).chunksCompleteFlag e.2.toNat = true

theorem counted_init : init.Counted where
  wired := wired_init
  accounted _ := DownloadFile.accounted_new rfl rfl
  listed _ h := h.elim fun _ hb => nomatch hb
  covered _ h := nomatch h
  completed_nodup := List.nodup_nil
  completed_lt _ h := nomatch h
  completed_started _ h := nomatch h
  completed_bit _ h := nomatch h

/-- The flags of the files that have started stay as they are. -/
def KeepsFlags (d d' : Downloader) : Prop :=
  ∀ f < d.fileCount, (d.files f).status ≠ .idle ∧ (d.files f).status ≠ .init →
    ((d'.files f).status ≠ .idle ∧ (d'.files f).status ≠ .init) ∧
      (d'.files f).chunksCompleteFlag = (d.files f).chunksCompleteFlag

/-- A step that completes no chunk. -/
theorem Counted.next (h : d.Counted) (hwired : d'.Wired) (haccounted : ∀ f, (d'.files f).Accounted)
    (hkeeps : KeepsFlags d d') (hlisted : ∀ c, d'.Listed c → ¬ d'.Written c)
    (hcovered : ∀ f ∈ d'.tasks, (d'.files f).status = .downloadChunk → (d'.files f).Covered)
    (hcompleted : d'.completed = d.completed) (hcount : d.fileCount ≤ d'.fileCount) :
    d'.Counted where
  wired := hwired
  accounted := haccounted
  listed := hlisted
  covered := hcovered
  completed_nodup := hcompleted ▸ h.completed_nodup
  completed_lt e he := Nat.lt_of_lt_of_le (h.completed_lt e (hcompleted ▸ he)) hcount
  completed_started e he := by
    rw [hcompleted] at he
    exact (hkeeps e.1 (h.completed_lt e he) (h.completed_started e he)).1
  completed_bit e he := by
    rw [hcompleted] at he
    rw [(hkeeps e.1 (h.completed_lt e he) (h.completed_started e he)).2]
    exact h.completed_bit e he

/-- What stays in the buffers is not complete. -/
theorem Counted.listed_of_shrinks (h : d.Counted) (hshrinks : Shrinks d d')
    (hkeeps : KeepsFlags d d') {c : Nat} (hc : d'.Listed c) : ¬ d'.Written c := by
  have hold := hshrinks.listed hc
  have hmarked := h.wired.marked c (.inl hold)
  have hlt := (h.wired.held_lt c (.inl hold)).2
  unfold Written
  rw [hshrinks.file c, hshrinks.index c, (hkeeps _ hlt hmarked.started).2]
  exact h.listed c hold

/-- A file gets new data, and its complete chunks stay so. -/
theorem Counted.setFile (h : d.Counted) {f : Nat} {file : DownloadFile}
    (hwired : (d.setFile f file).Wired) (hrequests : file.requests.Sublist (d.files f).requests)
    (haccounted : file.Accounted)
    (hkeeps : (d.files f).status ≠ .idle ∧ (d.files f).status ≠ .init →
      (file.status ≠ .idle ∧ file.status ≠ .init) ∧
        file.chunksCompleteFlag = (d.files f).chunksCompleteFlag)
    (hcovered : f ∈ d.tasks → file.status = .downloadChunk → file.Covered) :
    (d.setFile f file).Counted := by
  have hflags : KeepsFlags d (d.setFile f file) := by
    intro f' _ hstarted
    rw [files_setFile]
    split
    · rename_i heq
      rw [heq] at hstarted ⊢
      exact hkeeps hstarted
    · exact ⟨hstarted, rfl⟩
  refine h.next hwired ?_ hflags (fun c => h.listed_of_shrinks (.setFile d hrequests) hflags) ?_
    rfl (le_refl _)
  · intro f'
    rw [files_setFile]
    split
    · exact haccounted
    · exact h.accounted f'
  · intro f' hf' hstatus
    rw [files_setFile] at hstatus ⊢
    split
    · rename_i heq
      rw [if_pos heq] at hstatus
      exact hcovered (heq ▸ hf') hstatus
    · rename_i hne
      rw [if_neg hne] at hstatus
      exact h.covered f' hf' hstatus

/-- A step that changes no count and makes no chunk held. -/
theorem Counted.keep (h : d.Counted) (hwired : d'.Wired) (hshrinks : Shrinks d d')
    (hfiles : ∀ f, (d.files f).SameCount (d'.files f))
    (hcovered : ∀ f ∈ d'.tasks, (d.files f).status = .downloadChunk → (d'.files f).Covered)
    (hcompleted : d'.completed = d.completed) : d'.Counted := by
  have hflags : KeepsFlags d d' := by
    intro f _ hstarted
    rw [(hfiles f).status]
    exact ⟨hstarted, (hfiles f).complete⟩
  refine h.next hwired (fun f => (hfiles f).accounted (h.accounted f)) hflags
    (fun c => h.listed_of_shrinks hshrinks hflags) ?_ hcompleted hshrinks.fileCount
  intro f hf hstatus
  rw [(hfiles f).status] at hstatus
  exact hcovered f hf hstatus

/-! ## `Tick` -/

section

variable {f b cursor : Nat} {index : UInt32} {file : DownloadFile} {list : List Nat}

/-- The file that `fetch` works on. It may be finished already, since the loop goes on after
`Finish`. -/
structure Fetching (d : Downloader) (f : Nat) : Prop where
  counted : d.Counted
  opened : d.Open f
  covered : (d.files f).Covered

theorem Fetching.finishWhenComplete (h : d.Fetching f) : (d.finishWhenComplete f).Fetching f := by
  refine ⟨?_, h.opened.finishWhenComplete, ?_⟩
  · have hwired := h.counted.wired.finishWhenComplete f
    unfold Downloader.finishWhenComplete at hwired ⊢
    split
    · rename_i hsize
      rw [if_pos hsize] at hwired
      exact h.counted.setFile hwired (.refl _)
        ((h.counted.accounted f).finish_ok h.opened.sized hsize)
        (fun _ => ⟨⟨nofun, nofun⟩, rfl⟩) (fun _ => nofun)
    · exact h.counted
  · unfold Downloader.finishWhenComplete
    split
    · rw [files_setFile, if_pos rfl]
      exact h.covered
    · exact h.covered

theorem Fetching.giveBack (h : d.Fetching f)
    (hget : (d.files f).getNotDownloadFilechunk = some (index, file)) :
    (d.setFile f (file.revertDownloadFilechunk index)).Fetching f := by
  have hwired := h.counted.wired.giveBack h.opened hget
  have hopen := h.opened.giveBack hget
  obtain ⟨hindex, hbit, hfile⟩ := h.opened.sized.getNotDownloadFilechunk hget
  have hcovered : (file.revertDownloadFilechunk index).Covered := by
    rw [hfile]
    exact (h.covered.mark h.opened.sized hindex).revert (h.covered.clear hbit)
  have hsame : (d.files f).SameCount (file.revertDownloadFilechunk index) := by
    rw [hfile]
    exact ⟨rfl, rfl, rfl, rfl, rfl⟩
  have hrequests : (file.revertDownloadFilechunk index).requests = (d.files f).requests := by
    rw [hfile]
    rfl
  refine ⟨?_, hopen, ?_⟩
  · refine h.counted.setFile hwired (by rw [hrequests]) (hsame.accounted (h.counted.accounted f)) ?_
      (fun _ _ => hcovered)
    intro hstarted
    rw [hsame.status]
    exact ⟨hstarted, hsame.complete⟩
  · rw [files_setFile, if_pos rfl]
    exact hcovered

theorem Fetching.beginRequest (h : d.Fetching f)
    (hget : (d.files f).getNotDownloadFilechunk = some (index, file))
    (hlist : list.Perm (d.chunkCount :: d.bufs b)) :
    (d.beginRequest f file index b list cursor).Fetching f := by
  have hwired : (d.beginRequest f file index b list cursor).Wired :=
    h.counted.wired.beginRequest h.opened hget hlist
  obtain ⟨hindex, hbit, hfile⟩ := h.opened.sized.getNotDownloadFilechunk hget
  have hcovered : ((d.beginRequest f file index b list cursor).files f).Covered := by
    rw [files_beginRequest, if_pos rfl, hfile]
    exact h.covered.mark h.opened.sized hindex
  have hsame : ∀ f', (d.files f').SameCount
      ((d.beginRequest f file index b list cursor).files f') := by
    intro f'
    rw [files_beginRequest]
    split
    · rename_i heq
      rw [heq, hfile]
      exact ⟨rfl, rfl, rfl, rfl, rfl⟩
    · exact .refl _
  refine ⟨h.counted.next hwired (fun f' => (hsame f').accounted (h.counted.accounted f')) ?_ ?_ ?_
    rfl (le_refl _), h.opened.beginRequest hget, hcovered⟩
  · intro f' _ hstarted
    rw [(hsame f').status]
    exact ⟨hstarted, (hsame f').complete⟩
  · intro c hc
    unfold Written
    rw [(hsame _).complete, chunks_beginRequest]
    split
    -- what is not marked is not complete
    · rw [h.covered.clear hbit]
      exact Bool.false_ne_true
    · rename_i hne
      exact h.counted.listed c ((listed_beginRequest hlist hc).resolve_left hne)
  · intro f' hf' hstatus
    by_cases heq : f' = f
    · rw [heq]
      exact hcovered
    · rw [files_beginRequest, if_neg heq] at hstatus ⊢
      exact h.counted.covered f' hf' hstatus

theorem Fetching.fetch (h : d.Fetching f) (fuel : Nat) : (fetch f fuel d).Fetching f :=
  fetch_induct (motive := fun d => d.Fetching f) (fun _ hd => hd.finishWhenComplete)
    (fun _ _ _ hd hget => hd.giveBack hget)
    (fun _ _ _ _ _ _ hd hget _ hlist => hd.beginRequest hget hlist) fuel d h

end

theorem Counted.tickFile (h : d.Counted) {f : Nat} (hf : f ∈ d.tasks) :
    (d.tickFile f).Counted := by
  have hlt := h.wired.tasks_lt f hf
  have hwired := h.wired.tickFile hlt
  unfold Downloader.tickFile at hwired ⊢
  split
  · rename_i hstatus
    simp only [hstatus] at hwired
    obtain ⟨hsize, hdownload⟩ := (h.accounted f).unstarted (.inl hstatus)
    exact h.setFile hwired (.refl _) (DownloadFile.accounted_new hsize hdownload)
      (fun hstarted => absurd hstatus hstarted.1) (fun _ => nofun)
  · rename_i hstatus
    have hfetching : d.Fetching f := ⟨h, h.wired.openFile hlt hstatus, h.covered f hf hstatus⟩
    exact (hfetching.fetch _).counted
  · exact h

theorem Counted.transferBuf (h : d.Counted) : d.transferBuf.Counted :=
  h.keep h.wired.transferBuf (.transferBuf d) (fun _ => .refl _) h.covered rfl

theorem Counted.removeFiles (h : d.Counted) : d.removeFiles.Counted :=
  { h with
    wired := h.wired.removeFiles
    covered := fun f hf => h.covered f (List.mem_of_mem_filter hf) }

theorem Counted.tick (h : d.Counted) {order : List Nat} (hstep : d.tick order = some d') :
    d'.Counted :=
  tick_induct (fun _ _ hd hf => hd.tickFile hf) h.transferBuf.removeFiles hstep

/-! ## `TickIO` -/

theorem Counted.completeChunk (h : d.Counted) {b c : Nat} (hc : c ∈ d.bufs b) :
    (d.completeChunk b c).Counted := by
  have hmarked := h.wired.marked c (.inl ⟨b, hc⟩)
  have hclear := Bool.eq_false_iff.mpr (h.listed c ⟨b, hc⟩)
  have hbit := h.wired.bitAt_completeChunk hc
  constructor
  case wired => exact h.wired.completeChunk b c
  case accounted =>
    intro f
    rw [files_completeChunk]
    split
    · rename_i heq
      rw [heq]
      exact (h.accounted _).complete hmarked hclear
    · exact h.accounted f
  case listed =>
    intro c' hc' hwritten
    have hold := (Shrinks.completeChunk d b c).listed hc'
    have hset : bitAt ((d.completeChunk b c).files (d.chunks c').file).chunksCompleteFlag
        (d.chunks c').chunkIndex.toNat = true := hwritten
    rw [hbit, Bool.or_eq_true, decide_eq_true_eq] at hset
    obtain hset | ⟨hfile, hindex⟩ := hset
    · exact h.listed c' hold hset
    -- only the chunk that was written stands for this chunk of the file, and it has left
    · obtain rfl := h.wired.unique c' c (.inl hold) (.inl ⟨b, hc⟩) hfile
        (UInt32.toNat_inj.mp hindex)
      exact h.wired.not_listed_completeChunk hc hc'
  case covered =>
    intro f hf hchunk
    rw [status_completeChunk] at hchunk
    rw [files_completeChunk]
    split
    · rename_i heq
      have hcovered := h.covered f hf hchunk
      rw [heq] at hcovered ⊢
      exact hcovered.complete hmarked
    · exact h.covered f hf hchunk
  case completed_nodup =>
    show (d.completed ++ [_]).Nodup
    refine List.nodup_append.mpr ⟨h.completed_nodup, List.nodup_singleton _, ?_⟩
    intro e he e' he' heq
    rw [List.mem_singleton.mp he'] at heq
    -- a chunk that was counted before is complete
    have hset := h.completed_bit e he
    rw [heq] at hset
    exact Bool.false_ne_true (hclear.symm.trans hset)
  case completed_lt =>
    intro e he
    obtain he | he := List.mem_append.mp he
    · exact h.completed_lt e he
    · rw [List.mem_singleton.mp he]
      exact (h.wired.held_lt c (.inl ⟨b, hc⟩)).2
  case completed_started =>
    intro e he
    rw [status_completeChunk]
    obtain he | he := List.mem_append.mp he
    · exact h.completed_started e he
    · rw [List.mem_singleton.mp he]
      exact hmarked.started
  case completed_bit =>
    intro e he
    rw [hbit, Bool.or_eq_true, decide_eq_true_eq]
    obtain he | he := List.mem_append.mp he
    · exact .inl (h.completed_bit e he)
    · rw [List.mem_singleton.mp he]
      exact .inr ⟨rfl, rfl⟩

theorem Counted.tickIo (h : d.Counted) (fails : List Nat) : (d.tickIo fails).Counted :=
  tickIo_induct (fun _ hd => hd.wired) (fun _ _ _ hd _ hc _ => hd.completeChunk hc)
    (fun _ _ hd hb _ => { hd with wired := hd.wired.returnBuf hb }) h

/-! ## Callbacks -/

theorem Counted.progress (h : d.Counted) (c : Nat) (newSize : UInt32) :
    (d.progress c newSize).Counted := by
  have hwired := h.wired.progress c newSize
  unfold Downloader.progress at hwired ⊢
  split
  · rename_i hc
    rw [if_pos hc] at hwired
    exact h.keep hwired (.setDownloadSize d c newSize) (fun _ => .refl _) h.covered rfl
  · exact h

theorem Counted.endRequest (h : d.Counted) (c bytesRead : Nat) :
    (d.endRequest c bytesRead).Counted := by
  have hfile : (d.setFile (d.chunks c).file
      (eraseRequest (d.files (d.chunks c).file) c)).Counted := by
    refine h.setFile ?_ List.erase_sublist ?_ (fun hstarted => ⟨hstarted, rfl⟩) ?_
    · exact h.wired.setFile List.erase_sublist (fun _ _ _ hold => hold.withRequests _)
        (fun hstatus => { h.wired.sized _ hstatus with })
    · have hsame : (d.files (d.chunks c).file).SameCount
          (eraseRequest (d.files (d.chunks c).file) c) := ⟨rfl, rfl, rfl, rfl, rfl⟩
      exact hsame.accounted (h.accounted _)
    · exact fun hf hstatus => h.covered _ hf hstatus
  exact hfile.keep (hfile.wired.setDownloadSize c _) (.setDownloadSize _ c _) (fun _ => .refl _)
    hfile.covered rfl

/-- A request may fail when its chunk is not complete, or when the chunk will not be fetched
again. -/
theorem Counted.failRequest (h : d.Counted) {b c : Nat} (hc : d.Requested c)
    (hbuf : (d.chunks c).buf = some b)
    (hfresh : (d.chunks c).file ∈ d.tasks →
      (d.files (d.chunks c).file).status = .downloadChunk → ¬ d.Written c) :
    (d.failRequest b c).Counted := by
  obtain ⟨-, -, htasks, -, -, -, hcompleted⟩ := @failRequest_frame d b c
  refine h.keep (h.wired.failRequest hc hbuf) (.failRequest d b c) ?_ ?_ hcompleted
  · intro f
    rw [files_failRequest]
    split
    · exact ⟨rfl, rfl, rfl, rfl, rfl⟩
    · exact .refl _
  · intro f hf hstatus
    rw [htasks] at hf
    rw [files_failRequest]
    split
    · rename_i heq
      have hcovered : (eraseRequest (d.files f) c).Covered := h.covered f hf hstatus
      -- the guard: the chunk that is taken back has not been written
      refine hcovered.revert (Bool.eq_false_iff.mpr ?_)
      rw [heq] at hf hstatus ⊢
      exact hfresh hf hstatus
    · exact h.covered f hf hstatus

/-- Chunks are counted once, the size of a download in chunks is that of its complete chunks, and
one that ended well has all its chunks. -/
structure ChunksCounted (d : Downloader) : Prop where
  once : d.completed.Nodup
  size : ∀ f, 0 < (d.files f).size → (d.files f).downloadSize = (d.files f).doneSize
  size_le : ∀ f, 0 < (d.files f).size → (d.files f).downloadSize ≤ (d.files f).size
  finished : ∀ f, 0 < (d.files f).size → (d.files f).status = .finished → (d.files f).code = .ok →
    ∀ k < Download.chunkCount (d.files f).size, bitAt (d.files f).chunksCompleteFlag k = true

theorem Counted.chunksCounted (h : d.Counted) : d.ChunksCounted where
  once := h.completed_nodup
  size f := (h.accounted f).size
  size_le f hpos := by
    have hle := DownloadFile.doneSize_le hpos
    rw [← (h.accounted f).size hpos] at hle
    omega
  finished f := (h.accounted f).finished

end Downloader

namespace DownloadEvent

open Downloader

variable {d d' : Downloader}

/-- The event is not a failed request, of a download that goes on, for a chunk that has been
written. -/
def KeepsWritten (d : Downloader) : DownloadEvent → Prop
  | .complete c res bytesRead =>
      c ∈ (d.files (d.chunks c).file).requests → (res = false ∨ bytesRead ≠ d.chunkSize c) →
        (d.chunks c).file ∈ d.tasks → (d.files (d.chunks c).file).status = .downloadChunk →
          bitAt (d.files (d.chunks c).file).chunksCompleteFlag
            (d.chunks c).chunkIndex.toNat = false
  | _ => True

instance KeepsWritten.decidable (d : Downloader) :
    (event : DownloadEvent) → Decidable (KeepsWritten d event)
  | .complete .. => inferInstanceAs (Decidable (_ → _ → _ → _ → _))
  | .addTask .. | .removeTask .. | .head .. | .receive .. | .finish .. | .tick .. | .tickIo ..
  | .progress .. => .isTrue trivial

/-- No chunk of a new download in chunks is complete. -/
theorem onHead_covered (file : DownloadFile) (result : HeadResult)
    (hstatus : (file.onHead result).status = .downloadChunk) : (file.onHead result).Covered := by
  obtain ⟨size, hpos, -, heq⟩ := onHead_downloadChunk hstatus
  rw [heq]
  intro k hk
  have hclear : bitAt ((file.setFileSize size).setStatus .downloadChunk).chunksCompleteFlag k =
      false := (DownloadFile.setFileSize_bits file hpos k).2
  exact absurd (hclear.symm.trans hk) Bool.false_ne_true

/-- A download without a length ends. -/
theorem counted_finish (h : d.Counted) {f : Nat} (hstatus : (d.files f).status = .download)
    (err : EDownloadCode) (msg : String) : (d.setFile f ((d.files f).finish err msg)).Counted :=
  h.setFile (h.wired.finish f err msg) (.refl _)
    (DownloadFile.accounted_plain ((h.accounted f).plain hstatus) ⟨nofun, nofun⟩)
    (fun _ => ⟨⟨nofun, nofun⟩, rfl⟩) (fun _ => nofun)

theorem counted_addFile (h : d.Counted) {file : DownloadFile} (hnew : file.requests = [])
    (hstatus : file.status = .idle) (hsize : file.size = 0) (hdownload : file.downloadSize = 0) :
    (addFile d file).Counted := by
  have hflags : KeepsFlags d (addFile d file) := by
    intro f hf hstarted
    rw [files_addFile, if_neg (Nat.ne_of_lt hf)]
    exact ⟨hstarted, rfl⟩
  refine h.next (wired_addFile h.wired hnew hstatus) ?_ hflags
    (fun c => h.listed_of_shrinks (shrinks_addFile hnew) hflags) ?_ rfl (Nat.le_succ _)
  · intro f
    rw [files_addFile]
    split
    · exact DownloadFile.accounted_new hsize hdownload
    · exact h.accounted f
  · intro f hf hchunk
    rw [files_addFile] at hchunk ⊢
    split
    · rename_i heq
      rw [if_pos heq, hstatus] at hchunk
      cases hchunk
    · rename_i hne
      rw [if_neg hne] at hchunk
      refine h.covered f ((List.mem_append.mp hf).resolve_right fun hf => ?_) hchunk
      exact hne (List.mem_singleton.mp hf)

/-- Every event that keeps written chunks keeps the count. -/
theorem counted_step {event : DownloadEvent} (h : d.Counted) (hkeeps : KeepsWritten d event)
    (hstep : event.step d = some d') : d'.Counted := by
  have hwired := wired_step h.wired hstep
  cases step_cases hstep with
  | nothing _ => exact h
  | addTask url path content => exact counted_addFile h rfl rfl rfl rfl
  | removeTask f => exact { h with wired := hwired }
  | head f result hstatus =>
      obtain ⟨hsize, hdownload⟩ := (h.accounted f).unstarted (.inr hstatus)
      refine h.setFile hwired (by rw [onHead_requests])
        (DownloadFile.accounted_onHead hdownload hsize result)
        (fun hstarted => absurd hstatus hstarted.2) (fun _ hchunk => ?_)
      exact onHead_covered _ result hchunk
  | receive f newSize hstatus =>
      have hsize := (h.accounted f).plain hstatus
      have hstarted : (d.files f).status ≠ .idle ∧ (d.files f).status ≠ .init := by
        rw [hstatus]
        decide
      exact h.setFile hwired (.refl _) (DownloadFile.accounted_plain hsize hstarted)
        (fun hstarted => ⟨hstarted, rfl⟩)
        (fun _ hchunk => absurd (hstatus.symm.trans hchunk) (by decide))
  | finish f res code msg hstatus => exact counted_finish h hstatus code msg
  | tick order htick => exact h.tick htick
  | tickIo fails => exact h.tickIo fails
  | progress c newSize => exact h.progress c newSize
  | complete c res bytesRead hcompletes =>
      cases hcompletes with
      | unknown _ => exact h
      | failed b hc hbuf hfailed =>
          refine h.failRequest hc hbuf fun htask hchunk => ?_
          exact Bool.eq_false_iff.mp (hkeeps hc hfailed htask hchunk)
      | succeeded _ _ _ => exact h.endRequest c bytesRead

/-- In every run in which no request fails for a chunk that has been written, chunks are counted
once and downloads in chunks end well only with all their chunks. -/
theorem chunks_counted {events : List DownloadEvent}
    (hguard : Guarded step KeepsWritten Downloader.init events)
    (hrun : exec step Downloader.init events = some d) : d.ChunksCounted :=
  (exec_invariant (fun _ _ _ h hkeeps => counted_step h hkeeps) counted_init hguard
    hrun).chunksCounted

/-- A download of one chunk to memory. -/
def oneChunk : List DownloadEvent :=
  [.addTask "http://host/file" "" true, .tick [0],
    .head 0 (.answered ⟨100, by decide⟩ .free), .tick [0], .progress 0 100, .tick [0], .tickIo []]

theorem oneChunk_counted :
    Guarded step KeepsWritten Downloader.init (oneChunk ++ [.complete 0 true 100, .tick [0]]) ∧
      ∃ d, exec step Downloader.init (oneChunk ++ [.complete 0 true 100, .tick [0]]) = some d ∧
        d.ChunksCounted := by
  have hguard : Guarded step KeepsWritten Downloader.init
      (oneChunk ++ [.complete 0 true 100, .tick [0]]) := by decide
  have hrun : (exec step Downloader.init
      (oneChunk ++ [.complete 0 true 100, .tick [0]])).isSome := by decide
  obtain ⟨d, hd⟩ := Option.isSome_iff_exists.mp hrun
  exact ⟨hguard, d, hd, chunks_counted hguard hd⟩

/-- The connection breaks after the last byte, when the chunk has been written. -/
theorem chunk_counted_twice : ∃ events d, exec step Downloader.init events = some d ∧
    (d.files 0).size = 100 ∧ (d.files 0).downloadSize = 200 ∧ ¬ d.ChunksCounted := by
  have hany : (exec step Downloader.init (oneChunk ++ [.complete 0 false 100, .tick [0],
      .progress 1 100, .tick [0], .tickIo []])).any (fun d =>
        (d.files 0).size = 100 ∧ (d.files 0).downloadSize = 200 ∧ ¬ d.completed.Nodup) = true := by
    decide
  obtain ⟨d, hrun, hd⟩ := (Option.any_eq_true _ _).mp hany
  obtain ⟨hsize, hdownload, htwice⟩ := of_decide_eq_true hd
  exact ⟨_, d, hrun, hsize, hdownload, fun h => htwice h.once⟩

end DownloadEvent

end Utilpp.Download

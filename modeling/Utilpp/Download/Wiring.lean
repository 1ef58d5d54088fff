import Utilpp.Download.Chunks
import Utilpp.Download.Downloader
import Mathlib.Data.List.Perm.Basic

/-!
# Who holds a chunk

A chunk is held while it stands in the `ChunkList` of a buffer or in the `Requests` of its file. In
every state at most one held chunk stands for a chunk of a file, and the bit of this chunk is set in
`ChunksDownloadFlag`. Only `beginRequest` makes a chunk held; every other operation keeps the chunks
and takes some of them out of buffers and requests, which is what `Wired.shrink` is about.
-/

namespace Utilpp.Download

open Lib

/-- The chunk is one of a file that is downloaded in chunks, and is marked as being fetched. -/
structure Marked (file : DownloadFile) (index : UInt32) : Prop where
  sized : file.Sized
  index_lt : index.toNat < file.fetchable
  bit : bitAt file.chunksDownloadFlag index.toNat = true
  started : file.status ≠ .idle ∧ file.status ≠ .init

namespace Downloader

/-- The chunk stands in a buffer. -/
def Listed (d : Downloader) (c : Nat) : Prop := ∃ b, c ∈ d.bufs b

/-- The chunk has an active request. -/
def Requested (d : Downloader) (c : Nat) : Prop := c ∈ (d.files (d.chunks c).file).requests

/-- The chunk has an owner. -/
def Held (d : Downloader) (c : Nat) : Prop := d.Listed c ∨ d.Requested c

/-- The chunk is complete. -/
def Written (d : Downloader) (c : Nat) : Prop :=
  bitAt (d.files (d.chunks c).file).chunksCompleteFlag (d.chunks c).chunkIndex.toNat = true

/-- Buffers, requests and chunks refer to each other as they should. -/
structure Wired (d : Downloader) : Prop where
  listed_buf : ∀ b, ∀ c ∈ d.bufs b, (d.chunks c).buf = some b
  requested_buf : ∀ c, d.Requested c → (d.chunks c).buf ≠ none
  bufs_nodup : ∀ b, (d.bufs b).Nodup
  requests_file : ∀ f, ∀ c ∈ (d.files f).requests, (d.chunks c).file = f
  requests_nodup : ∀ f, (d.files f).requests.Nodup
  held_lt : ∀ c, d.Held c → c < d.chunkCount ∧ (d.chunks c).file < d.fileCount
  marked : ∀ c, d.Held c → Marked (d.files (d.chunks c).file) (d.chunks c).chunkIndex
  unique : ∀ c c', d.Held c → d.Held c' → (d.chunks c).file = (d.chunks c').file →
    (d.chunks c).chunkIndex = (d.chunks c').chunkIndex → c = c'
  sized : ∀ f, (d.files f).status = .downloadChunk → (d.files f).Sized
  queues : (d.bufPool ++ d.bufInIo ++ d.bufIoComplete).Nodup
  tasks_lt : ∀ f ∈ d.tasks, f < d.fileCount

theorem wired_init : init.Wired where
  listed_buf _ _ h := nomatch h
  requested_buf _ h := nomatch h
  bufs_nodup _ := List.nodup_nil
  requests_file _ _ h := nomatch h
  requests_nodup _ := List.nodup_nil
  held_lt _ h := h.elim (fun ⟨_, hb⟩ => nomatch hb) (fun hr => nomatch hr)
  marked _ h := h.elim (fun ⟨_, hb⟩ => nomatch hb) (fun hr => nomatch hr)
  unique _ _ h _ _ _ := h.elim (fun ⟨_, hb⟩ => nomatch hb) (fun hr => nomatch hr)
  sized _ h := nomatch h
  queues := by decide
  tasks_lt _ h := nomatch h

/-- What an operation that makes no chunk held leaves as it is. -/
structure Shrinks (d d' : Downloader) : Prop where
  file : ∀ c, (d'.chunks c).file = (d.chunks c).file
  index : ∀ c, (d'.chunks c).chunkIndex = (d.chunks c).chunkIndex
  bufs : ∀ b, (d'.bufs b).Sublist (d.bufs b)
  requests : ∀ f, (d'.files f).requests.Sublist (d.files f).requests
  chunkCount : d'.chunkCount = d.chunkCount
  fileCount : d.fileCount ≤ d'.fileCount

variable {d d' : Downloader}

theorem Shrinks.listed (h : Shrinks d d') {c : Nat} (hc : d'.Listed c) : d.Listed c := by
  obtain ⟨b, hb⟩ := hc
  exact ⟨b, (h.bufs b).subset hb⟩

theorem Shrinks.requested (h : Shrinks d d') {c : Nat} (hc : d'.Requested c) : d.Requested c := by
  unfold Requested at hc ⊢
  rw [h.file c] at hc
  exact (h.requests _).subset hc

theorem Shrinks.held (h : Shrinks d d') {c : Nat} (hc : d'.Held c) : d.Held c :=
  hc.imp h.listed h.requested

/-- The wiring is kept when no chunk becomes held and those that stay held stay marked. -/
theorem Wired.shrink (h : d.Wired) (hshrinks : Shrinks d d')
    (hbuf : ∀ c, d'.Held c → (d'.chunks c).buf = (d.chunks c).buf)
    (hmarked : ∀ c, d'.Held c → Marked (d.files (d.chunks c).file) (d.chunks c).chunkIndex →
      Marked (d'.files (d.chunks c).file) (d.chunks c).chunkIndex)
    (hsized : ∀ f, (d'.files f).status = .downloadChunk → (d'.files f).Sized)
    (hqueues : (d'.bufPool ++ d'.bufInIo ++ d'.bufIoComplete).Nodup)
    (htasks : ∀ f ∈ d'.tasks, f < d'.fileCount) : d'.Wired where
  listed_buf b c hc := by
    rw [hbuf c (.inl ⟨b, hc⟩)]
    exact h.listed_buf b c ((hshrinks.bufs b).subset hc)
  requested_buf c hc := by
    rw [hbuf c (.inr hc)]
    exact h.requested_buf c (hshrinks.requested hc)
  bufs_nodup b := (h.bufs_nodup b).sublist (hshrinks.bufs b)
  requests_file f c hc := by
    rw [hshrinks.file c]
    exact h.requests_file f c ((hshrinks.requests f).subset hc)
  requests_nodup f := (h.requests_nodup f).sublist (hshrinks.requests f)
  held_lt c hc := by
    obtain ⟨hlt, hfile⟩ := h.held_lt c (hshrinks.held hc)
    rw [hshrinks.chunkCount, hshrinks.file c]
    exact ⟨hlt, Nat.lt_of_lt_of_le hfile hshrinks.fileCount⟩
  marked c hc := by
    rw [hshrinks.file c, hshrinks.index c]
    exact hmarked c hc (h.marked c (hshrinks.held hc))
  unique c c' hc hc' hfile hindex := by
    rw [hshrinks.file c, hshrinks.file c'] at hfile
    rw [hshrinks.index c, hshrinks.index c'] at hindex
    exact h.unique c c' (hshrinks.held hc) (hshrinks.held hc') hfile hindex
  sized := hsized
  queues := hqueues
  tasks_lt := htasks

/-! ## One file changes -/

theorem files_setFile (d : Downloader) (f : Nat) (file : DownloadFile) (f' : Nat) :
    (d.setFile f file).files f' = if f' = f then file else d.files f' :=
  Function.update_apply ..

theorem Shrinks.setFile (d : Downloader) {f : Nat} {file : DownloadFile}
    (hrequests : file.requests.Sublist (d.files f).requests) : Shrinks d (d.setFile f file) where
  file _ := rfl
  index _ := rfl
  bufs _ := .refl _
  requests f' := by
    rw [files_setFile]
    split
    · rename_i heq
      rw [heq]
      exact hrequests
    · exact .refl _
  chunkCount := rfl
  fileCount := le_refl _

/-- New data of a file whose chunks stay marked. -/
theorem Wired.setFile (h : d.Wired) {f : Nat} {file : DownloadFile}
    (hrequests : file.requests.Sublist (d.files f).requests)
    (hmarked : ∀ c, (d.setFile f file).Held c → (d.chunks c).file = f →
      Marked (d.files f) (d.chunks c).chunkIndex → Marked file (d.chunks c).chunkIndex)
    (hsized : file.status = .downloadChunk → file.Sized) : (d.setFile f file).Wired := by
  refine h.shrink (.setFile d hrequests) (fun _ _ => rfl) ?_ ?_ h.queues h.tasks_lt
  · intro c hc hold
    rw [files_setFile]
    split
    · rename_i heq
      rw [heq] at hold
      exact hmarked c hc heq hold
    · exact hold
  · intro f' hstatus
    rw [files_setFile] at hstatus ⊢
    split
    · rename_i heq
      rw [if_pos heq] at hstatus
      exact hsized hstatus
    · rename_i hne
      rw [if_neg hne] at hstatus
      exact h.sized f' hstatus

end Downloader

theorem DownloadFile.Sized.finish {file : DownloadFile} (h : file.Sized) (err : EDownloadCode)
    (msg : String) : (file.finish err msg).Sized := { h with }

theorem Marked.finish {file : DownloadFile} {index : UInt32} (h : Marked file index)
    (err : EDownloadCode) (msg : String) : Marked (file.finish err msg) index :=
  { sized := h.sized.finish err msg, index_lt := h.index_lt, bit := h.bit
    started := ⟨nofun, nofun⟩ }

/-- Another chunk of the file is taken back. -/
theorem Marked.revert {file : DownloadFile} {index other : UInt32} (h : Marked file index)
    (hne : index ≠ other) : Marked (file.revertDownloadFilechunk other) index where
  sized := h.sized.revert other
  index_lt := h.index_lt
  bit := by
    show bitAt (clearFlag file.chunksDownloadFlag other.toNat) index.toNat = true
    have hnat : index.toNat ≠ other.toNat := fun heq => hne (UInt32.toNat_inj.mp heq)
    rw [bitAt_clearFlag, h.bit, Bool.true_and, decide_eq_true_eq]
    exact hnat
  started := h.started

/-- Another chunk of the file is marked. -/
theorem Marked.mark {file : DownloadFile} {index : UInt32} (h : Marked file index) {other : Nat}
    (hother : other < file.fetchable) :
    Marked { file with chunksDownloadFlag := setFlag file.chunksDownloadFlag other } index where
  sized := h.sized.withDownloadFlag (List.length_modify ..)
  index_lt := h.index_lt
  bit := by
    show bitAt (setFlag file.chunksDownloadFlag other) index.toNat = true
    rw [bitAt_setFlag (h.sized.lt_length_download hother), h.bit, Bool.true_or]
  started := h.started

theorem Marked.withRequests {file : DownloadFile} {index : UInt32} (h : Marked file index)
    (requests : List Nat) : Marked { file with requests := requests } index :=
  { sized := { h.sized with }, index_lt := h.index_lt, bit := h.bit, started := h.started }

/-- A chunk of the file is written. -/
theorem Marked.complete {file : DownloadFile} {index : UInt32} (h : Marked file index)
    (other : UInt32) : Marked (file.completeChunk other) index :=
  { sized := h.sized.complete other, index_lt := h.index_lt, bit := h.bit, started := h.started }

namespace Downloader

variable {d d' : Downloader}

/-! ## Fetching -/

/-- The chunk is put between those that are in the buffer. -/
theorem insertInBuf_perm {len c : Nat} {list result : List Nat} {cursor position : Nat}
    (h : d.insertInBuf len c list cursor = some (result, position)) : result.Perm (c :: list) := by
  induction list generalizing cursor result position with
  | nil =>
      rw [insertInBuf] at h
      split at h
      · cases h
        exact .refl _
      · cases h
  | cons old rest ih =>
      rw [insertInBuf] at h
      split at h
      · cases h
        exact .refl _
      · obtain ⟨⟨inner, k⟩, hinner, hresult⟩ := Option.map_eq_some_iff.mp h
        cases hresult
        exact ((ih hinner).cons old).trans (.swap ..)

theorem placeChunk_spec {len c : Nat} {pool list : List Nat} {b cursor : Nat}
    (h : d.placeChunk len c pool = some (b, list, cursor)) :
    b ∈ pool ∧ list.Perm (c :: d.bufs b) := by
  induction pool with
  | nil => cases h
  | cons b' pool ih =>
      rw [placeChunk] at h
      split at h
      · rename_i hinsert
        cases h
        exact ⟨List.mem_cons_self, insertInBuf_perm hinsert⟩
      · obtain ⟨hmem, hperm⟩ := ih h
        exact ⟨List.mem_cons_of_mem _ hmem, hperm⟩

/-- What holds of a file while `fetch` runs for it. -/
structure Open (d : Downloader) (f : Nat) : Prop where
  lt : f < d.fileCount
  sized : (d.files f).Sized
  started : (d.files f).status ≠ .idle ∧ (d.files f).status ≠ .init

/-- A property that the parts of the loop keep holds after the loop. -/
theorem fetch_induct {f : Nat} {motive : Downloader → Prop}
    (hfinish : ∀ d, motive d → motive (d.finishWhenComplete f))
    (hrevert : ∀ d index file, motive d →
      (d.files f).getNotDownloadFilechunk = some (index, file) →
      motive (d.setFile f (file.revertDownloadFilechunk index)))
    (hrequest : ∀ d index file b list cursor, motive d →
      (d.files f).getNotDownloadFilechunk = some (index, file) →
      b ∈ d.bufPool → list.Perm (d.chunkCount :: d.bufs b) →
      motive (d.beginRequest f file index b list cursor))
    (fuel : Nat) (d : Downloader) (h : motive d) : motive (fetch f fuel d) := by
  induction fuel generalizing d with
  | zero => exact h
  | succ fuel ih =>
      have hfinished := hfinish d h
      rw [fetch]
      generalize d.finishWhenComplete f = d at *
      split
      · exact hfinished
      · split
        · exact hfinished
        · split
          · exact hfinished
          · rename_i index file hget
            split
            · exact hrevert d index file hfinished hget
            · rename_i b list cursor hplace
              obtain ⟨hb, hperm⟩ := placeChunk_spec hplace
              exact ih _ (hrequest d index file b list cursor hfinished hget hb hperm)

theorem Wired.finish (h : d.Wired) (f : Nat) (err : EDownloadCode) (msg : String) :
    (d.setFile f ((d.files f).finish err msg)).Wired :=
  h.setFile (.refl _) (fun _ _ _ hold => hold.finish err msg) nofun

theorem Wired.finishWhenComplete (h : d.Wired) (f : Nat) : (d.finishWhenComplete f).Wired := by
  unfold Downloader.finishWhenComplete
  split
  · exact h.finish f .ok ""
  · exact h

/-- The chunk that is taken is not held. -/
theorem Wired.not_held (h : d.Wired) {f : Nat} {index : UInt32}
    (hbit : bitAt (d.files f).chunksDownloadFlag index.toNat = false) {c : Nat} (hc : d.Held c)
    (hfile : (d.chunks c).file = f) : (d.chunks c).chunkIndex ≠ index := by
  intro heq
  have hset := (h.marked c hc).bit
  rw [hfile, heq, hbit] at hset
  cases hset

/-- A chunk for which there is no room is given back. -/
theorem Wired.giveBack (h : d.Wired) {f : Nat} (hopen : d.Open f) {index : UInt32}
    {file : DownloadFile} (hget : (d.files f).getNotDownloadFilechunk = some (index, file)) :
    (d.setFile f (file.revertDownloadFilechunk index)).Wired := by
  obtain ⟨hindex, hbit, hfile⟩ := hopen.sized.getNotDownloadFilechunk hget
  have hrequests : (file.revertDownloadFilechunk index).requests.Sublist (d.files f).requests := by
    rw [hfile]
    exact .refl _
  refine h.setFile hrequests (fun c hc hf hold => ?_) (fun _ => ?_)
  · rw [hfile]
    exact (hold.mark hindex).revert (h.not_held hbit ((Shrinks.setFile d hrequests).held hc) hf)
  · rw [hfile]
    exact (hopen.sized.withDownloadFlag (List.length_modify ..)).revert index

section

variable {f b cursor : Nat} {index : UInt32} {file : DownloadFile} {list : List Nat}

theorem chunks_beginRequest (c : Nat) :
    (d.beginRequest f file index b list cursor).chunks c =
      if c = d.chunkCount then
        { chunkIndex := index, file := f, buf := some b, bufCursor := cursor }
      else d.chunks c :=
  Function.update_apply ..

theorem bufs_beginRequest (b' : Nat) :
    (d.beginRequest f file index b list cursor).bufs b' = if b' = b then list else d.bufs b' :=
  Function.update_apply ..

theorem files_beginRequest (f' : Nat) :
    (d.beginRequest f file index b list cursor).files f' =
      if f' = f then { file with requests := file.requests ++ [d.chunkCount] } else d.files f' :=
  Function.update_apply ..

theorem listed_beginRequest (hlist : list.Perm (d.chunkCount :: d.bufs b)) {c : Nat}
    (hc : (d.beginRequest f file index b list cursor).Listed c) :
    c = d.chunkCount ∨ d.Listed c := by
  obtain ⟨b', hb'⟩ := hc
  rw [bufs_beginRequest] at hb'
  split at hb'
  · exact (List.mem_cons.mp (hlist.mem_iff.mp hb')).imp_right fun hold => ⟨b, hold⟩
  · exact .inr ⟨b', hb'⟩

/-- Only the new chunk becomes held. -/
theorem held_beginRequest (hrequests : file.requests = (d.files f).requests)
    (hlist : list.Perm (d.chunkCount :: d.bufs b)) {c : Nat}
    (hc : (d.beginRequest f file index b list cursor).Held c) : c = d.chunkCount ∨ d.Held c := by
  by_cases heq : c = d.chunkCount
  · exact .inl heq
  · refine .inr (hc.imp ?_ ?_)
    · intro hlisted
      exact (listed_beginRequest hlist hlisted).resolve_left heq
    · intro hreq
      unfold Requested at hreq ⊢
      rw [chunks_beginRequest, if_neg heq, files_beginRequest] at hreq
      split at hreq
      · rename_i hfile
        rw [hfile, ← hrequests]
        exact (List.mem_append.mp hreq).resolve_right fun hnew => heq (List.mem_singleton.mp hnew)
      · exact hreq

/-- The number of the new chunk is above those of all held chunks. -/
theorem Wired.ne_chunkCount (h : d.Wired) {c : Nat} (hc : d.Held c) : c ≠ d.chunkCount :=
  Nat.ne_of_lt (h.held_lt c hc).1

/-- A chunk in the list of requests of a file is requested. -/
theorem Wired.requested_of_mem (h : d.Wired) {f c : Nat} (hc : c ∈ (d.files f).requests) :
    d.Requested c := by
  unfold Requested
  rw [h.requests_file f c hc]
  exact hc

theorem Wired.listed_buf_beginRequest (h : d.Wired) (hlist : list.Perm (d.chunkCount :: d.bufs b))
    {b' c : Nat} (hc : c ∈ (d.beginRequest f file index b list cursor).bufs b') :
    ((d.beginRequest f file index b list cursor).chunks c).buf = some b' := by
  rw [bufs_beginRequest] at hc
  rw [chunks_beginRequest]
  split at hc
  · rename_i heq
    obtain rfl | hc := List.mem_cons.mp (hlist.mem_iff.mp hc)
    · rw [if_pos rfl, heq]
    · rw [if_neg (h.ne_chunkCount (.inl ⟨b, hc⟩)), heq]
      exact h.listed_buf b c hc
  · rw [if_neg (h.ne_chunkCount (.inl ⟨b', hc⟩))]
    exact h.listed_buf b' c hc

theorem Wired.requested_buf_beginRequest (h : d.Wired)
    (hrequests : file.requests = (d.files f).requests) {c : Nat}
    (hc : (d.beginRequest f file index b list cursor).Requested c) :
    ((d.beginRequest f file index b list cursor).chunks c).buf ≠ none := by
  rw [chunks_beginRequest]
  split
  · exact nofun
  · rename_i hne
    unfold Requested at hc
    rw [chunks_beginRequest, if_neg hne, files_beginRequest] at hc
    split at hc
    · rename_i hf
      refine h.requested_buf c ?_
      unfold Requested
      rw [hf, ← hrequests]
      exact (List.mem_append.mp hc).resolve_right fun hnew => hne (List.mem_singleton.mp hnew)
    · exact h.requested_buf c hc

theorem Wired.requests_file_beginRequest (h : d.Wired)
    (hrequests : file.requests = (d.files f).requests) {f' c : Nat}
    (hc : c ∈ ((d.beginRequest f file index b list cursor).files f').requests) :
    ((d.beginRequest f file index b list cursor).chunks c).file = f' := by
  rw [files_beginRequest] at hc
  have hold : c ∈ (d.files f').requests →
      ((d.beginRequest f file index b list cursor).chunks c).file = f' := by
    intro hc
    rw [chunks_beginRequest, if_neg (h.ne_chunkCount (.inr (h.requested_of_mem hc)))]
    exact h.requests_file f' c hc
  split at hc
  · rename_i heq
    obtain hc | hc := List.mem_append.mp hc
    · exact hold (by rw [heq, ← hrequests]; exact hc)
    · rw [chunks_beginRequest, if_pos (List.mem_singleton.mp hc), heq]
  · exact hold hc

theorem Wired.requests_nodup_beginRequest (h : d.Wired)
    (hrequests : file.requests = (d.files f).requests) (f' : Nat) :
    ((d.beginRequest f file index b list cursor).files f').requests.Nodup := by
  rw [files_beginRequest]
  split
  · show (file.requests ++ [d.chunkCount]).Nodup
    rw [hrequests]
    refine List.nodup_append.mpr ⟨h.requests_nodup f, List.nodup_singleton _, ?_⟩
    intro c hc c' hc' heq
    rw [List.mem_singleton.mp hc'] at heq
    exact h.ne_chunkCount (.inr (h.requested_of_mem hc)) heq
  · exact h.requests_nodup f'

/-- The bit of the chunk that is taken was clear, so that no held chunk stands for it. -/
theorem Wired.unique_beginRequest (h : d.Wired)
    (hrequests : file.requests = (d.files f).requests)
    (hlist : list.Perm (d.chunkCount :: d.bufs b))
    (hbit : bitAt (d.files f).chunksDownloadFlag index.toNat = false) {c c' : Nat}
    (hc : (d.beginRequest f file index b list cursor).Held c)
    (hc' : (d.beginRequest f file index b list cursor).Held c')
    (hsame : ((d.beginRequest f file index b list cursor).chunks c).file =
      ((d.beginRequest f file index b list cursor).chunks c').file)
    (hindices : ((d.beginRequest f file index b list cursor).chunks c).chunkIndex =
      ((d.beginRequest f file index b list cursor).chunks c').chunkIndex) : c = c' := by
  rw [chunks_beginRequest, chunks_beginRequest] at hsame hindices
  obtain rfl | hc := held_beginRequest hrequests hlist hc
  · obtain rfl | hc' := held_beginRequest hrequests hlist hc'
    · rfl
    · rw [if_pos rfl, if_neg (h.ne_chunkCount hc')] at hsame hindices
      exact absurd hindices.symm (h.not_held hbit hc' hsame.symm)
  · obtain rfl | hc' := held_beginRequest hrequests hlist hc'
    · rw [if_neg (h.ne_chunkCount hc), if_pos rfl] at hsame hindices
      exact absurd hindices (h.not_held hbit hc hsame)
    · rw [if_neg (h.ne_chunkCount hc), if_neg (h.ne_chunkCount hc')] at hsame hindices
      exact h.unique c c' hc hc' hsame hindices

/-- The chunk that is taken is marked in its file. -/
theorem Open.marked_taken (h : d.Open f)
    (hget : (d.files f).getNotDownloadFilechunk = some (index, file)) : Marked file index := by
  obtain ⟨hindex, -, hfile⟩ := h.sized.getNotDownloadFilechunk hget
  rw [hfile]
  refine ⟨h.sized.withDownloadFlag (List.length_modify ..), hindex, ?_, h.started⟩
  show bitAt (setFlag (d.files f).chunksDownloadFlag index.toNat) index.toNat = true
  rw [bitAt_setFlag (h.sized.lt_length_download hindex), decide_eq_true rfl, Bool.or_true]

theorem Wired.beginRequest (h : d.Wired) (hopen : d.Open f)
    (hget : (d.files f).getNotDownloadFilechunk = some (index, file))
    (hlist : list.Perm (d.chunkCount :: d.bufs b)) :
    (d.beginRequest f file index b list cursor).Wired := by
  obtain ⟨hindex, hbit, hfile⟩ := hopen.sized.getNotDownloadFilechunk hget
  have hrequests : file.requests = (d.files f).requests := by rw [hfile]
  have hnew := hopen.marked_taken hget
  have hheld : ∀ c, (d.beginRequest f file index b list cursor).Held c →
      c = d.chunkCount ∨ d.Held c := fun c => held_beginRequest hrequests hlist
  constructor
  case listed_buf => exact fun b' c hc => h.listed_buf_beginRequest hlist hc
  case requested_buf => exact fun c hc => h.requested_buf_beginRequest hrequests hc
  case bufs_nodup =>
    intro b'
    rw [bufs_beginRequest]
    split
    · refine hlist.nodup_iff.mpr (List.nodup_cons.mpr ⟨fun hc => ?_, h.bufs_nodup b⟩)
      exact h.ne_chunkCount (.inl ⟨b, hc⟩) rfl
    · exact h.bufs_nodup b'
  case requests_file => exact fun f' c hc => h.requests_file_beginRequest hrequests hc
  case requests_nodup => exact h.requests_nodup_beginRequest hrequests
  case held_lt =>
    intro c hc
    rw [chunks_beginRequest]
    obtain rfl | hc := hheld c hc
    · rw [if_pos rfl]
      exact ⟨Nat.lt_succ_self _, hopen.lt⟩
    · rw [if_neg (h.ne_chunkCount hc)]
      exact ⟨Nat.lt_succ_of_lt (h.held_lt c hc).1, (h.held_lt c hc).2⟩
  case marked =>
    intro c hc
    rw [chunks_beginRequest]
    obtain rfl | hc := hheld c hc
    · rw [if_pos rfl, files_beginRequest, if_pos rfl]
      exact hnew.withRequests _
    · rw [if_neg (h.ne_chunkCount hc), files_beginRequest]
      have hold := h.marked c hc
      split
      · rename_i heq
        rw [heq] at hold
        rw [hfile]
        exact (hold.mark hindex).withRequests _
      · exact hold
  case unique =>
    exact fun c c' hc hc' hsame hindices =>
      h.unique_beginRequest hrequests hlist hbit hc hc' hsame hindices
  case sized =>
    intro f' hstatus
    rw [files_beginRequest] at hstatus ⊢
    split
    · exact { hnew.sized with }
    · rename_i hne
      rw [if_neg hne] at hstatus
      exact h.sized f' hstatus
  case queues => exact h.queues
  case tasks_lt => exact h.tasks_lt

theorem Open.setFile (h : d.Open f) (hsized : file.Sized)
    (hstarted : file.status ≠ .idle ∧ file.status ≠ .init) : (d.setFile f file).Open f := by
  refine ⟨h.lt, ?_, ?_⟩
  · rw [files_setFile, if_pos rfl]
    exact hsized
  · rw [files_setFile, if_pos rfl]
    exact hstarted

theorem Open.finishWhenComplete (h : d.Open f) : (d.finishWhenComplete f).Open f := by
  unfold Downloader.finishWhenComplete
  split
  · exact h.setFile (h.sized.finish _ _) ⟨nofun, nofun⟩
  · exact h

theorem Open.giveBack (h : d.Open f)
    (hget : (d.files f).getNotDownloadFilechunk = some (index, file)) :
    (d.setFile f (file.revertDownloadFilechunk index)).Open f := by
  obtain ⟨-, -, hfile⟩ := h.sized.getNotDownloadFilechunk hget
  refine h.setFile ?_ ?_
  · rw [hfile]
    exact (h.sized.withDownloadFlag (List.length_modify ..)).revert index
  · rw [hfile]
    exact h.started

theorem Open.beginRequest (h : d.Open f)
    (hget : (d.files f).getNotDownloadFilechunk = some (index, file)) :
    (d.beginRequest f file index b list cursor).Open f := by
  obtain ⟨-, -, hfile⟩ := h.sized.getNotDownloadFilechunk hget
  refine ⟨h.lt, ?_, ?_⟩
  · rw [files_beginRequest, if_pos rfl, hfile]
    exact { h.sized.withDownloadFlag (List.length_modify ..) with }
  · rw [files_beginRequest, if_pos rfl, hfile]
    exact h.started

theorem Wired.fetch (h : d.Wired) (hopen : d.Open f) (fuel : Nat) :
    (fetch f fuel d).Wired ∧ (fetch f fuel d).Open f := by
  refine fetch_induct (motive := fun d => d.Wired ∧ d.Open f) ?_ ?_ ?_ fuel d ⟨h, hopen⟩
  · intro d hd
    exact ⟨hd.1.finishWhenComplete f, hd.2.finishWhenComplete⟩
  · intro d index file hd hget
    exact ⟨hd.1.giveBack hd.2 hget, hd.2.giveBack hget⟩
  · intro d index file b list cursor hd hget _ hlist
    exact ⟨hd.1.beginRequest hd.2 hget hlist, hd.2.beginRequest hget⟩

end

/-! ## The rest of `Tick` -/

theorem Wired.openFile (h : d.Wired) {f : Nat} (hlt : f < d.fileCount)
    (hstatus : (d.files f).status = .downloadChunk) : d.Open f :=
  ⟨hlt, h.sized f hstatus, by rw [hstatus]; exact ⟨nofun, nofun⟩⟩

/-- A file that has not started has no chunks. -/
theorem Wired.start (h : d.Wired) {f : Nat} {file : DownloadFile}
    (hstatus : (d.files f).status = .idle ∨ (d.files f).status = .init)
    (hrequests : file.requests = (d.files f).requests)
    (hsized : file.status = .downloadChunk → file.Sized) : (d.setFile f file).Wired := by
  refine h.setFile (by rw [hrequests]) (fun c _ _ hold => ?_) hsized
  exact (hstatus.elim hold.started.1 hold.started.2).elim

theorem Wired.tickFile (h : d.Wired) {f : Nat} (hlt : f < d.fileCount) : (d.tickFile f).Wired := by
  unfold Downloader.tickFile
  split
  · rename_i hstatus
    exact h.start (.inl hstatus) rfl nofun
  · rename_i hstatus
    exact (h.fetch (h.openFile hlt hstatus) _).1
  · exact h

theorem tasks_fetch (f fuel : Nat) (d : Downloader) :
    (Downloader.fetch f fuel d).tasks = d.tasks := by
  refine fetch_induct (motive := fun d' => d'.tasks = d.tasks) ?_ ?_ ?_ fuel d rfl
  · intro d' h
    unfold Downloader.finishWhenComplete
    split
    · exact h
    · exact h
  · exact fun _ _ _ h _ => h
  · exact fun _ _ _ _ _ _ h _ _ _ => h

theorem tasks_tickFile (d : Downloader) (f : Nat) : (d.tickFile f).tasks = d.tasks := by
  unfold Downloader.tickFile
  split
  · rfl
  · exact tasks_fetch f _ d
  · rfl

/-- A property that is kept for every task holds after `Tick`. -/
theorem tick_induct {motive : Downloader → Prop}
    (hfile : ∀ d f, motive d → f ∈ d.tasks → motive (d.tickFile f)) {order : List Nat}
    (h : motive d.transferBuf.removeFiles) (hstep : d.tick order = some d') : motive d' := by
  unfold Downloader.tick at hstep
  generalize d.transferBuf.removeFiles = d at *
  simp only [] at hstep
  split at hstep
  · rename_i horder
    cases hstep
    -- `tickFile` leaves the tasks as they are, so that the files that follow are tasks too
    have hfold := List.foldlRecOn (motive := fun u : Downloader => motive u ∧ u.tasks = d.tasks)
      order Downloader.tickFile ⟨h, rfl⟩ fun u hu f hf =>
        ⟨hfile u f hu.1 (hu.2 ▸ horder.mem_iff.mp hf), (tasks_tickFile u f).trans hu.2⟩
    exact hfold.1
  · cases hstep

theorem Shrinks.transferBuf (d : Downloader) : Shrinks d d.transferBuf where
  file _ := rfl
  index _ := rfl
  bufs b := by
    show (if b ∈ d.bufIoComplete then [] else d.bufs b).Sublist (d.bufs b)
    split
    · exact List.nil_sublist _
    · exact .refl _
  requests _ := .refl _
  chunkCount := rfl
  fileCount := le_refl _

theorem transferBuf_queues (d : Downloader) :
    (d.transferBuf.bufPool ++ d.transferBuf.bufInIo ++ d.transferBuf.bufIoComplete).Perm
      (d.bufPool ++ d.bufInIo ++ d.bufIoComplete) := by
  show ((d.bufPool.filter (fun b => !d.isFull b) ++ d.bufIoComplete) ++
    (d.bufInIo ++ d.bufPool.filter d.isFull) ++ []).Perm _
  rw [List.perm_iff_count]
  intro b
  have hsplit := (List.filter_append_perm d.isFull d.bufPool).count_eq b
  simp only [List.count_append, List.count_nil] at hsplit ⊢
  omega

theorem Wired.transferBuf (h : d.Wired) : d.transferBuf.Wired :=
  h.shrink (.transferBuf d) (fun _ _ => rfl) (fun _ _ hold => hold) h.sized
    ((transferBuf_queues d).nodup_iff.mpr h.queues) h.tasks_lt

theorem Wired.removeFiles (h : d.Wired) : d.removeFiles.Wired :=
  { h with tasks_lt := fun f hf => h.tasks_lt f (List.mem_of_mem_filter hf) }

theorem Wired.tick (h : d.Wired) {order : List Nat} (hstep : d.tick order = some d') :
    d'.Wired :=
  tick_induct (fun _ f hd hf => hd.tickFile (hd.tasks_lt f hf)) h.transferBuf.removeFiles hstep

/-! ## `TickIO` -/

section

variable {f b c : Nat}

theorem files_completeChunk (f : Nat) :
    (d.completeChunk b c).files f =
      if f = (d.chunks c).file then (d.files f).completeChunk (d.chunks c).chunkIndex
      else d.files f := by
  show Function.update d.files (d.chunks c).file _ f = _
  rw [Function.update_apply]
  split
  · rename_i heq
    rw [heq]
  · rfl

theorem bufs_completeChunk (b' : Nat) :
    (d.completeChunk b c).bufs b' = if b' = b then (d.bufs b).erase c else d.bufs b' :=
  Function.update_apply ..

theorem Shrinks.completeChunk (d : Downloader) (b c : Nat) : Shrinks d (d.completeChunk b c) where
  file _ := rfl
  index _ := rfl
  bufs b' := by
    rw [bufs_completeChunk]
    split
    · rename_i heq
      rw [heq]
      exact List.erase_sublist
    · exact .refl _
  requests f := by
    rw [files_completeChunk]
    split
    · exact .refl _
    · exact .refl _
  chunkCount := rfl
  fileCount := le_refl _

theorem Wired.completeChunk (h : d.Wired) (b c : Nat) : (d.completeChunk b c).Wired := by
  refine h.shrink (.completeChunk d b c) (fun _ _ => rfl) ?_ ?_ h.queues h.tasks_lt
  · intro c' _ hold
    rw [files_completeChunk]
    split
    · exact hold.complete _
    · exact hold
  · intro f hstatus
    rw [files_completeChunk] at hstatus ⊢
    split
    · rename_i heq
      rw [if_pos heq] at hstatus
      exact (h.sized f hstatus).complete _
    · rename_i hne
      rw [if_neg hne] at hstatus
      exact h.sized f hstatus

theorem status_completeChunk (f : Nat) :
    ((d.completeChunk b c).files f).status = (d.files f).status := by
  rw [files_completeChunk]
  split
  · rfl
  · rfl

/-- A chunk of a buffer that is written becomes complete. -/
theorem Wired.bitAt_completeChunk (h : d.Wired) (hc : c ∈ d.bufs b) (f k : Nat) :
    bitAt ((d.completeChunk b c).files f).chunksCompleteFlag k =
      (bitAt (d.files f).chunksCompleteFlag k ||
        decide (f = (d.chunks c).file ∧ k = (d.chunks c).chunkIndex.toNat)) := by
  have hmarked := h.marked c (.inl ⟨b, hc⟩)
  rw [files_completeChunk]
  split
  · rename_i heq
    rw [heq]
    show bitAt (setFlag _ _) k = _
    rw [bitAt_setFlag (hmarked.sized.lt_length_complete hmarked.index_lt)]
    simp only [true_and]
  · rename_i hne
    simp only [hne, false_and, decide_false, Bool.or_false]

/-- A chunk that is written leaves its buffer. -/
theorem Wired.not_listed_completeChunk (h : d.Wired) (hc : c ∈ d.bufs b) :
    ¬ (d.completeChunk b c).Listed c := by
  rintro ⟨b', hb'⟩
  rw [bufs_completeChunk] at hb'
  split at hb'
  · exact (h.bufs_nodup b).not_mem_erase hb'
  · rename_i hne
    have hbuf := (h.listed_buf b' c hb').symm.trans (h.listed_buf b c hc)
    exact hne (Option.some.inj hbuf)

theorem Wired.returnBuf (h : d.Wired) (hb : b ∈ d.bufInIo) : (d.returnBuf b).Wired := by
  refine { h with queues := ?_ }
  have hperm : (d.bufPool ++ d.bufInIo.erase b ++ (d.bufIoComplete ++ [b])).Perm
      (d.bufPool ++ d.bufInIo ++ d.bufIoComplete) := by
    rw [List.perm_iff_count]
    intro b'
    have herase := (List.perm_cons_erase hb).count_eq b'
    simp only [List.count_append, List.count_cons, List.count_nil] at herase ⊢
    omega
  exact hperm.nodup_iff.mpr h.queues

/-- Whether a chunk can be written does not change while others are. -/
theorem saves_completeChunk {fails : List Nat} (c' : Nat) :
    (d.completeChunk b c).saves fails c' = d.saves fails c' := by
  show (((d.completeChunk b c).files (d.chunks c').file).content || _) = _
  rw [files_completeChunk]
  split
  · rfl
  · rfl

end

section

variable {fails : List Nat} {motive : Downloader → Prop}
  (hwired : ∀ d, motive d → d.Wired)
  (hcomplete : ∀ d b c, motive d → b ∈ d.bufInIo → c ∈ d.bufs b → d.saves fails c = true →
    motive (d.completeChunk b c))
include hwired hcomplete

/-- The chunks of a buffer that are still to be written are in it, and the others that are in it
could not be written. -/
theorem saveChunks_induct {b : Nat} {list : List Nat} (h : motive d) (hb : b ∈ d.bufInIo)
    (hmem : ∀ c ∈ list, c ∈ d.bufs b) (hnodup : list.Nodup)
    (hrest : ∀ c ∈ d.bufs b, c ∈ list ∨ d.saves fails c = false) :
    motive (list.foldl (saveChunk fails b) d) ∧
      (list.foldl (saveChunk fails b) d).bufInIo = d.bufInIo ∧
      ∀ c ∈ (list.foldl (saveChunk fails b) d).bufs b,
        (list.foldl (saveChunk fails b) d).saves fails c = false := by
  induction list generalizing d with
  | nil => exact ⟨h, rfl, fun c hc => (hrest c hc).resolve_left List.not_mem_nil⟩
  | cons c list ih =>
      obtain ⟨hc, hnodup⟩ := List.nodup_cons.mp hnodup
      rw [List.foldl_cons, saveChunk]
      split
      · rename_i hsaves
        have hbufs : (d.completeChunk b c).bufs b = (d.bufs b).erase c := by
          rw [bufs_completeChunk, if_pos rfl]
        refine ih (hcomplete d b c h hb (hmem c List.mem_cons_self) hsaves) hb ?_ hnodup ?_
        · intro x hx
          have hne : x ≠ c := fun heq => hc (heq ▸ hx)
          rw [hbufs, List.mem_erase_of_ne hne]
          exact hmem x (List.mem_cons_of_mem _ hx)
        · intro x hx
          rw [hbufs, ((hwired d h).bufs_nodup b).mem_erase_iff] at hx
          rw [saves_completeChunk]
          exact (hrest x hx.2).imp_left fun hx' => (List.mem_cons.mp hx').resolve_left hx.1
      · rename_i hfails
        refine ih h hb (fun x hx => hmem x (List.mem_cons_of_mem _ hx)) hnodup fun x hx => ?_
        obtain hx' | hx' := hrest x hx
        · obtain rfl | hx' := List.mem_cons.mp hx'
          · exact .inr (Bool.eq_false_iff.mpr hfails)
          · exact .inl hx'
        · exact .inr hx'

/-- A property that is kept when a chunk is written and when a buffer goes back with the chunks that
could not be written holds after `TickIO`. -/
theorem tickIo_induct
    (hreturn : ∀ d b, motive d → b ∈ d.bufInIo → (∀ c ∈ d.bufs b, d.saves fails c = false) →
      motive (d.returnBuf b)) (h : motive d) : motive (d.tickIo fails) := by
  -- the buffers are returned in the order of the queue, each from its front
  have hfold : ∀ (queue : List Nat) (d : Downloader), motive d → d.bufInIo = queue →
      motive (queue.foldl (saveBuf fails) d) := by
    intro queue
    induction queue with
    | nil => exact fun _ h _ => h
    | cons b queue ih =>
        intro d h hqueue
        have hb : b ∈ d.bufInIo := hqueue ▸ List.mem_cons_self
        obtain ⟨hsaved, hsame, hfailed⟩ := saveChunks_induct hwired hcomplete h hb
          (fun _ hc => hc) ((hwired d h).bufs_nodup b) (fun _ hc => .inl hc)
        refine ih _ (hreturn _ b hsaved (hsame ▸ hb) hfailed) ?_
        show List.erase _ b = queue
        rw [hsame, hqueue, List.erase_cons_head]
  exact hfold d.bufInIo d h rfl

end

theorem Wired.tickIo (h : d.Wired) (fails : List Nat) : (d.tickIo fails).Wired :=
  tickIo_induct (fun _ h => h) (fun _ b c h _ _ _ => h.completeChunk b c)
    (fun _ _ h hb _ => h.returnBuf hb) h

/-! ## Callbacks -/

theorem chunks_setDownloadSize (d : Downloader) (c : Nat) (size : UInt32) (x : Nat) :
    ((d.setDownloadSize c size).chunks x).file = (d.chunks x).file ∧
      ((d.setDownloadSize c size).chunks x).chunkIndex = (d.chunks x).chunkIndex ∧
      ((d.setDownloadSize c size).chunks x).buf = (d.chunks x).buf := by
  show (Function.update d.chunks c _ x).file = _ ∧ (Function.update d.chunks c _ x).chunkIndex = _ ∧
    (Function.update d.chunks c _ x).buf = _
  rw [Function.update_apply]
  split
  · rename_i heq
    rw [heq]
    exact ⟨rfl, rfl, rfl⟩
  · exact ⟨rfl, rfl, rfl⟩

theorem Shrinks.setDownloadSize (d : Downloader) (c : Nat) (size : UInt32) :
    Shrinks d (d.setDownloadSize c size) where
  file x := (chunks_setDownloadSize d c size x).1
  index x := (chunks_setDownloadSize d c size x).2.1
  bufs _ := .refl _
  requests _ := .refl _
  chunkCount := rfl
  fileCount := le_refl _

theorem Wired.setDownloadSize (h : d.Wired) (c : Nat) (size : UInt32) :
    (d.setDownloadSize c size).Wired :=
  h.shrink (.setDownloadSize d c size) (fun x _ => (chunks_setDownloadSize d c size x).2.2)
    (fun _ _ hold => hold) h.sized h.queues h.tasks_lt

theorem Wired.progress (h : d.Wired) (c : Nat) (newSize : UInt32) :
    (d.progress c newSize).Wired := by
  unfold Downloader.progress
  split
  · exact h.setDownloadSize c newSize
  · exact h

theorem Wired.endRequest (h : d.Wired) (c bytesRead : Nat) : (d.endRequest c bytesRead).Wired := by
  have hfile : (d.setFile (d.chunks c).file
      (eraseRequest (d.files (d.chunks c).file) c)).Wired :=
    h.setFile List.erase_sublist (fun _ _ _ hold => hold.withRequests _)
      (fun hstatus => { h.sized _ hstatus with })
  exact hfile.setDownloadSize c _

section

variable {b c : Nat}

theorem files_failRequest (f : Nat) :
    (d.failRequest b c).files f =
      if f = (d.chunks c).file then
        (eraseRequest (d.files f) c).revertDownloadFilechunk (d.chunks c).chunkIndex
      else d.files f := by
  have hfiles : (d.failRequest b c).files = (d.setFile (d.chunks c).file
      ((eraseRequest (d.files (d.chunks c).file) c).revertDownloadFilechunk
        (d.chunks c).chunkIndex)).files := by
    unfold failRequest removeChunk
    simp only []
    split
    · rfl
    · rfl
  rw [hfiles, files_setFile]
  split
  · rename_i heq
    rw [heq]
  · rfl

theorem bufs_failRequest (b' : Nat) :
    (d.failRequest b c).bufs b' = if b' = b then (d.bufs b).erase c else d.bufs b' := by
  unfold failRequest removeChunk
  simp only []
  split
  · show Function.update d.bufs b ((d.bufs b).erase c) b' = _
    exact Function.update_apply ..
  · rename_i hc
    show d.bufs b' = _
    split
    · rename_i heq
      rw [heq]
      exact (List.erase_of_not_mem hc).symm
    · rfl

theorem chunks_failRequest (x : Nat) :
    ((d.failRequest b c).chunks x).file = (d.chunks x).file ∧
      ((d.failRequest b c).chunks x).chunkIndex = (d.chunks x).chunkIndex ∧
      (x ≠ c → ((d.failRequest b c).chunks x).buf = (d.chunks x).buf) := by
  unfold failRequest removeChunk
  simp only []
  split
  · show (Function.update d.chunks c _ x).file = _ ∧
      (Function.update d.chunks c _ x).chunkIndex = _ ∧
      (_ → (Function.update d.chunks c _ x).buf = _)
    rw [Function.update_apply]
    split
    · rename_i heq
      rw [heq]
      exact ⟨rfl, rfl, fun hne => absurd rfl hne⟩
    · exact ⟨rfl, rfl, fun _ => rfl⟩
  · exact ⟨rfl, rfl, fun _ => rfl⟩

theorem failRequest_frame :
    (d.failRequest b c).chunkCount = d.chunkCount ∧ (d.failRequest b c).fileCount = d.fileCount ∧
      (d.failRequest b c).tasks = d.tasks ∧ (d.failRequest b c).bufPool = d.bufPool ∧
      (d.failRequest b c).bufInIo = d.bufInIo ∧
      (d.failRequest b c).bufIoComplete = d.bufIoComplete ∧
      (d.failRequest b c).completed = d.completed := by
  unfold failRequest removeChunk
  simp only []
  split
  · exact ⟨rfl, rfl, rfl, rfl, rfl, rfl, rfl⟩
  · exact ⟨rfl, rfl, rfl, rfl, rfl, rfl, rfl⟩

theorem Shrinks.failRequest (d : Downloader) (b c : Nat) : Shrinks d (d.failRequest b c) where
  file x := (chunks_failRequest x).1
  index x := (chunks_failRequest x).2.1
  bufs b' := by
    rw [bufs_failRequest]
    split
    · rename_i heq
      rw [heq]
      exact List.erase_sublist
    · exact .refl _
  requests f := by
    rw [files_failRequest]
    split
    · exact List.erase_sublist
    · exact .refl _
  chunkCount := failRequest_frame.1
  fileCount := Nat.le_of_eq failRequest_frame.2.1.symm

/-- A chunk whose request failed is not held any more. -/
theorem Wired.not_held_failRequest (h : d.Wired) (hbuf : (d.chunks c).buf = some b) :
    ¬ (d.failRequest b c).Held c := by
  rintro (⟨b', hb'⟩ | hreq)
  · rw [bufs_failRequest] at hb'
    split at hb'
    · exact (h.bufs_nodup b).not_mem_erase hb'
    · rename_i hne
      exact hne (Option.some.inj ((h.listed_buf b' c hb').symm.trans hbuf))
  · unfold Requested at hreq
    rw [(chunks_failRequest c).1, files_failRequest, if_pos rfl] at hreq
    exact (h.requests_nodup _).not_mem_erase hreq

theorem Wired.failRequest (h : d.Wired) (hc : d.Requested c) (hbuf : (d.chunks c).buf = some b) :
    (d.failRequest b c).Wired := by
  have hgone := h.not_held_failRequest hbuf
  obtain ⟨-, hfiles, htasks, hpool, hinIo, hdone, -⟩ := @failRequest_frame d b c
  refine h.shrink (.failRequest d b c) ?_ ?_ ?_ ?_ ?_
  · intro x hx
    exact (chunks_failRequest x).2.2 fun heq => hgone (heq ▸ hx)
  · intro x hx hold
    have hheld := (Shrinks.failRequest d b c).held hx
    rw [files_failRequest]
    split
    · rename_i hfile
      refine (hold.withRequests _).revert fun hindex => ?_
      -- the chunk that is taken back is the one whose request failed
      obtain rfl := h.unique x c hheld (.inr hc) hfile hindex
      exact hgone hx
    · exact hold
  · intro f hstatus
    rw [files_failRequest] at hstatus ⊢
    split
    · rename_i heq
      rw [if_pos heq] at hstatus
      have hsized : (eraseRequest (d.files f) c).Sized := { h.sized f hstatus with }
      exact hsized.revert _
    · rename_i hne
      rw [if_neg hne] at hstatus
      exact h.sized f hstatus
  · rw [hpool, hinIo, hdone]
    exact h.queues
  · rw [htasks, hfiles]
    exact h.tasks_lt

/-- The callbacks of a request are always defined. -/
theorem Wired.complete_defined (h : d.Wired) (c : Nat) (res : Bool) (bytesRead : Nat) :
    ∃ d', d.complete c res bytesRead = some d' := by
  unfold Downloader.complete
  split
  · rename_i hc
    split
    · obtain ⟨b, hb⟩ := Option.ne_none_iff_exists'.mp (h.requested_buf c hc)
      rw [hb]
      exact ⟨_, rfl⟩
    · exact ⟨_, rfl⟩
  · exact ⟨_, rfl⟩

/-- What the callback at the end of a request can do. -/
inductive Completes (d : Downloader) (c : Nat) (res : Bool) (bytesRead : Nat) :
    Downloader → Prop where
  | unknown (hc : ¬ d.Requested c) : Completes d c res bytesRead d
  | failed (b : Nat) (hc : d.Requested c) (hbuf : (d.chunks c).buf = some b)
      (hfailed : res = false ∨ bytesRead ≠ d.chunkSize c) :
      Completes d c res bytesRead (d.failRequest b c)
  | succeeded (hc : d.Requested c) (hres : res = true) (hbytes : bytesRead = d.chunkSize c) :
      Completes d c res bytesRead (d.endRequest c bytesRead)

theorem complete_cases {res : Bool} {bytesRead : Nat} (h : d.complete c res bytesRead = some d') :
    Completes d c res bytesRead d' := by
  unfold Downloader.complete at h
  split at h
  · rename_i hc
    split at h
    · rename_i hfailed
      obtain ⟨b, hb, rfl⟩ := Option.map_eq_some_iff.mp h
      refine .failed b hc hb ?_
      rw [Bool.or_eq_true, Bool.not_eq_true', decide_eq_true_eq] at hfailed
      exact hfailed
    · rename_i hsucceeded
      cases h
      rw [Bool.or_eq_true, Bool.not_eq_true', decide_eq_true_eq, not_or, not_not,
        Bool.not_eq_false] at hsucceeded
      exact .succeeded hc hsucceeded.1 hsucceeded.2
  · rename_i hc
    cases h
    exact .unknown hc

end

end Downloader

/-! ## Events -/

namespace DownloadEvent

open Downloader

variable {d d' : Downloader}

/-- How a download in chunks starts. -/
theorem onHead_downloadChunk {file : DownloadFile} {result : HeadResult}
    (h : (file.onHead result).status = .downloadChunk) :
    ∃ size : Int, 0 < size ∧ size < 2 ^ 63 ∧
      file.onHead result = (file.setFileSize size).setStatus .downloadChunk := by
  cases result with
  | netError => cases h
  | answered contentLength name =>
      simp only [DownloadFile.onHead] at h ⊢
      split at h
      · cases h
      · rename_i hzero
        rw [if_neg hzero]
        cases name with
        | parseError => cases h
        | fileExist => cases h
        | free =>
            simp only [] at h ⊢
            split at h
            · rename_i hpos
              rw [if_pos hpos]
              rw [DownloadFile.setFileSize_size] at hpos
              exact ⟨contentLength.val, hpos, contentLength.property, rfl⟩
            · cases h

theorem onHead_sized (file : DownloadFile) (result : HeadResult)
    (h : (file.onHead result).status = .downloadChunk) : (file.onHead result).Sized := by
  obtain ⟨size, hpos, hlt, heq⟩ := onHead_downloadChunk h
  rw [heq]
  exact { file.setFileSize_sized hpos hlt with }

theorem onHead_requests (file : DownloadFile) (result : HeadResult) :
    (file.onHead result).requests = file.requests := by
  cases result with
  | netError => rfl
  | answered contentLength name =>
      obtain ⟨-, -, -, hrequests, -⟩ := file.setFileSize_frame contentLength.val
      simp only [DownloadFile.onHead]
      split
      · rfl
      · cases name with
        | parseError => exact hrequests
        | fileExist => exact hrequests
        | free =>
            simp only []
            split
            · exact hrequests
            · exact hrequests

theorem files_addFile (file : DownloadFile) (f : Nat) :
    (addFile d file).files f = if f = d.fileCount then file else d.files f :=
  Function.update_apply ..

/-- A new file has no chunks. -/
theorem shrinks_addFile {file : DownloadFile} (hnew : file.requests = []) :
    Shrinks d (addFile d file) where
  file _ := rfl
  index _ := rfl
  bufs _ := .refl _
  requests f := by
    rw [files_addFile]
    split
    · rw [hnew]
      exact List.nil_sublist _
    · exact .refl _
  chunkCount := rfl
  fileCount := Nat.le_succ _

theorem wired_addFile (h : d.Wired) {file : DownloadFile} (hnew : file.requests = [])
    (hstatus : file.status = .idle) : (addFile d file).Wired := by
  have hshrinks : Shrinks d (addFile d file) := shrinks_addFile hnew
  refine h.shrink hshrinks (fun _ _ => rfl) ?_ ?_ h.queues ?_
  · intro c hc hold
    have hlt := (h.held_lt c (hshrinks.held hc)).2
    rw [files_addFile, if_neg (Nat.ne_of_lt hlt)]
    exact hold
  · intro f hchunk
    rw [files_addFile] at hchunk ⊢
    split
    · rename_i heq
      rw [if_pos heq, hstatus] at hchunk
      cases hchunk
    · rename_i hne
      rw [if_neg hne] at hchunk
      exact h.sized f hchunk
  · intro f hf
    obtain hf | hf := List.mem_append.mp hf
    · exact Nat.lt_succ_of_lt (h.tasks_lt f hf)
    · rw [List.mem_singleton.mp hf]
      exact Nat.lt_succ_self _

/-- What an event does, and when it does it. -/
inductive Does (d : Downloader) : DownloadEvent → Downloader → Prop where
  | nothing (event : DownloadEvent) : Does d event d
  | addTask (url path : String) (content : Bool) :
      Does d (.addTask url path content)
        (addFile d { url := url, path := path, content := content })
  | removeTask (f : Nat) :
      Does d (.removeTask f) { d with requireRemoveFiles := f :: d.requireRemoveFiles }
  | head (f : Nat) (result : HeadResult) (hstatus : (d.files f).status = .init) :
      Does d (.head f result) (d.setFile f ((d.files f).onHead result))
  | receive (f newSize : Nat) (hstatus : (d.files f).status = .download) :
      Does d (.receive f newSize) (d.setFile f { d.files f with downloadSize := newSize })
  | finish (f : Nat) (res : Bool) (code : EDownloadCode) (msg : String)
      (hstatus : (d.files f).status = .download) :
      Does d (.finish f res) (d.setFile f ((d.files f).finish code msg))
  | tick (order : List Nat) {d' : Downloader} (htick : d.tick order = some d') :
      Does d (.tick order) d'
  | tickIo (fails : List Nat) : Does d (.tickIo fails) (d.tickIo fails)
  | progress (c : Nat) (newSize : UInt32) : Does d (.progress c newSize) (d.progress c newSize)
  | complete (c : Nat) (res : Bool) (bytesRead : Nat) {d' : Downloader}
      (hcompletes : Completes d c res bytesRead d') : Does d (.complete c res bytesRead) d'

theorem step_cases {event : DownloadEvent} (hstep : event.step d = some d') : Does d event d' := by
  cases event with
  | addTask url path content =>
      cases hstep
      exact .addTask url path content
  | removeTask f =>
      rw [step] at hstep
      split at hstep
      · cases hstep
        exact .removeTask f
      · cases hstep
        exact .nothing _
  | head f result =>
      rw [step] at hstep
      split at hstep
      · rename_i hf
        cases hstep
        exact .head f result hf.2
      · cases hstep
        exact .nothing _
  | receive f newSize =>
      rw [step] at hstep
      split at hstep
      · rename_i hstatus
        cases hstep
        exact .receive f newSize hstatus
      · cases hstep
        exact .nothing _
  | finish f res =>
      rw [step] at hstep
      split at hstep
      · rename_i hstatus
        cases hstep
        split
        · exact .finish f _ _ _ hstatus
        · exact .finish f _ _ _ hstatus
      · cases hstep
        exact .nothing _
  | tick order => exact .tick order hstep
  | tickIo fails =>
      cases hstep
      exact .tickIo fails
  | progress c newSize =>
      cases hstep
      exact .progress c newSize
  | complete c res bytesRead => exact .complete c res bytesRead (complete_cases hstep)

/-- Every event keeps the wiring. -/
theorem wired_step {event : DownloadEvent} (h : d.Wired) (hstep : event.step d = some d') :
    d'.Wired := by
  cases step_cases hstep with
  | nothing _ => exact h
  | addTask url path content => exact wired_addFile h rfl rfl
  | removeTask f => exact { h with }
  | head f result hstatus =>
      exact h.start (.inr hstatus) (onHead_requests _ result) (onHead_sized _ result)
  | receive f newSize hstatus =>
      refine h.setFile (.refl _) (fun _ _ _ hold => ?_) (fun hchunk => ?_)
      · exact { sized := { hold.sized with }, index_lt := hold.index_lt, bit := hold.bit
                started := hold.started }
      · exact nomatch hstatus.symm.trans hchunk
  | finish f res code msg hstatus => exact h.finish f code msg
  | tick order htick => exact h.tick htick
  | tickIo fails => exact h.tickIo fails
  | progress c newSize => exact h.progress c newSize
  | complete c res bytesRead hcompletes =>
      cases hcompletes with
      | unknown _ => exact h
      | failed b hc hbuf _ => exact h.failRequest hc hbuf
      | succeeded _ _ _ => exact h.endRequest c bytesRead

end DownloadEvent

end Utilpp.Download

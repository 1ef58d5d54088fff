import Utilpp.Download.Wiring

/-!
# No chunk is lost

A chunk that is marked as being fetched and that is not complete should have a request or stand in a
buffer that `TickIO` will write. `TickIO` gives a buffer back to `Tick` with the chunks that it
could not write, and `Tick` empties the buffer: such a chunk is lost, unless its request is still
active and fails later. A request that succeeds later does not bring the chunk back either. Every
other step keeps the chunks.
-/

namespace Utilpp.Download

open Lib

namespace Downloader

variable {d d' : Downloader}

/-- The file is a download in chunks that goes on. -/
def Live (d : Downloader) (f : Nat) : Prop := f ∈ d.tasks ∧ (d.files f).status = .downloadChunk

/-- The chunk stands in a buffer that will be written. -/
def Pending (d : Downloader) (c : Nat) : Prop := ∃ b ∈ d.bufPool ++ d.bufInIo, c ∈ d.bufs b

/-- The chunk `k` of file `f` is fetched by a request or stands in a buffer that will be
written. -/
def HasHolder (d : Downloader) (f k : Nat) : Prop :=
  ∃ c, (d.chunks c).file = f ∧ (d.chunks c).chunkIndex.toNat = k ∧ (d.Requested c ∨ d.Pending c)

/-- The chunk `k` of file `f` is marked as being fetched and is not complete. -/
def InFlight (d : Downloader) (f k : Nat) : Prop :=
  bitAt (d.files f).chunksDownloadFlag k = true ∧ bitAt (d.files f).chunksCompleteFlag k = false

/-- No chunk is lost. -/
def NoneLost (d : Downloader) : Prop := ∀ f, d.Live f → ∀ k, d.InFlight f k → d.HasHolder f k

theorem noneLost_init : init.NoneLost := fun _ h => nomatch h.1

theorem Pending.held {c : Nat} (h : d.Pending c) : d.Held c := by
  obtain ⟨b, -, hb⟩ := h
  exact .inl ⟨b, hb⟩

/-- A chunk that has no holder is lost. -/
theorem Wired.not_noneLost (h : d.Wired) {c : Nat} (hheld : d.Held c)
    (hlive : d.Live (d.chunks c).file) (hwritten : ¬ d.Written c) (hrequested : ¬ d.Requested c)
    (hpending : ¬ d.Pending c) : ¬ d.NoneLost := by
  intro hnone
  obtain ⟨c', hfile, hindex, hholds⟩ := hnone _ hlive _
    ⟨(h.marked c hheld).bit, Bool.eq_false_iff.mpr hwritten⟩
  have hheld' : d.Held c' := hholds.elim .inr Pending.held
  obtain rfl := h.unique c' c hheld' hheld hfile (UInt32.toNat_inj.mp hindex)
  exact hholds.elim hrequested hpending

/-- The chunks in flight keep their holders. -/
theorem NoneLost.keep (h : d.NoneLost) (hlive : ∀ f, d'.Live f → d.Live f)
    (hflight : ∀ f k, d'.Live f → d'.InFlight f k → d.InFlight f k)
    (hholder : ∀ c, d'.Live (d.chunks c).file →
      d'.InFlight (d.chunks c).file (d.chunks c).chunkIndex.toNat →
      d.Requested c ∨ d.Pending c →
      (d'.chunks c).file = (d.chunks c).file ∧ (d'.chunks c).chunkIndex = (d.chunks c).chunkIndex ∧
        (d'.Requested c ∨ d'.Pending c)) : d'.NoneLost := by
  intro f hf k hk
  obtain ⟨c, rfl, rfl, hholds⟩ := h f (hlive f hf) k (hflight f k hf hk)
  obtain ⟨hfile, hindex, hholds⟩ := hholder c hf hk hholds
  exact ⟨c, hfile, by rw [hindex], hholds⟩

/-- A file gets new data. -/
theorem NoneLost.setFile (h : d.NoneLost) {f : Nat} {file : DownloadFile}
    (hrequests : file.requests = (d.files f).requests)
    (hlive : file.status = .downloadChunk → ∀ k, bitAt file.chunksDownloadFlag k = true →
      bitAt file.chunksCompleteFlag k = false →
        (d.files f).status = .downloadChunk ∧ d.InFlight f k) :
    (d.setFile f file).NoneLost := by
  intro f' hf' k hk
  have hold : d.Live f' ∧ d.InFlight f' k := by
    unfold Live InFlight at *
    rw [files_setFile] at hf' hk
    split at hf'
    · rename_i heq
      rw [if_pos heq] at hk
      obtain ⟨hstatus, hflight⟩ := hlive hf'.2 k hk.1 hk.2
      rw [heq]
      exact ⟨⟨heq ▸ hf'.1, hstatus⟩, hflight⟩
    · rename_i hne
      rw [if_neg hne] at hk
      exact ⟨hf', hk⟩
  obtain ⟨c, hfile, hindex, hholds⟩ := h f' hold.1 k hold.2
  refine ⟨c, hfile, hindex, hholds.imp_left fun hreq => ?_⟩
  show c ∈ ((d.setFile f file).files (d.chunks c).file).requests
  rw [files_setFile]
  split
  · rename_i heq
    rw [hrequests, ← heq]
    exact hreq
  · exact hreq

/-! ## `Tick` -/

section

variable {f b cursor : Nat} {index : UInt32} {file : DownloadFile} {list : List Nat}

theorem NoneLost.finish (h : d.NoneLost) (f : Nat) (err : EDownloadCode) (msg : String) :
    (d.setFile f ((d.files f).finish err msg)).NoneLost :=
  h.setFile rfl fun hstatus => nomatch hstatus

theorem NoneLost.finishWhenComplete (h : d.NoneLost) (f : Nat) :
    (d.finishWhenComplete f).NoneLost := by
  unfold Downloader.finishWhenComplete
  split
  · exact h.finish f .ok ""
  · exact h

theorem NoneLost.giveBack (h : d.NoneLost) (hopen : d.Open f)
    (hget : (d.files f).getNotDownloadFilechunk = some (index, file)) :
    (d.setFile f (file.revertDownloadFilechunk index)).NoneLost := by
  obtain ⟨hindex, -, hfile⟩ := hopen.sized.getNotDownloadFilechunk hget
  refine h.setFile (by rw [hfile]; rfl) fun hstatus k hmarked hclear => ?_
  rw [hfile] at hstatus hmarked hclear
  refine ⟨hstatus, ?_, hclear⟩
  have hbit : bitAt (clearFlag (setFlag (d.files f).chunksDownloadFlag index.toNat) index.toNat) k =
      true := hmarked
  rw [bitAt_clearFlag, bitAt_setFlag (hopen.sized.lt_length_download hindex), Bool.and_eq_true,
    Bool.or_eq_true, decide_eq_true_eq, decide_eq_true_eq] at hbit
  exact hbit.1.resolve_right hbit.2

/-- The chunk whose request is made gets a holder, and the others keep theirs. -/
theorem NoneLost.beginRequest (h : d.NoneLost) (hwired : d.Wired) (hopen : d.Open f)
    (hget : (d.files f).getNotDownloadFilechunk = some (index, file))
    (hlist : list.Perm (d.chunkCount :: d.bufs b)) :
    (d.beginRequest f file index b list cursor).NoneLost := by
  obtain ⟨hindex, -, hfile⟩ := hopen.sized.getNotDownloadFilechunk hget
  -- requests and buffers only grow
  have hkept : ∀ f' k, d.HasHolder f' k →
      (d.beginRequest f file index b list cursor).HasHolder f' k := by
    rintro f' k ⟨c, hc, hk, hholds⟩
    have hold : (d.beginRequest f file index b list cursor).chunks c = d.chunks c := by
      rw [chunks_beginRequest, if_neg]
      exact Nat.ne_of_lt (hwired.held_lt c (hholds.elim .inr Pending.held)).1
    refine ⟨c, by rw [hold, hc], by rw [hold, hk], hholds.imp ?_ ?_⟩
    · intro hreq
      show c ∈ ((d.beginRequest f file index b list cursor).files _).requests
      rw [hold, files_beginRequest]
      split
      · rename_i heq
        rw [hfile]
        exact List.mem_append_left _ (heq ▸ hreq)
      · exact hreq
    · rintro ⟨b', hb', hmem⟩
      refine ⟨b', hb', ?_⟩
      rw [bufs_beginRequest]
      split
      · rename_i heq
        exact hlist.mem_iff.mpr (List.mem_cons_of_mem _ (heq ▸ hmem))
      · exact hmem
  intro f' hf' k hk
  unfold Live at hf'
  unfold InFlight at hk
  rw [files_beginRequest] at hf' hk
  split at hf'
  · rename_i heq
    rw [if_pos heq, hfile] at hk
    have hbit : bitAt (setFlag (d.files f).chunksDownloadFlag index.toNat) k = true := hk.1
    rw [bitAt_setFlag (hopen.sized.lt_length_download hindex), Bool.or_eq_true,
      decide_eq_true_eq] at hbit
    obtain hold | hnew := hbit
    · have hlive : d.Live f' := by
        have hstatus : file.status = .downloadChunk := hf'.2
        rw [hfile] at hstatus
        exact ⟨hf'.1, heq ▸ hstatus⟩
      exact hkept f' k (h f' hlive k (heq ▸ ⟨hold, hk.2⟩))
    · refine ⟨d.chunkCount, ?_, ?_, .inl ?_⟩
      · rw [chunks_beginRequest, if_pos rfl, heq]
      · rw [chunks_beginRequest, if_pos rfl, hnew]
      · unfold Requested
        rw [chunks_beginRequest, if_pos rfl, files_beginRequest, if_pos rfl]
        exact List.mem_append_right _ List.mem_cons_self
  · rename_i hne
    rw [if_neg hne] at hk
    exact hkept f' k (h f' hf' k hk)

theorem NoneLost.fetch (h : d.NoneLost) (hwired : d.Wired) (hopen : d.Open f) (fuel : Nat) :
    (fetch f fuel d).NoneLost := by
  refine (fetch_induct (motive := fun d => (d.Wired ∧ d.Open f) ∧ d.NoneLost) ?_ ?_ ?_ fuel d
    ⟨⟨hwired, hopen⟩, h⟩).2
  · intro d hd
    exact ⟨⟨hd.1.1.finishWhenComplete f, hd.1.2.finishWhenComplete⟩, hd.2.finishWhenComplete f⟩
  · intro d index file hd hget
    exact ⟨⟨hd.1.1.giveBack hd.1.2 hget, hd.1.2.giveBack hget⟩, hd.2.giveBack hd.1.2 hget⟩
  · intro d index file b list cursor hd hget _ hlist
    exact ⟨⟨hd.1.1.beginRequest hd.1.2 hget hlist, hd.1.2.beginRequest hget⟩,
      hd.2.beginRequest hd.1.1 hd.1.2 hget hlist⟩

end

theorem NoneLost.tickFile (h : d.NoneLost) (hwired : d.Wired) {f : Nat} (hf : f ∈ d.tasks) :
    (d.tickFile f).NoneLost := by
  unfold Downloader.tickFile
  split
  · exact h.setFile rfl fun hstatus => nomatch hstatus
  · rename_i hstatus
    exact h.fetch hwired (hwired.openFile (hwired.tasks_lt f hf) hstatus) _
  · exact h

/-- A buffer that moves to the IO thread keeps its chunks; those that are emptied are behind it. -/
theorem NoneLost.transferBuf (h : d.NoneLost) (hwired : d.Wired) : d.transferBuf.NoneLost := by
  refine h.keep (fun _ hf => hf) (fun _ _ _ hk => hk) fun c _ _ hholds => ⟨rfl, rfl, ?_⟩
  refine hholds.imp_right ?_
  rintro ⟨b, hb, hc⟩
  have hmoved : b ∈ d.transferBuf.bufPool ++ d.transferBuf.bufInIo ++ d.transferBuf.bufIoComplete :=
    (transferBuf_queues d).mem_iff.mpr (List.mem_append_left _ hb)
  have hbehind : b ∉ d.bufIoComplete := by
    intro hmem
    exact (List.nodup_append.mp hwired.queues).2.2 b hb b hmem rfl
  refine ⟨b, ?_, ?_⟩
  · exact (List.mem_append.mp hmoved).resolve_right List.not_mem_nil
  · show c ∈ if b ∈ d.bufIoComplete then [] else d.bufs b
    rw [if_neg hbehind]
    exact hc

theorem NoneLost.removeFiles (h : d.NoneLost) : d.removeFiles.NoneLost :=
  fun f hf => h f ⟨List.mem_of_mem_filter hf.1, hf.2⟩

theorem NoneLost.tick (h : d.NoneLost) (hwired : d.Wired) {order : List Nat}
    (hstep : d.tick order = some d') : d'.NoneLost := by
  refine (tick_induct (motive := fun d => d.Wired ∧ d.NoneLost) ?_ ?_ hstep).2
  · intro d f hd hf
    exact ⟨hd.1.tickFile (hd.1.tasks_lt f hf), hd.2.tickFile hd.1 hf⟩
  · exact ⟨hwired.transferBuf.removeFiles, (h.transferBuf hwired).removeFiles⟩

/-! ## `TickIO` -/

/-- Every chunk of a download that goes on and that `TickIO` cannot write is complete already or has
an active request. -/
def WritesPending (d : Downloader) (fails : List Nat) : Prop :=
  ∀ b ∈ d.bufInIo, ∀ c ∈ d.bufs b, d.saves fails c = false → d.Live (d.chunks c).file →
    ¬ d.Written c → d.Requested c

section

variable {b c : Nat} {fails : List Nat}

theorem live_completeChunk {f : Nat} : (d.completeChunk b c).Live f ↔ d.Live f := by
  unfold Live
  rw [status_completeChunk]
  rfl

theorem requested_completeChunk {x : Nat} :
    (d.completeChunk b c).Requested x ↔ d.Requested x := by
  show x ∈ ((d.completeChunk b c).files (d.chunks x).file).requests ↔ _
  rw [files_completeChunk]
  split
  · exact Iff.rfl
  · exact Iff.rfl

/-- A chunk that is complete after another one was written, or is the one that was written. -/
theorem Wired.written_completeChunk (h : d.Wired) (hc : c ∈ d.bufs b) {x : Nat} (hx : d.Held x) :
    (d.completeChunk b c).Written x ↔ d.Written x ∨ x = c := by
  show bitAt ((d.completeChunk b c).files (d.chunks x).file).chunksCompleteFlag
    (d.chunks x).chunkIndex.toNat = true ↔ _
  rw [h.bitAt_completeChunk hc, Bool.or_eq_true, decide_eq_true_eq]
  refine or_congr Iff.rfl ⟨fun hsame => ?_, fun heq => heq ▸ ⟨rfl, rfl⟩⟩
  exact h.unique x c hx (.inl ⟨b, hc⟩) hsame.1 (UInt32.toNat_inj.mp hsame.2)

/-- The other chunks of the buffers stay. -/
theorem mem_bufs_completeChunk {b' x : Nat} (hne : x ≠ c) :
    x ∈ (d.completeChunk b c).bufs b' ↔ x ∈ d.bufs b' := by
  rw [bufs_completeChunk]
  split
  · rename_i heq
    rw [heq]
    exact List.mem_erase_of_ne hne
  · exact Iff.rfl

theorem NoneLost.completeChunk (h : d.NoneLost) (hwired : d.Wired) (hc : c ∈ d.bufs b) :
    (d.completeChunk b c).NoneLost := by
  refine h.keep (fun _ hf => live_completeChunk.mp hf) ?_ ?_
  · intro f k _ hk
    obtain ⟨hmarked, hclear⟩ := hk
    rw [hwired.bitAt_completeChunk hc, Bool.or_eq_false_iff] at hclear
    refine ⟨?_, hclear.1⟩
    rw [files_completeChunk] at hmarked
    split at hmarked
    · exact hmarked
    · exact hmarked
  · intro x _ hx hholds
    refine ⟨rfl, rfl, hholds.imp requested_completeChunk.mpr ?_⟩
    rintro ⟨b', hb', hmem⟩
    refine ⟨b', hb', (mem_bufs_completeChunk ?_).mpr hmem⟩
    have hwritten := hwired.written_completeChunk hc (.inl ⟨b', hmem⟩)
    exact fun heq => Bool.eq_false_iff.mp hx.2 (hwritten.mpr (.inr heq))

theorem WritesPending.completeChunk (h : d.WritesPending fails) (hwired : d.Wired)
    (hc : c ∈ d.bufs b) : (d.completeChunk b c).WritesPending fails := by
  intro b' hb' x hx hfails hlive hwritten
  have hold : x ∈ d.bufs b' := ((Shrinks.completeChunk d b c).bufs b').subset hx
  rw [saves_completeChunk] at hfails
  rw [hwired.written_completeChunk hc (.inl ⟨b', hold⟩), not_or] at hwritten
  exact requested_completeChunk.mpr
    (h b' hb' x hold hfails (live_completeChunk.mp hlive) hwritten.1)

/-- A buffer goes back, and the chunks in it are complete or have an active request. -/
theorem NoneLost.returnBuf (h : d.NoneLost) (hb : b ∈ d.bufInIo) (hwrites : d.WritesPending fails)
    (hfailed : ∀ c ∈ d.bufs b, d.saves fails c = false) : (d.returnBuf b).NoneLost := by
  refine h.keep (fun _ hf => hf) (fun _ _ _ hk => hk) fun c hlive hk hholds => ⟨rfl, rfl, ?_⟩
  obtain hreq | ⟨b', hb', hc⟩ := hholds
  · exact .inl hreq
  · by_cases heq : b' = b
    -- the guard: what is left in the buffer has a request
    · rw [heq] at hc
      exact .inl (hwrites b hb c hc (hfailed c hc) hlive (Bool.eq_false_iff.mp hk.2))
    · refine .inr ⟨b', ?_, hc⟩
      show b' ∈ d.bufPool ++ d.bufInIo.erase b
      rw [List.mem_append, List.mem_erase_of_ne heq]
      exact List.mem_append.mp hb'

theorem NoneLost.tickIo (h : d.NoneLost) (hwired : d.Wired) (hwrites : d.WritesPending fails) :
    (d.tickIo fails).NoneLost := by
  refine (tickIo_induct
    (motive := fun d => d.Wired ∧ d.NoneLost ∧ d.WritesPending fails) (fun _ hd => hd.1) ?_ ?_
    ⟨hwired, h, hwrites⟩).2.1
  · intro d b c hd _ hc _
    exact ⟨hd.1.completeChunk b c, hd.2.1.completeChunk hd.1 hc, hd.2.2.completeChunk hd.1 hc⟩
  · intro d b hd hb hfailed
    refine ⟨hd.1.returnBuf hb, hd.2.1.returnBuf hb hd.2.2 hfailed, ?_⟩
    exact fun b' hb' => hd.2.2 b' (List.mem_of_mem_erase hb')

/-- `TickIO` empties its queue. -/
theorem bufInIo_tickIo (d : Downloader) (fails : List Nat) : (d.tickIo fails).bufInIo = [] := by
  have hchunks : ∀ (list : List Nat) (b : Nat) (d : Downloader),
      (list.foldl (saveChunk fails b) d).bufInIo = d.bufInIo := by
    intro list b d
    refine List.foldlRecOn (motive := fun u : Downloader => u.bufInIo = d.bufInIo) _ _ rfl
      fun u hu c _ => ?_
    rw [← hu, saveChunk]
    split
    · rfl
    · rfl
  have hfold : ∀ (queue : List Nat) (d : Downloader), d.bufInIo = queue →
      (queue.foldl (saveBuf fails) d).bufInIo = [] := by
    intro queue
    induction queue with
    | nil => exact fun _ h => h
    | cons b queue ih =>
        intro d hqueue
        refine ih _ ?_
        show List.erase (((d.bufs b).foldl (saveChunk fails b) d).bufInIo) b = queue
        rw [hchunks, hqueue, List.erase_cons_head]
  exact hfold d.bufInIo d rfl

/-- A chunk of a buffer that was given to the IO thread, which cannot be written and has no
request. -/
structure Stuck (d : Downloader) (fails : List Nat) (b c : Nat) : Prop where
  wired : d.Wired
  listed : c ∈ d.bufs b
  queue : b ∈ d.bufInIo ++ d.bufIoComplete
  fails : d.saves fails c = false
  live : d.Live (d.chunks c).file
  written : ¬ d.Written c
  requested : ¬ d.Requested c

theorem Stuck.completeChunk (h : d.Stuck fails b c) {b' c' : Nat} (hc' : c' ∈ d.bufs b')
    (hsaves : d.saves fails c' = true) : (d.completeChunk b' c').Stuck fails b c := by
  have hne : c ≠ c' := by
    rintro rfl
    exact Bool.false_ne_true (h.fails.symm.trans hsaves)
  constructor
  case wired => exact h.wired.completeChunk b' c'
  case listed => exact (mem_bufs_completeChunk hne).mpr h.listed
  case queue => exact h.queue
  case fails =>
    rw [saves_completeChunk]
    exact h.fails
  case live => exact live_completeChunk.mpr h.live
  case written =>
    rw [h.wired.written_completeChunk hc' (.inl ⟨b, h.listed⟩), not_or]
    exact ⟨h.written, hne⟩
  case requested => exact fun hreq => h.requested (requested_completeChunk.mp hreq)

theorem Stuck.returnBuf (h : d.Stuck fails b c) {b' : Nat} (hb' : b' ∈ d.bufInIo) :
    (d.returnBuf b').Stuck fails b c := by
  refine { h with wired := h.wired.returnBuf hb', queue := ?_ }
  show b ∈ d.bufInIo.erase b' ++ (d.bufIoComplete ++ [b'])
  by_cases heq : b = b'
  · rw [heq]
    exact List.mem_append_right _ (List.mem_append_right _ List.mem_cons_self)
  · rw [List.mem_append, List.mem_erase_of_ne heq, List.mem_append]
    exact (List.mem_append.mp h.queue).imp_right .inl

theorem Stuck.tickIo (h : d.Stuck fails b c) : (d.tickIo fails).Stuck fails b c :=
  tickIo_induct (motive := fun d => d.Stuck fails b c) (fun _ hd => hd.wired)
    (fun _ _ _ hd _ hc' hsaves => hd.completeChunk hc' hsaves)
    (fun _ _ hd hb' _ => hd.returnBuf hb') h

/-- A chunk that cannot be written and has no request is lost. -/
theorem Stuck.lost (h : d.Stuck fails b c) : ¬ (d.tickIo fails).NoneLost := by
  have hstuck := h.tickIo
  have hqueue := hstuck.queue
  rw [bufInIo_tickIo, List.nil_append] at hqueue
  refine hstuck.wired.not_noneLost (.inl ⟨b, hstuck.listed⟩) hstuck.live hstuck.written
    hstuck.requested ?_
  rintro ⟨b', hb', hc'⟩
  have hsame := (hstuck.wired.listed_buf b' c hc').symm.trans
    (hstuck.wired.listed_buf b c hstuck.listed)
  rw [Option.some.inj hsame] at hb'
  exact (List.nodup_append.mp hstuck.wired.queues).2.2 b hb' b hqueue rfl

end

/-! ## Callbacks -/

section

variable {b c : Nat}

theorem NoneLost.setDownloadSize (h : d.NoneLost) (c : Nat) (size : UInt32) :
    (d.setDownloadSize c size).NoneLost := by
  refine h.keep (fun _ hf => hf) (fun _ _ _ hk => hk) fun x _ _ hholds => ?_
  obtain ⟨hfile, hindex, -⟩ := chunks_setDownloadSize d c size x
  refine ⟨hfile, hindex, hholds.imp_left fun hreq => ?_⟩
  unfold Requested
  rw [hfile]
  exact hreq

theorem NoneLost.progress (h : d.NoneLost) (c : Nat) (newSize : UInt32) :
    (d.progress c newSize).NoneLost := by
  unfold Downloader.progress
  split
  · exact h.setDownloadSize c newSize
  · exact h

theorem files_endRequest (bytesRead f : Nat) :
    (d.endRequest c bytesRead).files f =
      if f = (d.chunks c).file then eraseRequest (d.files f) c else d.files f := by
  show (d.setFile _ _).files f = _
  rw [files_setFile]
  split
  · rename_i heq
    rw [heq]
  · rfl

theorem chunks_endRequest (bytesRead x : Nat) :
    ((d.endRequest c bytesRead).chunks x).file = (d.chunks x).file ∧
      ((d.endRequest c bytesRead).chunks x).chunkIndex = (d.chunks x).chunkIndex := by
  obtain ⟨hfile, hindex, -⟩ := chunks_setDownloadSize
    (d.setFile (d.chunks c).file (eraseRequest (d.files (d.chunks c).file) c)) c
    (UInt32.ofNat bytesRead) x
  exact ⟨hfile, hindex⟩

theorem live_endRequest {bytesRead f : Nat} : (d.endRequest c bytesRead).Live f ↔ d.Live f := by
  unfold Live
  rw [files_endRequest]
  split
  · exact Iff.rfl
  · exact Iff.rfl

theorem inFlight_endRequest {bytesRead f k : Nat} :
    (d.endRequest c bytesRead).InFlight f k ↔ d.InFlight f k := by
  unfold InFlight
  rw [files_endRequest]
  split
  · exact Iff.rfl
  · exact Iff.rfl

theorem Wired.requested_endRequest (h : d.Wired) {bytesRead x : Nat} :
    (d.endRequest c bytesRead).Requested x ↔ d.Requested x ∧ x ≠ c := by
  unfold Requested
  rw [(chunks_endRequest bytesRead x).1, files_endRequest]
  split
  · show x ∈ ((d.files _).requests.erase c) ↔ _
    rw [(h.requests_nodup _).mem_erase_iff]
    exact and_comm
  · rename_i hne
    exact ⟨fun hx => ⟨hx, fun heq => hne (by rw [heq])⟩, fun hx => hx.1⟩

/-- A request may end well when its chunk will be written. -/
theorem NoneLost.endRequest (h : d.NoneLost) (hwired : d.Wired) (bytesRead : Nat)
    (hpending : d.Live (d.chunks c).file → ¬ d.Written c → d.Pending c) :
    (d.endRequest c bytesRead).NoneLost := by
  refine h.keep (fun _ hf => live_endRequest.mp hf) (fun _ _ _ hk => inFlight_endRequest.mp hk) ?_
  intro x hlive hk hholds
  obtain ⟨hfile, hindex⟩ := @chunks_endRequest d c bytesRead x
  refine ⟨hfile, hindex, ?_⟩
  by_cases heq : x = c
  -- the guard: the chunk still stands in a buffer that will be written
  · rw [heq] at hlive hk ⊢
    refine .inr (hpending (live_endRequest.mp hlive) ?_)
    exact Bool.eq_false_iff.mp (inFlight_endRequest.mp hk).2
  · exact hholds.imp_left fun hreq => hwired.requested_endRequest.mpr ⟨hreq, heq⟩

/-- A chunk that stands in no buffer that will be written is lost when its request ends well. -/
theorem Wired.lost_endRequest (h : d.Wired) (hc : d.Requested c) (bytesRead : Nat)
    (hlive : d.Live (d.chunks c).file) (hwritten : ¬ d.Written c) (hpending : ¬ d.Pending c) :
    ¬ (d.endRequest c bytesRead).NoneLost := by
  intro hnone
  obtain ⟨x, hfile, hindex, hholds⟩ := hnone _ (live_endRequest.mpr hlive) _
    (inFlight_endRequest.mpr ⟨(h.marked c (.inr hc)).bit, Bool.eq_false_iff.mpr hwritten⟩)
  rw [(chunks_endRequest bytesRead x).1] at hfile
  rw [(chunks_endRequest bytesRead x).2] at hindex
  -- whoever holds the chunk now held it before, and only `c` did
  have hheld : d.Held x := hholds.elim (fun hreq => .inr (h.requested_endRequest.mp hreq).1)
    (fun ⟨b, _, hb⟩ => .inl ⟨b, hb⟩)
  obtain rfl := h.unique x c hheld (.inr hc) hfile (UInt32.toNat_inj.mp hindex)
  exact hholds.elim (fun hreq => (h.requested_endRequest.mp hreq).2 rfl) hpending

/-- A request that fails gives its chunk back. -/
theorem NoneLost.failRequest (h : d.NoneLost) (b c : Nat) : (d.failRequest b c).NoneLost := by
  obtain ⟨-, -, htasks, hpool, hinIo, -, -⟩ := @failRequest_frame d b c
  refine h.keep ?_ ?_ ?_
  · intro f hf
    unfold Live at hf
    rw [htasks, files_failRequest] at hf
    split at hf
    · exact hf
    · exact hf
  · intro f k _ hk
    unfold InFlight at hk
    rw [files_failRequest] at hk
    split at hk
    · obtain ⟨hmarked, hclear⟩ := hk
      have hbit : bitAt (clearFlag (d.files f).chunksDownloadFlag _) k = true := hmarked
      rw [bitAt_clearFlag, Bool.and_eq_true] at hbit
      exact ⟨hbit.1, hclear⟩
    · exact hk
  · intro x _ hk hholds
    obtain ⟨hfile, hindex, -⟩ := @chunks_failRequest d b c x
    have hne : x ≠ c := by
      rintro rfl
      have hmarked := hk.1
      rw [files_failRequest, if_pos rfl] at hmarked
      have hbit : bitAt (clearFlag (d.files (d.chunks x).file).chunksDownloadFlag
        (d.chunks x).chunkIndex.toNat) (d.chunks x).chunkIndex.toNat = true := hmarked
      rw [bitAt_clearFlag, Bool.and_eq_true, decide_eq_true_eq] at hbit
      exact hbit.2 rfl
    refine ⟨hfile, hindex, hholds.imp ?_ ?_⟩
    · intro hreq
      unfold Requested
      rw [hfile, files_failRequest]
      split
      · exact (List.mem_erase_of_ne hne).mpr hreq
      · exact hreq
    · rintro ⟨b', hb', hx⟩
      refine ⟨b', by rw [hpool, hinIo]; exact hb', ?_⟩
      rw [bufs_failRequest]
      split
      · rename_i heq
        exact (List.mem_erase_of_ne hne).mpr (heq ▸ hx)
      · exact hx

end

end Downloader

namespace DownloadEvent

open Downloader

variable {d d' : Downloader}

/-- The event leaves every chunk that is in flight with a holder: `TickIO` writes the chunks that
have no request any more, and a request ends well while its chunk stands in a buffer that will be
written. -/
def KeepsHolder (d : Downloader) : DownloadEvent → Prop
  | .tickIo fails => d.WritesPending fails
  | .complete c res bytesRead =>
      d.Requested c → res = true → bytesRead = d.chunkSize c → d.Live (d.chunks c).file →
        ¬ d.Written c → d.Pending c
  | _ => True

theorem noneLost_addFile (h : d.NoneLost) (hwired : d.Wired) {file : DownloadFile}
    (hstatus : file.status = .idle) : (addFile d file).NoneLost := by
  have hold : ∀ f, (addFile d file).Live f → d.Live f ∧ (addFile d file).files f = d.files f := by
    intro f hf
    unfold Live at hf
    rw [files_addFile] at hf ⊢
    split at hf
    · exact nomatch hstatus.symm.trans hf.2
    · rename_i hne
      rw [if_neg hne]
      refine ⟨⟨(List.mem_append.mp hf.1).resolve_right fun hnew => ?_, hf.2⟩, rfl⟩
      exact hne (List.mem_singleton.mp hnew)
  refine h.keep (fun f hf => (hold f hf).1) ?_ fun c _ _ hholds => ⟨rfl, rfl, ?_⟩
  · intro f k hf hk
    unfold InFlight at hk
    rw [(hold f hf).2] at hk
    exact hk
  · refine hholds.imp_left fun hreq => ?_
    show c ∈ ((addFile d file).files (d.chunks c).file).requests
    rw [files_addFile, if_neg (Nat.ne_of_lt (hwired.held_lt c (.inr hreq)).2)]
    exact hreq

/-- A step that leaves every chunk with a holder loses none. -/
theorem noneLost_step {event : DownloadEvent} (h : d.NoneLost) (hwired : d.Wired)
    (hkeeps : KeepsHolder d event) (hstep : event.step d = some d') : d'.NoneLost := by
  cases step_cases hstep with
  | nothing _ => exact h
  | addTask url path content => exact noneLost_addFile h hwired rfl
  | removeTask f => exact h
  | head f result hstatus =>
      refine h.setFile (onHead_requests _ result) fun hchunk k hmarked _ => ?_
      -- the flags of a new download are clear
      obtain ⟨size, hpos, -, heq⟩ := onHead_downloadChunk hchunk
      rw [heq] at hmarked
      have hclear := (DownloadFile.setFileSize_bits (d.files f) hpos k).1
      exact absurd (hclear.symm.trans hmarked) Bool.false_ne_true
  | receive f newSize hstatus =>
      exact h.setFile rfl fun hchunk => absurd (hstatus.symm.trans hchunk) (by decide)
  | finish f res code msg hstatus => exact h.finish f code msg
  | tick order htick => exact h.tick hwired htick
  | tickIo fails => exact h.tickIo hwired hkeeps
  | progress c newSize => exact h.progress c newSize
  | complete c res bytesRead hcompletes =>
      cases hcompletes with
      | unknown _ => exact h
      | failed b hc hbuf hfailed => exact h.failRequest b c
      | succeeded hc hres hbytes => exact h.endRequest hwired bytesRead (hkeeps hc hres hbytes)

/-- A step that leaves a chunk without a holder loses it. -/
theorem lost_step {event : DownloadEvent} (hwired : d.Wired) (hkeeps : ¬ KeepsHolder d event) :
    ∃ d', event.step d = some d' ∧ ¬ d'.NoneLost := by
  cases event with
  | tickIo fails =>
      refine ⟨d.tickIo fails, rfl, ?_⟩
      show ¬ (d.tickIo fails).NoneLost
      simp only [KeepsHolder, WritesPending, not_forall] at hkeeps
      obtain ⟨b, hb, c, hc, hfails, hlive, hwritten, hrequested⟩ := hkeeps
      have hstuck : d.Stuck fails b c :=
        ⟨hwired, hc, List.mem_append_left _ hb, hfails, hlive, hwritten, hrequested⟩
      exact hstuck.lost
  | complete c res bytesRead =>
      simp only [KeepsHolder, not_forall] at hkeeps
      obtain ⟨hc, hres, hbytes, hlive, hwritten, hpending⟩ := hkeeps
      refine ⟨d.endRequest c bytesRead, ?_, hwired.lost_endRequest hc _ hlive hwritten hpending⟩
      show d.complete c res bytesRead = _
      have hsucceeded : ¬ (!res || bytesRead ≠ d.chunkSize c) = true := by
        rw [hres, hbytes]
        simp
      unfold Requested at hc
      rw [Downloader.complete, if_pos hc, if_neg hsucceeded]
  | addTask url path content => exact absurd trivial hkeeps
  | removeTask f => exact absurd trivial hkeeps
  | head f result => exact absurd trivial hkeeps
  | receive f newSize => exact absurd trivial hkeeps
  | finish f res => exact absurd trivial hkeeps
  | tick order => exact absurd trivial hkeeps
  | progress c newSize => exact absurd trivial hkeeps

/-- No chunk is lost in any state of a run exactly when every step of the run leaves the chunks with
their holders. -/
theorem none_lost_iff (events : List DownloadEvent) :
    (∀ first, first <+: events → ∀ d, exec step Downloader.init first = some d → d.NoneLost) ↔
      Guarded step KeepsHolder Downloader.init events := by
  have hgood : ∀ d : Downloader, d.Wired ∧ d.NoneLost → d.NoneLost := fun _ h => h.2
  refine exec_always_iff hgood ?_ ?_ ⟨wired_init, noneLost_init⟩ events
  · intro d event d' h hkeeps hstep
    exact ⟨wired_step h.1 hstep, noneLost_step h.2 h.1 hkeeps hstep⟩
  · intro d event h hkeeps
    exact lost_step h.1 hkeeps

/-- The disk is full when the only chunk of a download is written. -/
theorem unsaved_chunk_lost : ∃ events d, exec step Downloader.init events = some d ∧
    d.tasks = [0] ∧ (d.files 0).status = .downloadChunk ∧ ¬ d.NoneLost := by
  have hany : (exec step Downloader.init [.addTask "http://host/file" "/file" false, .tick [0],
      .head 0 (.answered ⟨100, by decide⟩ .free), .tick [0], .progress 0 100, .complete 0 true 100,
      .tick [0], .tickIo [0], .tick [0]]).any (fun d =>
        d.tasks = [0] ∧ (d.files 0).status = .downloadChunk ∧ (d.files 0).requests = [] ∧
          (∀ b ∈ d.bufPool ++ d.bufInIo, d.bufs b = []) ∧
          bitAt (d.files 0).chunksDownloadFlag 0 = true ∧
          bitAt (d.files 0).chunksCompleteFlag 0 = false) = true := by
    decide
  obtain ⟨d, hrun, hd⟩ := (Option.any_eq_true _ _).mp hany
  obtain ⟨htasks, hstatus, hrequests, hbufs, hmarked, hclear⟩ := of_decide_eq_true hd
  refine ⟨_, d, hrun, htasks, hstatus, fun hnone => ?_⟩
  obtain ⟨c, hfile, -, hreq | ⟨b, hb, hc⟩⟩ :=
    hnone 0 ⟨htasks ▸ List.mem_cons_self, hstatus⟩ 0 ⟨hmarked, hclear⟩
  · unfold Requested at hreq
    rw [hfile, hrequests] at hreq
    exact nomatch hreq
  · rw [hbufs b hb] at hc
    exact nomatch hc

end DownloadEvent

end Utilpp.Download

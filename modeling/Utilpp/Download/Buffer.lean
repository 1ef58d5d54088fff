import Utilpp.Download.Downloader
import Utilpp.Lib.FirstFit
import Utilpp.Lib.Transition
import Mathlib.Logic.Function.Basic

/-!
# A buffer for chunks

`FDownloadBuf` keeps the data of chunks on their way to the disk. `InsertInBuf` walks over the
chunks in the buffer and puts the new one into the first gap that is large enough, so that
`ChunkList` stays in the order of the cursors (`firstFit_run`).
-/

namespace Utilpp.Download

open Lib

/-- What a buffer knows of a `file_chunk_t`. `inBuf` says that `Buf` is this buffer, and `bufCursor`
is an offset in it. -/
structure BufChunk where
  chunkIndex : UInt32 := 0
  file : DownloadFile := {}
  inBuf : Bool := false
  bufCursor : Option Nat := none

/-- `FDownloadBuf`, with the chunks there are, which are named by numbers. -/
structure DownloadBuf where
  len : UInt32
  chunkList : List Nat := []
  chunks : Nat → BufChunk

namespace DownloadBuf

/-- The difference of two pointers when it is compared with an unsigned number. -/
def ptrDiff (p q : Nat) : Nat := if q ≤ p then p - q else 2 ^ 64 - (q - p)

/-- `BufCursor`, of a chunk that is in the buffer. -/
def cursor (s : DownloadBuf) (c : Nat) : Nat := (s.chunks c).bufCursor.getD 0

/-- `range.second - range.first` -/
def length (s : DownloadBuf) (c : Nat) : Nat :=
  (s.chunks c).file.getChunkSize (s.chunks c).chunkIndex

/-- The loop of `InsertInBuf`: the new `ChunkList`, and the cursor of the chunk. -/
def insertLoop (s : DownloadBuf) (c : Nat) : List Nat → Nat → Option (List Nat × Nat)
  | [], cursor => if ptrDiff s.len.toNat cursor ≥ s.length c then some ([c], cursor) else none
  | old :: rest, cursor =>
      if ptrDiff (s.cursor old) cursor ≥ s.length c then some (c :: old :: rest, cursor)
      else
        (s.insertLoop c rest (s.cursor old + s.length old)).map
          fun result => (old :: result.1, result.2)

/-- A chunk gets new data. -/
def setChunk (s : DownloadBuf) (c : Nat) (chunk : BufChunk) : DownloadBuf :=
  { s with chunks := Function.update s.chunks c chunk }

/-- `InsertInBuf`. All buffers are made by `make_shared`, so that `shared_from_this` does not
throw. -/
def insertInBuf (s : DownloadBuf) (c : Nat) : Bool × DownloadBuf :=
  -- `Buf` is set before there is room
  let s := s.setChunk c { s.chunks c with inBuf := true }
  match s.insertLoop c s.chunkList 0 with
  | some (list, cursor) =>
      (true,
        { s.setChunk c { s.chunks c with bufCursor := some cursor } with chunkList := list })
  | none => (false, s)

/-- `RemoveChunk` -/
def removeChunk (s : DownloadBuf) (c : Nat) : Bool × DownloadBuf :=
  if c ∈ s.chunkList then
    (true,
      { s.setChunk c { s.chunks c with inBuf := false, bufCursor := none } with
        chunkList := s.chunkList.erase c })
  else (false, s)

/-- The chunk may be inserted: it is not in the buffer, and its range is not empty. -/
def Insertable (s : DownloadBuf) (c : Nat) : Prop :=
  c ∉ s.chunkList ∧ ((s.chunks c).file.getRange (s.chunks c).chunkIndex).1 <
    ((s.chunks c).file.getRange (s.chunks c).chunkIndex).2

instance (s : DownloadBuf) (c : Nat) : Decidable (s.Insertable c) :=
  inferInstanceAs (Decidable (_ ∧ _))

/-- The calls to a buffer. -/
inductive Call where
  | insertInBuf (c : Nat)
  | removeChunk (c : Nat)

def step (s : DownloadBuf) : Call → Option DownloadBuf
  | .insertInBuf c => if s.Insertable c then some (s.insertInBuf c).2 else none
  | .removeChunk c => some (s.removeChunk c).2

/-- The cells of the buffer that belong to no chunk. -/
def IsFree (s : DownloadBuf) (p : Nat) : Prop :=
  Lib.IsFree s.cursor s.length s.len.toNat s.chunkList p

/-- The purpose of a buffer: its chunks lie in order and apart, and a chunk finds a place if there
is one. -/
structure FirstFit (s : DownloadBuf) : Prop where
  placed : ∀ c ∈ s.chunkList, (s.chunks c).inBuf = true ∧ (s.chunks c).bufCursor = some (s.cursor c)
  sorted : s.chunkList.Pairwise fun c d => s.cursor c < s.cursor d
  disjoint : ∀ c ∈ s.chunkList, ∀ d ∈ s.chunkList, c ≠ d →
    s.cursor c + s.length c ≤ s.cursor d ∨ s.cursor d + s.length d ≤ s.cursor c
  inside : ∀ c ∈ s.chunkList, s.cursor c + s.length c ≤ s.len.toNat
  inserts : ∀ c, s.Insertable c → ((s.insertInBuf c).1 = true ↔
    ∃ first last, MaximalRun s.IsFree first last ∧ s.length c ≤ last - first)
  others : ∀ c d, d ≠ c → (s.insertInBuf c).2.chunks d = s.chunks d

/-- An empty buffer. -/
def start (len : UInt32) (chunks : Nat → BufChunk) : DownloadBuf := { len, chunks }

/-! ## The invariant -/

/-- The chunks lie one behind the other in the buffer, and none is empty. -/
structure InOrder (s : DownloadBuf) : Prop where
  laid : Laid s.cursor s.length s.len.toNat 0 s.chunkList
  nonempty : ∀ c ∈ s.chunkList, 0 < s.length c
  placed : ∀ c ∈ s.chunkList, (s.chunks c).inBuf = true ∧ (s.chunks c).bufCursor ≠ none

variable {s t : DownloadBuf} {c : Nat}

theorem Insertable.length_pos (h : s.Insertable c) : 0 < s.length c := by
  have hrange := h.2
  unfold length DownloadFile.getChunkSize
  unfold DownloadFile.getRange downloadFileChunkSize at *
  simp only [] at *
  omega

section

variable (s : DownloadBuf) (c : Nat) (chunk : BufChunk)

@[simp] theorem setChunk_len : (s.setChunk c chunk).len = s.len := rfl

@[simp] theorem setChunk_chunkList : (s.setChunk c chunk).chunkList = s.chunkList := rfl

@[simp] theorem setChunk_chunks : (s.setChunk c chunk).chunks c = chunk := Function.update_self ..

theorem setChunk_chunks_of_ne {d : Nat} (hne : d ≠ c) :
    (s.setChunk c chunk).chunks d = s.chunks d :=
  Function.update_of_ne hne ..

theorem setChunk_cursor_of_ne {d : Nat} (hne : d ≠ c) :
    (s.setChunk c chunk).cursor d = s.cursor d := by
  rw [cursor, setChunk_chunks_of_ne s c chunk hne, cursor]

/-- The length of a chunk depends on its place in its file only. -/
theorem setChunk_length (hindex : chunk.chunkIndex = (s.chunks c).chunkIndex)
    (hfile : chunk.file = (s.chunks c).file) : (s.setChunk c chunk).length = s.length := by
  funext d
  by_cases heq : d = c
  · rw [heq, length, setChunk_chunks, hindex, hfile, length]
  · rw [length, setChunk_chunks_of_ne s c chunk heq, length]

/-- A chunk that points to the buffer has the cursor that it had. -/
theorem setChunk_cursor (hcursor : chunk.bufCursor = (s.chunks c).bufCursor) :
    (s.setChunk c chunk).cursor = s.cursor := by
  funext d
  by_cases heq : d = c
  · rw [heq, cursor, setChunk_chunks, hcursor, cursor]
  · exact setChunk_cursor_of_ne s c chunk heq

end

/-- As long as the cursor does not pass the chunks the loop is a first fit search. -/
theorem insertLoop_eq {list : List Nat} {cursor : Nat}
    (h : Laid s.cursor s.length s.len.toNat cursor list) :
    s.insertLoop c list cursor =
      (firstFit s.cursor s.length s.len.toNat (s.length c) cursor list).map
        fun found => (found.1 ++ c :: found.2.2, found.2.1) := by
  induction list generalizing cursor with
  | nil =>
      have hle : cursor ≤ s.len.toNat := h
      rw [insertLoop, firstFit_nil, ptrDiff, if_pos hle]
      split
      · rfl
      · rfl
  | cons old rest ih =>
      rw [insertLoop, firstFit_cons, ptrDiff, if_pos h.1]
      split
      · rfl
      · rw [ih h.2, Option.map_map, Option.map_map]
        rfl

/-- The search of the downloader, which has the offsets as natural numbers. -/
theorem downloader_insertInBuf_eq (d : Downloader) (len c : Nat) (list : List Nat) (cursor : Nat) :
    d.insertInBuf len c list cursor =
      (firstFit (fun old => (d.chunks old).bufCursor) d.chunkSize Downloader.bufLen len cursor
        list).map fun found => (found.1 ++ c :: found.2.2, found.2.1) := by
  induction list generalizing cursor with
  | nil =>
      rw [Downloader.insertInBuf, firstFit_nil]
      split
      · rfl
      · rfl
  | cons old rest ih =>
      rw [Downloader.insertInBuf, firstFit_cons]
      split
      · rfl
      · rw [ih, Option.map_map, Option.map_map]
        rfl

/-- A buffer in order that knows what the downloader knows puts a chunk where the downloader
does. -/
theorem insertLoop_eq_downloader {d : Downloader} {list : List Nat} {cursor : Nat}
    (h : Laid s.cursor s.length s.len.toNat cursor list)
    (hlen : s.len.toNat = Downloader.bufLen)
    (hchunks : ∀ old ∈ list,
      s.cursor old = (d.chunks old).bufCursor ∧ s.length old = d.chunkSize old) :
    s.insertLoop c list cursor = d.insertInBuf (s.length c) c list cursor := by
  rw [insertLoop_eq h, downloader_insertInBuf_eq, hlen, firstFit_congr hchunks]

/-- What `InsertInBuf` does to a buffer in order. -/
theorem InOrder.insertInBuf (h : s.InOrder) (c : Nat) :
    s.insertInBuf c =
      match firstFit s.cursor s.length s.len.toNat (s.length c) 0 s.chunkList with
      | some (before, cursor, after) =>
          (true,
            { s.setChunk c { s.chunks c with inBuf := true, bufCursor := some cursor } with
              chunkList := before ++ c :: after })
      | none => (false, s.setChunk c { s.chunks c with inBuf := true }) := by
  have hcursor := setChunk_cursor s c { s.chunks c with inBuf := true } rfl
  have hlength := setChunk_length s c { s.chunks c with inBuf := true } rfl rfl
  have hlaid : Laid (s.setChunk c { s.chunks c with inBuf := true }).cursor
      (s.setChunk c { s.chunks c with inBuf := true }).length s.len.toNat 0 s.chunkList := by
    rw [hcursor, hlength]
    exact h.laid
  have hloop := insertLoop_eq (c := c) hlaid
  rw [hcursor, hlength] at hloop
  rw [DownloadBuf.insertInBuf]
  simp only [setChunk_chunkList, hloop, setChunk_len, setChunk_chunks]
  cases firstFit s.cursor s.length s.len.toNat (s.length c) 0 s.chunkList with
  | none => rfl
  | some found =>
      simp [setChunk]

/-- `InsertInBuf` changes no other chunk. -/
theorem insertInBuf_chunks (s : DownloadBuf) {c d : Nat} (hne : d ≠ c) :
    (s.insertInBuf c).2.chunks d = s.chunks d := by
  have hmark := setChunk_chunks_of_ne s c { s.chunks c with inBuf := true } hne
  rw [insertInBuf]
  simp only []
  split
  · exact (setChunk_chunks_of_ne _ c _ hne).trans hmark
  · exact hmark

/-- The cursors of the chunks increase. -/
theorem InOrder.sorted (h : s.InOrder) :
    s.chunkList.Pairwise fun c d => s.cursor c < s.cursor d := by
  refine h.laid.pairwise.imp_of_mem fun hc _ hle => ?_
  have hpos := h.nonempty _ hc
  omega

theorem InOrder.nodup (h : s.InOrder) : s.chunkList.Nodup := by
  refine h.sorted.imp fun hlt heq => ?_
  rw [heq] at hlt
  exact Nat.lt_irrefl _ hlt

/-- A change to a chunk that is not in the buffer leaves its chunks in order. -/
theorem InOrder.setChunk (h : s.InOrder) (hc : c ∉ s.chunkList) (chunk : BufChunk)
    (hindex : chunk.chunkIndex = (s.chunks c).chunkIndex)
    (hfile : chunk.file = (s.chunks c).file) : (s.setChunk c chunk).InOrder := by
  have hlength := setChunk_length s c chunk hindex hfile
  have hne : ∀ d ∈ s.chunkList, d ≠ c := fun d hd heq => hc (heq ▸ hd)
  constructor
  · rw [hlength]
    exact h.laid.congr fun d hd => setChunk_cursor_of_ne s c chunk (hne d hd)
  · rw [hlength]
    exact h.nonempty
  · intro d hd
    rw [setChunk_chunks_of_ne s c chunk (hne d hd)]
    exact h.placed d hd

theorem InOrder.insert (h : s.InOrder) (hc : s.Insertable c) : (s.insertInBuf c).2.InOrder := by
  rw [h.insertInBuf c]
  split
  · rename_i before cursor after hfound
    let placed : BufChunk := { s.chunks c with inBuf := true, bufCursor := some cursor }
    have hlist := firstFit_eq_append hfound
    have hlength : (s.setChunk c placed).length = s.length := setChunk_length s c placed rfl rfl
    have hcursor : (s.setChunk c placed).cursor c = cursor := by
      rw [DownloadBuf.cursor, setChunk_chunks]
      rfl
    have hset := h.setChunk hc.1 placed rfl rfl
    have hmem : ∀ d ∈ before ++ c :: after, d = c ∨ d ∈ s.chunkList := by
      intro d hd
      rw [hlist, List.mem_append]
      rcases List.mem_append.mp hd with hd | hd
      · exact .inr (.inl hd)
      · exact (List.mem_cons.mp hd).imp_right .inr
    constructor
    · show Laid (s.setChunk c placed).cursor (s.setChunk c placed).length _ 0 _
      rw [hlength]
      exact h.laid.firstFit hfound
        (fun d hd => setChunk_cursor_of_ne s c placed fun heq => hc.1 (heq ▸ hd)) hcursor rfl
    · intro d hd
      show 0 < (s.setChunk c placed).length d
      rw [hlength]
      rcases hmem d hd with rfl | hd
      · exact hc.length_pos
      · exact h.nonempty d hd
    · intro d hd
      rcases hmem d hd with rfl | hd
      · show ((s.setChunk d placed).chunks d).inBuf = true ∧ _
        rw [setChunk_chunks]
        exact ⟨rfl, Option.some_ne_none cursor⟩
      · exact hset.placed d hd
  · exact h.setChunk hc.1 _ rfl rfl

theorem InOrder.remove (h : s.InOrder) (c : Nat) : (s.removeChunk c).2.InOrder := by
  rw [removeChunk]
  split
  · -- the chunk leaves the list before it changes
    have hleft : InOrder { s with chunkList := s.chunkList.erase c } :=
      ⟨h.laid.sublist List.erase_sublist, fun d hd => h.nonempty d (List.mem_of_mem_erase hd),
        fun d hd => h.placed d (List.mem_of_mem_erase hd)⟩
    exact hleft.setChunk h.nodup.not_mem_erase _ rfl rfl
  · exact h

theorem InOrder.step (h : s.InOrder) {call : Call} (hstep : s.step call = some t) : t.InOrder := by
  cases call with
  | insertInBuf c =>
      obtain ⟨hc, heq⟩ := Option.ite_none_right_eq_some.mp hstep
      cases heq
      exact h.insert hc
  | removeChunk c =>
      cases hstep
      exact h.remove c

/-- A buffer in order does what it is for. -/
theorem InOrder.firstFit (h : s.InOrder) : s.FirstFit where
  placed c hc := by
    obtain ⟨hbuf, hcursor⟩ := h.placed c hc
    obtain ⟨first, hsome⟩ := Option.ne_none_iff_exists'.mp hcursor
    refine ⟨hbuf, ?_⟩
    rw [cursor, hsome]
    rfl
  sorted := h.sorted
  disjoint _ hc _ hd hne := h.laid.disjoint hc hd hne
  inside c hc := (h.laid.bounds hc).2
  inserts c hc := by
    have hiff := firstFit_isSome_iff h.laid h.nonempty hc.length_pos
    rw [h.insertInBuf c]
    refine Iff.trans ?_ hiff
    cases Lib.firstFit s.cursor s.length s.len.toNat (s.length c) 0 s.chunkList with
    | none => exact Iff.rfl
    | some found => exact Iff.rfl
  others c d hne := insertInBuf_chunks s hne

/-- In every run the chunks of a buffer lie in order and apart, and a chunk finds a place exactly if
there is one. -/
theorem firstFit_run {len : UInt32} {chunks : Nat → BufChunk} {calls : List Call}
    (hrun : exec step (start len chunks) calls = some t) : t.FirstFit := by
  have hstart : (start len chunks).InOrder :=
    ⟨Nat.zero_le _, fun _ hc => absurd hc List.not_mem_nil, fun _ hc => absurd hc List.not_mem_nil⟩
  have hkeep : ∀ s call t, InOrder s → True → s.step call = some t → t.InOrder :=
    fun _ _ _ h _ hstep => h.step hstep
  exact (exec_invariant hkeep hstart (guarded_true _ _) hrun).firstFit

/-- Two chunks of a file of ten bytes each, in a buffer of 32 bytes. -/
theorem ten_bytes_firstFit :
    ∃ t, exec step (start 32 fun _ => { file := { size := 10 } })
        [.insertInBuf 0, .insertInBuf 1, .insertInBuf 2, .removeChunk 1, .insertInBuf 3] = some t ∧
      t.FirstFit ∧ t.chunkList = [0, 3, 2] ∧ t.cursor 3 = 10 := by
  obtain ⟨t, ht⟩ : ∃ t, exec step (start 32 fun _ => { file := { size := 10 } })
      [.insertInBuf 0, .insertInBuf 1, .insertInBuf 2, .removeChunk 1, .insertInBuf 3] = some t :=
    Option.isSome_iff_exists.mp (by decide)
  have hresult : (exec step (start 32 fun _ => { file := { size := 10 } })
      [.insertInBuf 0, .insertInBuf 1, .insertInBuf 2, .removeChunk 1, .insertInBuf 3]).all
        (fun t => t.chunkList == [0, 3, 2] && t.cursor 3 == 10) = true := by
    decide
  rw [ht, Option.all_some, Bool.and_eq_true, beq_iff_eq, beq_iff_eq] at hresult
  exact ⟨t, ht, firstFit_run ht, hresult⟩

end DownloadBuf

end Utilpp.Download

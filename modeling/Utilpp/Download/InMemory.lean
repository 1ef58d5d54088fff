import Utilpp.Buffer.Growth
import Utilpp.Download.Sizes

/-!
# A download to memory

`SetFileSize` reserves room in the buffer of the caller and sets its length, and `SaveDate` copies
each chunk to its place. The room is that of a size which is cut to 32 bits. `growth_iff` says for
which sizes the buffer grows as its callers expect, and for which files a download fills it.
-/

namespace Utilpp.Buffer.FCharBuffer

open Lib

/-- A write below the capacity changes the bytes of its range. -/
theorem Sound.write_fetch {b : FCharBuffer} (h : b.Sound) {pos : Nat} {cells : List (Option UInt8)}
    (hroom : pos + cells.length ≤ b.bufSize) :
    ∃ b', b.write pos cells = some b' ∧ b'.Sound ∧ b'.cursor = b.cursor ∧
      b'.bufSize = b.bufSize ∧ ∀ i, b'.fetch i =
        if pos ≤ i ∧ i < pos + cells.length then cells[i - pos]? else b.fetch i := by
  obtain ⟨b', hwrite, hsound, hcursor, hbufSize⟩ := h.write hroom
  refine ⟨b', hwrite, hsound, hcursor, hbufSize, fun i => ?_⟩
  unfold FCharBuffer.write at hwrite
  split at hwrite
  · rename_i hnull
    split at hwrite
    · rename_i hnil
      cases hwrite
      rw [hnil, List.length_nil, if_neg (by omega)]
    · cases hwrite
  · rename_i block hblock
    rw [if_pos hroom] at hwrite
    obtain ⟨block', hstore, rfl⟩ := Option.map_eq_some_iff.mp hwrite
    have hcells := Block.getElem?_store hstore i
    simp only [FCharBuffer.fetch, hblock]
    by_cases hlt : i < b.bufSize
    · rw [if_pos hlt, if_pos hlt, hcells]
    · rw [if_neg hlt, if_neg hlt, if_neg (by omega)]

/-- The content has as many bytes as the length says. -/
theorem length_of_view {b : FCharBuffer} {cells : List (Option UInt8)} (h : b.view = some cells) :
    cells.length = b.cursor := by
  unfold FCharBuffer.view FCharBuffer.read at h
  split at h
  · split at h
    · rename_i hzero
      cases h
      exact hzero.symm
    · cases h
  · unfold Block.load at h
    split at h
    · rename_i hle
      cases h
      exact List.length_take_of_le hle
    · cases h

/-- The content is known when each of its bytes is. -/
theorem Sound.view_of_fetch {b : FCharBuffer} (h : b.Sound) {data : List UInt8}
    (hcursor : b.cursor = data.length)
    (hfetch : ∀ i (hi : i < data.length), b.fetch i = some (some data[i])) :
    b.view = some (data.map some) := by
  obtain ⟨cells, hview⟩ := h.read h.cursor_le
  have hlength : cells.length = data.length := (length_of_view hview).trans hcursor
  refine hview.trans (congrArg some (List.ext_getElem ?_ fun i hi hi' => ?_))
  · rw [hlength, List.length_map]
  · have hbyte := hfetch i (hlength ▸ hi)
    rw [List.getElem_map]
    unfold FCharBuffer.read at hview
    unfold FCharBuffer.fetch at hbyte
    split at hview
    · rename_i hnull
      rw [hnull] at hbyte
      cases hbyte
    · rename_i block hblock
      rw [hblock] at hbyte
      unfold Block.load at hview
      split at hview
      · cases hview
        simp only at hbyte
        split at hbyte
        · obtain ⟨hlt, hvalue⟩ := List.getElem?_eq_some_iff.mp hbyte
          rw [List.getElem_take, hvalue]
        · cases hbyte
      · cases hview

end Utilpp.Buffer.FCharBuffer

namespace Utilpp.Download

open Lib Buffer

/-- A download whose data go to a buffer of the caller. -/
structure MemoryFile where
  file : DownloadFile
  content : FCharBuffer

namespace MemoryFile

/-- `SetFileSize` -/
def setFileSize (m : MemoryFile) (size : Int) : Option MemoryFile :=
  let file := m.file.setFileSize size
  if 0 < size then do
    -- `size + 1` is 64 bits wide, the parameter of `Reserve` 32 bits
    let content ← m.content.reserve (UInt32.ofNat (size + 1).toNat)
    some ⟨file, content.setLength size.toNat⟩
  else some ⟨file, m.content⟩

/-- `SaveDate` of a chunk; `data` are the bytes from `BufCursor` on. -/
def saveDate (m : MemoryFile) (index : UInt32) (data : List UInt8) : Option MemoryFile :=
  let cells := (data.take (m.file.getChunkSize index)).map some
  (m.content.write (m.file.getRange index).1.toNat cells).map fun content =>
    { m with content := content }

/-- A chunk of the file `data` has arrived and is saved. -/
def save (data : List UInt8) (m : MemoryFile) (index : UInt32) : Option MemoryFile :=
  m.saveDate index (data.drop (m.file.getRange index).1.toNat)

/-- The download of the file `data`, whose chunks arrive in the order `order`. -/
def download (content : FCharBuffer) (data : List UInt8) (order : List UInt32) :
    Option MemoryFile := do
  let m ← setFileSize ⟨{ content := true }, content⟩ data.length
  exec (save data) m order

/-- The chunks of a file of this size. -/
def IsChunk (data : List UInt8) (index : UInt32) : Prop :=
  index < ((DownloadFile.setFileSize { content := true } data.length).chunkNum)

/-- Every chunk stays inside of the buffer, and the buffer holds the whole file at the end. -/
def Fills (content : FCharBuffer) (data : List UInt8) (order : List UInt32) : Prop :=
  ∃ m, download content data order = some m ∧ m.content.view = some (data.map some)

/-- The buffer was large enough before, or `Reserve` gets the size as it was computed. An empty
file leaves the buffer as it is. -/
def Fits (content : FCharBuffer) (size : Nat) : Prop :=
  if size = 0 then content.cursor = 0 else size ≤ content.bufSize ∨ size + 1 < 2 ^ 32

instance (content : FCharBuffer) (size : Nat) : Decidable (Fits content size) :=
  inferInstanceAs (Decidable (if size = 0 then _ else _))

/-! ## The length of the buffer -/

/-- The file of a download to memory after `SetFileSize`. -/
def sizedFile (size : Nat) : DownloadFile := DownloadFile.setFileSize { content := true } size

/-- The capacity behind `SetFileSize` is that of the size which was cut, and the length is set when
the capacity suffices. -/
theorem setFileSize_spec {b : FCharBuffer} (h : b.Sound) {size : Nat} (hpos : 0 < size) :
    ∃ content, setFileSize ⟨{ content := true }, b⟩ size = some ⟨sizedFile size, content⟩ ∧
      content.Sound ∧ content.bufSize = max b.bufSize ((size + 1) % 2 ^ 32) ∧
      content.cursor = if size ≤ content.bufSize then size else b.cursor := by
  obtain ⟨grown, hreserve, hsound, hcursor, hbufSize⟩ := h.reserve (UInt32.ofNat (size + 1))
  have hset : setFileSize ⟨{ content := true }, b⟩ size =
      some ⟨sizedFile size, grown.setLength size⟩ := by
    have hnat : ((size : Int) + 1).toNat = size + 1 := rfl
    simp only [setFileSize, if_pos (show (0 : Int) < size by omega), hnat, hreserve,
      Option.bind_eq_bind, Option.bind_some, Int.toNat_natCast]
    rfl
  refine ⟨grown.setLength size, hset, ?_⟩
  unfold FCharBuffer.setLength
  split
  · rename_i hle
    exact ⟨⟨hsound.backed.of_eq rfl rfl, hle, hsound.bufSize_lt⟩, hbufSize, rfl⟩
  · exact ⟨hsound, hbufSize, hcursor⟩

/-! ## The chunks -/

/-- A file with at most `2 ^ 32` bytes has all of its chunks. -/
theorem isChunk_iff {data : List UInt8} (hpos : 0 < data.length) (hsize : data.length ≤ 2 ^ 32)
    {index : UInt32} : IsChunk data index ↔ index.toNat < chunkCount data.length := by
  have hcount : chunkCount data.length < 2 ^ 32 := by
    unfold chunkCount downloadFileChunkSize
    omega
  have hpos' : (0 : Int) < data.length := by omega
  rw [IsChunk, UInt32.lt_iff_toNat_lt, DownloadFile.setFileSize_chunkNum _ hpos' hcount]

/-- The place of a chunk in its file. -/
theorem range_of_isChunk {data : List UInt8} (hpos : 0 < data.length)
    (hsize : data.length ≤ 2 ^ 32) {index : UInt32} (h : IsChunk data index) :
    ∃ pos, pos = downloadFileChunkSize * index.toNat ∧ pos < data.length ∧
      ((sizedFile data.length).getRange index).1.toNat = pos ∧
      (sizedFile data.length).getChunkSize index =
        min downloadFileChunkSize (data.length - pos) := by
  have hindex := (isChunk_iff hpos hsize).mp h
  have hsized : (sizedFile data.length).Sized :=
    DownloadFile.setFileSize_sized _ (by omega) (by omega)
  have htotal : (sizedFile data.length).size = data.length := DownloadFile.setFileSize_size ..
  refine ⟨_, rfl, ?_, ?_, ?_⟩
  · unfold chunkCount at hindex
    unfold downloadFileChunkSize at hindex ⊢
    omega
  · show ((downloadFileChunkSize : Int) * (index.toNat : Int)).toNat = _
    rw [← Int.natCast_mul, Int.toNat_natCast]
  · rw [hsized.getChunkSize (htotal.symm ▸ hindex), chunkLength, htotal, Int.toNat_natCast,
      Nat.mul_succ]
    generalize downloadFileChunkSize * index.toNat = pos
    omega

/-- Every byte of the file belongs to a chunk. -/
theorem exists_isChunk {data : List UInt8} (hsize : data.length ≤ 2 ^ 32) {i : Nat}
    (hi : i < data.length) :
    ∃ index, IsChunk data index ∧ index.toNat = i / downloadFileChunkSize := by
  have hless : i / downloadFileChunkSize < UInt32.size :=
    Nat.lt_of_le_of_lt (Nat.div_le_self _ _) (Nat.lt_of_lt_of_le hi hsize)
  have hindex := UInt32.toNat_ofNat_of_lt' hless
  refine ⟨_, (isChunk_iff (Nat.zero_lt_of_lt hi) hsize).mpr ?_, hindex⟩
  rw [hindex]
  unfold chunkCount downloadFileChunkSize
  omega

/-- The buffer has the length of the file and holds the bytes of the chunks that were saved. -/
structure Saved (data : List UInt8) (saved : List UInt32) (m : MemoryFile) : Prop where
  file : m.file = sizedFile data.length
  sound : m.content.Sound
  cursor : m.content.cursor = data.length
  bytes : ∀ i (hi : i < data.length),
    (∃ index ∈ saved, index.toNat = i / downloadFileChunkSize) →
      m.content.fetch i = some (some data[i])

/-- One more chunk is saved. -/
theorem Saved.save {data : List UInt8} {saved : List UInt32} {m : MemoryFile}
    (h : Saved data saved m) (hpos : 0 < data.length) (hsize : data.length ≤ 2 ^ 32)
    {index : UInt32} (hindex : IsChunk data index) :
    ∃ m', MemoryFile.save data m index = some m' ∧ Saved data (index :: saved) m' := by
  obtain ⟨pos, hstart, hless, hfirst, hlength⟩ := range_of_isChunk hpos hsize hindex
  have hle := h.sound.cursor_le
  rw [h.cursor] at hle
  generalize hn : (sizedFile data.length).getChunkSize index = n at hlength
  have hcells : (((data.drop pos).take n).map some).length = n := by
    rw [List.length_map, List.length_take, List.length_drop]
    omega
  obtain ⟨content, hwrite, hsound, hcursor, -, hfetch⟩ :=
    h.sound.write_fetch (show pos + (((data.drop pos).take n).map some).length ≤ _ by
      rw [hcells]
      omega)
  have hsave : MemoryFile.save data m index = some { m with content := content } := by
    simp only [MemoryFile.save, saveDate, h.file, hfirst, hn, hwrite, Option.map_some]
  refine ⟨_, hsave, h.file, hsound, hcursor.trans h.cursor, fun i hi hsaved => ?_⟩
  have hbyte := hfetch i
  rw [hcells] at hbyte
  refine hbyte.trans ?_
  by_cases hinside : pos ≤ i ∧ i < pos + n
  · have hoffset : pos + (i - pos) = i := by omega
    rw [if_pos hinside, List.getElem?_map, List.getElem?_take_of_lt (by omega),
      List.getElem?_drop, hoffset, List.getElem?_eq_getElem hi, Option.map_some]
  · rw [if_neg hinside]
    refine h.bytes i hi ?_
    obtain ⟨other, hmem, hother⟩ := hsaved
    rcases List.mem_cons.mp hmem with rfl | hmem
    · exfalso
      unfold downloadFileChunkSize at hstart hlength hother
      omega
    · exact ⟨other, hmem, hother⟩

/-! ## The download -/

/-- A file that fits fills the buffer, whatever the order of its chunks. -/
theorem fills_of_fits {b : FCharBuffer} (h : b.Sound) {data : List UInt8} {order : List UInt32}
    (horder : ∀ index, index ∈ order ↔ IsChunk data index) (hpos : 0 < data.length)
    (hfits : data.length ≤ b.bufSize ∨ data.length + 1 < 2 ^ 32) : Fills b data order := by
  obtain ⟨content, hset, hsound, hbufSize, hcursor⟩ := setFileSize_spec h hpos
  have hlt := h.bufSize_lt
  rw [if_pos (by omega)] at hcursor
  have hstart : Saved data [] ⟨sizedFile data.length, content⟩ :=
    ⟨rfl, hsound, hcursor, fun i hi ⟨index, hmem, _⟩ => nomatch hmem⟩
  have hchunks : Guarded (save data) (fun _ index => IsChunk data index)
      ⟨sizedFile data.length, content⟩ order :=
    guarded_of_mem (fun index hmem => (horder index).mp hmem) _
  have hsize : data.length ≤ 2 ^ 32 := by omega
  have hstep : ∀ saved m index, Saved data saved m → IsChunk data index →
      ∃ m', save data m index = some m' ∧ Saved data (index :: saved) m' :=
    fun _ _ _ hsaved hindex => hsaved.save hpos hsize hindex
  obtain ⟨m, hrun, hsaved⟩ := exec_follows (Saved data) hstep hstart hchunks
  refine ⟨m, ?_, hsaved.sound.view_of_fetch hsaved.cursor fun i hi => hsaved.bytes i hi ?_⟩
  · rw [download, hset]
    exact hrun
  · obtain ⟨index, hchunk, hindex⟩ := exists_isChunk (by omega) hi
    refine ⟨index, ?_, hindex⟩
    have hall : order.foldl (fun saved index => index :: saved) [] = (order.map id).reverse ++ [] :=
      List.foldl_flip_cons_eq_append
    rw [hall, List.append_nil, List.map_id, List.mem_reverse]
    exact (horder _).mpr hchunk

/-- A file that does not fit does not, since the length of the buffer is not set. -/
theorem not_fills_of_not_fits {b : FCharBuffer} (h : b.Sound) {data : List UInt8}
    {order : List UInt32} (hpos : 0 < data.length)
    (hfits : ¬ (data.length ≤ b.bufSize ∨ data.length + 1 < 2 ^ 32)) : ¬ Fills b data order := by
  rintro ⟨m, hrun, hview⟩
  obtain ⟨content, hset, -, hbufSize, hcursor⟩ := setFileSize_spec h hpos
  have hle := h.cursor_le
  rw [if_neg (by omega)] at hcursor
  rw [download, hset] at hrun
  have hkept : ∀ m index m', m.content.cursor = b.cursor → True →
      save data m index = some m' → m'.content.cursor = b.cursor := by
    intro m index m' hm _ hsave
    obtain ⟨content, hwrite, rfl⟩ := Option.map_eq_some_iff.mp hsave
    exact (FCharBuffer.write_frame hwrite).2.1.trans hm
  have hfinal : m.content.cursor = b.cursor :=
    exec_invariant hkept hcursor (guarded_true _ order) hrun
  have hlength := FCharBuffer.length_of_view hview
  rw [List.length_map] at hlength
  omega

/-- An empty file has no chunks. -/
theorem not_isChunk_nil (index : UInt32) : ¬ IsChunk [] index := by
  intro hindex
  have hless : index < (0 : UInt32) := hindex
  exact Nat.not_lt_zero _ (UInt32.lt_iff_toNat_lt.mp hless)

/-- `SetFileSize` does nothing to the buffer when the file is empty. -/
theorem fills_nil_iff {b : FCharBuffer} (h : b.Sound) : Fills b [] [] ↔ b.cursor = 0 := by
  have hset : download b [] [] = some ⟨sizedFile 0, b⟩ := rfl
  constructor
  · rintro ⟨m, hrun, hview⟩
    rw [hset] at hrun
    cases hrun
    exact (FCharBuffer.length_of_view hview).symm
  · intro hcursor
    exact ⟨_, hset, h.view_of_fetch hcursor fun i hi => absurd hi (Nat.not_lt_zero i)⟩

/-- A download fills the buffer exactly when the file fits. -/
theorem fills_iff {b : FCharBuffer} (h : b.Sound) {data : List UInt8} {order : List UInt32}
    (horder : ∀ index, index ∈ order ↔ IsChunk data index) :
    Fills b data order ↔ Fits b data.length := by
  by_cases hzero : data.length = 0
  · obtain rfl := List.eq_nil_of_length_eq_zero hzero
    obtain rfl : order = [] := List.eq_nil_iff_forall_not_mem.mpr fun index hmem =>
      not_isChunk_nil index ((horder index).mp hmem)
    rw [Fits, if_pos hzero]
    exact fills_nil_iff h
  · rw [Fits, if_neg hzero]
    by_cases hfits : data.length ≤ b.bufSize ∨ data.length + 1 < 2 ^ 32
    · exact iff_of_true (fills_of_fits h horder (Nat.pos_of_ne_zero hzero) hfits) hfits
    · exact iff_of_false (not_fills_of_not_fits h (Nat.pos_of_ne_zero hzero) hfits) hfits

open FCharBuffer in
/-- For which sizes the buffer grows to what was asked for, its writes stay inside of the
allocation and a download to it ends with the whole file. -/
theorem growth_iff {b : FCharBuffer} (h : b.Sound) :
    (∀ size : Nat, (∃ b', b.reserve (UInt32.ofNat size) = some b' ∧ size ≤ b'.bufSize) ↔
        size ≤ b.bufSize ∨ size < 2 ^ 32) ∧
      (∀ bytes, (b.append (bytes.map some)).isSome = true ↔ b.Room (.append bytes)) ∧
      (∀ c, (b.put c).isSome = true ↔ b.Room (.put c)) ∧
      (∀ bytes : List UInt8, (b.assign (bytes.map some)).isSome = true ↔
        bytes.length ≤ b.assignCapacity bytes.length) ∧
      (∀ bytes : List UInt8, (b.reserveAssign (bytes.map some)).isSome = true ↔
        bytes.length ≤ b.assignCapacity bytes.length) ∧
      ∀ data order, (∀ index, index ∈ order ↔ IsChunk data index) →
        (Fills b data order ↔ Fits b data.length) :=
  ⟨reserve_capacity_iff h, append_isSome_iff h, put_isSome_iff h, assign_isSome_iff h,
    reserveAssign_isSome_iff h, fun _ _ horder => fills_iff h horder⟩

/-- A file of one byte in a new buffer. -/
theorem growth_one_byte : Fills .new [65] [0] := by
  have horder : ∀ index : UInt32, index ∈ [0] ↔ IsChunk [65] index := by
    intro index
    have hone : IsChunk [65] index ↔ index < 1 := Iff.rfl
    rw [hone, List.mem_singleton, UInt32.lt_iff_toNat_lt, ← UInt32.toNat_inj]
    exact Nat.lt_one_iff.symm
  exact ((growth_iff FCharBuffer.sound_new).2.2.2.2.2 [65] [0] horder).mpr (by decide)

/-- `Reserve` of 4 GiB in an empty buffer is cut to `Reserve` of nothing. -/
theorem not_growth :
    ∃ b', FCharBuffer.new.reserve (UInt32.ofNat (2 ^ 32)) = some b' ∧ ¬ 2 ^ 32 ≤ b'.bufSize :=
  ⟨.new, rfl, by decide⟩

end MemoryFile

end Utilpp.Download

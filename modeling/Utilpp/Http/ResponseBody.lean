import Utilpp.Buffer.CharBuffer
import Utilpp.Lib.Widths

/-!
# The body of a response

libcurl hands the body of a response to `ReceiveResponseBodyCallback` in blocks. With a buffer of
the user the response copies as much as there is room for and counts the rest; without one it
appends to its own buffer. Every block is announced to `OnRequestProgress` with the sizes before and
after it. `user_buffer_filled` is about the first case.
-/

namespace Utilpp.Http

open Lib Buffer

/-- `FCurlHttpResponse`, as far as the body changes it. The bytes at `UserBuf` are a block. -/
structure ResponseBody where
  userBuf : Option (Block UInt8) := none
  userBufLen : Int64 := 0
  totalBytesRead : Int64 := 0
  content : FCharBuffer := .new
  deriving DecidableEq, Repr

/-- A block of the body: `Ptr`, with as many bytes as the product of the sizes. -/
structure BodyBlock where
  data : List UInt8
  sizeInBlocks : UInt64
  blockSizeInBytes : UInt64
  sized : data.length = sizeInBlocks.toNat * blockSizeInBytes.toNat

/-- The bytes of a list of blocks. -/
def bodyBytes (blocks : List BodyBlock) : List UInt8 := blocks.flatMap BodyBlock.data

/-- A body. libcurl counts its bytes in a `curl_off_t`. -/
structure Body where
  blocks : List BodyBlock
  fits : (bodyBytes blocks).length < 2 ^ 63

/-- `CurlDownloadProgress_t` -/
structure CurlDownloadProgress where
  newSize : Int64
  oldSize : Int64
  httpReq : Nat
  requestID : UInt32
  deriving DecidableEq, Repr

/-- A call of `OnHttpThreadRespContentReceive`. -/
structure ContentReceive where
  oldSize : Int64
  newSize : Int64
  data : List UInt8
  deriving DecidableEq, Repr

/-- `FCurlHttpRequest` as far as the callback uses it, the queue of the manager and the calls that
were made. `self` stands for `shared_from_this`. -/
structure Receiver where
  self : Nat
  requestID : UInt32
  response : Option ResponseBody
  enableRespContent : Bool
  runningProgressList : List CurlDownloadProgress := []
  contentReceived : List ContentReceive := []
  deriving DecidableEq, Repr

namespace ResponseBody

variable (r : ResponseBody)

/-- `SetContentBuf` -/
def setContentBuf (ptr : Option (Block UInt8)) (len : Int64) : ResponseBody :=
  { r with userBuf := ptr, userBufLen := len }

/-- `GetContentBytesRead` -/
def getContentBytesRead : Int64 := r.totalBytesRead

/-- `writelen`, the smaller one of the room that is left and of the length. -/
def writelen (len : UInt64) : Int64 :=
  let room := r.userBufLen - r.totalBytesRead
  if len.toInt64 < room then len.toInt64 else room

/-- `memcpy` of the first `len` bytes of `data` to `UserBuf + offset`. -/
def copyTo (block : Block UInt8) (offset : Int64) (data : List UInt8) (len : Int64) :
    Option (Block UInt8) :=
  if 0 ≤ offset ∧ len.toInt ≤ data.length then
    block.store offset.toInt.toNat ((data.take len.toInt.toNat).map some)
  else none

/-- `ContentAppend` -/
def contentAppend (data : List UInt8) (len : UInt64) : Option ResponseBody := do
  let r ←
    match r.userBuf with
    | some block =>
        if 0 < r.writelen len then
          (copyTo block r.totalBytesRead data (r.writelen len)).map fun block =>
            { r with userBuf := some block }
        else some r
    | none =>
        (r.content.append ((data.take len.toNat).map some)).map fun content =>
          { r with content := content }
  return { r with totalBytesRead := r.totalBytesRead + len.toInt64 }

end ResponseBody

namespace Receiver

/-- `ReceiveResponseBodyCallback`: the size that is returned to libcurl, and what is changed. -/
def receiveResponseBodyCallback (s : Receiver) (block : BodyBlock) : Option (UInt64 × Receiver) :=
  match s.response with
  | none => some (0, s)
  | some response =>
      let sizeToDownload := (block.sizeInBlocks * block.blockSizeInBytes).toInt64
      if sizeToDownload ≤ 0 then some (0, s)
      else if s.enableRespContent then do
        let oldsize := response.getContentBytesRead
        let response ← response.contentAppend block.data sizeToDownload.toUInt64
        let progress :=
          { newSize := response.totalBytesRead, oldSize := oldsize, httpReq := s.self,
            requestID := s.requestID }
        return (sizeToDownload.toUInt64,
          { s with
            response := some response
            runningProgressList := s.runningProgressList ++ [progress] })
      else
        let oldSize := response.totalBytesRead
        let newSize := oldSize + sizeToDownload
        some (sizeToDownload.toUInt64,
          { s with
            response := some { response with totalBytesRead := newSize }
            contentReceived := s.contentReceived ++ [⟨oldSize, newSize, block.data⟩] })

/-- The blocks that libcurl hands over, one after the other. -/
def deliver (s : Receiver) (blocks : List BodyBlock) : Option Receiver :=
  blocks.foldlM (fun s block => (s.receiveResponseBodyCallback block).map Prod.snd) s

end Receiver

/-! ## The buffer of the user -/

/-- The records cover the bytes from `first` to `last` without a gap. -/
def Covers (first : Int) : List CurlDownloadProgress → Int → Prop
  | [], last => first = last
  | progress :: rest, last =>
      progress.oldSize.toInt = first ∧ progress.oldSize < progress.newSize ∧
        Covers progress.newSize.toInt rest last

theorem Covers.concat {first middle : Int} {records : List CurlDownloadProgress}
    (h : Covers first records middle) {progress : CurlDownloadProgress}
    (hold : progress.oldSize.toInt = middle) (hlt : progress.oldSize < progress.newSize) :
    Covers first (records ++ [progress]) progress.newSize.toInt := by
  induction records generalizing first with
  | nil =>
      cases h
      exact ⟨hold, hlt, rfl⟩
  | cons record records ih =>
      obtain ⟨hfirst, hrecord, hrest⟩ := h
      exact ⟨hfirst, hrecord, ih hrest⟩

/-- What stands in a buffer after `body` was received: as much of it as there is room for. -/
def filled (buf : Block UInt8) (body : List UInt8) : Block UInt8 :=
  (body.take buf.length).map some ++ buf.drop body.length

theorem filled_nil (buf : Block UInt8) : filled buf [] = buf := by
  rw [filled, List.take_nil, List.map_nil, List.nil_append]
  rfl

/-- Nothing is left of a buffer that is full. -/
theorem filled_of_full {buf : Block UInt8} {body : List UInt8} (h : buf.length ≤ body.length)
    (data : List UInt8) : filled buf (body ++ data) = filled buf body := by
  rw [filled, filled, List.take_append_of_le_length h, List.drop_of_length_le h,
    List.drop_of_length_le (by rw [List.length_append]; omega)]

/-- As much of `data` as there is room for goes behind what has been received. -/
theorem store_filled {buf : Block UInt8} {body data : List UInt8} {n : Nat}
    (hroom : body.length ≤ buf.length) (hn : n = min (buf.length - body.length) data.length) :
    (filled buf body).store body.length ((data.take n).map some) =
      some (filled buf (body ++ data)) := by
  have hbody : (body.take buf.length).map some = body.map some := by
    rw [List.take_of_length_le hroom]
  have hcopied : ((data.take n).map some).length = n := by
    rw [List.length_map, List.length_take_of_le (by omega)]
  have hleft : (body.map some).length = body.length := List.length_map _
  have hdata : data.take (buf.length - body.length) = data.take n := by
    rcases Nat.le_total (buf.length - body.length) data.length with h | h
    · rw [hn, Nat.min_eq_left h]
    · rw [hn, Nat.min_eq_right h, List.take_length, List.take_of_length_le h]
  have hrest : buf.drop (body.length + n) = buf.drop (body ++ data).length := by
    rw [List.length_append]
    rcases Nat.le_total (buf.length - body.length) data.length with h | h
    · rw [List.drop_of_length_le (by omega), List.drop_of_length_le (by omega)]
    · rw [hn, Nat.min_eq_right h]
  rw [filled, hbody, Block.store, if_pos, hcopied, List.take_left' hleft, ← List.drop_drop,
    List.drop_left' hleft, List.drop_drop, hrest, filled, List.take_append, hdata,
    List.take_of_length_le hroom, List.map_append]
  rw [hcopied, List.length_append, hleft, List.length_drop]
  omega

namespace ResponseBody

variable {r : ResponseBody}

theorem toInt_writelen {len : UInt64} {room total n : Nat} (hroom : r.userBufLen.toInt = room)
    (htotal : r.totalBytesRead.toInt = total) (hlen : len.toNat = n) (hn : total + n < 2 ^ 63) :
    (r.writelen len).toInt = min ((room : Int) - total) n := by
  have hlt := r.userBufLen.toInt_lt
  have hint : len.toInt64.toInt = n := by rw [toInt_toInt64 (by omega), hlen]
  have hleft : (r.userBufLen - r.totalBytesRead).toInt = (room : Int) - total := by
    rw [Int64.toInt_sub, hroom, htotal, bmod64 (by omega)]
  unfold writelen
  dsimp only
  split
  · rename_i hlt
    rw [Int64.lt_iff_toInt_lt, hint, hleft] at hlt
    rw [hint]
    omega
  · rename_i hnot
    rw [Int64.lt_iff_toInt_lt, hint, hleft] at hnot
    rw [hleft]
    omega

/-- One block goes into the buffer as far as there is room, and is counted in full. -/
theorem contentAppend_filled {buf : Block UInt8} {body data : List UInt8} {len : UInt64}
    (hbuf : r.userBuf = some (filled buf body)) (hroom : r.userBufLen.toInt = buf.length)
    (htotal : r.totalBytesRead.toInt = body.length) (hlen : len.toNat = data.length)
    (hfits : (body ++ data).length < 2 ^ 63) :
    ∃ r', r.contentAppend data len = some r' ∧
      r'.userBuf = some (filled buf (body ++ data)) ∧ r'.userBufLen = r.userBufLen ∧
      r'.totalBytesRead.toInt = (body ++ data).length := by
  rw [List.length_append] at hfits
  have hwritelen := toInt_writelen hroom htotal hlen hfits
  have hcount : (r.totalBytesRead + len.toInt64).toInt = (body ++ data).length := by
    rw [Int64.toInt_add, htotal, toInt_toInt64 (by omega), hlen, bmod64 (by omega),
      List.length_append, Int.natCast_add]
  unfold contentAppend
  rw [hbuf]
  dsimp only
  by_cases hpos : 0 < r.writelen len
  · have hlt : body.length < buf.length := by
      rw [Int64.lt_iff_toInt_lt, hwritelen] at hpos
      have hzero : (0 : Int64).toInt = 0 := rfl
      omega
    have hcopy : copyTo (filled buf body) r.totalBytesRead data (r.writelen len) =
        some (filled buf (body ++ data)) := by
      have hnonneg : 0 ≤ r.totalBytesRead := by
        rw [Int64.le_iff_toInt_le, htotal]
        exact Int.natCast_nonneg _
      rw [copyTo, if_pos ⟨hnonneg, by omega⟩, htotal, Int.toNat_natCast]
      exact store_filled (Nat.le_of_lt hlt) (by omega)
    rw [if_pos hpos, hcopy]
    exact ⟨_, rfl, rfl, rfl, hcount⟩
  · have hfull : filled buf body = filled buf (body ++ data) := by
      rw [Int64.lt_iff_toInt_lt, hwritelen] at hpos
      have hzero : (0 : Int64).toInt = 0 := rfl
      rcases Nat.eq_zero_or_pos data.length with hnil | hdata
      · rw [List.eq_nil_of_length_eq_zero hnil, List.append_nil]
      · exact (filled_of_full (by omega) data).symm
    rw [if_neg hpos]
    exact ⟨_, rfl, hbuf.trans (congrArg some hfull), rfl, hcount⟩

end ResponseBody

/-- `body` has been received into the buffer `buf`, and the records of it are behind the ones that
were queued before. -/
structure Received (buf : Block UInt8) (queued : List CurlDownloadProgress) (body : List UInt8)
    (s : Receiver) : Prop where
  enabled : s.enableRespContent = true
  response : ∃ r, s.response = some r ∧ r.userBuf = some (filled buf body) ∧
    r.userBufLen.toInt = buf.length ∧ r.getContentBytesRead.toInt = body.length
  records : ∃ records, s.runningProgressList = queued ++ records ∧ Covers 0 records body.length

theorem BodyBlock.toNat_size (block : BodyBlock) (hfits : block.data.length < 2 ^ 63) :
    (block.sizeInBlocks * block.blockSizeInBytes).toNat = block.data.length := by
  rw [UInt64.toNat_mul, ← block.sized, Nat.mod_eq_of_lt (by omega)]

variable {buf : Block UInt8} {queued : List CurlDownloadProgress} {body : List UInt8} {s : Receiver}

/-- One call of the callback receives one block. -/
theorem Received.block (h : Received buf queued body s) (block : BodyBlock)
    (hfits : (body ++ block.data).length < 2 ^ 63) :
    ∃ size t, s.receiveResponseBodyCallback block = some (size, t) ∧
      Received buf queued (body ++ block.data) t := by
  obtain ⟨r, hresponse, hbuf, hroom, htotal⟩ := h.response
  obtain ⟨records, hqueue, hcovers⟩ := h.records
  have hlength := hfits
  rw [List.length_append] at hlength
  have hsize := block.toNat_size (by omega)
  have hint : (block.sizeInBlocks * block.blockSizeInBytes).toInt64.toInt = block.data.length := by
    rw [toInt_toInt64 (by omega), hsize]
  have hzero : (0 : Int64).toInt = 0 := rfl
  unfold Receiver.receiveResponseBodyCallback
  rw [hresponse]
  dsimp only
  by_cases hempty : (block.sizeInBlocks * block.blockSizeInBytes).toInt64 ≤ 0
  · have hnil : block.data = [] := by
      rw [Int64.le_iff_toInt_le, hint] at hempty
      exact List.eq_nil_of_length_eq_zero (by omega)
    rw [if_pos hempty, hnil, List.append_nil]
    exact ⟨_, _, rfl, h⟩
  · obtain ⟨r', happend, hbuf', hroom', htotal'⟩ :=
      ResponseBody.contentAppend_filled hbuf hroom htotal hsize hfits
    rw [if_neg hempty, if_pos h.enabled, UInt64.toUInt64_toInt64, happend]
    refine ⟨_, _, rfl, h.enabled, ⟨r', rfl, hbuf', by rw [hroom', hroom], htotal'⟩,
      records ++ [⟨r'.totalBytesRead, r.getContentBytesRead, s.self, s.requestID⟩], ?_, ?_⟩
    · rw [hqueue, List.append_assoc]
    · rw [← htotal']
      refine hcovers.concat htotal ?_
      rw [Int64.le_iff_toInt_le, hint] at hempty
      rw [Int64.lt_iff_toInt_lt, htotal, htotal', List.length_append]
      omega

/-- The blocks of a body are received one after the other. -/
theorem Received.deliver {blocks : List BodyBlock} (h : Received buf queued body s)
    (hfits : (body ++ bodyBytes blocks).length < 2 ^ 63) :
    ∃ t, s.deliver blocks = some t ∧ Received buf queued (body ++ bodyBytes blocks) t := by
  induction blocks generalizing body s with
  | nil =>
      rw [bodyBytes, List.flatMap_nil, List.append_nil]
      exact ⟨s, rfl, h⟩
  | cons block blocks ih =>
      have hsplit : body ++ bodyBytes (block :: blocks) =
          (body ++ block.data) ++ bodyBytes blocks := by
        rw [bodyBytes, List.flatMap_cons, List.append_assoc]
        rfl
      rw [hsplit] at hfits ⊢
      obtain ⟨size, t, hblock, ht⟩ := h.block block
        (by rw [List.length_append] at hfits; omega)
      obtain ⟨u, hrest, hu⟩ := ih ht hfits
      refine ⟨u, ?_, hu⟩
      rw [Receiver.deliver, List.foldlM_cons, hblock]
      exact hrest

/-- Whatever the blocks of the body are, a buffer of `len` bytes has its beginning afterwards, with
the rest of the buffer as it was, every byte is counted, and the records cover all of it. A write
outside of the buffer would have no result. -/
theorem user_buffer_filled (s : Receiver) (buf : Block UInt8) (len : Int64) (body : Body)
    (hbuf : len.toInt = buf.length) :
    let response : ResponseBody := {}
    let s := { s with
      response := some (response.setContentBuf (some buf) len), enableRespContent := true }
    let bytes := bodyBytes body.blocks
    ∃ (t : Receiver) (r : ResponseBody) (records : List CurlDownloadProgress),
      s.deliver body.blocks = some t ∧ t.response = some r ∧
      r.userBuf = some ((bytes.take (min bytes.length buf.length)).map some ++
        buf.drop (min bytes.length buf.length)) ∧
      r.getContentBytesRead.toInt = bytes.length ∧
      t.runningProgressList = s.runningProgressList ++ records ∧ Covers 0 records bytes.length := by
  intro response s bytes
  have hfresh : Received buf s.runningProgressList [] s :=
    ⟨rfl, ⟨_, rfl, congrArg some (filled_nil buf).symm, hbuf, rfl⟩, [],
      (List.append_nil _).symm, rfl⟩
  obtain ⟨t, hdeliver, ht⟩ : ∃ t, s.deliver body.blocks = some t ∧
      Received buf s.runningProgressList ([] ++ bytes) t := hfresh.deliver body.fits
  obtain ⟨r, hresponse, hfilled, -, htotal⟩ := ht.response
  obtain ⟨records, hqueue, hcovers⟩ := ht.records
  refine ⟨t, r, records, hdeliver, hresponse, hfilled.trans (congrArg some ?_), htotal, hqueue,
    hcovers⟩
  rw [List.nil_append, filled]
  rcases Nat.le_total (bodyBytes body.blocks).length buf.length with h | h
  · rw [Nat.min_eq_left h, List.take_length, List.take_of_length_le h]
  · rw [Nat.min_eq_right h, List.drop_length, List.drop_of_length_le h]

/-- Three bytes for a body of four in two blocks: the second block does not fit. -/
def twoBlocks : Body :=
  { blocks := [⟨[1, 2], 1, 2, rfl⟩, ⟨[3, 4], 1, 2, rfl⟩], fits := by decide }

theorem user_buffer_filled_three :
    let receiver : Receiver :=
      { self := 0, requestID := 7, response := none, enableRespContent := false }
    let response : ResponseBody := {}
    let buf : Block UInt8 := [none, none, none]
    let s := { receiver with
      response := some (response.setContentBuf (some buf) 3), enableRespContent := true }
    let bytes := bodyBytes twoBlocks.blocks
    ∃ (t : Receiver) (r : ResponseBody) (records : List CurlDownloadProgress),
      s.deliver twoBlocks.blocks = some t ∧ t.response = some r ∧
      r.userBuf = some ((bytes.take (min bytes.length buf.length)).map some ++
        buf.drop (min bytes.length buf.length)) ∧
      r.getContentBytesRead.toInt = bytes.length ∧
      t.runningProgressList = s.runningProgressList ++ records ∧ Covers 0 records bytes.length :=
  user_buffer_filled _ [none, none, none] 3 twoBlocks rfl

end Utilpp.Http

import Utilpp.Message.TryConsume

/-!
# What the parser does inside its buffer

The bytes that `TryConsume` accepts, as relations on byte strings: complete header lines
(`HeaderLines`) and complete packets (`CompletePackets`). The advance lemmas say that the
parser goes over such bytes and lands behind them, whatever memory follows the buffer.
`OpenLine` describes a rest of the buffer in which a search for the next header line cannot
stop.
-/

namespace Utilpp.Message

open Lib

/-! ## Cursors inside the buffer -/

/-- The cursor of a parser that has not left its buffer: `left` is what is left of the buffer
and `tail` is the memory behind it. -/
def Cursor.within (left tail : List UInt8) : Cursor :=
  { ptr := left ++ tail, leftlen := left.length }

variable {left taken str : List UInt8} (tail : List UInt8)

@[simp] theorem Cursor.within_ptr : (Cursor.within left tail).ptr = left ++ tail := rfl

@[simp] theorem Cursor.within_leftlen : (Cursor.within left tail).leftlen = left.length := rfl

@[simp] theorem Cursor.within_wrapped : (Cursor.within left tail).wrapped = false := rfl

/-- Moving over bytes of the buffer stays inside it. -/
theorem Cursor.consumePtr_within (h : (taken ++ left).length < 2 ^ 32) :
    (Cursor.within (taken ++ left) tail).consumePtr taken.length = Cursor.within left tail := by
  rw [List.length_append] at h
  have hmod : taken.length % 2 ^ 32 = taken.length := Nat.mod_eq_of_lt (by omega)
  unfold Cursor.consumePtr
  rw [Cursor.within_ptr, Cursor.within_leftlen, Cursor.within_wrapped, hmod, List.length_append,
    List.append_assoc, List.drop_left]
  rw [Cursor.within, Cursor.mk.injEq]
  refine ⟨rfl, by omega, ?_⟩
  rw [Bool.false_or, decide_eq_false_iff_not]
  omega

/-- A fixed string at the start of the buffer is consumed. -/
theorem consumeString_taken (h : (str ++ left).length < 2 ^ 32) :
    consumeString str (Cursor.within (str ++ left) tail) =
      .ok (.taken (Cursor.within left tail)) := by
  unfold consumeString
  rw [Cursor.consumePtr_within tail h]
  rw [if_neg (by simp), if_neg (by simp), if_neg (by simp)]

/-- A buffer that is shorter than the string is left alone. -/
theorem consumeString_short (h : left.length < str.length) :
    consumeString str (Cursor.within left tail) = .ok (.short (Cursor.within left tail)) := by
  unfold consumeString
  rw [if_pos (by simpa using h)]

/-- A buffer that starts with other bytes is left alone. -/
theorem consumeString_mismatch (hlen : str.length ≤ left.length) (h : ¬ str <+: left) :
    consumeString str (Cursor.within left tail) = .ok (.mismatch (Cursor.within left tail)) := by
  have htake : (left ++ tail).take str.length = left.take str.length :=
    List.take_append_of_le_length hlen
  have hdiff : left.take str.length ≠ str := by
    intro heq
    exact h (heq ▸ List.take_prefix _ _)
  unfold consumeString
  rw [Cursor.within_ptr, Cursor.within_leftlen, htake, List.length_append]
  rw [if_neg (by omega), if_neg (by omega), if_pos hdiff]

/-! ## Header lines -/

/-- What the header loop does with a line, given its key and its value. A `std::string` whose
length does not fit `int32_t` is refused. -/
def storeHeader (packet : MessagePacket) (key value : List UInt8) : Except Stop MessagePacket :=
  if 2 ^ 31 ≤ key.length then .error .lengthError
  else
    match mapHeader key with
    | none => .ok packet
    | some header =>
        if 2 ^ 31 ≤ value.length then .error .lengthError
        else
          match stoi value with
          | .error error => .error (.stoi error)
          | .ok number => .ok (packet.setHeader number header)

/-- A string made from the start of a longer block of memory. -/
theorem makeString_append {text rest : List UInt8} (h : text.length < 2 ^ 32) :
    makeString (text ++ rest) (Int.bmod text.length (2 ^ 32)) =
      if 2 ^ 31 ≤ text.length then .error .lengthError else .ok text := by
  have hbmod := Int.bmod_def text.length (2 ^ 32)
  unfold makeString
  by_cases hlong : 2 ^ 31 ≤ text.length
  · have hneg : Int.bmod text.length (2 ^ 32) < 0 := by omega
    rw [if_pos hlong, if_pos hneg]
  · have hlen : Int.bmod text.length (2 ^ 32) = text.length := by omega
    rw [if_neg hlong, hlen, if_neg (by omega), if_neg (by simp)]
    simp

/-- The parser reads a key and a value from memory as `storeHeader` reads them from the line. -/
theorem readHeader_append (packet : MessagePacket) {key value : List UInt8}
    (after behind : List UInt8) (hkey : key.length < 2 ^ 32) (hvalue : value.length < 2 ^ 32) :
    readHeader packet (key ++ after) (Int.bmod key.length (2 ^ 32)) (value ++ behind)
      (Int.bmod value.length (2 ^ 32)) = storeHeader packet key value := by
  rw [readHeader, storeHeader]
  rw [makeString_append hkey, makeString_append hvalue]
  by_cases hk : 2 ^ 31 ≤ key.length
  · simp only [if_pos hk]
  cases hmap : mapHeader key with
  | none => simp only [if_neg hk, hmap]
  | some header =>
      by_cases hv : 2 ^ 31 ≤ value.length
      · simp only [if_neg hk, hmap, if_pos hv]
      cases hnumber : stoi value with
      | error error => simp only [if_neg hk, hmap, if_neg hv, hnumber]
      | ok number => simp only [if_neg hk, hmap, if_neg hv, hnumber]

/-- The bytes of a header line, its line end included. -/
def lineBytes (key value : List UInt8) : List UInt8 := addHeader [] key value

theorem addHeader_eq (buf key value : List UInt8) :
    addHeader buf key value = buf ++ lineBytes key value := by
  simp [addHeader, lineBytes]

/-- A line that `FindHeader` splits into this key and this value. -/
structure Splits (key value : List UInt8) : Prop where
  noNul : (0 : UInt8) ∉ key ++ messageHeaderSeparator ++ value
  noEnd : ¬ messageEnd <:+: key ++ messageHeaderSeparator ++ value
  noSeparator : ¬ messageHeaderSeparator <:+: key

/-- `FindHeader` on a complete line moves behind the line and finds its key and its value. -/
theorem findHeader_line {key value : List UInt8} (hline : Splits key value)
    (h : (lineBytes key value ++ left).length < 2 ^ 32) :
    ∃ keyptr keylen valueptr valuelen,
      findHeader (Cursor.within (lineBytes key value ++ left) tail) =
        .ok (.line keyptr keylen valueptr valuelen (Cursor.within left tail)) ∧
      ∀ packet, readHeader packet keyptr keylen valueptr valuelen =
        storeHeader packet key value := by
  have hlen : key.length < 2 ^ 32 ∧ value.length < 2 ^ 32 := by
    simp only [lineBytes, addHeader, List.length_append] at h
    omega
  have hmemory : lineBytes key value ++ left ++ tail =
      key ++ messageHeaderSeparator ++ (value ++ (messageEnd ++ left ++ tail)) := by
    simp [lineBytes, addHeader]
  have hline' : lineBytes key value ++ left ++ tail =
      (key ++ messageHeaderSeparator ++ value) ++ messageEnd ++ (left ++ tail) := by
    simp [lineBytes, addHeader]
  have hend : strstr messageEnd (lineBytes key value ++ left ++ tail) =
      .found (key ++ messageHeaderSeparator ++ value).length := by
    rw [hline']
    exact strstr_found _ (by decide) (by decide) hline.noNul hline.noEnd
  have hsep : strstr messageHeaderSeparator (lineBytes key value ++ left ++ tail) =
      .found key.length := by
    rw [hmemory]
    exact strstr_found _ (by decide) (by decide)
      (fun h0 => hline.noNul (by simp [h0])) hline.noSeparator
  have hmove := Cursor.consumePtr_within tail h
  have hlength : (lineBytes key value).length =
      (key ++ messageHeaderSeparator ++ value).length + messageEnd.length := by
    simp [lineBytes, addHeader]
    omega
  have hbefore : ¬ (key ++ messageHeaderSeparator ++ value).length ≤ key.length := by
    simp [messageHeaderSeparator, ascii]
  have hkey : lineBytes key value ++ left ++ tail =
      key ++ (messageHeaderSeparator ++ value ++ messageEnd ++ left ++ tail) := by
    simp [lineBytes, addHeader]
  have hvalue : (lineBytes key value ++ left ++ tail).drop
      (key.length + messageHeaderSeparator.length) = value ++ (messageEnd ++ left ++ tail) := by
    rw [hmemory, ← List.length_append, List.drop_left]
  have hvaluelen : ((key ++ messageHeaderSeparator ++ value).length : Int) -
      (key.length + messageHeaderSeparator.length) = value.length := by
    simp only [List.length_append]
    omega
  refine ⟨_, _, _, _, ?_, fun packet => readHeader_append packet
    (messageHeaderSeparator ++ value ++ messageEnd ++ left ++ tail)
    (messageEnd ++ left ++ tail) hlen.1 hlen.2⟩
  rw [findHeader, Cursor.within_ptr, hend, hsep]
  simp only [if_neg hbefore, hvalue, hvaluelen, ← hlength, hmove]
  rw [hkey]

/-- A line is not taken for the empty line. -/
theorem Splits.not_end {key value : List UInt8} (hline : Splits key value) :
    ¬ messageEnd <+: lineBytes key value ++ left := by
  intro hstart
  have hself : key ++ messageHeaderSeparator ++ value <+: lineBytes key value ++ left :=
    ⟨messageEnd ++ left, by simp [lineBytes, addHeader]⟩
  rcases List.prefix_or_prefix_of_prefix hself hstart with hshort | hlong
  · have hmem : (58 : UInt8) ∈ messageEnd :=
      hshort.subset (by simp [messageHeaderSeparator, ascii])
    exact absurd hmem (by decide)
  · exact hline.noEnd hlong.isInfix

/-- The header loop at a rest of the buffer that is not the empty line. -/
theorem readHeaders_findHeader (fuel : Nat) (packet : MessagePacket)
    (h : ¬ messageEnd <+: left) :
    readHeaders (fuel + 1) packet (Cursor.within left tail) =
      match findHeader (Cursor.within left tail) with
      | .error stop => .error stop
      | .ok .incomplete => .ok (.incomplete (Cursor.within left tail))
      | .ok .malformed => .ok (.malformed (Cursor.within left tail))
      | .ok (.line key keylen value valuelen next) =>
          match readHeader packet key keylen value valuelen with
          | .error stop => .error (stop, next)
          | .ok packet => readHeaders fuel packet next := by
  rw [readHeaders]
  rcases Nat.lt_or_ge left.length messageEnd.length with hlen | hlen
  · rewrite [consumeString_short tail hlen]
    rfl
  · rewrite [consumeString_mismatch tail hlen h]
    rfl

/-- The header loop on a complete line. -/
theorem readHeaders_line (fuel : Nat) (packet : MessagePacket) {key value : List UInt8}
    (hline : Splits key value) (h : (lineBytes key value ++ left).length < 2 ^ 32) :
    readHeaders (fuel + 1) packet (Cursor.within (lineBytes key value ++ left) tail) =
      match storeHeader packet key value with
      | .error stop => .error (stop, Cursor.within left tail)
      | .ok packet => readHeaders fuel packet (Cursor.within left tail) := by
  obtain ⟨keyptr, keylen, valueptr, valuelen, hfind, hread⟩ := findHeader_line tail hline h
  rw [readHeaders_findHeader tail fuel packet hline.not_end, hfind]
  simp only [hread]

/-- Complete header lines that take the parser from one packet to another. -/
inductive HeaderLines : MessagePacket → List UInt8 → MessagePacket → Prop where
  | nil (packet : MessagePacket) : HeaderLines packet [] packet
  | cons {packet stored last : MessagePacket} {key value rest : List UInt8}
      (hline : Splits key value) (hstore : storeHeader packet key value = .ok stored)
      (hrest : HeaderLines stored rest last) :
      HeaderLines packet (lineBytes key value ++ rest) last

/-- The header loop goes over complete lines. -/
theorem HeaderLines.advance {packet last : MessagePacket} {lines : List UInt8}
    (hlines : HeaderLines packet lines last) (h : (lines ++ left).length < 2 ^ 32) :
    ∃ n ≤ lines.length, ∀ fuel,
      readHeaders (fuel + n) packet (Cursor.within (lines ++ left) tail) =
        readHeaders fuel last (Cursor.within left tail) := by
  induction hlines with
  | nil packet => exact ⟨0, by simp, fun fuel => rfl⟩
  | @cons packet stored last key value rest hline hstore hrest ih =>
      rw [List.append_assoc] at h ⊢
      have hshort : (rest ++ left).length < 2 ^ 32 := by
        rw [List.length_append] at h
        omega
      obtain ⟨n, hn, hadvance⟩ := ih hshort
      refine ⟨n + 1, ?_, fun fuel => ?_⟩
      · have : 1 ≤ (lineBytes key value).length := by
          simp [lineBytes, addHeader, messageEnd, ascii]
          omega
        rw [List.length_append]
        omega
      · rw [← Nat.add_assoc, readHeaders_line tail _ _ hline h, hstore]
        exact hadvance fuel

/-- The header loop on a complete header block. -/
theorem HeaderLines.complete {packet last : MessagePacket} {lines : List UInt8}
    (hlines : HeaderLines packet lines last)
    (h : (lines ++ (messageEnd ++ left)).length < 2 ^ 32) {fuel : Nat}
    (hfuel : lines.length < fuel) :
    readHeaders fuel packet (Cursor.within (lines ++ (messageEnd ++ left)) tail) =
      .ok (.complete last (Cursor.within left tail)) := by
  obtain ⟨n, hn, hadvance⟩ := hlines.advance tail h
  obtain ⟨more, rfl⟩ : ∃ more, fuel = more + 1 + n := ⟨fuel - n - 1, by omega⟩
  rw [List.length_append] at h
  rw [hadvance, readHeaders, consumeString_taken tail (by omega)]

/-! ## Packets -/

/-- The start line of a packet. -/
def startLine : List UInt8 := messageBegin ++ messageEnd

/-- The bytes of a packet. -/
def packetBytes (lines body : List UInt8) : List UInt8 :=
  startLine ++ (lines ++ (messageEnd ++ body))

/-- These bytes are a complete packet that parses to this packet. -/
def PacketOf (bytes : List UInt8) (packet : MessagePacket) : Prop :=
  ∃ lines body header, HeaderLines {} lines header ∧ body.length = header.contentLength ∧
    bytes = packetBytes lines body ∧ packet = { header with messageContent := body }

/-- Bytes that are a sequence of complete packets. -/
inductive CompletePackets : List UInt8 → List MessagePacket → Prop where
  | nil : CompletePackets [] []
  | cons {lines body rest : List UInt8} {packet : MessagePacket} {packets : List MessagePacket}
      (hlines : HeaderLines {} lines packet) (hbody : body.length = packet.contentLength)
      (hrest : CompletePackets rest packets) :
      CompletePackets (packetBytes lines body ++ rest)
        ({ packet with messageContent := body } :: packets)

/-- A result with more consumed bytes and more packets. -/
def ConsumeResult.push (result : ConsumeResult) (length : Nat) (packets : List MessagePacket) :
    ConsumeResult :=
  { result with
    consumptionLength := result.consumptionLength + length
    messagePackets := result.messagePackets ++ packets }

/-- A header line does not store content. -/
theorem storeHeader_messageContent {packet stored : MessagePacket} {key value : List UInt8}
    (h : storeHeader packet key value = .ok stored) :
    stored.messageContent = packet.messageContent := by
  rw [storeHeader] at h
  split at h
  · cases h
  cases hmap : mapHeader key with
  | none =>
      rw [hmap] at h
      cases h
      rfl
  | some header =>
      simp only [hmap] at h
      split at h
      · cases h
      cases hnumber : stoi value with
      | error error =>
          rw [hnumber] at h
          cases h
      | ok number =>
          rw [hnumber] at h
          cases h
          cases header <;> rfl

/-- Header lines do not store content. -/
theorem HeaderLines.messageContent {packet last : MessagePacket} {lines : List UInt8}
    (hlines : HeaderLines packet lines last) : last.messageContent = packet.messageContent := by
  induction hlines with
  | nil packet => rfl
  | cons hline hstore hrest ih => rw [ih, storeHeader_messageContent hstore]

/-- Reading the body of a packet that is complete in the buffer. -/
theorem readContent_complete {packet : MessagePacket} {body : List UInt8}
    (hempty : packet.messageContent = []) (hbody : body.length = packet.contentLength)
    (h : (body ++ left).length < 2 ^ 32) :
    readContent packet (Cursor.within (body ++ left) tail) =
      .ok (some ({ packet with messageContent := body }, Cursor.within left tail)) := by
  have hmove := Cursor.consumePtr_within tail h
  rw [readContent, ← hbody, hmove]
  cases body with
  | nil =>
      obtain ⟨content, length, channel, index⟩ := packet
      simp only at hempty hbody
      rw [if_neg (by simp), hempty, ← hbody]
      rfl
  | cons b body => simp

/-- A body that is not complete in the buffer is left alone. -/
theorem readContent_short {packet : MessagePacket} (h : left.length < packet.contentLength) :
    readContent packet (Cursor.within left tail) = .ok none := by
  rw [readContent, Cursor.within_leftlen, if_pos (by omega), if_pos h]

/-- The rest of an iteration of the outer loop, from the end of the header loop on. `headleft` is
the count at the start of the packet. -/
def afterHeaders (fuel headleft : Nat) (result : ConsumeResult) :
    Parse Headers → Parse (ConsumeResult × Cursor)
  | .error stop => .error stop
  | .ok (.incomplete stopped) => .ok (result, stopped)
  | .ok (.malformed stopped) => .ok ({ result with result := .parseError }, stopped)
  | .ok (.complete packet content) =>
      match readContent packet content with
      | .error stop => .error stop
      | .ok none => .ok (result, content)
      | .ok (some (packet, next)) =>
          consumeLoop fuel
            { result with
              consumptionLength :=
                (result.consumptionLength + (headleft + 2 ^ 32 - next.leftlen) % 2 ^ 32) % 2 ^ 32
              messagePackets := result.messagePackets ++ [packet] } next

/-- The outer loop behind a start line. -/
theorem consumeLoop_startLine (fuel : Nat) (result : ConsumeResult)
    (h : (startLine ++ left).length < 2 ^ 32) :
    consumeLoop (fuel + 1) result (Cursor.within (startLine ++ left) tail) =
      afterHeaders fuel (startLine ++ left).length result
        (readHeaders fuel {} (Cursor.within left tail)) := by
  have hpositive : (Cursor.within (startLine ++ left) tail).leftlen ≠ 0 := by
    simp [startLine, messageBegin, ascii]
  have hbytes : startLine ++ left = messageBegin ++ (messageEnd ++ left) := by simp [startLine]
  rw [hbytes] at h
  have hrest : (messageEnd ++ left).length < 2 ^ 32 := by
    rw [List.length_append] at h
    omega
  have hbegin := consumeString_taken tail h
  have hend := consumeString_taken tail hrest
  rw [← hbytes] at hbegin
  rw [consumeLoop, if_neg hpositive, hbegin]
  simp only [hend, Cursor.within_leftlen]
  cases hheaders : readHeaders fuel {} (Cursor.within left tail) with
  | error stop => rfl
  | ok headers => cases headers <;> rfl

/-- The outer loop on a complete packet. -/
theorem consumeLoop_packet {fuel : Nat} {result : ConsumeResult} {lines body : List UInt8}
    {packet : MessagePacket} (hlines : HeaderLines {} lines packet)
    (hbody : body.length = packet.contentLength)
    (h : result.consumptionLength + (packetBytes lines body ++ left).length < 2 ^ 32)
    (hfuel : lines.length < fuel) :
    consumeLoop (fuel + 1) result (Cursor.within (packetBytes lines body ++ left) tail) =
      consumeLoop fuel
        (result.push (packetBytes lines body).length [{ packet with messageContent := body }])
        (Cursor.within left tail) := by
  have hbytes : packetBytes lines body ++ left =
      startLine ++ (lines ++ (messageEnd ++ (body ++ left))) := by
    simp [packetBytes]
  have hlength : (packetBytes lines body ++ left).length =
      (packetBytes lines body).length + left.length := List.length_append
  have hcount : (result.consumptionLength + ((packetBytes lines body ++ left).length + 2 ^ 32 -
      left.length) % 2 ^ 32) % 2 ^ 32 =
      result.consumptionLength + (packetBytes lines body).length := by
    omega
  have hbound : (startLine ++ (lines ++ (messageEnd ++ (body ++ left)))).length < 2 ^ 32 := by
    rw [← hbytes]
    omega
  have hheaders : (lines ++ (messageEnd ++ (body ++ left))).length < 2 ^ 32 := by
    rw [List.length_append] at hbound
    omega
  have hcontent : (body ++ left).length < 2 ^ 32 := by
    rw [List.length_append, List.length_append] at hheaders
    omega
  rw [hbytes, consumeLoop_startLine tail fuel result hbound, ← hbytes,
    hlines.complete tail hheaders hfuel]
  simp only [afterHeaders, readContent_complete tail hlines.messageContent hbody hcontent,
    Cursor.within_leftlen, hcount]
  rfl

/-- The outer loop goes over complete packets. -/
theorem CompletePackets.advance {bytes : List UInt8} {packets : List MessagePacket}
    (hpackets : CompletePackets bytes packets) {result : ConsumeResult} {fuel : Nat}
    (h : result.consumptionLength + (bytes ++ left).length < 2 ^ 32)
    (hfuel : (bytes ++ left).length < fuel) :
    ∃ more, left.length < more ∧
      consumeLoop fuel result (Cursor.within (bytes ++ left) tail) =
        consumeLoop more (result.push bytes.length packets) (Cursor.within left tail) := by
  induction hpackets generalizing result fuel with
  | nil => exact ⟨fuel, hfuel, by simp [ConsumeResult.push]⟩
  | @cons lines body rest packet packets hlines hbody hrest ih =>
      obtain ⟨next, rfl⟩ : ∃ next, fuel = next + 1 := ⟨fuel - 1, by omega⟩
      rw [List.append_assoc] at h hfuel ⊢
      have hlength : (packetBytes lines body ++ (rest ++ left)).length =
          (packetBytes lines body).length + (rest ++ left).length := List.length_append
      have hlines' : lines.length < (packetBytes lines body).length := by
        simp only [packetBytes, startLine, messageBegin, ascii, List.length_append,
          List.length_map, List.length_cons]
        omega
      rw [consumeLoop_packet tail hlines hbody h (by omega)]
      have hnext : (result.push (packetBytes lines body).length
          [{ packet with messageContent := body }]).consumptionLength +
            (rest ++ left).length < 2 ^ 32 := by
        simp only [ConsumeResult.push]
        omega
      have hfuel' : (rest ++ left).length < next := by omega
      obtain ⟨more, hmore, hloop⟩ := ih hnext hfuel'
      refine ⟨more, hmore, hloop.trans ?_⟩
      simp [ConsumeResult.push, Nat.add_assoc]

end Utilpp.Message

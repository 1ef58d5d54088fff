import Utilpp.Message.Grammar

/-!
# Which buffers are parsed inside their bounds

`FindHeader` looks for the end of a header line with `strstr`, which does not know `len`. A
buffer `Escapes` when its complete packets and header lines are followed by a rest in which
that search finds nothing to stop at. `bounded_iff_not_escapes` says that these are exactly
the buffers on which the result of `TryConsume` depends on the memory behind them.
-/

namespace Utilpp.Message

open Lib

/-! ## Where the header search stops -/

/-- A rest of the buffer, not the empty line, that lacks a NUL and lacks a line end or a
separator. -/
structure OpenLine (left : List UInt8) : Prop where
  notEnd : ¬ messageEnd <+: left
  noNul : (0 : UInt8) ∉ left
  noLine : ¬ messageEnd <:+: left ∨ ¬ messageHeaderSeparator <:+: left

variable {left : List UInt8}

/-- With nothing mapped behind the buffer, the search of an open line reads unmapped memory. -/
theorem OpenLine.findHeader_nil (h : OpenLine left) :
    findHeader (Cursor.within left []) = .error (.badRead, Cursor.within left []) := by
  have hptr : (Cursor.within left []).ptr = left := by simp
  rw [findHeader, hptr]
  cases hend : strstr messageEnd left with
  | unmapped => rfl
  | absent => exact absurd (zero_mem_of_strstr_absent hend) h.noNul
  | found n =>
      have hin : messageEnd <:+: left := by
        obtain ⟨line, rest, hsplit, -⟩ := strstr_split (by decide) hend
        exact ⟨line, rest, hsplit.symm⟩
      have hsep : strstr messageHeaderSeparator left = .unmapped :=
        (strstr_eq_unmapped (by decide)).mpr
          ⟨h.noNul, h.noLine.resolve_left (fun hno => hno hin)⟩
      rw [hsep]

/-- With a NUL behind the buffer, the search of an open line ends there. -/
theorem OpenLine.findHeader_zero (h : OpenLine left) (rest : List UInt8) :
    findHeader (Cursor.within left (0 :: rest)) = .ok .incomplete ∨
      findHeader (Cursor.within left (0 :: rest)) = .ok .malformed := by
  rw [findHeader, Cursor.within_ptr]
  by_cases hin : messageEnd <:+: left
  · have hsep : strstr messageHeaderSeparator (left ++ 0 :: rest) = .absent :=
      strstr_absent rest (by decide) ((strstr_eq_unmapped (by decide)).mpr
        ⟨h.noNul, h.noLine.resolve_left (fun hno => hno hin)⟩)
    rw [hsep]
    cases hend : strstr messageEnd (left ++ 0 :: rest) with
    | unmapped =>
        exact absurd ((strstr_eq_unmapped (by decide)).mp hend).1 (by simp)
    | absent => exact .inl rfl
    | found n => exact .inr rfl
  · have hend : strstr messageEnd (left ++ 0 :: rest) = .absent :=
      strstr_absent rest (by decide) ((strstr_eq_unmapped (by decide)).mpr ⟨h.noNul, hin⟩)
    rw [hend]
    exact .inl rfl

/-- A rest of the buffer at which the header loop stops inside the buffer, in one of four ways:
at the empty line, at a line that is not complete, at a line without separator, or at a line
whose value cannot be stored. -/
inductive HeadersStop (packet : MessagePacket) : List UInt8 → Prop where
  | complete (left : List UInt8) : HeadersStop packet (messageEnd ++ left)
  | incomplete {left : List UInt8} (hend : ¬ messageEnd <+: left)
      (hfind : ∀ tail, findHeader (Cursor.within left tail) = .ok .incomplete) :
      HeadersStop packet left
  | malformed {left : List UInt8} (hend : ¬ messageEnd <+: left)
      (hfind : ∀ tail, findHeader (Cursor.within left tail) = .ok .malformed) :
      HeadersStop packet left
  | throws {key value left : List UInt8} {stop : Stop} (hline : Splits key value)
      (hstore : storeHeader packet key value = .error stop) :
      HeadersStop packet (lineBytes key value ++ left)

/-- A rest of the buffer that is neither the empty line nor an open line either stops
`FindHeader` or starts with a complete line. -/
theorem findHeader_cases (hend : ¬ messageEnd <+: left) (hopen : ¬ OpenLine left) :
    (∀ tail, findHeader (Cursor.within left tail) = .ok .incomplete) ∨
      (∀ tail, findHeader (Cursor.within left tail) = .ok .malformed) ∨
      ∃ key value rest, left = lineBytes key value ++ rest ∧ Splits key value := by
  have hlines : strstr messageEnd left ≠ .unmapped := by
    intro hno
    obtain ⟨hzero, hin⟩ := (strstr_eq_unmapped (by decide)).mp hno
    exact hopen ⟨hend, hzero, .inl hin⟩
  have hseps : strstr messageHeaderSeparator left ≠ .unmapped := by
    intro hno
    obtain ⟨hzero, hin⟩ := (strstr_eq_unmapped (by decide)).mp hno
    exact hopen ⟨hend, hzero, .inr hin⟩
  have hend' := strstr_append (by decide) hlines
  have hsep' := strstr_append (by decide) hseps
  simp only [findHeader, Cursor.within_ptr, hend', hsep']
  cases hfound : strstr messageEnd left with
  | unmapped => exact absurd hfound hlines
  | absent => exact .inl fun tail => rfl
  | found n =>
      right
      cases hsep : strstr messageHeaderSeparator left with
      | unmapped => exact absurd hsep hseps
      | absent => exact .inl fun tail => rfl
      | found k =>
          by_cases hle : n ≤ k
          · exact .inl fun tail => by simp only [if_pos hle]
          · right
            obtain ⟨line, rest, hline, hn, hzero, hno⟩ := strstr_split (by decide) hfound
            obtain ⟨key, behind, hkey, hk, -, hnosep⟩ := strstr_split (by decide) hsep
            -- The separator comes before the line end, so the key is a part of the line.
            have hpre : key ++ messageHeaderSeparator <+: line := by
              refine List.prefix_of_prefix_length_le ⟨behind, hkey.symm⟩
                ⟨messageEnd ++ rest, by simp [hline]⟩ ?_
              simp [messageHeaderSeparator, ascii]
              omega
            obtain ⟨value, rfl⟩ := hpre
            exact ⟨key, value, rest, by simp [hline, lineBytes, addHeader], hzero, hno, hnosep⟩

/-- Every rest of the buffer is complete header lines followed by a place where the header loop
stops, inside the buffer or at an open line. -/
theorem exists_headerLines (packet : MessagePacket) (left : List UInt8) :
    ∃ lines last rest, left = lines ++ rest ∧ HeaderLines packet lines last ∧
      (HeadersStop last rest ∨ OpenLine rest) := by
  induction hlen : left.length using Nat.strong_induction_on generalizing left packet with
  | _ n ih =>
      by_cases hopen : OpenLine left
      · exact ⟨[], packet, left, rfl, .nil packet, .inr hopen⟩
      by_cases hend : messageEnd <+: left
      · obtain ⟨rest, rfl⟩ := hend
        exact ⟨[], packet, _, rfl, .nil packet, .inl (.complete rest)⟩
      rcases findHeader_cases hend hopen with hfind | hfind | ⟨key, value, rest, rfl, hline⟩
      · exact ⟨[], packet, left, rfl, .nil packet, .inl (.incomplete hend hfind)⟩
      · exact ⟨[], packet, left, rfl, .nil packet, .inl (.malformed hend hfind)⟩
      · cases hstore : storeHeader packet key value with
        | error stop => exact ⟨[], packet, _, rfl, .nil packet, .inl (.throws hline hstore)⟩
        | ok stored =>
            have hshort : rest.length < n := by
              simp [← hlen, lineBytes, addHeader, messageEnd, ascii]
              omega
            obtain ⟨lines, last, final, rfl, hlines, hstop⟩ := ih _ hshort stored rest rfl
            exact ⟨lineBytes key value ++ lines, last, final, by simp, .cons hline hstore hlines,
              hstop⟩

/-! ## Where the outer loop stops -/

/-- A value that cannot be stored throws. -/
theorem storeHeader_error {packet : MessagePacket} {key value : List UInt8} {stop : Stop}
    (h : storeHeader packet key value = .error stop) :
    stop = .lengthError ∨ ∃ error, stop = .stoi error := by
  rw [storeHeader] at h
  split at h
  · cases h
    exact .inl rfl
  cases hmap : mapHeader key with
  | none =>
      rw [hmap] at h
      cases h
  | some header =>
      simp only [hmap] at h
      split at h
      · cases h
        exact .inl rfl
      cases hnumber : stoi value with
      | error error =>
          rw [hnumber] at h
          cases h
          exact .inr ⟨error, rfl⟩
      | ok number =>
          rw [hnumber] at h
          cases h

/-- A rest of the buffer at which the outer loop returns, with the same error code and at the
same place whatever memory follows. -/
def Returns (left : List UInt8) : Prop :=
  ∃ error stopped, ∀ (fuel : Nat) (result : ConsumeResult) (tail : List UInt8),
    result.result = .ok → left.length < fuel →
      consumeLoop fuel result (Cursor.within left tail) =
        .ok ({ result with result := error }, Cursor.within stopped tail)

/-- A rest of the buffer at which the outer loop throws, whatever memory follows. -/
def Throws (left : List UInt8) : Prop :=
  ∃ stop stopped, stop ≠ .badRead ∧ stop ≠ .diverge ∧
    ∀ (fuel : Nat) (result : ConsumeResult) (tail : List UInt8), left.length < fuel →
      consumeLoop fuel result (Cursor.within left tail) = .error (stop, Cursor.within stopped tail)

/-- A rest of the buffer that starts a packet with a header line whose value is not stored. -/
def Rejects (left : List UInt8) : Prop :=
  ∃ lines packet key value behind stop,
    left = startLine ++ (lines ++ (lineBytes key value ++ behind)) ∧
      HeaderLines {} lines packet ∧ Splits key value ∧ storeHeader packet key value = .error stop

/-- A rest of the buffer that starts a packet whose header lines run into an open line. -/
def Opens (left : List UInt8) : Prop :=
  ∃ lines packet rest, left = startLine ++ (lines ++ rest) ∧ HeaderLines {} lines packet ∧
    OpenLine rest

theorem ConsumeResult.with_ok {result : ConsumeResult} (h : result.result = .ok) :
    { result with result := .ok } = result := by
  rw [← h]

/-- The outer loop at a rest of the buffer that does not start with a start line. -/
theorem returns_of_not_startLine (hlen : left.length < 2 ^ 32) (h : ¬ startLine <+: left) :
    Returns left := by
  by_cases hempty : left = []
  · subst hempty
    refine ⟨.ok, [], fun fuel result tail hok hfuel => ?_⟩
    obtain ⟨more, rfl⟩ := Nat.exists_eq_add_of_lt hfuel
    rw [consumeLoop, if_pos (by simp), ConsumeResult.with_ok hok]
  have hpositive : ∀ tail, (Cursor.within left tail).leftlen ≠ 0 := by
    intro tail
    simpa using hempty
  by_cases hbegin : messageBegin <+: left
  · obtain ⟨rest, rfl⟩ := hbegin
    have hend : ¬ messageEnd <+: rest := by
      rintro ⟨behind, rfl⟩
      exact h ⟨behind, by simp [startLine]⟩
    rcases Nat.lt_or_ge rest.length messageEnd.length with hshort | hlong
    · refine ⟨.ok, rest, fun fuel result tail hok hfuel => ?_⟩
      obtain ⟨more, rfl⟩ := Nat.exists_eq_add_of_lt hfuel
      rw [consumeLoop, if_neg (hpositive tail), consumeString_taken tail hlen]
      simp only [consumeString_short tail hshort, ConsumeResult.with_ok hok]
    · refine ⟨.parseError, rest, fun fuel result tail hok hfuel => ?_⟩
      obtain ⟨more, rfl⟩ := Nat.exists_eq_add_of_lt hfuel
      rw [consumeLoop, if_neg (hpositive tail), consumeString_taken tail hlen]
      simp only [consumeString_mismatch tail hlong hend]
  · rcases Nat.lt_or_ge left.length messageBegin.length with hshort | hlong
    · refine ⟨.ok, left, fun fuel result tail hok hfuel => ?_⟩
      obtain ⟨more, rfl⟩ := Nat.exists_eq_add_of_lt hfuel
      rw [consumeLoop, if_neg (hpositive tail), consumeString_short tail hshort]
      simp only [ConsumeResult.with_ok hok]
    · refine ⟨.parseError, left, fun fuel result tail hok hfuel => ?_⟩
      obtain ⟨more, rfl⟩ := Nat.exists_eq_add_of_lt hfuel
      rw [consumeLoop, if_neg (hpositive tail), consumeString_mismatch tail hlong hbegin]

/-- The outer loop behind a start line and complete header lines. -/
theorem HeaderLines.consumeLoop {lines rest : List UInt8} {packet : MessagePacket}
    (hlines : HeaderLines {} lines packet)
    (hlen : (startLine ++ (lines ++ rest)).length < 2 ^ 32) {fuel : Nat}
    (hfuel : (startLine ++ (lines ++ rest)).length < fuel) (result : ConsumeResult)
    (tail : List UInt8) :
    ∃ more left, consumeLoop fuel result (Cursor.within (startLine ++ (lines ++ rest)) tail) =
      afterHeaders more (startLine ++ (lines ++ rest)).length result
        (readHeaders (left + 1) packet (Cursor.within rest tail)) := by
  have hheaders : (lines ++ rest).length < 2 ^ 32 := by
    rw [List.length_append] at hlen
    omega
  have hstart : 1 ≤ startLine.length := by decide
  obtain ⟨n, hn, hrun⟩ := hlines.advance tail hheaders
  have hsplit : (startLine ++ (lines ++ rest)).length =
      startLine.length + (lines.length + rest.length) := by
    simp only [List.length_append]
  obtain ⟨left, rfl⟩ : ∃ left, fuel = left + 1 + n + 1 := ⟨fuel - n - 2, by omega⟩
  refine ⟨left + 1 + n, left, ?_⟩
  rw [consumeLoop_startLine tail _ result hlen, hrun]

/-- The outer loop throws at a header line that is not stored. -/
theorem Rejects.consumeLoop (hlen : left.length < 2 ^ 32) (h : Rejects left) :
    ∃ stop stopped, (stop = .lengthError ∨ ∃ error, stop = .stoi error) ∧
      ∀ (fuel : Nat) (result : ConsumeResult) (tail : List UInt8), left.length < fuel →
        consumeLoop fuel result (Cursor.within left tail) =
          .error (stop, Cursor.within stopped tail) := by
  obtain ⟨lines, packet, key, value, behind, stop, rfl, hlines, hline, hstore⟩ := h
  have hrest : (lineBytes key value ++ behind).length < 2 ^ 32 := by
    rw [List.length_append, List.length_append] at hlen
    omega
  refine ⟨stop, behind, storeHeader_error hstore, fun fuel result tail hfuel => ?_⟩
  obtain ⟨more, left, hrun⟩ := hlines.consumeLoop hlen hfuel result tail
  rw [hrun, readHeaders_line tail left packet hline hrest, hstore]
  rfl

theorem Rejects.throws (hlen : left.length < 2 ^ 32) (h : Rejects left) : Throws left := by
  obtain ⟨stop, stopped, rfl | ⟨error, rfl⟩, hrun⟩ := h.consumeLoop hlen
  · exact ⟨_, stopped, by simp, by simp, hrun⟩
  · exact ⟨_, stopped, by simp, by simp, hrun⟩

/-- The outer loop behind a start line whose headers stop inside the buffer: it returns, refuses
a line, or finds a complete packet. -/
theorem headersStop_cases {lines rest : List UInt8} {packet : MessagePacket}
    (hlen : (startLine ++ (lines ++ rest)).length < 2 ^ 32) (hlines : HeaderLines {} lines packet)
    (hstop : HeadersStop packet rest) :
    Returns (startLine ++ (lines ++ rest)) ∨ Rejects (startLine ++ (lines ++ rest)) ∨
      ∃ body behind, rest = messageEnd ++ (body ++ behind) ∧
        body.length = packet.contentLength := by
  have hrest : rest.length < 2 ^ 32 := by
    simp only [List.length_append] at hlen
    omega
  cases hstop with
  | complete behind =>
      by_cases hbody : packet.contentLength ≤ behind.length
      · refine .inr (.inr ⟨behind.take packet.contentLength, behind.drop packet.contentLength,
          by rw [List.take_append_drop], by simpa using hbody⟩)
      · refine .inl ⟨.ok, behind, fun fuel result tail hok hfuel => ?_⟩
        obtain ⟨more, left, hrun⟩ := hlines.consumeLoop hlen hfuel result tail
        rw [hrun, readHeaders, consumeString_taken tail hrest]
        simp only [afterHeaders, readContent_short tail (Nat.lt_of_not_le hbody),
          ConsumeResult.with_ok hok]
  | incomplete hend hfind =>
      refine .inl ⟨.ok, rest, fun fuel result tail hok hfuel => ?_⟩
      obtain ⟨more, left, hrun⟩ := hlines.consumeLoop hlen hfuel result tail
      rw [hrun, readHeaders_findHeader tail left packet hend, hfind]
      simp only [afterHeaders, ConsumeResult.with_ok hok]
  | malformed hend hfind =>
      refine .inl ⟨.parseError, rest, fun fuel result tail hok hfuel => ?_⟩
      obtain ⟨more, left, hrun⟩ := hlines.consumeLoop hlen hfuel result tail
      rw [hrun, readHeaders_findHeader tail left packet hend, hfind]
      rfl
  | @throws key value behind stop hline hstore =>
      exact .inr (.inl ⟨lines, packet, key, value, behind, stop, rfl, hlines, hline, hstore⟩)

/-- Every buffer is complete packets followed by a place where the outer loop stops, inside the
buffer or at an open line. -/
theorem exists_completePackets (left : List UInt8) (hlen : left.length < 2 ^ 32) :
    ∃ bytes packets rest, left = bytes ++ rest ∧ CompletePackets bytes packets ∧
      (Returns rest ∨ Rejects rest ∨ Opens rest) := by
  induction hn : left.length using Nat.strong_induction_on generalizing left with
  | _ n ih =>
      by_cases hstart : startLine <+: left
      · obtain ⟨headers, rfl⟩ := hstart
        obtain ⟨lines, packet, rest, rfl, hlines, hstop | hopen⟩ := exists_headerLines {} headers
        · rcases headersStop_cases hlen hlines hstop with
            hreturns | hrejects | ⟨body, behind, rfl, hbody⟩
          · exact ⟨[], [], _, rfl, .nil, .inl hreturns⟩
          · exact ⟨[], [], _, rfl, .nil, .inr (.inl hrejects)⟩
          · have hbytes : startLine ++ (lines ++ (messageEnd ++ (body ++ behind))) =
                packetBytes lines body ++ behind := by
              simp [packetBytes]
            have hshort : behind.length < n := by
              rw [← hn, hbytes]
              simp [packetBytes, startLine, messageBegin, ascii]
              omega
            obtain ⟨bytes, packets, final, rfl, hpackets, hfinal⟩ :=
              ih _ hshort behind (by omega) rfl
            exact ⟨packetBytes lines body ++ bytes, _, final, by rw [hbytes, List.append_assoc],
              .cons hlines hbody hpackets, hfinal⟩
        · exact ⟨[], [], _, rfl, .nil, .inr (.inr ⟨lines, packet, rest, rfl, hlines, hopen⟩)⟩
      · exact ⟨[], [], left, rfl, .nil, .inl (returns_of_not_startLine hlen hstart)⟩

/-! ## Bounded parsing -/

/-- A buffer whose complete packets are followed by a packet that runs into an open line. -/
def Escapes (data : List UInt8) : Prop :=
  ∃ bytes packets rest, data = bytes ++ rest ∧ CompletePackets bytes packets ∧ Opens rest

/-- `TryConsume(data, len)` keeps to the `len` bytes of `data`: its result does not depend on
the memory behind them, it consumes at most `len` bytes, `leftlen` does not wrap, and the content
of every packet is a part of `data`. -/
structure Bounded (data : List UInt8) : Prop where
  same : ∀ tail tail', tryConsume (data ++ tail) data.length =
    tryConsume (data ++ tail') data.length
  noWrap : ∀ tail, leftlenWraps (data ++ tail) data.length = false
  inside : ∀ tail result, tryConsume (data ++ tail) data.length = .ok result →
    result.consumptionLength ≤ data.length ∧
      ∀ packet ∈ result.messagePackets,
        packet.messageContent <:+: data ∧ packet.messageContent.length = packet.contentLength

variable {data : List UInt8}

theorem consume_eq (tail : List UInt8) :
    consume (data ++ tail) data.length = consumeLoop loopBound {} (Cursor.within data tail) := rfl

/-- The parser takes the complete packets in front of a rest of the buffer. -/
theorem CompletePackets.consume {bytes rest : List UInt8} {packets : List MessagePacket}
    (hpackets : CompletePackets bytes packets) (hlen : (bytes ++ rest).length < 2 ^ 32)
    (tail : List UInt8) : ∃ more, rest.length < more ∧
      consume (bytes ++ rest ++ tail) (bytes ++ rest).length =
        consumeLoop more (ConsumeResult.push {} bytes.length packets)
          (Cursor.within rest tail) := by
  have hfuel : (bytes ++ rest).length < loopBound := Nat.lt_trans hlen (by decide)
  exact hpackets.advance tail (by simpa using hlen) hfuel

/-- `TryConsume` on complete packets takes them all. -/
theorem CompletePackets.tryConsume {bytes : List UInt8} {packets : List MessagePacket}
    (hpackets : CompletePackets bytes packets) (hlen : bytes.length < 2 ^ 32)
    (tail : List UInt8) :
    tryConsume (bytes ++ tail) bytes.length =
      .ok { consumptionLength := bytes.length, messagePackets := packets } := by
  have hnil : (bytes ++ []).length < 2 ^ 32 := by simpa using hlen
  obtain ⟨more, hmore, hrun⟩ := hpackets.consume hnil tail
  obtain ⟨next, rfl⟩ := Nat.exists_eq_add_of_lt hmore
  rw [List.append_nil] at hrun
  rw [Message.tryConsume, hrun, consumeLoop, if_pos (by simp)]
  simp [ConsumeResult.push]

/-- The content of a complete packet is a part of its bytes. -/
theorem CompletePackets.content {bytes : List UInt8} {packets : List MessagePacket}
    (hpackets : CompletePackets bytes packets) : ∀ packet ∈ packets,
      packet.messageContent <:+: bytes ∧
        packet.messageContent.length = packet.contentLength := by
  induction hpackets with
  | nil => simp
  | @cons lines body rest packet packets hlines hbody hrest ih =>
      intro found hfound
      rcases List.mem_cons.mp hfound with rfl | htail
      · refine ⟨⟨startLine ++ (lines ++ messageEnd), rest, ?_⟩, hbody⟩
        simp [packetBytes]
      · obtain ⟨hin, hlen⟩ := ih found htail
        exact ⟨hin.trans (List.suffix_append _ rest).isInfix, hlen⟩

/-- What `TryConsume` does on a buffer that does not escape: the same for every memory behind
the buffer, at a cursor inside it, and without a wild read or an endless loop. -/
theorem consume_of_not_escapes (hlen : data.length < 2 ^ 32) (h : ¬ Escapes data) :
    (∃ result stopped, (∀ tail, consume (data ++ tail) data.length =
        .ok (result, Cursor.within stopped tail)) ∧
      result.consumptionLength ≤ data.length ∧
      ∀ packet ∈ result.messagePackets, packet.messageContent <:+: data ∧
        packet.messageContent.length = packet.contentLength) ∨
    ∃ stop stopped, stop ≠ .badRead ∧ stop ≠ .diverge ∧
      ∀ tail, consume (data ++ tail) data.length = .error (stop, Cursor.within stopped tail) := by
  obtain ⟨bytes, packets, rest, rfl, hpackets, hstop⟩ := exists_completePackets data hlen
  rcases hstop with ⟨error, stopped, hreturns⟩ | hrejects | hopens
  · left
    refine ⟨{ ConsumeResult.push {} bytes.length packets with result := error }, stopped,
      fun tail => ?_, by simp [ConsumeResult.push], ?_⟩
    · obtain ⟨more, hmore, hconsume⟩ := hpackets.consume hlen tail
      rw [hconsume, hreturns more _ tail rfl hmore]
    · intro packet hpacket
      obtain ⟨hin, hlength⟩ := hpackets.content packet (by simpa [ConsumeResult.push] using hpacket)
      exact ⟨hin.trans (List.prefix_append bytes rest).isInfix, hlength⟩
  · right
    have hrest : rest.length < 2 ^ 32 := by
      rw [List.length_append] at hlen
      omega
    obtain ⟨stop, stopped, hread, hdiverge, hthrows⟩ := hrejects.throws hrest
    refine ⟨stop, stopped, hread, hdiverge, fun tail => ?_⟩
    obtain ⟨more, hmore, hconsume⟩ := hpackets.consume hlen tail
    rw [hconsume, hthrows more _ tail hmore]
  · exact absurd ⟨bytes, packets, rest, rfl, hpackets, hopens⟩ h

/-- The parser uses no index. -/
theorem tryConsume_ne_badIndex (hlen : data.length < 2 ^ 32) (h : ¬ Escapes data)
    (tail : List UInt8) : tryConsume (data ++ tail) data.length ≠ .error .badIndex := by
  obtain ⟨bytes, packets, rest, rfl, hpackets, hstop⟩ := exists_completePackets data hlen
  obtain ⟨more, hmore, hconsume⟩ := hpackets.consume hlen tail
  have hrest : rest.length < 2 ^ 32 := by
    rw [List.length_append] at hlen
    omega
  rw [tryConsume, hconsume]
  rcases hstop with ⟨error, stopped, hreturns⟩ | hrejects | hopens
  · rw [hreturns more _ tail rfl hmore]
    simp
  · obtain ⟨stop, stopped, hstop, hthrows⟩ := hrejects.consumeLoop hrest
    rw [hthrows more _ tail hmore]
    rcases hstop with rfl | ⟨error, rfl⟩
    · simp
    · simp
  · exact absurd ⟨bytes, packets, rest, rfl, hpackets, hopens⟩ h

/-- A result that the parser returns on a buffer that does not escape holds the complete packets
at the front of the buffer. -/
theorem exists_packets_of_ok (hlen : data.length < 2 ^ 32) (h : ¬ Escapes data)
    {tail : List UInt8} {result : ConsumeResult}
    (hok : tryConsume (data ++ tail) data.length = .ok result) :
    ∃ bytes rest, data = bytes ++ rest ∧ CompletePackets bytes result.messagePackets ∧
      result.consumptionLength = bytes.length := by
  obtain ⟨bytes, packets, rest, rfl, hpackets, hstop⟩ := exists_completePackets data hlen
  obtain ⟨more, hmore, hconsume⟩ := hpackets.consume hlen tail
  have hbytes : bytes.length < 2 ^ 32 := by
    rw [List.length_append] at hlen
    omega
  rcases hstop with ⟨error, stopped, hreturns⟩ | hrejects | hopens
  · rw [tryConsume, hconsume, hreturns more _ tail rfl hmore] at hok
    cases hok
    exact ⟨bytes, rest, rfl, by simpa [ConsumeResult.push] using hpackets,
      by simp [ConsumeResult.push]⟩
  · have hrest : rest.length < 2 ^ 32 := by
      rw [List.length_append] at hlen
      omega
    obtain ⟨stop, stopped, -, -, hthrows⟩ := hrejects.throws hrest
    rw [tryConsume, hconsume, hthrows more _ tail hmore] at hok
    cases hok
  · exact absurd ⟨bytes, packets, rest, rfl, hpackets, hopens⟩ h

/-- An escaping buffer is parsed differently with unmapped memory and with a NUL behind it. -/
theorem tryConsume_of_escapes (hlen : data.length < 2 ^ 32) (h : Escapes data) :
    tryConsume (data ++ []) data.length = .error .badRead ∧
      ∀ behind, ∃ result, tryConsume (data ++ 0 :: behind) data.length = .ok result := by
  obtain ⟨bytes, packets, _, rfl, hpackets, lines, packet, rest, rfl, hlines, hopen⟩ := h
  have hlen' : (startLine ++ (lines ++ rest)).length < 2 ^ 32 := by
    rw [List.length_append] at hlen
    omega
  -- Whatever follows the buffer, the parser arrives at the open line.
  have harrive : ∀ tail, ∃ more left result,
      consume (bytes ++ (startLine ++ (lines ++ rest)) ++ tail)
          (bytes ++ (startLine ++ (lines ++ rest))).length =
        afterHeaders more (startLine ++ (lines ++ rest)).length result
          (readHeaders (left + 1) packet (Cursor.within rest tail)) := by
    intro tail
    obtain ⟨more, hmore, hconsume⟩ := hpackets.consume hlen tail
    obtain ⟨final, left, hrun⟩ := hlines.consumeLoop hlen' hmore
      (ConsumeResult.push {} bytes.length packets) tail
    exact ⟨final, left, _, hconsume.trans hrun⟩
  constructor
  · obtain ⟨more, left, result, hrun⟩ := harrive []
    rw [tryConsume, hrun, readHeaders_findHeader [] left packet hopen.notEnd,
      hopen.findHeader_nil]
    rfl
  · intro behind
    obtain ⟨more, left, result, hrun⟩ := harrive (0 :: behind)
    rw [tryConsume, hrun, readHeaders_findHeader (0 :: behind) left packet hopen.notEnd]
    rcases hopen.findHeader_zero behind with hfind | hfind
    · rw [hfind]
      exact ⟨_, rfl⟩
    · rw [hfind]
      exact ⟨_, rfl⟩

/-- `TryConsume` keeps to its buffer exactly when the buffer does not escape, and then it returns
or throws without a wild read. -/
theorem bounded_iff_not_escapes (hlen : data.length < 2 ^ 32) :
    (Bounded data ↔ ¬ Escapes data) ∧
      (¬ Escapes data → ∀ tail, tryConsume (data ++ tail) data.length ≠ .error .badRead ∧
        tryConsume (data ++ tail) data.length ≠ .error .diverge) := by
  refine ⟨⟨fun hbounded hescapes => ?_, fun h => ?_⟩, fun h => ?_⟩
  · obtain ⟨hbad, hreturns⟩ := tryConsume_of_escapes hlen hescapes
    obtain ⟨result, hok⟩ := hreturns []
    have hsame := hbounded.same [] [0]
    rw [hbad, hok] at hsame
    cases hsame
  · rcases consume_of_not_escapes hlen h with
      ⟨result, stopped, hrun, hlength, hinside⟩ | ⟨stop, stopped, hread, hdiverge, hrun⟩
    · refine ⟨fun tail tail' => ?_, fun tail => ?_, fun tail found hfound => ?_⟩
      · rw [tryConsume, tryConsume, hrun, hrun]
      · rw [leftlenWraps, hrun]
        rfl
      · rw [tryConsume, hrun] at hfound
        cases hfound
        exact ⟨hlength, hinside⟩
    · refine ⟨fun tail tail' => ?_, fun tail => ?_, fun tail found hfound => ?_⟩
      · rw [tryConsume, tryConsume, hrun, hrun]
      · rw [leftlenWraps, hrun]
        rfl
      · rw [tryConsume, hrun] at hfound
        cases hfound
  · rcases consume_of_not_escapes hlen h with
      ⟨result, stopped, hrun, hlength, hinside⟩ | ⟨stop, stopped, hread, hdiverge, hrun⟩
    · intro tail
      rw [tryConsume, hrun]
      exact ⟨by simp, by simp⟩
    · intro tail
      rw [tryConsume, hrun]
      exact ⟨by simpa using hread, by simpa using hdiverge⟩

/-- A packet for channel 0 with index 0, cut off before the end of its header line. -/
def indexLine : List UInt8 :=
  messageBegin ++ messageEnd ++ messageHeaderIndex ++ messageHeaderSeparator ++ decimal 0

/-- The line ends of the memory behind the buffer complete the packet: it is returned with more
bytes consumed than the buffer has, after the count has wrapped. -/
theorem index_line_not_bounded :
    tryConsume (indexLine ++ [0]) indexLine.length = .ok {} ∧
      tryConsume (indexLine ++ (messageEnd ++ messageEnd ++ startLine ++ [0, 0])) indexLine.length =
        .ok { result := .ok, consumptionLength := 17, messagePackets := [{}] } ∧
      leftlenWraps (indexLine ++ (messageEnd ++ messageEnd ++ startLine ++ [0, 0])) indexLine.length ∧
      indexLine.length = 13 ∧ ¬ Bounded indexLine := by
  have hzero : tryConsume (indexLine ++ [0]) indexLine.length = .ok {} := rfl
  have hpacket : tryConsume (indexLine ++ (messageEnd ++ messageEnd ++ startLine ++ [0, 0]))
      indexLine.length =
        .ok { result := .ok, consumptionLength := 17, messagePackets := [{}] } := rfl
  refine ⟨hzero, hpacket, rfl, rfl, fun hbounded => ?_⟩
  have hsame := hbounded.same [0] (messageEnd ++ messageEnd ++ startLine ++ [0, 0])
  rw [hzero, hpacket] at hsame
  cases hsame

/-- The complete packet is parsed inside its bounds. -/
theorem index_packet_bounded : Bounded (indexLine ++ messageEnd ++ messageEnd) := by
  have hlen : (indexLine ++ messageEnd ++ messageEnd).length < 2 ^ 32 := by decide
  refine (bounded_iff_not_escapes hlen).1.mpr fun hescapes => ?_
  have hbad := (tryConsume_of_escapes hlen hescapes).1
  have hok : tryConsume (indexLine ++ messageEnd ++ messageEnd ++ [])
      (indexLine ++ messageEnd ++ messageEnd).length =
        .ok { result := .ok, consumptionLength := 17, messagePackets := [{}] } := rfl
  rw [hok] at hbad
  cases hbad

end Utilpp.Message

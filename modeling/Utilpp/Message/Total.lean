import Utilpp.Message.Bounded
import Utilpp.Message.Build

/-!
# When the parser returns

`TryConsume` converts header values with `std::stoi`, which throws on a value that is empty, not
a number, or outside `int`; nothing in the parser catches that. `total_iff` says exactly which
buffers the parser returns on. The sender prints its counters as `uint32_t`, so it emits packets
on which the parser throws (`wide_index_throws`).
-/

namespace Utilpp.Message

open Lib

variable {data : List UInt8}

/-- A header line whose value cannot be stored: one of the known keys with a value that `stoi`
refuses. Keys and values of `2 ^ 31` bytes make no `std::string`. -/
def Refused (key value : List UInt8) : Prop :=
  2 ^ 31 ≤ key.length ∨
    (mapHeader key).isSome ∧ (2 ^ 31 ≤ value.length ∨ ∃ error, stoi value = .error error)

/-- A buffer whose complete packets are followed by a packet with a refused header line. -/
def RefusedHeader (data : List UInt8) : Prop :=
  ∃ bytes packets lines packet key value behind,
    data = bytes ++ (startLine ++ (lines ++ (lineBytes key value ++ behind))) ∧
      CompletePackets bytes packets ∧ HeaderLines {} lines packet ∧ Splits key value ∧
      Refused key value

/-- `TryConsume` returns a result, and the result is `OK` or `ParseError`. -/
def ReturnsResult (memory : List UInt8) (len : Nat) : Prop :=
  ∃ result, tryConsume memory len = .ok result ∧
    (result.result = .ok ∨ result.result = .parseError)

/-- The value of a line is refused whatever the packet holds. -/
theorem storeHeader_error_iff {packet : MessagePacket} {key value : List UInt8} :
    (∃ stop, storeHeader packet key value = .error stop) ↔ Refused key value := by
  unfold storeHeader Refused
  by_cases hkey : 2 ^ 31 ≤ key.length
  · simp [-Nat.reducePow, hkey]
  cases hmap : mapHeader key with
  | none => simp [-Nat.reducePow, hkey]
  | some header =>
      by_cases hvalue : 2 ^ 31 ≤ value.length
      · simp [-Nat.reducePow, hkey, hvalue]
      cases hnumber : stoi value with
      | error error => simp [-Nat.reducePow, hkey, hvalue]
      | ok number => simp [-Nat.reducePow, hkey, hvalue]

/-- The parser reports no other error than a parse error. -/
theorem consumeLoop_result {fuel : Nat} {result final : ConsumeResult} {cur last : Cursor}
    (hresult : result.result = .ok) (h : consumeLoop fuel result cur = .ok (final, last)) :
    final.result = .ok ∨ final.result = .parseError := by
  induction fuel generalizing result cur with
  | zero => cases h
  | succ fuel ih =>
      rw [consumeLoop] at h
      split at h
      · cases h
        exact .inl hresult
      split at h
      · cases h
      · cases h
        exact .inl hresult
      · cases h
        exact .inr rfl
      split at h
      · cases h
      · cases h
        exact .inl hresult
      · cases h
        exact .inr rfl
      split at h
      · cases h
      · cases h
        exact .inl hresult
      · cases h
        exact .inr rfl
      split at h
      · cases h
      · cases h
        exact .inl hresult
      · exact ih (by exact hresult) h

theorem returnsResult_of_ok {memory : List UInt8} {len : Nat} {result : ConsumeResult}
    (h : tryConsume memory len = .ok result) : ReturnsResult memory len := by
  refine ⟨result, h, ?_⟩
  rw [tryConsume] at h
  split at h
  · cases h
  · rename_i last hconsume
    cases h
    exact consumeLoop_result rfl hconsume

/-- The parser throws on a buffer with a refused header line. -/
theorem RefusedHeader.throws (hlen : data.length < 2 ^ 32) (h : RefusedHeader data)
    (tail : List UInt8) : ¬ ReturnsResult (data ++ tail) data.length := by
  obtain ⟨bytes, packets, lines, packet, key, value, behind, rfl, hpackets, hlines, hline,
    hrefused⟩ := h
  obtain ⟨stop, hstore⟩ := storeHeader_error_iff.mpr hrefused
  have hrest : (startLine ++ (lines ++ (lineBytes key value ++ behind))).length < 2 ^ 32 := by
    rw [List.length_append] at hlen
    omega
  have hrejects : Rejects (startLine ++ (lines ++ (lineBytes key value ++ behind))) :=
    ⟨lines, packet, key, value, behind, stop, rfl, hlines, hline, hstore⟩
  obtain ⟨stop, stopped, -, -, hthrows⟩ := hrejects.throws hrest
  obtain ⟨more, hmore, hconsume⟩ := hpackets.consume hlen tail
  rintro ⟨result, hok, -⟩
  rw [tryConsume, hconsume, hthrows more _ tail hmore] at hok
  cases hok

/-- Where the parser stops on a buffer without a refused header line. -/
theorem returns_or_escapes (hlen : data.length < 2 ^ 32) (h : ¬ RefusedHeader data) :
    (∀ tail, ReturnsResult (data ++ tail) data.length) ∨ Escapes data := by
  obtain ⟨bytes, packets, rest, rfl, hpackets, hstop⟩ := exists_completePackets data hlen
  rcases hstop with ⟨error, stopped, hreturns⟩ | hrejects | hopens
  · left
    intro tail
    obtain ⟨more, hmore, hconsume⟩ := hpackets.consume hlen tail
    have hok : tryConsume (bytes ++ rest ++ tail) (bytes ++ rest).length =
        .ok { ConsumeResult.push {} bytes.length packets with result := error } := by
      rw [tryConsume, hconsume, hreturns more _ tail rfl hmore]
    exact returnsResult_of_ok hok
  · obtain ⟨lines, packet, key, value, behind, stop, rfl, hlines, hline, hstore⟩ := hrejects
    exact absurd ⟨bytes, packets, lines, packet, key, value, behind, rfl, hpackets, hlines, hline,
      storeHeader_error_iff.mp ⟨stop, hstore⟩⟩ h
  · exact .inr ⟨bytes, packets, rest, rfl, hpackets, hopens⟩

/-- The parser returns on a buffer, whatever memory follows it, exactly when no header line of it
is refused and no header line runs out of it; with a NUL behind the buffer it returns exactly when
no header line is refused. -/
theorem total_iff (data : List UInt8) (hlen : data.length < 2 ^ 32) :
    ((∀ tail, ReturnsResult (data ++ tail) data.length) ↔
        ¬ RefusedHeader data ∧ ¬ Escapes data) ∧
      ∀ behind, ReturnsResult (data ++ 0 :: behind) data.length ↔ ¬ RefusedHeader data := by
  refine ⟨⟨fun h => ⟨fun hrefused => ?_, fun hescapes => ?_⟩, fun h => ?_⟩, fun behind => ⟨?_, ?_⟩⟩
  · exact hrefused.throws hlen [] (h [])
  · obtain ⟨result, hok, -⟩ := h []
    rw [(tryConsume_of_escapes hlen hescapes).1] at hok
    cases hok
  · exact (returns_or_escapes hlen h.1).resolve_right h.2
  · exact fun h hrefused => hrefused.throws hlen (0 :: behind) h
  · intro h
    rcases returns_or_escapes hlen h with hreturns | hescapes
    · exact hreturns (0 :: behind)
    · obtain ⟨result, hok⟩ := (tryConsume_of_escapes hlen hescapes).2 behind
      exact returnsResult_of_ok hok

/-- The packet with index 0 of channel 0 has no refused header line. -/
theorem index_packet_returns : ¬ RefusedHeader (indexLine ++ messageEnd ++ messageEnd) := by
  have hlen : (indexLine ++ messageEnd ++ messageEnd).length < 2 ^ 32 := by decide
  have hreturns : ReturnsResult (indexLine ++ messageEnd ++ messageEnd ++ 0 :: [])
      (indexLine ++ messageEnd ++ messageEnd).length :=
    ⟨{ result := .ok, consumptionLength := 17, messagePackets := [{}] }, rfl, .inl rfl⟩
  exact ((total_iff _ hlen).2 []).mp hreturns

/-- Counters that have reached `2 ^ 31`. -/
def wideCounters : Counters := fun _ => 2 ^ 31

/-- The packet that the sender builds next is not parsed: its index does not fit `int`. -/
theorem wide_index_throws :
    tryConsume ((buildPacket wideCounters [] channelZero).1 ++ [0])
        (buildPacket wideCounters [] channelZero).1.length = .error (.stoi .outOfRange) ∧
      ¬ ReturnsResult ((buildPacket wideCounters [] channelZero).1 ++ [0])
        (buildPacket wideCounters [] channelZero).1.length := by
  have hthrows : tryConsume ((buildPacket wideCounters [] channelZero).1 ++ [0])
      (buildPacket wideCounters [] channelZero).1.length = .error (.stoi .outOfRange) := rfl
  refine ⟨hthrows, ?_⟩
  rintro ⟨result, hok, -⟩
  rw [hthrows] at hok
  cases hok

end Utilpp.Message

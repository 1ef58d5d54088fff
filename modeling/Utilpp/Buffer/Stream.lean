import Utilpp.Buffer.Growth

/-!
# The character buffer as a stream

`Append` and `Put` write at the end, `Peek` and `Take` read at the read cursor. `Reserve` sets the
read cursor back to the start when it reallocates, so that the characters taken so far are taken
once more. `stream_iff` says that this is the only way, besides a write behind the allocation, in
which the characters taken are not a beginning of those written.
-/

namespace Utilpp.Buffer

open Lib

/-- The call writes to or reads from the stream. -/
def Call.OnStream : Call → Prop
  | .append _ | .put _ | .peek | .take => True
  | _ => False

/-- The characters that the call writes to the stream. -/
def Call.written : Call → List UInt8
  | .append bytes => bytes
  | .put c => [c]
  | _ => []

namespace FCharBuffer

/-- The character that the call takes from the stream. -/
def taken (b : FCharBuffer) : Call → List (Option UInt8)
  | .take => (b.take.map Prod.snd).toList
  | _ => []

/-- The call makes `Reserve` reallocate. -/
def Grows (b : FCharBuffer) : Call → Prop
  | .append bytes => bytes ≠ [] ∧ (b.bufSize = 0 ∨ b.bufSize - 1 < bytes.length + b.cursor) ∧
      b.bufSize < max b.getIncreasedSize (bytes.length + b.cursor + 2) % 2 ^ 32
  | .put _ => (b.bufSize = 0 ∨ b.bufSize - 1 ≤ b.cursor) ∧
      b.bufSize < b.getIncreasedSize % 2 ^ 32
  | _ => False

/-! ## The read cursor -/

/-- A reallocation sets the read cursor to the start. -/
theorem readCursor_of_reserveWhen {b b' : FCharBuffer} {full : Bool} {size : Nat}
    (h : b.reserveWhen full size = some b') :
    (full = true ∧ b.bufSize < size % 2 ^ 32 → b'.readCursor = 0) ∧
      (¬ (full = true ∧ b.bufSize < size % 2 ^ 32) → b'.readCursor = b.readCursor) := by
  unfold FCharBuffer.reserveWhen at h
  cases full with
  | false =>
      cases h
      exact ⟨fun hgrows => absurd hgrows.1 Bool.false_ne_true, fun _ => rfl⟩
  | true =>
      have hresult : b.reserve (UInt32.ofNat size) = some b' := h
      unfold FCharBuffer.reserve at hresult
      dsimp only at hresult
      split at hresult
      · rename_i hle
        cases hresult
        exact ⟨fun hgrows => absurd hgrows.2 (Nat.not_lt.mpr hle), fun _ => rfl⟩
      · rename_i hlt
        obtain ⟨newbuf, -, hnew⟩ := Option.bind_eq_some_iff.mp hresult
        cases hnew
        exact ⟨fun _ => rfl, fun hstays => absurd ⟨rfl, Nat.not_le.mp hlt⟩ hstays⟩

/-- The write behind a reservation leaves the read cursor where the reservation has put it. -/
theorem readCursor_of_fill {b grown filled : FCharBuffer} {full : Bool} {size pos : Nat}
    {cells : List (Option UInt8)} (hgrow : b.reserveWhen full size = some grown)
    (hwrite : grown.write pos cells = some filled) :
    (full = true ∧ b.bufSize < size % 2 ^ 32 → filled.readCursor = 0) ∧
      (¬ (full = true ∧ b.bufSize < size % 2 ^ 32) → filled.readCursor = b.readCursor) := by
  rw [(write_frame hwrite).2.2]
  exact readCursor_of_reserveWhen hgrow

/-- A write that reallocates moves the read cursor to the start, another one leaves it. -/
theorem readCursor_of_call {b b' : FCharBuffer} {c : Call} (hstream : c.OnStream)
    (h : b.call c = some b') :
    (b.Grows c → b'.readCursor = 0) ∧
      (¬ b.Grows c → b'.readCursor = b.readCursor + (b.taken c).length) := by
  cases c with
  | append bytes =>
      have hresult : b.append (bytes.map some) = some b' := h
      unfold FCharBuffer.append at hresult
      simp only [List.length_map] at hresult
      split at hresult
      · rename_i hempty
        cases hresult
        exact ⟨fun hgrows => absurd (List.eq_nil_of_length_eq_zero hempty) hgrows.1, fun _ => rfl⟩
      · rename_i hpos
        have hne : bytes ≠ [] := fun hnil => hpos (hnil ▸ rfl)
        obtain ⟨grown, hgrow, hrest⟩ := Option.bind_eq_some_iff.mp hresult
        obtain ⟨filled, hwrite, hfinal⟩ := Option.bind_eq_some_iff.mp hrest
        cases hfinal
        obtain ⟨hzero, hsame⟩ := readCursor_of_fill hgrow hwrite
        rw [decide_eq_true_iff] at hzero hsame
        exact ⟨fun hgrows => hzero hgrows.2,
          fun hstays => hsame fun hgrows => hstays ⟨hne, hgrows⟩⟩
  | put c =>
      have hresult : b.put c = some b' := h
      obtain ⟨grown, hgrow, hrest⟩ := Option.bind_eq_some_iff.mp hresult
      obtain ⟨filled, hwrite, hfinal⟩ := Option.bind_eq_some_iff.mp hrest
      cases hfinal
      have hmoves := readCursor_of_fill hgrow hwrite
      rw [decide_eq_true_iff] at hmoves
      exact hmoves
  | peek =>
      obtain ⟨c, -, rfl⟩ := Option.map_eq_some_iff.mp h
      exact ⟨False.elim, fun _ => rfl⟩
  | take =>
      obtain ⟨⟨after, c⟩, htake, rfl⟩ := Option.map_eq_some_iff.mp h
      have hone : (b.taken .take).length = 1 := by
        show ((b.take.map Prod.snd).toList).length = 1
        rw [htake]
        rfl
      obtain ⟨c', -, hresult⟩ := Option.bind_eq_some_iff.mp htake
      cases hresult
      exact ⟨False.elim, fun _ => congrArg (b.readCursor + ·) hone.symm⟩
  | _ => exact hstream.elim

/-! ## The content -/

/-- A write that is defined reaches at most to the capacity. -/
theorem room_of_write {b b' : FCharBuffer} {pos : Nat} {cells : List (Option UInt8)}
    (hne : cells ≠ []) (h : b.write pos cells = some b') : pos + cells.length ≤ b.bufSize := by
  by_contra hfull
  rw [write_eq_none hne (Nat.not_le.mp hfull)] at h
  cases h

/-- Growth and a write at the cursor that are defined append the bytes. -/
theorem Holds.extend {b grown b' : FCharBuffer} {l bytes : List UInt8} {full : Bool} {size : Nat}
    (h : b.Holds l) (hne : bytes ≠ []) (hgrow : b.reserveWhen full size = some grown)
    (hwrite : grown.write grown.cursor (bytes.map some) = some b') :
    Holds { b' with cursor := b'.cursor + bytes.length } (l ++ bytes) := by
  have hgrown : grown.Holds l := by
    cases full with
    | false =>
        cases hgrow
        exact h
    | true =>
        obtain ⟨grown', hreserve, hholds, -⟩ := h.reserve_spec (UInt32.ofNat size)
        cases hreserve.symm.trans hgrow
        exact hholds
  have hcells : bytes.map some ≠ [] := fun hnil => hne (List.map_eq_nil_iff.mp hnil)
  have hroom := room_of_write hcells hwrite
  rw [List.length_map, hgrown.cursor] at hroom
  obtain ⟨b'', hwrite', hcursor, hbacked⟩ := extend_spec hgrown hroom
  cases hwrite.symm.trans hwrite'
  refine ⟨?_, hbacked.of_eq rfl rfl⟩
  show b'.cursor + bytes.length = (l ++ bytes).length
  rw [hcursor, hgrown.cursor, List.length_append]

/-- The buffer holds what was written to the stream. -/
theorem Holds.call {b b' : FCharBuffer} {l : List UInt8} {c : Call} (h : b.Holds l)
    (hstream : c.OnStream) (hcall : b.call c = some b') : b'.Holds (l ++ c.written) := by
  cases c with
  | append bytes =>
      have hresult : b.append (bytes.map some) = some b' := hcall
      show b'.Holds (l ++ bytes)
      unfold FCharBuffer.append at hresult
      simp only [List.length_map] at hresult
      split at hresult
      · rename_i hempty
        cases hresult
        rw [List.eq_nil_of_length_eq_zero hempty, List.append_nil]
        exact h
      · rename_i hpos
        obtain ⟨grown, hgrow, hrest⟩ := Option.bind_eq_some_iff.mp hresult
        obtain ⟨filled, hwrite, hfinal⟩ := Option.bind_eq_some_iff.mp hrest
        cases hfinal
        exact h.extend (fun hnil => hpos (hnil ▸ rfl)) hgrow hwrite
  | put c =>
      have hresult : b.put c = some b' := hcall
      obtain ⟨grown, hgrow, hrest⟩ := Option.bind_eq_some_iff.mp hresult
      obtain ⟨filled, hwrite, hfinal⟩ := Option.bind_eq_some_iff.mp hrest
      cases hfinal
      exact @Holds.extend b grown filled l [c] _ _ h (List.cons_ne_nil _ _) hgrow hwrite
  | peek =>
      obtain ⟨c, -, rfl⟩ := Option.map_eq_some_iff.mp hcall
      show b.Holds (l ++ [])
      rwa [List.append_nil]
  | take =>
      obtain ⟨⟨after, c⟩, htake, rfl⟩ := Option.map_eq_some_iff.mp hcall
      obtain ⟨c', -, hresult⟩ := Option.bind_eq_some_iff.mp htake
      cases hresult
      show Holds { b with readCursor := b.readCursor + 1 } (l ++ [])
      rw [List.append_nil]
      exact ⟨h.cursor, h.backed.of_eq rfl rfl⟩
  | _ => exact hstream.elim

/-- A character of the content is read. -/
theorem Holds.fetch {b : FCharBuffer} {l : List UInt8} (h : b.Holds l) {pos : Nat}
    (hpos : pos < l.length) : b.fetch pos = some (some l[pos]) := by
  have hbacked := h.backed
  have hlength := h.backed.length_le
  rw [List.length_map] at hlength
  unfold Backed at hbacked
  unfold FCharBuffer.fetch
  cases hbuf : b.pBuf with
  | none =>
      simp only [hbuf] at hbacked
      omega
  | some block =>
      simp only [hbuf] at hbacked
      obtain ⟨rest, rfl⟩ := hbacked.2.2
      have hless : pos < (l.map some).length := by rw [List.length_map]; exact hpos
      simp only [if_pos (Nat.lt_of_lt_of_le hpos hlength), List.getElem?_append_left hless,
        List.getElem?_map, List.getElem?_eq_getElem hpos, Option.map_some]

end FCharBuffer

/-! ## Runs -/

/-- A buffer with what was written to it and taken from it. -/
structure Stream where
  buffer : FCharBuffer
  written : List UInt8
  taken : List (Option UInt8)
  deriving DecidableEq

namespace Stream

/-- A buffer from which nothing was taken. -/
def start (b : FCharBuffer) (content : List UInt8) : Stream := ⟨b, content, []⟩

def step (s : Stream) (c : Call) : Option Stream :=
  (s.buffer.call c).map fun b => ⟨b, s.written ++ c.written, s.taken ++ s.buffer.taken c⟩

/-- Only the stream interface is used, and reads are made while `Tell` is below `Length`. -/
def Permits (s : Stream) (c : Call) : Prop := c.OnStream ∧ s.buffer.Reads c

/-- The write stays inside of the allocation and, if it makes a new one, nothing was taken yet. -/
def Keeps (s : Stream) (c : Call) : Prop :=
  s.buffer.Room c ∧ (s.buffer.Grows c → s.buffer.readCursor = 0)

/-- `Take` has moved `Tell` by one each time and nothing else has moved it, and the characters
taken are the first ones written. -/
structure Faithful (s : Stream) : Prop where
  tell : s.buffer.readCursor = s.taken.length
  taken : s.taken <+: s.written.map some

/-- The buffer holds what was written, and the stream is faithful. -/
structure Inv (s : Stream) : Prop where
  sound : s.buffer.Sound
  holds : s.buffer.Holds s.written
  faithful : s.Faithful

theorem prefix_concat {α : Type*} {xs ys : List α} (h : xs <+: ys) (hlt : xs.length < ys.length) :
    xs ++ [ys[xs.length]] <+: ys := by
  obtain ⟨rest, rfl⟩ := h
  cases rest with
  | nil => simp at hlt
  | cons y rest => exact ⟨rest, by simp⟩

/-- What the call takes comes next in what was written. -/
theorem Inv.taken {s : Stream} (h : s.Inv) {c : Call} (hc : s.Permits c) :
    s.taken ++ s.buffer.taken c <+: s.written.map some := by
  cases c with
  | take =>
      have hreads : s.buffer.readCursor < s.buffer.cursor := hc.2
      rw [h.holds.cursor] at hreads
      have hfetch := h.holds.fetch hreads
      simp only [h.faithful.tell] at hfetch
      have hless : s.taken.length < (s.written.map some).length := by
        rw [List.length_map, ← h.faithful.tell]
        exact hreads
      have hnext : s.buffer.taken .take = [(s.written.map some)[s.taken.length]] := by
        show (s.buffer.take.map Prod.snd).toList = _
        rw [List.getElem_map]
        simp only [FCharBuffer.take, h.faithful.tell, hfetch, Option.bind_eq_bind,
          Option.bind_some, Option.map_some, Option.toList_some]
      rw [hnext]
      exact prefix_concat h.faithful.taken hless
  | append bytes =>
      show s.taken ++ [] <+: _
      rw [List.append_nil]
      exact h.faithful.taken
  | put c =>
      show s.taken ++ [] <+: _
      rw [List.append_nil]
      exact h.faithful.taken
  | peek =>
      show s.taken ++ [] <+: _
      rw [List.append_nil]
      exact h.faithful.taken
  | _ => exact hc.1.elim

theorem taken_of_grows {b : FCharBuffer} {c : Call} (h : b.Grows c) : b.taken c = [] := by
  cases c with
  | take => exact h.elim
  | _ => rfl

/-- A call under the condition keeps the stream faithful. -/
theorem Inv.step {s : Stream} (h : s.Inv) {c : Call} (hc : s.Permits c) (hkeeps : s.Keeps c) :
    ∃ t, s.step c = some t ∧ t.Inv := by
  obtain ⟨b', hcall⟩ : ∃ b', s.buffer.call c = some b' := by
    cases c with
    | append bytes =>
        obtain ⟨b', hcall, -⟩ := (h.sound.append bytes).1 hkeeps.1
        exact ⟨b', hcall⟩
    | put c =>
        obtain ⟨b', hcall, -⟩ := (h.sound.put c).1 hkeeps.1
        exact ⟨b', hcall⟩
    | peek =>
        obtain ⟨b', hcall, -⟩ := h.sound.call hc.2 (by decide) hkeeps.1
        exact ⟨b', hcall⟩
    | take =>
        obtain ⟨b', hcall, -⟩ := h.sound.call hc.2 (by decide) hkeeps.1
        exact ⟨b', hcall⟩
    | _ => exact hc.1.elim
  refine ⟨_, by rw [Stream.step, hcall, Option.map_some], h.sound.of_call hcall,
    h.holds.call hc.1 hcall, ?_, ?_⟩
  · show b'.readCursor = (s.taken ++ s.buffer.taken c).length
    obtain ⟨hzero, hsame⟩ := FCharBuffer.readCursor_of_call hc.1 hcall
    rw [List.length_append, ← h.faithful.tell]
    by_cases hgrows : s.buffer.Grows c
    · rw [hzero hgrows, hkeeps.2 hgrows, taken_of_grows hgrows]
      rfl
    · exact hsame hgrows
  · show s.taken ++ s.buffer.taken c <+: (s.written ++ c.written).map some
    rw [List.map_append]
    exact (h.taken hc).trans (List.prefix_append _ _)

/-- Without the condition a call is undefined, or it moves `Tell` to the start. -/
theorem Inv.step_not_faithful {s t : Stream} (h : s.Inv) {c : Call} (hc : s.Permits c)
    (hkeeps : ¬ s.Keeps c) (hstep : s.step c = some t) : ¬ t.Faithful := by
  obtain ⟨b', hcall, rfl⟩ := Option.map_eq_some_iff.mp hstep
  have hroom : s.buffer.Room c := by
    by_contra hnot
    rw [h.sound.call_none hnot] at hcall
    cases hcall
  obtain ⟨hgrows, hread⟩ := Classical.not_imp.mp fun himp => hkeeps ⟨hroom, himp⟩
  intro hfaithful
  have htell : b'.readCursor = (s.taken ++ s.buffer.taken c).length := hfaithful.tell
  rw [(FCharBuffer.readCursor_of_call hc.1 hcall).1 hgrows, List.length_append,
    ← h.faithful.tell] at htell
  omega

/-- Every state of a run on a stream is faithful exactly when every write stays inside of the
allocation and none reallocates after characters were taken. -/
theorem stream_iff {b : FCharBuffer} {content : List UInt8} {calls : List Call} (hsound : b.Sound)
    (hcontent : b.Holds content) (hread : b.readCursor = 0)
    (hcalls : Guarded step Permits (start b content) calls) :
    (∀ first, first <+: calls →
      ∃ s, exec step (start b content) first = some s ∧ s.Faithful) ↔
    Guarded step Keeps (start b content) calls := by
  have hstart : (start b content).Inv := ⟨hsound, hcontent, hread, List.nil_prefix⟩
  exact @exec_defined_iff _ _ _ Keeps Inv Faithful Permits (fun s h => h.faithful)
    (fun s c h hc => h.step hc.1 hc.2) (fun s c t h hc hkeeps => h.step_not_faithful hc hkeeps)
    _ _ hstart hcalls

/-- A character is written and taken, and another one written behind it. -/
theorem stream_put_take_put :
    ∃ s, exec step (start .new []) [.put 65, .take, .put 66] = some s ∧ s.Faithful := by
  let block : Block UInt8 := some 65 :: List.replicate 127 none
  have hput : (start .new []).step (.put 65) = some ⟨⟨128, some block, 1, 0⟩, [65], []⟩ := by
    decide +kernel
  have htake : step ⟨⟨128, some block, 1, 0⟩, [65], []⟩ .take =
      some ⟨⟨128, some block, 1, 1⟩, [65], [some 65]⟩ := by decide
  have hcalls : Guarded step Permits (start .new []) [.put 65, .take, .put 66] := by
    refine ⟨⟨trivial, trivial⟩, fun s hs => ?_⟩
    cases hput.symm.trans hs
    exact ⟨⟨trivial, Nat.zero_lt_one⟩, fun _ _ => ⟨⟨trivial, trivial⟩, fun _ _ => trivial⟩⟩
  refine (stream_iff FCharBuffer.sound_new FCharBuffer.new_holds rfl hcalls).mpr ?_ _
    (List.prefix_refl _)
  refine ⟨⟨fun _ => by decide, fun _ => rfl⟩, fun s hs => ?_⟩
  cases hput.symm.trans hs
  refine ⟨⟨trivial, fun _ => rfl⟩, fun s hs => ?_⟩
  cases htake.symm.trans hs
  refine ⟨⟨fun hfull => ?_, fun hgrows => ?_⟩, fun _ _ => trivial⟩
  · exact absurd hfull (by decide)
  · exact absurd hgrows.1 (by decide)

/-- The 127 characters written behind the first one make the buffer grow from 128 bytes to 256, and
the first one is taken a second time. -/
theorem not_stream :
    ∃ s, exec step (start .new [])
        [.append [65], .take, .append (List.replicate 127 66), .take] = some s ∧
      s.taken = [some 65, some 65] ∧ s.buffer.readCursor = 1 ∧
      ¬ s.taken <+: s.written.map some := by
  have hrun : (exec step (start .new [])
      [.append [65], .take, .append (List.replicate 127 66), .take]).any (fun s =>
        decide (s.taken = [some 65, some 65] ∧ s.buffer.readCursor = 1 ∧
          ¬ s.taken <+: s.written.map some)) = true := by decide +kernel
  obtain ⟨s, hs, htwice⟩ := (Option.any_eq_true _ _).mp hrun
  exact ⟨s, hs, of_decide_eq_true htwice⟩

end Stream

end Utilpp.Buffer

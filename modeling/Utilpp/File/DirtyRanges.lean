import Utilpp.File.Merge

/-!
# The dirty ranges of a mapping

The ranges in the queue are addresses. `Resize` and `Close` take the mapping away and leave them
there, `Init` puts another mapping in the place of an open one. `dirty_ranges_iff` says that all
ranges that wait or are flushed lie in the current mapping, in every state of a run, exactly when
each of these calls leaves a mapping that the waiting ranges lie in, which is the case when none
waits or when the new mapping has the old address and is not too small.
-/

namespace Utilpp.File

open Lib

/-- The range lies in the mapping. -/
def DirtyRange.Inside (r : DirtyRange) : Option View → Prop
  | none => False
  | some view => view.base ≤ r.beginPos ∧ r.endPos ≤ view.base + view.length

instance (r : DirtyRange) : (view : Option View) → Decidable (r.Inside view)
  | none => .isFalse id
  | some _ => inferInstanceAs (Decidable (_ ∧ _))

/-- The byte lies in the mapping. -/
def View.has (view : Option View) (address : Nat) : Bool :=
  view.any fun view => view.base ≤ address ∧ address < view.base + view.length

/-- The byte lies in one of the ranges. -/
def covered (ranges : List DirtyRange) (address : Nat) : Bool :=
  ranges.any fun r => r.beginPos ≤ address ∧ address < r.endPos

/-- A buffer and what happened to the bytes that were written: `unsaved` are those in an open
mapping that were not flushed, `stranded` those that the last `Resize` or `Close` left so, and
`flushed` are the ranges that were flushed, each with the mapping there was. -/
structure Session where
  buffer : FileBackedBuffer := {}
  unsaved : List Nat := []
  stranded : List Nat := []
  flushed : List (Option View × DirtyRange) := []
  deriving DecidableEq

/-- A call of the buffer, with the answers of the operating system. -/
inductive Event where
  | init (size : UInt32) (opened : OpenAnswer) (resized : Bool) (answer : MapAnswer)
  | writeData (target n : Nat)
  | resize (size : UInt32) (resized : Bool) (answer : MapAnswer)
  | close
  | tickIo (queue : List DirtyRange)
  deriving DecidableEq

namespace Session

/-- The bytes of the mapping are written back when it is closed. -/
def unmap (s : Session) (buffer : FileBackedBuffer) : Session :=
  let left := s.unsaved.filter fun address => !View.has s.buffer.data address
  { s with buffer := buffer, unsaved := left, stranded := left }

/-- One call. -/
def step (sort : SortByBegin) (s : Session) : Event → Option Session
  | .init size opened resized answer =>
      some { s with buffer := (s.buffer.init size opened resized answer).2 }
  | .writeData target n =>
      some { s with
        buffer := s.buffer.writeData target n
        unsaved := s.unsaved ++ List.range' target n }
  | .resize size resized answer =>
      (s.buffer.resize size resized answer).map fun result => s.unmap result.2
  | .close => some (s.unmap s.buffer.close)
  | .tickIo queue =>
      (s.buffer.tickIo sort queue).map fun (ranges, buffer) =>
        { s with
          buffer := buffer
          unsaved := s.unsaved.filter fun address => !covered ranges address
          flushed := s.flushed ++ ranges.map fun r => (s.buffer.data, r) }

/-- Writes are in the mapping, `Resize` is called on an open file, and the queue returns what was
put in. -/
def Admits (s : Session) : Event → Prop
  | .writeData target n => DirtyRange.Inside ⟨target, target + n⟩ s.buffer.data
  | .resize _ _ _ => s.buffer.backupFile.isSome = true
  | .tickIo queue => queue.Perm s.buffer.dirtyRanges
  | _ => True

instance (s : Session) : (event : Event) → Decidable (s.Admits event)
  | .writeData target n =>
      inferInstanceAs (Decidable (DirtyRange.Inside ⟨target, target + n⟩ s.buffer.data))
  | .resize _ _ _ => inferInstanceAs (Decidable (_ = _))
  | .tickIo queue => inferInstanceAs (Decidable (queue.Perm s.buffer.dirtyRanges))
  | .init _ _ _ _ => .isTrue trivial
  | .close => .isTrue trivial

/-- The ranges that wait lie in the mapping that `OpenMap` makes for a file of this size. -/
def Remaps (s : Session) (size : Nat) : MapAnswer → Prop
  | .view base => ∀ r ∈ s.buffer.dirtyRanges, r.Inside (some ⟨base, mapLength size⟩)
  | _ => s.buffer.dirtyRanges = []

/-- When the call changes the mapping no range waits, or those that do lie in the new one. -/
def Keeps (s : Session) : Event → Prop
  | .init size opened resized answer =>
      (initFile size opened resized).2 = true → (initFile size opened resized).1.getD 0 ≠ 0 →
        -- without a mapping object `Data` stays as it is
        answer ≠ .noMapping → s.Remaps ((initFile size opened resized).1.getD 0) answer
  | .resize size resized answer =>
      if resized then s.Remaps size.toNat answer else s.buffer.dirtyRanges = []
  | .close => s.buffer.dirtyRanges = []
  | _ => True

instance (s : Session) (size : Nat) : (answer : MapAnswer) → Decidable (s.Remaps size answer)
  | .view base =>
      inferInstanceAs (Decidable (∀ r ∈ _, DirtyRange.Inside r (some ⟨base, mapLength size⟩)))
  | .noMapping => inferInstanceAs (Decidable (s.buffer.dirtyRanges = []))
  | .noView => inferInstanceAs (Decidable (s.buffer.dirtyRanges = []))

instance (s : Session) : (event : Event) → Decidable (s.Keeps event)
  | .init _ _ _ _ => inferInstanceAs (Decidable (_ = true → _ ≠ 0 → _ ≠ _ → _))
  | .resize _ resized _ => inferInstanceAs (Decidable (if resized then _ else _))
  | .close => inferInstanceAs (Decidable (_ = _))
  | .writeData _ _ => .isTrue trivial
  | .tickIo _ => .isTrue trivial

/-- What a user relies on. -/
structure Valid (s : Session) : Prop where
  waiting : ∀ r ∈ s.buffer.dirtyRanges, r.Inside s.buffer.data
  flushed : ∀ f ∈ s.flushed, f.2.Inside f.1
  stranded : s.stranded = []

/-- The bytes that are not saved lie in ranges that wait. -/
structure Inv (s : Session) : Prop where
  valid : s.Valid
  cache : s.buffer.dirtyRangeCache = []
  ordered : ∀ r ∈ s.buffer.dirtyRanges, r.beginPos ≤ r.endPos
  unsaved : ∀ address ∈ s.unsaved, covered s.buffer.dirtyRanges address = true

theorem inv_start : Inv {} :=
  ⟨⟨nofun, nofun, rfl⟩, rfl, nofun, nofun⟩

theorem covered_iff {ranges : List DirtyRange} {address : Nat} : covered ranges address = true ↔
    ∃ r ∈ ranges, r.beginPos ≤ address ∧ address < r.endPos := by
  simp only [covered, List.any_eq_true, decide_eq_true_eq]

/-! ## Changes of the mapping -/

/-- What the calls that change the mapping do to the queue and the cache. -/
theorem init_frame (b : FileBackedBuffer) (size : UInt32) (opened : OpenAnswer) (resized : Bool)
    (answer : MapAnswer) :
    (b.init size opened resized answer).2.dirtyRanges = b.dirtyRanges ∧
      (b.init size opened resized answer).2.dirtyRangeCache = b.dirtyRangeCache := by
  unfold FileBackedBuffer.init
  dsimp only
  split
  · split
    · unfold FileBackedBuffer.openMap
      cases answer with
      | noMapping => exact ⟨rfl, rfl⟩
      | noView => exact ⟨rfl, rfl⟩
      | view base => exact ⟨rfl, rfl⟩
    · exact ⟨rfl, rfl⟩
  · exact ⟨rfl, rfl⟩

theorem resize_frame {b : FileBackedBuffer} {size : UInt32} {resized : Bool} {answer : MapAnswer}
    {result : Bool × FileBackedBuffer} (h : b.resize size resized answer = some result) :
    result.2.dirtyRanges = b.dirtyRanges ∧ result.2.dirtyRangeCache = b.dirtyRangeCache := by
  unfold FileBackedBuffer.resize at h
  split at h
  · dsimp only at h
    split at h
    · cases h
      cases answer with
      | noMapping => exact ⟨rfl, rfl⟩
      | noView => exact ⟨rfl, rfl⟩
      | view base => exact ⟨rfl, rfl⟩
    · cases h
      exact ⟨rfl, rfl⟩
  · cases h

/-- No range lies in a mapping that there is not. -/
theorem inside_none_iff {ranges : List DirtyRange} :
    (∀ r ∈ ranges, r.Inside none) ↔ ranges = [] :=
  List.eq_nil_iff_forall_not_mem.symm

/-- Behind `Init` the waiting ranges lie in the mapping exactly when the call keeps them. -/
theorem init_waiting_iff {s : Session} (h : s.Inv) {size : UInt32} {opened : OpenAnswer}
    {resized : Bool} {answer : MapAnswer} :
    (∀ r ∈ s.buffer.dirtyRanges, r.Inside (s.buffer.init size opened resized answer).2.data) ↔
      s.Keeps (.init size opened resized answer) := by
  have hwaiting := h.valid.waiting
  unfold FileBackedBuffer.init
  dsimp only
  split
  · rename_i hgoesOn
    split
    · rename_i hsize
      have hkeeps : s.Keeps (.init size opened resized answer) ↔ (answer ≠ .noMapping →
          s.Remaps ((initFile size opened resized).1.getD 0) answer) :=
        ⟨fun hall => hall hgoesOn hsize, fun hmap _ _ => hmap⟩
      rw [hkeeps]
      cases answer with
      | noMapping => exact iff_of_true hwaiting fun hne => absurd rfl hne
      | noView => exact inside_none_iff.trans ⟨fun hnil _ => hnil, fun hnil => hnil nofun⟩
      | view base => exact ⟨fun hinside _ => hinside, fun hinside => hinside nofun⟩
    · rename_i hsize
      exact iff_of_true hwaiting fun _ hne => absurd hne hsize
  · rename_i hfailed
    exact iff_of_true hwaiting fun hgoesOn => absurd hgoesOn hfailed

/-- Behind `Resize` the waiting ranges lie in the mapping exactly when the call keeps them. -/
theorem resize_waiting_iff {s : Session} {size : UInt32} {resized : Bool} {answer : MapAnswer}
    {result : Bool × FileBackedBuffer}
    (hresize : s.buffer.resize size resized answer = some result) :
    (∀ r ∈ s.buffer.dirtyRanges, r.Inside result.2.data) ↔
      s.Keeps (.resize size resized answer) := by
  unfold FileBackedBuffer.resize at hresize
  split at hresize
  · dsimp only at hresize
    cases resized with
    | true =>
        cases hresize
        cases answer with
        | noMapping => exact inside_none_iff
        | noView => exact inside_none_iff
        | view base => exact Iff.rfl
    | false =>
        cases hresize
        exact inside_none_iff
  · cases hresize

/-- The bytes that are not saved are in the mapping that is closed. -/
theorem Inv.unmap_eq {s : Session} (h : s.Inv) (buffer : FileBackedBuffer) :
    s.unmap buffer = { s with buffer := buffer, unsaved := [], stranded := [] } := by
  have hnone : (s.unsaved.filter fun address => !View.has s.buffer.data address) = [] := by
    rw [List.filter_eq_nil_iff]
    intro address haddress
    obtain ⟨r, hr, hbegin, hend⟩ := covered_iff.mp (h.unsaved address haddress)
    have hinside := h.valid.waiting r hr
    cases hdata : s.buffer.data with
    | none =>
        rw [hdata] at hinside
        exact hinside.elim
    | some view =>
        rw [hdata] at hinside
        obtain ⟨hbase, htop⟩ := hinside
        have hhas : View.has (some view) address = true := by
          rw [View.has, Option.any_some, decide_eq_true_eq]
          exact ⟨Nat.le_trans hbase hbegin, Nat.lt_of_lt_of_le hend htop⟩
        rw [hhas]
        exact Bool.false_ne_true
  rw [Session.unmap, hnone]

/-- A mapping was closed, and the waiting ranges lie in the new one. -/
theorem Inv.unmap {s : Session} (h : s.Inv) {buffer : FileBackedBuffer}
    (hranges : buffer.dirtyRanges = s.buffer.dirtyRanges)
    (hcache : buffer.dirtyRangeCache = s.buffer.dirtyRangeCache)
    (hwaiting : ∀ r ∈ s.buffer.dirtyRanges, r.Inside buffer.data) : (s.unmap buffer).Inv := by
  rw [h.unmap_eq]
  refine ⟨⟨?_, h.valid.flushed, rfl⟩, hcache.trans h.cache, ?_, nofun⟩
  · show ∀ r ∈ buffer.dirtyRanges, r.Inside buffer.data
    rw [hranges]
    exact hwaiting
  · show ∀ r ∈ buffer.dirtyRanges, r.beginPos ≤ r.endPos
    rw [hranges]
    exact h.ordered

/-! ## Ticks -/

/-- Merged ranges lie where the ranges do from which they were merged. -/
theorem inside_of_touched {ranges merged : List DirtyRange} {view : Option View}
    (hinside : ∀ r ∈ ranges, r.Inside view) (hmerged : Disjoined merged)
    (htouched : ∀ x, Touched merged x ↔ Touched ranges x) : ∀ r ∈ merged, r.Inside view := by
  intro r hr
  have hle := hmerged.nonempty r hr
  obtain ⟨q, hq, hlow, -⟩ := (htouched (2 * r.beginPos)).mp ⟨r, hr, Nat.le_refl _, by omega⟩
  obtain ⟨q', hq', -, hhigh⟩ := (htouched (2 * r.endPos)).mp ⟨r, hr, by omega, Nat.le_refl _⟩
  have hfirst := hinside q hq
  have hlast := hinside q' hq'
  cases view with
  | none => exact hfirst.elim
  | some view =>
      have hbase := hfirst.1
      have htop := hlast.2
      exact ⟨by omega, by omega⟩

/-- `TickIO` flushes ranges of the mapping only, and saves all bytes. -/
theorem Inv.tickIo {s : Session} (h : s.Inv) (sort : SortByBegin) {queue : List DirtyRange}
    (hqueue : queue.Perm s.buffer.dirtyRanges) :
    ∃ t, s.step sort (.tickIo queue) = some t ∧ t.Inv := by
  have hall : s.buffer.dirtyRangeCache ++ queue = queue := by rw [h.cache, List.nil_append]
  obtain ⟨flushed, htick, hdisjoined, htouched⟩ := tickIo_spec s.buffer sort
    (fun r hr => h.ordered r (hqueue.mem_iff.mp (hall ▸ hr)))
  rw [hall] at htouched
  have hinside : ∀ r ∈ flushed, r.Inside s.buffer.data :=
    inside_of_touched (fun r hr => h.valid.waiting r (hqueue.mem_iff.mp hr)) hdisjoined htouched
  have hsaved : (s.unsaved.filter fun address => !covered flushed address) = [] := by
    rw [List.filter_eq_nil_iff]
    intro address haddress
    obtain ⟨r, hr, hcovers⟩ := covered_iff.mp (h.unsaved address haddress)
    have hcovered : covered flushed address = true :=
      covered_iff.mpr ((covers_congr htouched).mpr ⟨r, hqueue.mem_iff.mpr hr, hcovers⟩)
    rw [hcovered]
    exact Bool.false_ne_true
  have hstep : s.step sort (.tickIo queue) = some
      { s with
        buffer := { s.buffer with dirtyRanges := [], dirtyRangeCache := [] }
        unsaved := []
        flushed := s.flushed ++ flushed.map fun r => (s.buffer.data, r) } := by
    rw [step, htick, ← hsaved]
    rfl
  refine ⟨_, hstep, ⟨nofun, fun f hf => ?_, h.valid.stranded⟩, rfl, nofun, nofun⟩
  rcases List.mem_append.mp hf with hf | hf
  · exact h.valid.flushed f hf
  · obtain ⟨r, hr, rfl⟩ := List.mem_map.mp hf
    exact hinside r hr

/-! ## Runs -/

/-- A byte of a range that was added, or of one that waited before. -/
theorem Inv.writeData {s : Session} (h : s.Inv) (sort : SortByBegin) {target n : Nat}
    (hinside : DirtyRange.Inside ⟨target, target + n⟩ s.buffer.data) :
    ∃ t, s.step sort (.writeData target n) = some t ∧ t.Inv := by
  refine ⟨_, rfl, ⟨fun r hr => ?_, h.valid.flushed, h.valid.stranded⟩, h.cache, fun r hr => ?_,
    fun address haddress => covered_iff.mpr ?_⟩
  · rcases List.mem_append.mp hr with hr | hr
    · exact h.valid.waiting r hr
    · rw [List.mem_singleton.mp hr]
      exact hinside
  · rcases List.mem_append.mp hr with hr | hr
    · exact h.ordered r hr
    · rw [List.mem_singleton.mp hr]
      exact Nat.le_add_right _ _
  · rcases List.mem_append.mp haddress with haddress | haddress
    · obtain ⟨r, hr, hcovers⟩ := covered_iff.mp (h.unsaved address haddress)
      exact ⟨r, List.mem_append_left _ hr, hcovers⟩
    · rw [List.mem_range'_1] at haddress
      exact ⟨_, List.mem_append_right _ List.mem_cons_self, haddress⟩

/-- A call under the condition keeps the invariant. -/
theorem Inv.step {s : Session} (h : s.Inv) (sort : SortByBegin) {event : Event}
    (hadmits : s.Admits event) (hkeeps : s.Keeps event) :
    ∃ t, s.step sort event = some t ∧ t.Inv := by
  cases event with
  | init size opened resized answer =>
      obtain ⟨hranges, hcache⟩ := init_frame s.buffer size opened resized answer
      refine ⟨_, rfl, ⟨?_, h.valid.flushed, h.valid.stranded⟩, hcache.trans h.cache, ?_, ?_⟩
      · show ∀ r ∈ (s.buffer.init size opened resized answer).2.dirtyRanges, _
        rw [hranges]
        exact (init_waiting_iff h).mpr hkeeps
      · show ∀ r ∈ (s.buffer.init size opened resized answer).2.dirtyRanges, _
        rw [hranges]
        exact h.ordered
      · show ∀ address ∈ s.unsaved,
          covered (s.buffer.init size opened resized answer).2.dirtyRanges address = true
        rw [hranges]
        exact h.unsaved
  | writeData target n => exact h.writeData sort hadmits
  | resize size resized answer =>
      obtain ⟨result, hresize⟩ : ∃ result, s.buffer.resize size resized answer = some result := by
        have hopen : s.buffer.backupFile.isSome = true := hadmits
        rw [FileBackedBuffer.resize, if_pos hopen]
        dsimp only
        split
        · exact ⟨_, rfl⟩
        · exact ⟨_, rfl⟩
      obtain ⟨hranges, hcache⟩ := resize_frame hresize
      refine ⟨_, by rw [Session.step, hresize, Option.map_some], ?_⟩
      exact h.unmap hranges hcache ((resize_waiting_iff hresize).mpr hkeeps)
  | close => exact ⟨_, rfl, h.unmap rfl rfl (inside_none_iff.mpr hkeeps)⟩
  | tickIo queue => exact h.tickIo sort hadmits

/-- Without the condition a range waits behind the call that does not lie in the mapping. -/
theorem Inv.step_not_valid {s t : Session} (h : s.Inv) (sort : SortByBegin) {event : Event}
    (hkeeps : ¬ s.Keeps event) (hstep : s.step sort event = some t) : ¬ t.Valid := by
  intro hvalid
  refine hkeeps ?_
  cases event with
  | init size opened resized answer =>
      cases hstep
      have hwaiting : ∀ r ∈ (s.buffer.init size opened resized answer).2.dirtyRanges,
          r.Inside (s.buffer.init size opened resized answer).2.data := hvalid.waiting
      rw [(init_frame s.buffer size opened resized answer).1] at hwaiting
      exact (init_waiting_iff h).mp hwaiting
  | resize size resized answer =>
      obtain ⟨result, hresize, rfl⟩ := Option.map_eq_some_iff.mp hstep
      have hwaiting : ∀ r ∈ result.2.dirtyRanges, r.Inside result.2.data := hvalid.waiting
      rw [(resize_frame hresize).1] at hwaiting
      exact (resize_waiting_iff hresize).mp hwaiting
  | close =>
      cases hstep
      exact inside_none_iff.mp hvalid.waiting
  | writeData target n => trivial
  | tickIo queue => trivial

/-- In every state of a run the ranges that wait and those that were flushed lie in the mapping, and
no `Resize` or `Close` left a byte unsaved, exactly when every call that changes the mapping finds
no range waiting or makes one that the waiting ranges lie in. -/
theorem dirty_ranges_iff (sort : SortByBegin) {events : List Event}
    (hadmits : Guarded (step sort) Admits {} events) :
    (∀ first, first <+: events → ∃ s, exec (step sort) {} first = some s ∧ s.Valid) ↔
      Guarded (step sort) Keeps {} events :=
  @exec_defined_iff _ _ _ Keeps Inv Valid Admits (fun _ h => h.valid)
    (fun _ _ h hok => h.step sort hok.1 hok.2)
    (fun _ _ _ h _ hnot hstep => h.step_not_valid sort hnot hstep) _ _ inv_start hadmits

/-- A write that is flushed before the file grows and is mapped at another address, and a write that
is not flushed before the file is mapped at the same address again. -/
theorem dirty_ranges_grow :
    let events : List Event := [.init 8 .created true (.view 4096), .writeData 4096 2,
      .tickIo [⟨4096, 4098⟩], .resize 16 true (.view 8192), .writeData 8200 4,
      .resize 32 true (.view 8192)]
    ∃ s, exec (step insertionSort) {} events = some s ∧ s.Valid := by
  intro events
  let opened : Session := { buffer := { backupFile := some 8, data := some ⟨4096, 8⟩ } }
  let written : Session :=
    { buffer := { opened.buffer with dirtyRanges := [⟨4096, 4098⟩] }, unsaved := [4096, 4097] }
  let saved : Session :=
    { buffer := opened.buffer, flushed := [(some ⟨4096, 8⟩, ⟨4096, 4098⟩)] }
  have hopened : step insertionSort {} (.init 8 .created true (.view 4096)) = some opened := rfl
  have hwritten : opened.step insertionSort (.writeData 4096 2) = some written := rfl
  have hsaved : written.step insertionSort (.tickIo [⟨4096, 4098⟩]) = some saved := by
    simp only [step, FileBackedBuffer.tickIo, dequeueAll_eq]
    rfl
  have hrest : Guarded (step insertionSort) (fun s event => s.Admits event ∧ s.Keeps event) saved
      [.resize 16 true (.view 8192), .writeData 8200 4, .resize 32 true (.view 8192)] := by
    decide
  have hall : Guarded (step insertionSort) (fun s event => s.Admits event ∧ s.Keeps event) {}
      events := by
    refine ⟨⟨trivial, fun _ _ _ _ hr => absurd hr List.not_mem_nil⟩, fun t ht => ?_⟩
    cases hopened.symm.trans ht
    refine ⟨⟨by decide, trivial⟩, fun t ht => ?_⟩
    cases hwritten.symm.trans ht
    refine ⟨⟨List.Perm.refl _, trivial⟩, fun t ht => ?_⟩
    cases hsaved.symm.trans ht
    exact hrest
  exact (dirty_ranges_iff insertionSort (hall.mono fun _ _ h => h.1)).mpr
    (hall.mono fun _ _ h => h.2) events (List.prefix_refl _)

/-- The address of a byte that was written waits behind `Close`, and `TickIO` flushes it without a
mapping. -/
theorem not_dirty_ranges :
    ∃ s, exec (step insertionSort) {} [.init 8 .created true (.view 4096), .writeData 4096 1,
        .close, .tickIo [⟨4096, 4097⟩]] = some s ∧
      s.flushed = [(none, ⟨4096, 4097⟩)] ∧ ¬ s.Valid := by
  let closed : Session := { buffer := { dirtyRanges := [⟨4096, 4097⟩] } }
  have hclosed : exec (step insertionSort) {} [.init 8 .created true (.view 4096),
      .writeData 4096 1, .close] = some closed := rfl
  have hflushed : closed.step insertionSort (.tickIo [⟨4096, 4097⟩]) =
      some { flushed := [(none, ⟨4096, 4097⟩)] } := by
    simp only [step, FileBackedBuffer.tickIo, dequeueAll_eq]
    rfl
  refine ⟨_, exec_append_eq_some.mpr ⟨closed, hclosed, exec_cons_eq_some.mpr ⟨_, hflushed, rfl⟩⟩,
    rfl, fun hvalid => ?_⟩
  exact hvalid.flushed _ List.mem_cons_self

end Session

end Utilpp.File

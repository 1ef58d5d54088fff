import Utilpp.File.FileBackedBuffer
import Utilpp.Lib.Ranges

/-!
# Merging the dirty ranges

`TickIO` merges the ranges in place: an index `w` says where the ranges that are kept end, and the
loop reads behind it. `Compacted` is the invariant of the loop. The ranges that are kept are the
connected pieces of the union of all ranges, so that neither the order in the queue nor that of
ranges with one begin behind the sort makes a difference (`merge_ranges`).
-/

namespace Utilpp.File

open Lib

/-- The loop takes all ranges out of the queue. -/
theorem dequeueAll_eq (cache queue : List DirtyRange) :
    dequeueAll cache queue = (cache ++ queue, []) := by
  fun_induction dequeueAll cache queue with
  | case1 cache queue tmp hlast =>
      rw [List.length_take] at hlast
      show (cache ++ queue.take 10, queue.drop 10) = _
      rw [List.take_of_length_le (by omega), List.drop_of_length_le (by omega)]
  | case2 cache queue tmp hfull ih =>
      rw [ih, List.append_assoc, List.take_append_drop]

/-! ## The loop -/

/-- Each range ends behind its begin, or where it begins, and before the next one begins. -/
abbrev Disjoined (ranges : List DirtyRange) : Prop :=
  Separated DirtyRange.beginPos DirtyRange.endPos ranges

/-- The addresses, and the half steps between them, that the ranges touch. -/
abbrev Touched (ranges : List DirtyRange) (x : Nat) : Prop :=
  Touches DirtyRange.beginPos DirtyRange.endPos ranges x

/-- Behind the body of the loop for all indices below `i` the first ranges up to `w` are those
merged from the first `i`, and those from `i` on are as they were. -/
structure Compacted (ranges : List DirtyRange) (i : Nat) (s : List DirtyRange × Nat) : Prop where
  length : s.1.length = ranges.length
  rest : s.1.drop i = ranges.drop i
  behind : s.2 < i
  disjoined : Disjoined (s.1.take (s.2 + 1))
  touched : ∀ x, Touched (s.1.take (s.2 + 1)) x ↔ Touched (ranges.take i) x
  begins : ∀ r ∈ s.1.take (s.2 + 1), ∃ q ∈ ranges.take i, r.beginPos = q.beginPos

theorem take_concat {ranges : List DirtyRange} {w : Nat} {r : DirtyRange}
    (h : ranges[w]? = some r) : ranges.take (w + 1) = ranges.take w ++ [r] := by
  rw [List.take_add_one, h]
  rfl

/-- The first range is kept. -/
theorem compacted_start {ranges : List DirtyRange} {first : DirtyRange}
    (hfirst : ranges[0]? = some first) (hle : first.beginPos ≤ first.endPos) :
    Compacted ranges 1 (ranges, 0) where
  length := rfl
  rest := rfl
  behind := Nat.zero_lt_one
  disjoined := by
    rw [take_concat hfirst]
    exact separated_cons.mpr ⟨hle, fun s hs => absurd hs List.not_mem_nil, separated_nil⟩
  touched _ := Iff.rfl
  begins r hr := ⟨r, hr, rfl⟩

section Step

variable {ranges cache : List DirtyRange} {i w : Nat} {last next : DirtyRange}

/-- The range that the loop reads is one that it has not changed. -/
theorem Compacted.read (h : Compacted ranges i (cache, w)) (hnext : ranges[i]? = some next) :
    cache[i]? = some next := by
  have hdrop : (cache.drop i)[0]? = (ranges.drop i)[0]? := congrArg (·[0]?) h.rest
  rw [List.getElem?_drop, List.getElem?_drop, Nat.add_zero, hnext] at hdrop
  exact hdrop

theorem Compacted.rest_succ (h : Compacted ranges i (cache, w)) :
    cache.drop (i + 1) = ranges.drop (i + 1) := by
  rw [← List.drop_drop, ← List.drop_drop, h.rest]

/-- The last range kept begins where one of the ranges read so far does. -/
theorem Compacted.last_le (h : Compacted ranges i (cache, w)) (hlast : cache[w]? = some last)
    (hnext : ranges[i]? = some next)
    (hsorted : ranges.Pairwise fun a b => a.beginPos ≤ b.beginPos) :
    last.beginPos ≤ next.beginPos := by
  have hmem : last ∈ cache.take (w + 1) := by
    rw [take_concat hlast]
    exact List.mem_append_right _ List.mem_cons_self
  obtain ⟨q, hq, hbegin⟩ := h.begins last hmem
  have hpair : (ranges.take (i + 1)).Pairwise fun a b => a.beginPos ≤ b.beginPos :=
    hsorted.sublist (List.take_sublist _ _)
  rw [take_concat hnext] at hpair
  rw [hbegin]
  exact (List.pairwise_append.mp hpair).2.2 q hq next List.mem_cons_self

theorem Compacted.begins_concat (h : Compacted ranges i (cache, w)) (hlast : cache[w]? = some last)
    (hnext : ranges[i]? = some next) :
    ∀ r ∈ cache.take w ++ [last], ∃ q ∈ ranges.take (i + 1), r.beginPos = q.beginPos := by
  intro r hr
  obtain ⟨q, hq, hbegin⟩ := h.begins r ((take_concat hlast).symm ▸ hr)
  rw [take_concat hnext]
  exact ⟨q, List.mem_append_left _ hq, hbegin⟩

/-- The next range touches the last one kept and is merged with it. -/
theorem Compacted.merge (h : Compacted ranges i (cache, w)) (hlast : cache[w]? = some last)
    (hnext : ranges[i]? = some next) (hbefore : last.beginPos ≤ next.beginPos)
    (htouch : next.beginPos ≤ last.endPos) :
    Compacted ranges (i + 1)
      (cache.set w { last with endPos := max last.endPos next.endPos }, w) := by
  have hw : w < i := h.behind
  have hroom : w < cache.length := (List.getElem?_eq_some_iff.mp hlast).1
  let merged : DirtyRange := { last with endPos := max last.endPos next.endPos }
  have hmerged : (cache.set w merged).take (w + 1) = cache.take w ++ [merged] := by
    rw [take_concat (List.getElem?_set_self hroom), List.take_set_of_le (Nat.le_refl w)]
  refine ⟨?_, ?_, Nat.lt_succ_of_lt hw, ?_, fun x => ?_, fun r hr => ?_⟩
  · rw [List.length_set]
    exact h.length
  · rw [List.drop_set_of_lt (by omega)]
    exact h.rest_succ
  · show Disjoined ((cache.set w merged).take (w + 1))
    have hdisjoined : Disjoined (cache.take w ++ [last]) := take_concat hlast ▸ h.disjoined
    rw [hmerged]
    exact hdisjoined.widen rfl (Nat.le_max_left _ _)
  · show Touched ((cache.set w merged).take (w + 1)) x ↔ _
    have htouched : Touched (cache.take w ++ [last]) x ↔ Touched (ranges.take i) x :=
      take_concat hlast ▸ h.touched x
    have hwiden : Touched (cache.take w ++ [merged]) x ↔ Touched (cache.take w ++ [last]) x ∨
        (2 * next.beginPos ≤ x ∧ x ≤ 2 * next.endPos) :=
      touches_widen rfl rfl hbefore htouch
    rw [hmerged, take_concat hnext]
    exact hwiden.trans ((or_congr_left htouched).trans touches_concat.symm)
  · have hr : r ∈ (cache.set w merged).take (w + 1) := hr
    have hbegins := h.begins_concat hlast hnext
    rw [hmerged] at hr
    rcases List.mem_append.mp hr with hr | hr
    · exact hbegins r (List.mem_append_left _ hr)
    · rw [List.mem_singleton.mp hr]
      exact hbegins last (List.mem_append_right _ List.mem_cons_self)

/-- The next range begins behind the last one kept and is kept as well. -/
theorem Compacted.keep (h : Compacted ranges i (cache, w)) (hlast : cache[w]? = some last)
    (hnext : ranges[i]? = some next) (hvalid : next.beginPos ≤ next.endPos)
    (hgap : last.endPos < next.beginPos) :
    Compacted ranges (i + 1) (cache.set (w + 1) next, w + 1) := by
  have hw : w < i := h.behind
  have hi : i < cache.length := (List.getElem?_eq_some_iff.mp (h.read hnext)).1
  have happended : (cache.set (w + 1) next).take (w + 1 + 1) =
      cache.take w ++ [last] ++ [next] := by
    rw [take_concat (List.getElem?_set_self (by omega)),
      List.take_set_of_le (Nat.le_refl (w + 1)), take_concat hlast]
  refine ⟨?_, ?_, Nat.succ_lt_succ hw, ?_, fun x => ?_, fun r hr => ?_⟩
  · rw [List.length_set]
    exact h.length
  · rw [List.drop_set_of_lt (by omega)]
    exact h.rest_succ
  · show Disjoined ((cache.set (w + 1) next).take (w + 1 + 1))
    have hdisjoined : Disjoined (cache.take w ++ [last]) := take_concat hlast ▸ h.disjoined
    rw [happended]
    exact hdisjoined.concat hvalid hgap
  · show Touched ((cache.set (w + 1) next).take (w + 1 + 1)) x ↔ _
    have htouched : Touched (cache.take w ++ [last]) x ↔ Touched (ranges.take i) x :=
      take_concat hlast ▸ h.touched x
    rw [happended, take_concat hnext]
    exact touches_concat.trans ((or_congr_left htouched).trans touches_concat.symm)
  · have hr : r ∈ (cache.set (w + 1) next).take (w + 1 + 1) := hr
    rw [happended] at hr
    rcases List.mem_append.mp hr with hr | hr
    · exact h.begins_concat hlast hnext r hr
    · rw [take_concat hnext]
      exact ⟨next, List.mem_append_right _ List.mem_cons_self,
        congrArg _ (List.mem_singleton.mp hr)⟩

/-- The body of the loop for index `i`. -/
theorem Compacted.step {s : List DirtyRange × Nat} (h : Compacted ranges i s)
    (hi : i < ranges.length) (hvalid : ∀ r ∈ ranges, r.beginPos ≤ r.endPos)
    (hsorted : ranges.Pairwise fun a b => a.beginPos ≤ b.beginPos) :
    ∃ t, mergeStep s i = some t ∧ Compacted ranges (i + 1) t := by
  obtain ⟨cache, w⟩ := s
  have hlength : cache.length = ranges.length := h.length
  have hw : w < i := h.behind
  obtain ⟨next, hnext⟩ : ∃ next, ranges[i]? = some next := ⟨_, List.getElem?_eq_getElem hi⟩
  obtain ⟨last, hlast⟩ : ∃ last, cache[w]? = some last :=
    ⟨_, List.getElem?_eq_getElem (by omega)⟩
  unfold mergeStep
  simp only [h.read hnext, hlast, Option.bind_eq_bind, Option.bind_some]
  split
  · rename_i htouch
    exact ⟨_, rfl, h.merge hlast hnext (h.last_le hlast hnext hsorted) htouch⟩
  · rename_i hgap
    have hmem : next ∈ ranges := List.mem_of_getElem? hnext
    exact ⟨_, rfl, h.keep hlast hnext (hvalid next hmem) (Nat.not_le.mp hgap)⟩

end Step

/-- The loop from index `i` on. -/
theorem Compacted.run {ranges : List DirtyRange} (hvalid : ∀ r ∈ ranges, r.beginPos ≤ r.endPos)
    (hsorted : ranges.Pairwise fun a b => a.beginPos ≤ b.beginPos) (n : Nat) {i : Nat}
    {s : List DirtyRange × Nat} (h : Compacted ranges i s) (hn : i + n = ranges.length) :
    ∃ t, exec mergeStep s (List.range' i n) = some t ∧ Compacted ranges ranges.length t := by
  induction n generalizing i s with
  | zero => exact ⟨s, rfl, hn ▸ h⟩
  | succ n ih =>
      obtain ⟨t, hstep, ht⟩ := h.step (by omega) hvalid hsorted
      obtain ⟨u, hrun, hu⟩ := ih ht (by omega)
      exact ⟨u, exec_cons_eq_some.mpr ⟨t, hstep, hrun⟩, hu⟩

/-- What is left of sorted ranges is separated and touches what they touch. -/
theorem mergeRanges_spec {ranges : List DirtyRange} (hne : ranges ≠ [])
    (hvalid : ∀ r ∈ ranges, r.beginPos ≤ r.endPos)
    (hsorted : ranges.Pairwise fun a b => a.beginPos ≤ b.beginPos) :
    ∃ merged, mergeRanges ranges = some merged ∧ Disjoined merged ∧
      ∀ x, Touched merged x ↔ Touched ranges x := by
  have hpos : 0 < ranges.length := List.length_pos_iff.mpr hne
  have hfirst := List.getElem?_eq_getElem hpos
  have hstart := compacted_start hfirst (hvalid _ (List.getElem_mem hpos))
  obtain ⟨⟨cache, w⟩, hrun, hdone⟩ := hstart.run hvalid hsorted (ranges.length - 1) (by omega)
  refine ⟨cache.take (w + 1), ?_, hdone.disjoined, fun x => ?_⟩
  · rw [mergeRanges, hrun]
    rfl
  · have htouched := hdone.touched x
    rwa [List.take_length] at htouched

/-! ## The flush -/

/-- Separated ranges are determined by what they touch. -/
theorem Disjoined.ext {ranges ranges' : List DirtyRange} (h : Disjoined ranges)
    (h' : Disjoined ranges') (heq : ∀ x, Touched ranges x ↔ Touched ranges' x) :
    ranges = ranges' := by
  refine Separated.ext (fun r s hbegin hend => ?_) h h' heq
  cases r
  cases s
  cases hbegin
  cases hend
  rfl

/-- `TickIO` flushes separated ranges that touch what the ranges in the cache and the queue do, and
empties both. -/
theorem tickIo_spec (b : FileBackedBuffer) (sort : SortByBegin) {queue : List DirtyRange}
    (hvalid : ∀ r ∈ b.dirtyRangeCache ++ queue, r.beginPos ≤ r.endPos) :
    ∃ flushed, b.tickIo sort queue =
        some (flushed, { b with dirtyRanges := [], dirtyRangeCache := [] }) ∧
      Disjoined flushed ∧ ∀ x, Touched flushed x ↔ Touched (b.dirtyRangeCache ++ queue) x := by
  simp only [FileBackedBuffer.tickIo, dequeueAll_eq]
  split
  · rename_i hempty
    rw [List.eq_nil_of_length_eq_zero hempty]
    exact ⟨[], rfl, separated_nil, fun _ => Iff.rfl⟩
  · rename_i hpos
    have hperm := sort.perm (b.dirtyRangeCache ++ queue)
    have hne : sort.run (b.dirtyRangeCache ++ queue) ≠ [] := by
      intro hnil
      exact hpos (by rw [← hperm.length_eq, hnil, List.length_nil])
    obtain ⟨merged, hmerge, hdisjoined, htouched⟩ :=
      mergeRanges_spec hne (fun r hr => hvalid r (hperm.mem_iff.mp hr)) (sort.sorted _)
    refine ⟨merged, ?_, hdisjoined, fun x => (htouched x).trans (touches_perm hperm)⟩
    rw [hmerge]
    rfl

/-- For every queue, `TickIO` flushes ranges that are sorted, end before the next one begins and
have the bytes of the ranges that were queued; another order in the queue, or another sort, leads to
the same ranges, and the cache is empty afterwards. -/
theorem merge_ranges (b : FileBackedBuffer) (sort : SortByBegin) {queue : List DirtyRange}
    (hvalid : ∀ r ∈ b.dirtyRangeCache ++ queue, r.beginPos ≤ r.endPos) :
    ∃ flushed b', b.tickIo sort queue = some (flushed, b') ∧
      flushed.Pairwise (fun r s => r.beginPos ≤ s.beginPos) ∧
      flushed.Pairwise (fun r s => r.endPos < s.beginPos) ∧
      (∀ x, (∃ r ∈ flushed, r.beginPos ≤ x ∧ x < r.endPos) ↔
        ∃ r ∈ b.dirtyRangeCache ++ queue, r.beginPos ≤ x ∧ x < r.endPos) ∧
      b'.dirtyRangeCache = [] ∧ b'.dirtyRanges = [] ∧
      ∀ (sort' : SortByBegin) (queue' : List DirtyRange), queue'.Perm queue →
        b.tickIo sort' queue' = some (flushed, b') := by
  obtain ⟨flushed, htick, hdisjoined, htouched⟩ := tickIo_spec b sort hvalid
  refine ⟨flushed, _, htick, ?_, hdisjoined.apart, fun x => covers_congr htouched, rfl, rfl, ?_⟩
  · refine hdisjoined.apart.imp_of_mem fun hr _ hapart => ?_
    exact Nat.le_trans (hdisjoined.nonempty _ hr) (Nat.le_of_lt hapart)
  · intro sort' queue' hperm
    have hall : (b.dirtyRangeCache ++ queue').Perm (b.dirtyRangeCache ++ queue) :=
      hperm.append_left _
    obtain ⟨flushed', htick', hdisjoined', htouched'⟩ :=
      tickIo_spec b sort' fun r hr => hvalid r (hall.mem_iff.mp hr)
    have hsame : ∀ x, Touched flushed' x ↔ Touched flushed x :=
      fun x => (htouched' x).trans ((touches_perm hall).trans (htouched x).symm)
    rw [htick', hdisjoined'.ext hdisjoined hsame]

/-- Ranges that touch, that lie in one another and that lie apart. -/
theorem merge_ranges_four :
    ∃ flushed b', FileBackedBuffer.tickIo {} insertionSort
        [⟨8, 12⟩, ⟨0, 4⟩, ⟨4, 6⟩, ⟨9, 10⟩] = some (flushed, b') ∧
      flushed.Pairwise (fun r s => r.endPos < s.beginPos) ∧ b'.dirtyRangeCache = [] := by
  obtain ⟨flushed, b', htick, -, hapart, -, hcache, -⟩ :=
    @merge_ranges {} insertionSort [⟨8, 12⟩, ⟨0, 4⟩, ⟨4, 6⟩, ⟨9, 10⟩] (by decide)
  exact ⟨flushed, b', htick, hapart, hcache⟩

example : mergeRanges [⟨0, 4⟩, ⟨4, 6⟩, ⟨8, 12⟩, ⟨9, 10⟩] = some [⟨0, 6⟩, ⟨8, 12⟩] := by decide

end Utilpp.File

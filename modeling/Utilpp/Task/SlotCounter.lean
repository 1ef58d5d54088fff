import Utilpp.Handle
import Utilpp.Lib.Transition
import Mathlib.Data.Finset.Disjoint
import Mathlib.Data.Finset.Insert
import Mathlib.Data.Finset.Erase
import Mathlib.Data.List.TakeDrop

/-!
# Slots of parallel tasks

`FTaskSlotCounter` keeps the indices of its slots in two sets, and their futures and handles in two
vectors. `SetSize` resizes the vectors and fills `FreeIndex` anew, but it leaves `UsedIndex` as it
is. `slots_partition_iff` says that the sets stay apart and cover the slots exactly as long as
`SetSize` finds no slot in use.
-/

namespace Utilpp.Task

open Lib

/-- `FinishedSlotData` -/
structure FinishedSlotData where
  id : UInt8
  handle : UInt32
  deriving DecidableEq, Repr

/-- `FTaskSlotCounter`. A future is a number, and none is a future without a shared state. -/
structure SlotCounter where
  outData : List FinishedSlotData := []
  freeIndex : Finset UInt8 := ∅
  usedIndex : Finset UInt8 := ∅
  futures : List (Option Nat) := []
  handles : List UInt32 := []
  deriving DecidableEq

/-- The elements of a `std::set<uint8_t>` in their order. -/
def ascending (set : Finset UInt8) : List UInt8 :=
  ((List.range 256).map UInt8.ofNat).filter (· ∈ set)

namespace SlotCounter

/-- The loop that inserts the indices of `parallelTaskNum` slots. -/
def insertSlots (set : Finset UInt8) (parallelTaskNum : UInt8) : Finset UInt8 :=
  (List.range parallelTaskNum.toNat).foldl (fun set i => insert (UInt8.ofNat i) set) set

/-- The constructors: without a number of slots, and with one. -/
def create : Option UInt8 → SlotCounter
  | none => {}
  | some parallelTaskNum =>
      { futures := List.replicate parallelTaskNum.toNat none
        handles := List.replicate parallelTaskNum.toNat nullCommonHandleID
        freeIndex := insertSlots ∅ parallelTaskNum }

variable (s : SlotCounter)

/-- `SetSize` -/
def setSize (parallelTaskNum : UInt8) : SlotCounter :=
  { s with
    futures := s.futures.takeD parallelTaskNum.toNat none
    handles := s.handles.takeD parallelTaskNum.toNat nullCommonHandleID
    freeIndex := insertSlots ∅ parallelTaskNum }

/-- `HasSpace` -/
def hasSpace : Bool := decide (s.freeIndex.card ≠ 0)

/-- `HasTask` -/
def hasTask : Bool := decide (s.usedIndex.card > 0)

/-- `GetFreeSlot` -/
def getFreeSlot : Option UInt8 := if s.hasSpace then (ascending s.freeIndex).head? else none

/-- `SetFuture`, which is undefined when it stores outside of the vectors. -/
def setFuture (i : UInt8) (handle : UInt32) (future : Option Nat) : Option (Bool × SlotCounter) :=
  if i ∈ s.freeIndex then
    if i.toNat < s.futures.length ∧ i.toNat < s.handles.length then
      some (true, { s with
        freeIndex := s.freeIndex.erase i
        usedIndex := insert i s.usedIndex
        futures := s.futures.set i.toNat future
        handles := s.handles.set i.toNat handle })
    else none
  else some (false, s)

/-- The loop of `CheckFinished` over `UsedIndex`. It is undefined when it goes outside of the
vectors or waits for a future without a shared state. -/
def poll (ready : Nat → Bool) (out : List FinishedSlotData) (id : UInt8) :
    Option (List FinishedSlotData) :=
  match s.futures[id.toNat]? with
  | some (some future) =>
      if ready future then (s.handles[id.toNat]?).map fun handle => out ++ [⟨id, handle⟩]
      else some out
  | _ => none

/-- The second loop of `CheckFinished`. -/
def release (data : FinishedSlotData) : SlotCounter :=
  { s with
    freeIndex := insert data.id s.freeIndex
    usedIndex := s.usedIndex.erase data.id }

/-- `CheckFinished`. `ready` says which of the futures are ready. -/
def checkFinished (ready : Nat → Bool) : Option SlotCounter :=
  ((ascending s.usedIndex).foldlM (s.poll ready) []).map fun out =>
    out.foldl release { s with outData := out }

/-- The future in a slot. -/
def futureOf (i : UInt8) : Option Nat := (s.futures[i.toNat]?).join

end SlotCounter

/-! ## Sets of indices -/

theorem mem_ascending {set : Finset UInt8} {i : UInt8} : i ∈ ascending set ↔ i ∈ set := by
  unfold ascending
  rw [List.mem_filter, decide_eq_true_iff, List.mem_map]
  refine ⟨fun h => h.2, fun h => ⟨⟨i.toNat, ?_, UInt8.ofNat_toNat⟩, h⟩⟩
  exact List.mem_range.mpr i.toNat_lt

theorem nodup_ascending (set : Finset UInt8) : (ascending set).Nodup := by
  refine List.Nodup.filter _ (List.Nodup.map_on ?_ List.nodup_range)
  intro m hm n hn h
  have hmod := congrArg UInt8.toNat h
  rw [UInt8.toNat_ofNat', UInt8.toNat_ofNat'] at hmod
  rwa [Nat.mod_eq_of_lt (List.mem_range.mp hm), Nat.mod_eq_of_lt (List.mem_range.mp hn)] at hmod

namespace SlotCounter

theorem mem_insertSlots {parallelTaskNum i : UInt8} :
    i ∈ insertSlots ∅ parallelTaskNum ↔ i.toNat < parallelTaskNum.toNat := by
  have hfold : ∀ (indices : List Nat) (set : Finset UInt8),
      i ∈ indices.foldl (fun set k => insert (UInt8.ofNat k) set) set ↔
        i ∈ set ∨ ∃ k ∈ indices, UInt8.ofNat k = i := by
    intro indices
    induction indices with
    | nil => exact fun set => ⟨Or.inl, fun h => h.elim id fun ⟨k, hk, _⟩ => nomatch hk⟩
    | cons k indices ih =>
        intro set
        rw [List.foldl_cons, ih, Finset.mem_insert, List.exists_mem_cons_iff, eq_comm (a := i)]
        tauto
  unfold insertSlots
  rw [hfold]
  constructor
  · rintro (h | ⟨k, hk, rfl⟩)
    · exact absurd h (Finset.notMem_empty i)
    · rw [UInt8.toNat_ofNat']
      exact Nat.lt_of_le_of_lt (Nat.mod_le _ _) (List.mem_range.mp hk)
  · exact fun h => Or.inr ⟨i.toNat, List.mem_range.mpr h, UInt8.ofNat_toNat⟩

variable {s t : SlotCounter}

theorem hasTask_eq_false : s.hasTask = false ↔ s.usedIndex = ∅ := by
  unfold hasTask
  rw [decide_eq_false_iff_not, Nat.not_lt, Nat.le_zero, Finset.card_eq_zero]

theorem mem_of_getFreeSlot {i : UInt8} (h : s.getFreeSlot = some i) : i ∈ s.freeIndex := by
  unfold getFreeSlot at h
  split at h
  · exact mem_ascending.mp (List.mem_of_head? h)
  · cases h

/-! ## The loops of `CheckFinished` -/

/-- The first loop collects some of the indices, in their order. -/
theorem foldlM_poll {ready : Nat → Bool} {indices : List UInt8}
    {out result : List FinishedSlotData} (h : indices.foldlM (s.poll ready) out = some result) :
    ∃ more, result = out ++ more ∧ (more.map (·.id)).Sublist indices := by
  induction indices generalizing out with
  | nil =>
      cases h
      exact ⟨[], (List.append_nil _).symm, List.Sublist.slnil⟩
  | cons i indices ih =>
      rw [List.foldlM_cons] at h
      obtain ⟨middle, hmiddle, hrest⟩ := Option.bind_eq_some_iff.mp h
      obtain ⟨more, rfl, hsub⟩ := ih hrest
      unfold poll at hmiddle
      split at hmiddle
      · split at hmiddle
        · obtain ⟨handle, -, rfl⟩ := Option.map_eq_some_iff.mp hmiddle
          exact ⟨⟨i, handle⟩ :: more, List.append_assoc _ _ _, hsub.cons_cons i⟩
        · cases hmiddle
          exact ⟨more, rfl, hsub.cons i⟩
      · cases hmiddle

/-- The first loop is defined when every index is one of a slot whose future has a shared state. -/
theorem foldlM_poll_defined {ready : Nat → Bool} {indices : List UInt8}
    (h : ∀ i ∈ indices, (∃ k, s.futures[i.toNat]? = some (some k)) ∧ i.toNat < s.handles.length)
    (out : List FinishedSlotData) : ∃ result, indices.foldlM (s.poll ready) out = some result := by
  induction indices generalizing out with
  | nil => exact ⟨out, rfl⟩
  | cons i indices ih =>
      obtain ⟨⟨k, hk⟩, hhandle⟩ := h i List.mem_cons_self
      have hpoll : ∃ middle, s.poll ready out i = some middle := by
        unfold poll
        rw [hk, List.getElem?_eq_getElem hhandle]
        dsimp only
        split <;> exact ⟨_, rfl⟩
      obtain ⟨middle, hmiddle⟩ := hpoll
      rw [List.foldlM_cons, hmiddle]
      exact ih (fun j hj => h j (List.mem_cons_of_mem i hj)) middle

/-- The second loop moves the collected indices from one set to the other. -/
theorem foldl_release (out : List FinishedSlotData) (s : SlotCounter) :
    (out.foldl release s).outData = s.outData ∧ (out.foldl release s).futures = s.futures ∧
      (out.foldl release s).handles = s.handles ∧
      (∀ i, i ∈ (out.foldl release s).freeIndex ↔ i ∈ s.freeIndex ∨ i ∈ out.map (·.id)) ∧
      ∀ i, i ∈ (out.foldl release s).usedIndex ↔ i ∈ s.usedIndex ∧ i ∉ out.map (·.id) := by
  induction out generalizing s with
  | nil => simp
  | cons data out ih =>
      obtain ⟨hout, hfutures, hhandles, hfree, hused⟩ := ih (s.release data)
      refine ⟨hout, hfutures, hhandles, fun i => ?_, fun i => ?_⟩
      · rw [List.foldl_cons, hfree, release, Finset.mem_insert, List.map_cons, List.mem_cons]
        tauto
      · rw [List.foldl_cons, hused, release, Finset.mem_erase, List.map_cons, List.mem_cons]
        tauto

/-- What `CheckFinished` does. -/
structure Checked (s t : SlotCounter) : Prop where
  sublist : (t.outData.map (·.id)).Sublist (ascending s.usedIndex)
  futures : t.futures = s.futures
  handles : t.handles = s.handles
  free : ∀ i, i ∈ t.freeIndex ↔ i ∈ s.freeIndex ∨ i ∈ t.outData.map (·.id)
  used : ∀ i, i ∈ t.usedIndex ↔ i ∈ s.usedIndex ∧ i ∉ t.outData.map (·.id)

theorem checked_of_checkFinished {ready : Nat → Bool} (h : s.checkFinished ready = some t) :
    s.Checked t := by
  obtain ⟨out, hout, rfl⟩ := Option.map_eq_some_iff.mp h
  obtain ⟨more, hmore, hsub⟩ := foldlM_poll hout
  rw [List.nil_append] at hmore
  subst hmore
  obtain ⟨hdata, hfutures, hhandles, hfree, hused⟩ :=
    foldl_release out { s with outData := out }
  have hids := congrArg (List.map (·.id)) hdata
  refine ⟨?_, hfutures, hhandles, fun i => ?_, fun i => ?_⟩
  · rw [hids]
    exact hsub
  · rw [hids]
    exact hfree i
  · rw [hids]
    exact hused i

/-- The reported indices were in use. -/
theorem Checked.mem_used (h : s.Checked t) {i : UInt8} (hi : i ∈ t.outData.map (·.id)) :
    i ∈ s.usedIndex := mem_ascending.mp (h.sublist.subset hi)

/-! ## The futures in the slots -/

theorem futureOf_eq_some {i : UInt8} {k : Nat} :
    s.futureOf i = some k ↔ s.futures[i.toNat]? = some (some k) := Option.join_eq_some_iff

/-- `resize` adds futures without a shared state only. -/
theorem getElem?_takeD {futures : List (Option Nat)} {n i k : Nat}
    (h : (futures.takeD n none)[i]? = some (some k)) : futures[i]? = some (some k) := by
  induction n generalizing futures i with
  | zero => cases h
  | succ n ih =>
      cases i with
      | zero =>
          cases futures with
          | nil => cases h
          | cons future futures => exact h
      | succ i =>
          have htail : futures.tail[i]? = some (some k) := ih h
          rwa [List.getElem?_tail] at htail

theorem futureOf_setSize {parallelTaskNum i : UInt8} {k : Nat}
    (h : (s.setSize parallelTaskNum).futureOf i = some k) : s.futureOf i = some k :=
  futureOf_eq_some.mpr (getElem?_takeD (futureOf_eq_some.mp h))

theorem futureOf_create (parallelTaskNum : Option UInt8) (i : UInt8) :
    (create parallelTaskNum).futureOf i = none := by
  cases parallelTaskNum with
  | none => rfl
  | some parallelTaskNum =>
      show ((List.replicate parallelTaskNum.toNat none)[i.toNat]?).join = none
      rw [List.getElem?_replicate]
      split <;> rfl

/-- What `SetFuture` does when it returns true. -/
structure Stored (s t : SlotCounter) (i : UInt8) (future : Option Nat) : Prop where
  wasFree : i ∈ s.freeIndex
  free : t.freeIndex = s.freeIndex.erase i
  used : t.usedIndex = insert i s.usedIndex
  futures : t.futures.length = s.futures.length
  handles : t.handles.length = s.handles.length
  here : t.futureOf i = future
  elsewhere : ∀ j, j ≠ i → t.futureOf j = s.futureOf j

theorem setFuture_result {i : UInt8} {handle : UInt32} {future : Option Nat} {answer : Bool}
    (h : s.setFuture i handle future = some (answer, t)) :
    (answer = false ∧ t = s) ∨ (answer = true ∧ s.Stored t i future) := by
  unfold setFuture at h
  split at h
  · rename_i hfree
    split at h
    · rename_i hbound
      cases h
      refine Or.inr ⟨rfl, hfree, rfl, rfl, List.length_set, List.length_set, ?_, fun j hj => ?_⟩
      · show ((s.futures.set i.toNat future)[i.toNat]?).join = future
        rw [List.getElem?_set_self hbound.1]
        rfl
      · show ((s.futures.set i.toNat future)[j.toNat]?).join = s.futureOf j
        rw [List.getElem?_set_ne fun hij => hj (UInt8.toNat_inj.mp hij.symm)]
        rfl
    · cases h
  · cases h
    exact Or.inl ⟨rfl, rfl⟩

end SlotCounter

/-! ## Runs -/

namespace Slots

/-- The calls. A future that `SetFuture` is given has a shared state or not. -/
inductive Label where
  | setSize (parallelTaskNum : UInt8)
  | setFuture (i : UInt8) (handle : UInt32) (valid : Bool)
  | checkFinished (ready : Nat → Bool)

/-- The counter, the number of futures that were stored, and those that were reported. -/
structure Run where
  counter : SlotCounter
  stored : Nat := 0
  reported : List Nat := []

def step (s : Run) : Label → Option Run
  | .setSize parallelTaskNum => some { s with counter := s.counter.setSize parallelTaskNum }
  | .setFuture i handle valid =>
      (s.counter.setFuture i handle (if valid then some s.stored else none)).map fun result =>
        { s with counter := result.2, stored := s.stored + result.1.toNat }
  | .checkFinished ready =>
      (s.counter.checkFinished ready).map fun counter =>
        { s with
          counter := counter
          reported := s.reported ++ counter.outData.filterMap fun data =>
            s.counter.futureOf data.id }

/-- What the two sets promise. -/
structure Run.Partitioned (s : Run) : Prop where
  disjoint : Disjoint s.counter.freeIndex s.counter.usedIndex
  covered : ∀ i, i ∈ s.counter.freeIndex ∪ s.counter.usedIndex ↔
    i.toNat < s.counter.futures.length
  free : ∀ i, s.counter.getFreeSlot = some i → i ∉ s.counter.usedIndex
  touched : ∀ i ∈ s.counter.usedIndex, i.toNat < s.counter.futures.length
  vectors : s.counter.handles.length = s.counter.futures.length
  once : s.reported.Nodup

/-- The future in a slot is one that was stored. While the slot is in use it has not been reported,
and no other slot in use has it. -/
structure Run.Tracked (s : Run) : Prop where
  stored : ∀ i k, s.counter.futureOf i = some k → k < s.stored
  before : ∀ k ∈ s.reported, k < s.stored
  pending : ∀ i ∈ s.counter.usedIndex, ∀ k, s.counter.futureOf i = some k → k ∉ s.reported
  single : ∀ i ∈ s.counter.usedIndex, ∀ j ∈ s.counter.usedIndex, ∀ k,
    s.counter.futureOf i = some k → s.counter.futureOf j = some k → i = j
  once : s.reported.Nodup

/-- The invariant of the runs that are permitted. -/
structure Run.Inv (s : Run) : Prop extends Run.Tracked s where
  apart : ∀ i, i ∈ s.counter.freeIndex → i ∉ s.counter.usedIndex
  slots : ∀ i, i ∈ s.counter.freeIndex ∨ i ∈ s.counter.usedIndex ↔
    i.toNat < s.counter.futures.length
  vectors : s.counter.handles.length = s.counter.futures.length

/-- `SetSize` finds no slot in use. -/
def Idle (s : Run) : Label → Prop
  | .setSize _ => s.counter.hasTask = false
  | _ => True

theorem inv_create (parallelTaskNum : Option UInt8) :
    Run.Inv { counter := SlotCounter.create parallelTaskNum } where
  stored i k h := nomatch (SlotCounter.futureOf_create parallelTaskNum i).symm.trans h
  before k h := nomatch h
  pending i _ k h := nomatch (SlotCounter.futureOf_create parallelTaskNum i).symm.trans h
  single i _ j _ k h := nomatch (SlotCounter.futureOf_create parallelTaskNum i).symm.trans h
  once := List.nodup_nil
  apart i _ := by cases parallelTaskNum <;> exact Finset.notMem_empty i
  slots i := by
    cases parallelTaskNum with
    | none =>
        refine ⟨fun h => ?_, fun h => absurd h (Nat.not_lt_zero _)⟩
        exact (h.elim (Finset.notMem_empty i) (Finset.notMem_empty i)).elim
    | some parallelTaskNum =>
        show (i ∈ SlotCounter.insertSlots ∅ parallelTaskNum ∨ i ∈ ∅) ↔
          i.toNat < (List.replicate parallelTaskNum.toNat none).length
        rw [SlotCounter.mem_insertSlots, List.length_replicate]
        exact or_iff_left (Finset.notMem_empty i)
  vectors := by cases parallelTaskNum <;> simp [SlotCounter.create]

variable {s t : Run}

theorem Run.Inv.partitioned (h : s.Inv) : s.Partitioned where
  disjoint := Finset.disjoint_left.mpr fun _ => h.apart _
  covered i := by rw [Finset.mem_union, h.slots]
  free i hi := h.apart i (SlotCounter.mem_of_getFreeSlot hi)
  touched i hi := (h.slots i).mp (Or.inr hi)
  vectors := h.vectors
  once := h.once

theorem Run.Inv.setSize (h : s.Inv) (parallelTaskNum : UInt8) (hidle : s.counter.hasTask = false) :
    Run.Inv { s with counter := s.counter.setSize parallelTaskNum } where
  stored i k hk := h.stored i k (SlotCounter.futureOf_setSize hk)
  before := h.before
  pending i hi k hk := h.pending i hi k (SlotCounter.futureOf_setSize hk)
  single i hi j hj k hk hk' :=
    h.single i hi j hj k (SlotCounter.futureOf_setSize hk) (SlotCounter.futureOf_setSize hk')
  once := h.once
  apart i _ hi := by
    rw [show (s.counter.setSize parallelTaskNum).usedIndex = s.counter.usedIndex from rfl,
      SlotCounter.hasTask_eq_false.mp hidle] at hi
    exact Finset.notMem_empty i hi
  slots i := by
    show (i ∈ SlotCounter.insertSlots ∅ parallelTaskNum ∨ i ∈ s.counter.usedIndex) ↔
      i.toNat < (s.counter.futures.takeD parallelTaskNum.toNat none).length
    rw [SlotCounter.hasTask_eq_false.mp hidle, SlotCounter.mem_insertSlots, List.takeD_length]
    exact or_iff_left (Finset.notMem_empty i)
  vectors := by simp only [SlotCounter.setSize, List.takeD_length]

theorem Run.Inv.setFuture (h : s.Inv) {i : UInt8} {handle : UInt32} {valid : Bool}
    {answer : Bool} {counter : SlotCounter}
    (hcall : s.counter.setFuture i handle (if valid then some s.stored else none) =
      some (answer, counter)) :
    Run.Inv { s with counter := counter, stored := s.stored + answer.toNat } := by
  obtain ⟨rfl, rfl⟩ | ⟨rfl, hset⟩ := SlotCounter.setFuture_result hcall
  · exact h
  -- the future in the slot is the new one, and the others are older
  have hhere : ∀ k, counter.futureOf i = some k → k = s.stored := by
    intro k hk
    rw [hset.here] at hk
    split at hk
    · exact (Option.some.inj hk).symm
    · cases hk
  have hused : ∀ j, j ∈ counter.usedIndex → j = i ∨ j ≠ i ∧ j ∈ s.counter.usedIndex := by
    intro j hj
    rw [hset.used, Finset.mem_insert] at hj
    by_cases hji : j = i
    · exact Or.inl hji
    · exact Or.inr ⟨hji, hj.resolve_left hji⟩
  have holder : ∀ j, j ≠ i → ∀ k, counter.futureOf j = some k → k < s.stored :=
    fun j hj k hk => h.stored j k (hset.elsewhere j hj ▸ hk)
  refine ⟨⟨fun j k hk => ?_, fun k hk => ?_, fun j hj k hk hmem => ?_,
    fun j hj j' hj' k hk hk' => ?_, h.once⟩, fun j hj hju => ?_, fun j => ?_, ?_⟩
  · by_cases hji : j = i
    · subst hji
      exact Nat.lt_succ_of_le (hhere k hk).le
    · exact Nat.lt_succ_of_lt (holder j hji k hk)
  · exact Nat.lt_succ_of_lt (h.before k hk)
  · obtain rfl | ⟨hji, hj⟩ := hused j hj
    · exact absurd (h.before k hmem) (hhere k hk ▸ Nat.lt_irrefl _)
    · exact h.pending j hj k (hset.elsewhere j hji ▸ hk) hmem
  · obtain rfl | ⟨hji, hj⟩ := hused j hj <;> obtain rfl | ⟨hji', hj'⟩ := hused j' hj'
    · rfl
    · exact absurd (holder j' hji' k hk') (hhere k hk ▸ Nat.lt_irrefl _)
    · exact absurd (holder j hji k hk) (hhere k hk' ▸ Nat.lt_irrefl _)
    · exact h.single j hj j' hj' k (hset.elsewhere j hji ▸ hk) (hset.elsewhere j' hji' ▸ hk')
  · have hj : j ∈ s.counter.freeIndex.erase i := hset.free ▸ hj
    obtain rfl | ⟨-, hju⟩ := hused j hju
    · exact Finset.notMem_erase j _ hj
    · exact h.apart j (Finset.mem_of_mem_erase hj) hju
  · show j ∈ counter.freeIndex ∨ j ∈ counter.usedIndex ↔ j.toNat < counter.futures.length
    rw [hset.futures, ← h.slots, hset.free, hset.used, Finset.mem_erase, Finset.mem_insert]
    by_cases hji : j = i
    · subst hji
      exact ⟨fun _ => Or.inl hset.wasFree, fun _ => Or.inr (Or.inl rfl)⟩
    · simp only [hji, ne_eq, not_false_eq_true, true_and, false_or]
  · exact hset.handles.trans (h.vectors.trans hset.futures.symm)

theorem Run.Inv.checkFinished (h : s.Inv) {counter : SlotCounter}
    (hchecked : s.counter.Checked counter) :
    Run.Inv { s with
      counter := counter
      reported := s.reported ++ counter.outData.filterMap fun data =>
        s.counter.futureOf data.id } := by
  have hsame : ∀ i, counter.futureOf i = s.counter.futureOf i := by
    intro i
    rw [SlotCounter.futureOf, hchecked.futures, SlotCounter.futureOf]
  have hnodup : (counter.outData.map (·.id)).Nodup :=
    hchecked.sublist.nodup (nodup_ascending s.counter.usedIndex)
  have hreport : ∀ k, k ∈ counter.outData.filterMap (fun data => s.counter.futureOf data.id) →
      ∃ i ∈ counter.outData.map (·.id), s.counter.futureOf i = some k := by
    intro k hk
    obtain ⟨data, hdata, hfuture⟩ := List.mem_filterMap.mp hk
    exact ⟨data.id, List.mem_map_of_mem hdata, hfuture⟩
  have hkeeps : ∀ i, i ∈ counter.usedIndex → i ∈ s.counter.usedIndex :=
    fun i hi => ((hchecked.used i).mp hi).1
  refine ⟨⟨fun i k hk => ?_, fun k hk => ?_, fun i hi k hk hmem => ?_,
    fun i hi j hj k hk hk' => ?_, ?_⟩, fun i hi hiu => ?_, fun i => ?_, ?_⟩
  · exact h.stored i k (hsame i ▸ hk)
  · obtain hk | hk := List.mem_append.mp hk
    · exact h.before k hk
    · obtain ⟨i, -, hfuture⟩ := hreport k hk
      exact h.stored i k hfuture
  · have hk : s.counter.futureOf i = some k := hsame i ▸ hk
    obtain hmem | hmem := List.mem_append.mp hmem
    · exact h.pending i (hkeeps i hi) k hk hmem
    · obtain ⟨j, hj, hfuture⟩ := hreport k hmem
      have hij := h.single i (hkeeps i hi) j (hchecked.mem_used hj) k hk hfuture
      exact ((hchecked.used i).mp hi).2 (hij ▸ hj)
  · exact h.single i (hkeeps i hi) j (hkeeps j hj) k (hsame i ▸ hk) (hsame j ▸ hk')
  · refine List.Nodup.append h.once ?_ fun k hold hnew => ?_
    · refine List.pairwise_filterMap.mpr ((List.pairwise_map.mp hnodup).imp_of_mem ?_)
      intro first second hfirst hsecond hne k hk k' hk' heq
      have hfirst := hchecked.mem_used (List.mem_map_of_mem hfirst)
      have hsecond := hchecked.mem_used (List.mem_map_of_mem hsecond)
      exact hne (h.single _ hfirst _ hsecond k hk (heq ▸ hk'))
    · obtain ⟨i, hi, hfuture⟩ := hreport k hnew
      exact h.pending i (hchecked.mem_used hi) k hfuture hold
  · obtain ⟨hused, hnot⟩ := (hchecked.used i).mp hiu
    exact ((hchecked.free i).mp hi).elim (fun hfree => h.apart i hfree hused) hnot
  · show i ∈ counter.freeIndex ∨ i ∈ counter.usedIndex ↔ i.toNat < counter.futures.length
    rw [hchecked.futures, ← h.slots, hchecked.free, hchecked.used]
    by_cases hi : i ∈ counter.outData.map (·.id)
    · exact ⟨fun _ => Or.inr (hchecked.mem_used hi), fun _ => Or.inl (Or.inr hi)⟩
    · simp only [hi, or_false, not_false_eq_true, and_true]
  · show counter.handles.length = counter.futures.length
    rw [hchecked.handles, hchecked.futures]
    exact h.vectors

/-- Without the condition an index in use is free as well, or it is not one of a slot. -/
theorem Run.setSize_not_partitioned {parallelTaskNum : UInt8}
    (hused : s.counter.hasTask ≠ false) :
    ¬ Run.Partitioned { s with counter := s.counter.setSize parallelTaskNum } := by
  rintro ⟨hdisjoint, hcovered, -, -, -, -⟩
  obtain ⟨i, hi⟩ := Finset.nonempty_iff_ne_empty.mpr fun hempty =>
    hused (SlotCounter.hasTask_eq_false.mpr hempty)
  have hlt := (hcovered i).mp (Finset.mem_union_right _ hi)
  have hfree : i ∈ SlotCounter.insertSlots ∅ parallelTaskNum := by
    rw [SlotCounter.mem_insertSlots]
    simpa only [SlotCounter.setSize, List.takeD_length] using hlt
  exact Finset.disjoint_left.mp hdisjoint hfree hi

theorem step_inv (s : Run) (label : Label) (t : Run) (h : s.Inv) (hidle : Idle s label)
    (hstep : step s label = some t) : t.Inv := by
  cases label with
  | setSize parallelTaskNum =>
      cases hstep
      exact h.setSize parallelTaskNum hidle
  | setFuture i handle valid =>
      obtain ⟨⟨answer, counter⟩, hcall, rfl⟩ := Option.map_eq_some_iff.mp hstep
      exact h.setFuture hcall
  | checkFinished ready =>
      obtain ⟨counter, hcall, rfl⟩ := Option.map_eq_some_iff.mp hstep
      exact h.checkFinished (SlotCounter.checked_of_checkFinished hcall)

theorem step_not_partitioned (s : Run) (label : Label) (_ : s.Inv) (hidle : ¬ Idle s label) :
    ∃ t, step s label = some t ∧ ¬ t.Partitioned := by
  cases label with
  | setSize parallelTaskNum => exact ⟨_, rfl, Run.setSize_not_partitioned hidle⟩
  | setFuture i handle valid => exact absurd trivial hidle
  | checkFinished ready => exact absurd trivial hidle

/-- Where the sets are a partition a call is undefined only for a future without a shared state. -/
theorem step_defined (h : s.Partitioned)
    (hvalid : ∀ i ∈ s.counter.usedIndex, s.counter.futureOf i ≠ none) (label : Label) :
    ∃ t, step s label = some t := by
  cases label with
  | setSize parallelTaskNum => exact ⟨_, rfl⟩
  | setFuture i handle valid =>
      have hcall : ∀ future, ∃ result, s.counter.setFuture i handle future = some result := by
        intro future
        unfold SlotCounter.setFuture
        split
        · rename_i hfree
          have hlt := (h.covered i).mp (Finset.mem_union_left _ hfree)
          rw [if_pos ⟨hlt, h.vectors ▸ hlt⟩]
          exact ⟨_, rfl⟩
        · exact ⟨_, rfl⟩
      obtain ⟨result, hresult⟩ := hcall (if valid then some s.stored else none)
      exact ⟨_, Option.map_eq_some_iff.mpr ⟨result, hresult, rfl⟩⟩
  | checkFinished ready =>
      have hslots : ∀ i ∈ ascending s.counter.usedIndex,
          (∃ k, s.counter.futures[i.toNat]? = some (some k)) ∧
            i.toNat < s.counter.handles.length := by
        intro i hi
        have hi := mem_ascending.mp hi
        obtain ⟨k, hk⟩ := Option.ne_none_iff_exists'.mp (hvalid i hi)
        exact ⟨⟨k, SlotCounter.futureOf_eq_some.mp hk⟩, h.vectors ▸ h.touched i hi⟩
      obtain ⟨out, hout⟩ : ∃ out,
          (ascending s.counter.usedIndex).foldlM (s.counter.poll ready) [] = some out :=
        SlotCounter.foldlM_poll_defined hslots []
      have hcall : s.counter.checkFinished ready = some _ :=
        Option.map_eq_some_iff.mpr ⟨out, hout, rfl⟩
      exact ⟨_, Option.map_eq_some_iff.mpr ⟨_, hcall, rfl⟩⟩

/-- In every state of a run the free slots and those in use are a partition of the slots, and no
future was reported twice, exactly when every `SetSize` of the run finds no slot in use. -/
theorem slots_partition_iff (parallelTaskNum : Option UInt8) (labels : List Label) :
    (∀ first, first <+: labels → ∀ s,
      exec step { counter := SlotCounter.create parallelTaskNum } first = some s →
        s.Partitioned) ↔
    Guarded step Idle { counter := SlotCounter.create parallelTaskNum } labels :=
  exec_always_iff (fun _ h => h.partitioned) step_inv step_not_partitioned
    (inv_create parallelTaskNum) labels

/-- `SetSize(2)` while slot 0 is in use makes it free as well, and `SetSize(0)` leaves
`CheckFinished` with an index outside of the futures. -/
theorem not_slots_partition :
    (∃ s, exec step { counter := SlotCounter.create (some 2) }
        [.setFuture 0 7 true, .setSize 2] = some s ∧
      s.counter.getFreeSlot = some 0 ∧ 0 ∈ s.counter.usedIndex ∧ ¬ s.Partitioned) ∧
    exec step { counter := SlotCounter.create (some 2) }
      [.setFuture 0 7 true, .setSize 0, .checkFinished fun _ => true] = none := by
  refine ⟨⟨_, rfl, by decide, by decide, fun h => ?_⟩, by decide⟩
  exact h.free 0 (by decide) (by decide)

end Slots

end Utilpp.Task

import Mathlib.Data.BitVec
import Mathlib.Data.List.Nodup
import Mathlib.Logic.Function.Basic
import Utilpp.Handle

/-!
# Handles that threads draw from one counter

`CommonHandle_t(std::atomic<T>& counter)` adds one to the counter, and once more when it met the
null id. The two `fetch_add` of one construction are two steps, and other threads may draw in
between. A construction is completed with its last `fetch_add`, which settles its `ID`; what is
left of it does not touch the counter.
-/

namespace Utilpp.Handle

variable {ι : Type*} {w : Nat}

/-! ## The constructor -/

/-- `NullCommonHandleID`, the greatest value of an unsigned type of `w` bits. -/
def nullCommonHandleID (w : Nat) : BitVec w := BitVec.allOnes w

/-- `counter.fetch_add(1)`: the old value and the counter behind it. -/
def fetchAdd (counter : BitVec w) : BitVec w × BitVec w := (counter, counter + 1)

/-- Where a thread is: in front of the first `fetch_add` of a handle, or of the second one. -/
inductive At where
  | first
  | second
deriving DecidableEq, Repr

/-- The counter, the place of each thread, and the handles in the order of their completion. -/
structure Threads (ι : Type*) (w : Nat) where
  counter : BitVec w
  place : ι → At
  completed : List (BitVec w)

/-- No thread has drawn from the counter. -/
def Threads.start (counter : BitVec w) : Threads ι w := ⟨counter, fun _ => .first, []⟩

variable [DecidableEq ι]

/-- The next `fetch_add` of the thread `t`. -/
def Threads.step (s : Threads ι w) (t : ι) : Threads ι w :=
  let (id, counter) := fetchAdd s.counter
  match s.place t with
  | .first =>
      if id ≠ nullCommonHandleID w then
        ⟨counter, s.place, s.completed ++ [id]⟩
      else
        ⟨counter, Function.update s.place t .second, s.completed⟩
  | .second => ⟨counter, Function.update s.place t .first, s.completed ++ [id]⟩

/-- The `fetch_add`s of the threads in the order of `schedule`. -/
def Threads.run (s : Threads ι w) (schedule : List ι) : Threads ι w :=
  schedule.foldl Threads.step s

/-! ## The values of the counter -/

/-- The first `n` values of a counter that begins at `init`. -/
def drawn (init : BitVec w) (n : Nat) : List (BitVec w) :=
  (List.range n).map fun k => init + BitVec.ofNat w k

theorem drawn_succ (init : BitVec w) (n : Nat) :
    drawn init (n + 1) = drawn init n ++ [init + BitVec.ofNat w n] := by
  rw [drawn, List.range_succ, List.map_append]
  rfl

theorem drawn_nodup (init : BitVec w) {n : Nat} (h : n ≤ 2 ^ w) : (drawn init n).Nodup := by
  refine List.Nodup.map_on (fun i hi j hj heq => ?_) List.nodup_range
  have hi' : i < 2 ^ w := (List.mem_range.mp hi).trans_le h
  have hj' : j < 2 ^ w := (List.mem_range.mp hj).trans_le h
  have hnat := congrArg BitVec.toNat (add_left_cancel heq)
  rwa [BitVec.toNat_ofNat, BitVec.toNat_ofNat, Nat.mod_eq_of_lt hi', Nat.mod_eq_of_lt hj'] at hnat

/-- A whole cycle of the counter has every value. -/
theorem mem_drawn (init id : BitVec w) : id ∈ drawn init (2 ^ w) := by
  refine List.mem_map.mpr ⟨(id - init).toNat, List.mem_range.mpr (id - init).isLt, ?_⟩
  rw [BitVec.ofNat_toNat, BitVec.setWidth_eq, BitVec.add_comm, BitVec.sub_add_cancel]

/-- The valid ids among the first `n` values. -/
def valid (init : BitVec w) (n : Nat) : List (BitVec w) :=
  (drawn init n).filter (· != nullCommonHandleID w)

theorem valid_succ (init : BitVec w) {n : Nat}
    (h : init + BitVec.ofNat w n ≠ nullCommonHandleID w) :
    valid init (n + 1) = valid init n ++ [init + BitVec.ofNat w n] := by
  rw [valid, drawn_succ, List.filter_append, List.filter_cons_of_pos (by simpa using h)]
  rfl

theorem valid_succ_of_null (init : BitVec w) {n : Nat}
    (h : init + BitVec.ofNat w n = nullCommonHandleID w) :
    valid init (n + 1) = valid init n := by
  rw [valid, drawn_succ, List.filter_append, List.filter_cons_of_neg (by simpa using h),
    List.filter_nil, List.append_nil]
  rfl

/-- A whole cycle has every id but the null id. -/
theorem length_valid (init : BitVec w) : (valid init (2 ^ w)).length = 2 ^ w - 1 := by
  have hnodup : (drawn init (2 ^ w)).Nodup := drawn_nodup init (Nat.le_refl _)
  have herase : valid init (2 ^ w) = (drawn init (2 ^ w)).erase (nullCommonHandleID w) := by
    rw [hnodup.erase_eq_filter]
    rfl
  rw [herase, List.length_erase_of_mem (mem_drawn init _), drawn, List.length_map,
    List.length_range]

theorem valid_nodup (init : BitVec w) {n : Nat} (h : n ≤ 2 ^ w) : (valid init n).Nodup :=
  (drawn_nodup init h).filter _

theorem ne_null_of_mem_valid {init id : BitVec w} {n : Nat} (h : id ∈ valid init n) :
    id ≠ nullCommonHandleID w :=
  bne_iff_ne.mp (List.mem_filter.mp h).2

/-! ## One cycle -/

/-- What `n` steps have done to the threads, in any order. -/
structure After (init : BitVec w) (n : Nat) (s : Threads ι w) : Prop where
  counter : s.counter = init + BitVec.ofNat w n
  completed : s.completed = valid init n
  /-- a thread draws again only behind the null id -/
  place : ∀ t, s.place t = .second → nullCommonHandleID w ∈ drawn init n

omit [DecidableEq ι] in
theorem after_start (init : BitVec w) : After init 0 (Threads.start init : Threads ι w) where
  counter := (BitVec.add_zero init).symm
  completed := rfl
  place := fun _ h => nomatch h

/-- Within the first cycle, a step takes the next value of the counter. -/
theorem After.step {init : BitVec w} {n : Nat} {s : Threads ι w} (h : After init n s)
    (hlt : n < 2 ^ w) (t : ι) : After init (n + 1) (s.step t) := by
  obtain ⟨counter, place, completed⟩ := s
  obtain ⟨hcounter, hcompleted, hplace⟩ := h
  dsimp only at hcounter hcompleted hplace
  subst hcounter hcompleted
  have hnext : init + BitVec.ofNat w n + 1 = init + BitVec.ofNat w (n + 1) := by
    rw [BitVec.ofNat_add, BitVec.add_assoc]
    rfl
  have hmem : nullCommonHandleID w ∈ drawn init n → nullCommonHandleID w ∈ drawn init (n + 1) := by
    rw [drawn_succ]
    exact List.mem_append_left _
  cases hat : place t with
  | first =>
      by_cases hnull : init + BitVec.ofNat w n = nullCommonHandleID w
      · have hstep : Threads.step ⟨init + BitVec.ofNat w n, place, valid init n⟩ t =
            ⟨init + BitVec.ofNat w (n + 1), Function.update place t .second, valid init n⟩ := by
          simp only [Threads.step, fetchAdd, hat, hnull, ne_eq, not_true_eq_false, if_false]
          rw [← hnull, hnext]
        rw [hstep]
        refine ⟨rfl, (valid_succ_of_null init hnull).symm, fun _ _ => ?_⟩
        rw [drawn_succ, hnull]
        exact List.mem_append_right _ (List.mem_singleton_self _)
      · have hstep : Threads.step ⟨init + BitVec.ofNat w n, place, valid init n⟩ t =
            ⟨init + BitVec.ofNat w (n + 1), place,
              valid init n ++ [init + BitVec.ofNat w n]⟩ := by
          simp only [Threads.step, fetchAdd, hat, hnull, ne_eq, not_false_eq_true, if_true, hnext]
        rw [hstep]
        exact ⟨rfl, (valid_succ init hnull).symm, fun u hu => hmem (hplace u hu)⟩
  | second =>
      -- the null id was met in this cycle, so the counter is not there again
      have hnull : init + BitVec.ofNat w n ≠ nullCommonHandleID w := by
        intro heq
        have hnodup := drawn_nodup init (Nat.succ_le_of_lt hlt)
        rw [Nat.succ_eq_add_one, drawn_succ, heq] at hnodup
        exact (List.nodup_append.mp hnodup).2.2 _ (hplace t hat) _
          (List.mem_singleton_self _) rfl
      have hstep : Threads.step ⟨init + BitVec.ofNat w n, place, valid init n⟩ t =
          ⟨init + BitVec.ofNat w (n + 1), Function.update place t .first,
            valid init n ++ [init + BitVec.ofNat w n]⟩ := by
        simp only [Threads.step, fetchAdd, hat, hnext]
      rw [hstep]
      refine ⟨rfl, (valid_succ init hnull).symm, fun u hu => ?_⟩
      dsimp only at hu
      by_cases hut : u = t
      · rw [hut, Function.update_self] at hu
        cases hu
      · rw [Function.update_of_ne hut] at hu
        exact hmem (hplace u hu)

theorem After.run {init : BitVec w} {n : Nat} {s : Threads ι w} (h : After init n s)
    (schedule : List ι) (hle : n + schedule.length ≤ 2 ^ w) :
    After init (n + schedule.length) (s.run schedule) := by
  induction schedule generalizing n s with
  | nil => exact h
  | cons t schedule ih =>
      rw [List.length_cons] at hle ⊢
      have hrest := ih (h.step (by omega) t) (by omega)
      rwa [show n + 1 + schedule.length = n + (schedule.length + 1) by omega] at hrest

/-! ## Any number of steps -/

theorem Threads.run_append (s : Threads ι w) (first second : List ι) :
    s.run (first ++ second) = (s.run first).run second :=
  List.foldl_append

/-- A completed handle stays the way it is. -/
theorem Threads.completed_step (s : Threads ι w) (t : ι) :
    s.completed <+: (s.step t).completed := by
  cases hat : s.place t with
  | first =>
      by_cases hnull : s.counter = nullCommonHandleID w
      · simp [Threads.step, fetchAdd, hat, hnull]
      · simp [Threads.step, fetchAdd, hat, hnull]
  | second => simp [Threads.step, fetchAdd, hat]

theorem Threads.completed_run (s : Threads ι w) (schedule : List ι) :
    s.completed <+: (s.run schedule).completed := by
  induction schedule generalizing s with
  | nil => exact List.prefix_rfl
  | cons t schedule ih => exact (s.completed_step t).trans (ih (s.step t))

/-- The handles that are completed first are valid ids of one cycle, in the order of the cycle. -/
theorem take_completed (init : BitVec w) (schedule : List ι) :
    ∃ n ≤ 2 ^ w,
      ((Threads.start init).run schedule).completed.take (2 ^ w - 1) <+: valid init n := by
  rcases Nat.le_total schedule.length (2 ^ w) with hle | hge
  · have hafter := (after_start (ι := ι) init).run schedule (by omega)
    rw [Nat.zero_add] at hafter
    refine ⟨schedule.length, hle, ?_⟩
    rw [hafter.completed]
    exact List.take_prefix _ _
  · -- the rest of the run only adds handles behind those of the first cycle
    have hlength : (schedule.take (2 ^ w)).length = 2 ^ w := List.length_take_of_le hge
    have hafter := (after_start (ι := ι) init).run (schedule.take (2 ^ w)) (by omega)
    rw [Nat.zero_add, hlength] at hafter
    obtain ⟨later, hlater⟩ := Threads.completed_run
      ((Threads.start init).run (schedule.take (2 ^ w))) (schedule.drop (2 ^ w))
    refine ⟨2 ^ w, Nat.le_refl _, ?_⟩
    rw [← List.take_append_drop (2 ^ w) schedule, Threads.run_append, ← hlater, hafter.completed,
      List.take_left' (length_valid init)]

/-- The first `2 ^ w - 1` handles that the threads complete are valid and distinct. -/
theorem completed_unique (init : BitVec w) (schedule : List ι) :
    let first := ((Threads.start init).run schedule).completed.take (2 ^ w - 1)
    (∀ id ∈ first, id ≠ nullCommonHandleID w) ∧ first.Nodup := by
  obtain ⟨n, hn, hfirst⟩ := take_completed init schedule
  exact ⟨fun id hid => ne_null_of_mem_valid (hfirst.subset hid),
    (valid_nodup init hn).sublist hfirst.sublist⟩

/-- A cycle of steps completes that many handles, whichever threads take them. -/
theorem length_completed (init : BitVec w) {schedule : List ι} (h : schedule.length = 2 ^ w) :
    ((Threads.start init).run schedule).completed.length = 2 ^ w - 1 := by
  have hafter := (after_start (ι := ι) init).run schedule (by omega)
  rw [hafter.completed, Nat.zero_add, h, length_valid]

/-! ## A thread alone -/

/-- A thread that is not interrupted draws the number that `drawID` takes from the counter. -/
theorem run_alone (s : Threads ι 32) {t : ι} (h : s.place t = .first) :
    ∃ steps, let alone := s.run (List.replicate steps t)
      alone.completed = s.completed ++ [(drawID ⟨s.counter⟩).1.toBitVec] ∧
        alone.counter = (drawID ⟨s.counter⟩).2.toBitVec ∧ alone.place = s.place := by
  obtain ⟨counter, place, completed⟩ := s
  dsimp only at h
  by_cases hnull : counter = nullCommonHandleID 32
  · have hdraw : drawID ⟨counter⟩ = (⟨counter + 1⟩, ⟨counter + 1 + 1⟩) := by
      rw [hnull]
      rfl
    refine ⟨2, ?_⟩
    rw [hdraw]
    have hplace : Function.update (Function.update place t .second) t .first = place := by
      rw [Function.update_idem, ← h, Function.update_eq_self]
    simp [Threads.run, Threads.step, fetchAdd, h, hnull, hplace]
  · have hne : (⟨counter⟩ : UInt32) ≠ Utilpp.nullCommonHandleID :=
      fun heq => hnull (congrArg UInt32.toBitVec heq)
    have hdraw : drawID ⟨counter⟩ = (⟨counter⟩, ⟨counter + 1⟩) := by
      rw [drawID, if_pos hne]
      rfl
    refine ⟨1, ?_⟩
    rw [hdraw]
    simp [Threads.run, Threads.step, fetchAdd, h, hnull]

/-- The other thread draws twice between the two `fetch_add` of a handle. -/
example : ((Threads.start (3#2) : Threads Bool 2).run [true, false, false, true]).completed =
    [0#2, 1#2, 2#2] := by
  decide

end Utilpp.Handle

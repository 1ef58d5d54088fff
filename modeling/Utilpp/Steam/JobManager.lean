import Utilpp.Lib.Transition
import Mathlib.Data.List.Nodup

/-!
# The Steam job manager

`FSteamJobManager` keeps the jobs that wait for an answer. `JobCompleted` and `JobFailed` look the
job up, call its callback through the record in the table and then erase the record through the
iterator of the lookup. The callback runs in between and may call the manager again, so a run is a
list of the calls that are made, by whoever is running, and of the returns of the innermost
callback.

A record is known by `node`, the number of records made before it. `added`, `cancelled` and
`calls` keep what happened; the code has no such fields.
-/

namespace Utilpp.Steam

open Lib

/-- `SteamJobData_t`. The callbacks may do anything, so nothing of them is kept. -/
structure SteamJobData (ID : Type) where
  id : ID
  node : Nat
  deriving DecidableEq, Repr

/-- The error that `FailedCB` is called with. -/
inductive SteamClientError where
  | requestErrFromServer
  deriving DecidableEq, Repr

/-- What a callback is called with: `CB` with the message and its body, `FailedCB` with an
error. -/
inductive Answer (Msg : Type) where
  | cb (msg : Msg) (bodyView : List UInt8)
  | failedCB (error : SteamClientError)

/-- A callback of the job was called. -/
structure Call (ID Msg : Type) where
  job : SteamJobData ID
  answer : Answer Msg

/-- The table, the jobs whose callback is running, innermost first, and what happened so far. -/
structure JobManager (ID Msg : Type) where
  jobs : List (SteamJobData ID)
  running : List (SteamJobData ID)
  added : List (SteamJobData ID)
  cancelled : List (SteamJobData ID)
  calls : List (Call ID Msg)

namespace JobManager

variable {ID Msg : Type} [DecidableEq ID]

/-- A manager without jobs. -/
def empty : JobManager ID Msg :=
  { jobs := [], running := [], added := [], cancelled := [], calls := [] }

/-- `Jobs.find` -/
def find (manager : JobManager ID Msg) (id : ID) : Option (SteamJobData ID) :=
  manager.jobs.find? fun job => job.id = id

/-- `AddJob`, with the result of `try_emplace`. -/
def addJob (manager : JobManager ID Msg) (id : ID) : Bool × JobManager ID Msg :=
  match manager.find id with
  | some _ => (false, manager)
  | none =>
      let job := { id := id, node := manager.added.length }
      (true, { manager with jobs := job :: manager.jobs, added := job :: manager.added })

/-- The lookup of `JobCompleted` and `JobFailed` and the call of the callback. -/
def answer (manager : JobManager ID Msg) (id : ID) (answer : Answer Msg) : JobManager ID Msg :=
  match manager.find id with
  | none => manager
  | some job =>
      { manager with running := job :: manager.running, calls := ⟨job, answer⟩ :: manager.calls }

/-- `JobFailed`, up to the return of the callback. -/
def jobFailed (manager : JobManager ID Msg) (id : ID) : JobManager ID Msg :=
  manager.answer id (.failedCB .requestErrFromServer)

/-- `JobCompleted`, up to the return of the callback. -/
def jobCompleted (getTargetJobID : Msg → ID) (manager : JobManager ID Msg) (msg : Msg)
    (bodyView : List UInt8) : JobManager ID Msg :=
  manager.answer (getTargetJobID msg) (.cb msg bodyView)

/-- `CancelJob` -/
def cancelJob (manager : JobManager ID Msg) (id : ID) : JobManager ID Msg :=
  match manager.find id with
  | none => manager
  | some job =>
      { manager with jobs := manager.jobs.erase job, cancelled := job :: manager.cancelled }

/-- The innermost callback returns and `Jobs.erase(itr)` follows. It is undefined when the record
of the iterator is not in the table any more. -/
def callbackReturns (manager : JobManager ID Msg) : Option (JobManager ID Msg) :=
  match manager.running with
  | [] => none
  | job :: running =>
      -- the iterator was taken before the callback
      if job ∈ manager.jobs then
        some { manager with jobs := manager.jobs.erase job, running := running }
      else none

/-- The jobs whose callback was called, the last one first. -/
def answered (manager : JobManager ID Msg) : List (SteamJobData ID) := manager.calls.map Call.job

end JobManager

/-- A call of the manager, or the return of the innermost callback. -/
inductive JobEvent (ID Msg : Type) where
  | addJob (id : ID)
  | jobFailed (id : ID)
  | jobCompleted (msg : Msg) (bodyView : List UInt8)
  | cancelJob (id : ID)
  | callbackReturns

variable {ID Msg : Type} [DecidableEq ID] {getTargetJobID : Msg → ID}

/-- The manager after one event. -/
def jobStep (getTargetJobID : Msg → ID) (manager : JobManager ID Msg) :
    JobEvent ID Msg → Option (JobManager ID Msg)
  | .addJob id => some (manager.addJob id).2
  | .jobFailed id => some (manager.jobFailed id)
  | .jobCompleted msg bodyView => some (manager.jobCompleted getTargetJobID msg bodyView)
  | .cancelJob id => some (manager.cancelJob id)
  | .callbackReturns => manager.callbackReturns

/-- A callback returns only while one is running. -/
def JobEvent.Possible (manager : JobManager ID Msg) : JobEvent ID Msg → Prop
  | .callbackReturns => manager.running ≠ []
  | _ => True

/-- No job is cancelled or answered again while its callback is running. -/
def JobEvent.SparesRunning (getTargetJobID : Msg → ID) (manager : JobManager ID Msg) :
    JobEvent ID Msg → Prop
  | .jobFailed id => ∀ job ∈ manager.running, job.id ≠ id
  | .jobCompleted msg _ => ∀ job ∈ manager.running, job.id ≠ getTargetJobID msg
  | .cancelJob id => ∀ job ∈ manager.running, job.id ≠ id
  | _ => True

namespace JobManager

/-! ## One event -/

theorem find_some {manager : JobManager ID Msg} {id : ID} {job : SteamJobData ID}
    (h : manager.find id = some job) : job ∈ manager.jobs ∧ job.id = id :=
  ⟨List.mem_of_find?_eq_some h, by simpa using List.find?_some h⟩

theorem find_none {manager : JobManager ID Msg} {id : ID} (h : manager.find id = none) :
    ∀ job ∈ manager.jobs, job.id ≠ id :=
  fun job hjob heq => absurd (decide_eq_true heq) (List.find?_eq_none.mp h job hjob)

/-- What an event that spares the running jobs does. -/
inductive Effect (manager : JobManager ID Msg) : JobManager ID Msg → Prop where
  | unchanged : Effect manager manager
  | added (id : ID) (hfree : ∀ job ∈ manager.jobs, job.id ≠ id) :
      Effect manager
        { manager with
          jobs := ⟨id, manager.added.length⟩ :: manager.jobs
          added := ⟨id, manager.added.length⟩ :: manager.added }
  | called (job : SteamJobData ID) (answer : Answer Msg) (hjob : job ∈ manager.jobs)
      (hrunning : job ∉ manager.running) :
      Effect manager
        { manager with
          running := job :: manager.running
          calls := ⟨job, answer⟩ :: manager.calls }
  | cancelled (job : SteamJobData ID) (hjob : job ∈ manager.jobs)
      (hrunning : job ∉ manager.running) :
      Effect manager
        { manager with
          jobs := manager.jobs.erase job
          cancelled := job :: manager.cancelled }
  | returned (job : SteamJobData ID) (running : List (SteamJobData ID))
      (hrunning : manager.running = job :: running) (hjob : job ∈ manager.jobs) :
      Effect manager { manager with jobs := manager.jobs.erase job, running := running }

theorem answer_effect {manager : JobManager ID Msg} {id : ID} {answer : Answer Msg}
    (hspares : ∀ job ∈ manager.running, job.id ≠ id) :
    Effect manager (manager.answer id answer) := by
  rw [JobManager.answer]
  split
  · exact .unchanged
  · next job hfind =>
    obtain ⟨hjob, hid⟩ := find_some hfind
    exact .called job answer hjob fun hrunning => hspares job hrunning hid

theorem step_effect {manager manager' : JobManager ID Msg} {event : JobEvent ID Msg}
    (hspares : event.SparesRunning getTargetJobID manager)
    (hstep : jobStep getTargetJobID manager event = some manager') : Effect manager manager' := by
  cases event with
  | addJob id =>
      cases hstep
      rw [addJob]
      split
      · exact .unchanged
      · next hfind => exact .added id (find_none hfind)
  | jobFailed id =>
      cases hstep
      exact answer_effect hspares
  | jobCompleted msg bodyView =>
      cases hstep
      exact answer_effect hspares
  | cancelJob id =>
      cases hstep
      rw [cancelJob]
      split
      · exact .unchanged
      · next job hfind =>
        obtain ⟨hjob, hid⟩ := find_some hfind
        exact .cancelled job hjob fun hrunning => hspares job hrunning hid
  | callbackReturns =>
      simp only [jobStep, callbackReturns] at hstep
      split at hstep
      · exact nomatch hstep
      · next job running hrunning =>
        split at hstep
        · next hjob =>
          cases hstep
          exact .returned job running hrunning hjob
        · exact nomatch hstep

/-! ## The invariant -/

/-- Every job that was added is in the table until it is cancelled or its callback has returned,
and a job in the table was answered only if its callback is running. -/
structure Consistent (manager : JobManager ID Msg) : Prop where
  ids : (manager.jobs.map SteamJobData.id).Nodup
  nodes : ∀ job ∈ manager.added, job.node < manager.added.length
  known : ∀ job ∈ manager.jobs, job ∈ manager.added
  alive : ∀ job ∈ manager.running, job ∈ manager.jobs
  nested : manager.running.Nodup
  begun : ∀ job ∈ manager.running, job ∈ manager.answered
  once : manager.answered.Nodup
  answeredAdded : ∀ job ∈ manager.answered, job ∈ manager.added
  cancelledAdded : ∀ job ∈ manager.cancelled, job ∈ manager.added
  left : ∀ job ∈ manager.added, job ∈ manager.jobs ↔
    job ∉ manager.cancelled ∧ (job ∈ manager.answered → job ∈ manager.running)

omit [DecidableEq ID] in
theorem consistent_empty : (empty : JobManager ID Msg).Consistent where
  ids := List.nodup_nil
  nodes := nofun
  known := nofun
  alive := nofun
  nested := List.nodup_nil
  begun := nofun
  once := List.nodup_nil
  answeredAdded := nofun
  cancelledAdded := nofun
  left := nofun

omit [DecidableEq ID] in
theorem Consistent.nodup {manager : JobManager ID Msg} (h : manager.Consistent) :
    manager.jobs.Nodup := h.ids.of_map _

omit [DecidableEq ID] in
/-- A job that waits in the table without a running callback was not answered. -/
theorem Consistent.not_answered {manager : JobManager ID Msg} (h : manager.Consistent)
    {job : SteamJobData ID} (hjob : job ∈ manager.jobs) (hrunning : job ∉ manager.running) :
    job ∉ manager.answered :=
  fun hanswered => hrunning (((h.left job (h.known job hjob)).mp hjob).2 hanswered)

omit [DecidableEq ID] in
/-- A job gets an id that is free. -/
theorem Consistent.add {manager : JobManager ID Msg} (h : manager.Consistent) {id : ID}
    (hfree : ∀ job ∈ manager.jobs, job.id ≠ id) :
    Consistent
      { manager with
        jobs := ⟨id, manager.added.length⟩ :: manager.jobs
        added := ⟨id, manager.added.length⟩ :: manager.added } := by
  -- records are numbered in the order in which they are made
  have hfresh : (⟨id, manager.added.length⟩ : SteamJobData ID) ∉ manager.added :=
    fun hmem => Nat.lt_irrefl _ (h.nodes _ hmem)
  constructor
  case ids =>
    refine List.nodup_cons.mpr ⟨fun hmem => ?_, h.ids⟩
    obtain ⟨job, hjob, hid⟩ := List.mem_map.mp hmem
    exact hfree job hjob hid
  case nodes =>
    refine List.forall_mem_cons.mpr ⟨Nat.lt_succ_self _, fun job hjob => ?_⟩
    exact Nat.lt_succ_of_lt (h.nodes job hjob)
  case known =>
    exact fun job hjob => List.mem_cons.mpr ((List.mem_cons.mp hjob).imp_right (h.known job))
  case alive => exact fun job hjob => List.mem_cons_of_mem _ (h.alive job hjob)
  case nested => exact h.nested
  case begun => exact h.begun
  case once => exact h.once
  case answeredAdded => exact fun job hjob => List.mem_cons_of_mem _ (h.answeredAdded job hjob)
  case cancelledAdded =>
    exact fun job hjob => List.mem_cons_of_mem _ (h.cancelledAdded job hjob)
  case left =>
    refine List.forall_mem_cons.mpr ⟨?_, fun job hjob => ?_⟩
    · exact ⟨fun _ => ⟨fun hmem => hfresh (h.cancelledAdded _ hmem),
          fun hmem => absurd (h.answeredAdded _ hmem) hfresh⟩, fun _ => List.mem_cons_self⟩
    · refine Iff.trans ?_ (h.left job hjob)
      exact ⟨fun hmem => (List.mem_cons.mp hmem).resolve_left fun heq => hfresh (heq ▸ hjob),
        List.mem_cons_of_mem _⟩

/-- A callback begins. -/
theorem Consistent.call {manager : JobManager ID Msg} (h : manager.Consistent)
    {job : SteamJobData ID} (answer : Answer Msg) (hjob : job ∈ manager.jobs)
    (hrunning : job ∉ manager.running) :
    Consistent
      { manager with
        running := job :: manager.running
        calls := ⟨job, answer⟩ :: manager.calls } := by
  have hnew := h.not_answered hjob hrunning
  constructor
  case ids => exact h.ids
  case nodes => exact h.nodes
  case known => exact h.known
  case alive => exact List.forall_mem_cons.mpr ⟨hjob, h.alive⟩
  case nested => exact List.nodup_cons.mpr ⟨hrunning, h.nested⟩
  case begun =>
    exact List.forall_mem_cons.mpr
      ⟨List.mem_cons_self, fun job' hjob' => List.mem_cons_of_mem _ (h.begun job' hjob')⟩
  case once => exact List.nodup_cons.mpr ⟨hnew, h.once⟩
  case answeredAdded => exact List.forall_mem_cons.mpr ⟨h.known job hjob, h.answeredAdded⟩
  case cancelledAdded => exact h.cancelledAdded
  case left =>
    intro job' hadded
    rw [h.left job' hadded]
    have hhead : job ∉ manager.cancelled := ((h.left job (h.known job hjob)).mp hjob).1
    show _ ↔ _ ∧ (job' ∈ job :: manager.answered → job' ∈ job :: manager.running)
    rw [List.mem_cons, List.mem_cons]
    by_cases heq : job' = job
    · subst heq
      exact ⟨fun _ => ⟨hhead, fun _ => Or.inl rfl⟩,
        fun _ => ⟨hhead, fun hmem => absurd hmem hnew⟩⟩
    · simp [heq]

/-- A job that is not running is cancelled. -/
theorem Consistent.cancel {manager : JobManager ID Msg} (h : manager.Consistent)
    {job : SteamJobData ID} (hjob : job ∈ manager.jobs) (hrunning : job ∉ manager.running) :
    Consistent
      { manager with jobs := manager.jobs.erase job, cancelled := job :: manager.cancelled } := by
  have hnew := h.not_answered hjob hrunning
  constructor
  case ids => exact h.ids.sublist (List.erase_sublist.map _)
  case nodes => exact h.nodes
  case known => exact fun job' hjob' => h.known job' (List.mem_of_mem_erase hjob')
  case alive =>
    intro job' hjob'
    have hne : job' ≠ job := fun heq => hrunning (heq ▸ hjob')
    exact (List.mem_erase_of_ne hne).mpr (h.alive job' hjob')
  case nested => exact h.nested
  case begun => exact h.begun
  case once => exact h.once
  case answeredAdded => exact h.answeredAdded
  case cancelledAdded => exact List.forall_mem_cons.mpr ⟨h.known job hjob, h.cancelledAdded⟩
  case left =>
    intro job' hadded
    show job' ∈ manager.jobs.erase job ↔ job' ∉ job :: manager.cancelled ∧ _
    rw [h.nodup.mem_erase_iff, h.left job' hadded, List.mem_cons, not_or, and_assoc]
    rfl

/-- The innermost callback returns, and its job is erased. -/
theorem Consistent.returns {manager : JobManager ID Msg} (h : manager.Consistent)
    {job : SteamJobData ID} {running : List (SteamJobData ID)}
    (hrunning : manager.running = job :: running) :
    Consistent { manager with jobs := manager.jobs.erase job, running := running } := by
  have hnested := hrunning ▸ h.nested
  have hbegun := h.begun job (hrunning ▸ List.mem_cons_self)
  constructor
  case ids => exact h.ids.sublist (List.erase_sublist.map _)
  case nodes => exact h.nodes
  case known => exact fun job' hjob' => h.known job' (List.mem_of_mem_erase hjob')
  case alive =>
    intro job' hjob'
    have hne : job' ≠ job := fun heq => (List.nodup_cons.mp hnested).1 (heq ▸ hjob')
    exact (List.mem_erase_of_ne hne).mpr
      (h.alive job' (hrunning ▸ List.mem_cons_of_mem _ hjob'))
  case nested => exact (List.nodup_cons.mp hnested).2
  case begun =>
    exact fun job' hjob' => h.begun job' (hrunning ▸ List.mem_cons_of_mem _ hjob')
  case once => exact h.once
  case answeredAdded => exact h.answeredAdded
  case cancelledAdded => exact h.cancelledAdded
  case left =>
    intro job' hadded
    show job' ∈ manager.jobs.erase job ↔ _ ∧ (job' ∈ manager.answered → job' ∈ running)
    rw [h.nodup.mem_erase_iff, h.left job' hadded, hrunning, List.mem_cons]
    by_cases heq : job' = job
    · subst heq
      refine ⟨fun hmem => absurd rfl hmem.1, fun hmem => ?_⟩
      exact absurd (hmem.2 hbegun) (List.nodup_cons.mp hnested).1
    · simp [heq]

theorem Effect.consistent {manager manager' : JobManager ID Msg} (heffect : Effect manager manager')
    (h : manager.Consistent) : manager'.Consistent := by
  cases heffect with
  | unchanged => exact h
  | added id hfree => exact h.add hfree
  | called job answer hjob hrunning => exact h.call answer hjob hrunning
  | cancelled job hjob hrunning => exact h.cancel hjob hrunning
  | returned job running hrunning hjob => exact h.returns hrunning

theorem step_consistent (manager : JobManager ID Msg) (event : JobEvent ID Msg)
    (manager' : JobManager ID Msg) (h : manager.Consistent)
    (hspares : event.SparesRunning getTargetJobID manager)
    (hstep : jobStep getTargetJobID manager event = some manager') : manager'.Consistent :=
  (step_effect hspares hstep).consistent h

/-- The iterator of a callback that returns is still good. -/
theorem Consistent.defined {manager : JobManager ID Msg} (h : manager.Consistent)
    {event : JobEvent ID Msg} (hpossible : event.Possible manager) :
    ∃ manager', jobStep getTargetJobID manager event = some manager' := by
  cases event with
  | addJob id => exact ⟨_, rfl⟩
  | jobFailed id => exact ⟨_, rfl⟩
  | jobCompleted msg bodyView => exact ⟨_, rfl⟩
  | cancelJob id => exact ⟨_, rfl⟩
  | callbackReturns =>
      simp only [jobStep, callbackReturns]
      cases hrunning : manager.running with
      | nil => exact absurd hrunning hpossible
      | cons job running =>
          exact ⟨_, if_pos (h.alive job (hrunning ▸ List.mem_cons_self))⟩

/-! ## Jobs that have left the table -/

/-- A job that was added is not in the table any more, and of its callbacks none but those in
`calls` were called. -/
structure Gone (job : SteamJobData ID) (calls : List (SteamJobData ID))
    (manager : JobManager ID Msg) : Prop where
  consistent : manager.Consistent
  added : job ∈ manager.added
  gone : job ∉ manager.jobs
  silent : job ∈ manager.answered → job ∈ calls

/-- A job that has left the table stays out of it, and no callback of it is called. -/
theorem Effect.gone {manager manager' : JobManager ID Msg} (heffect : Effect manager manager')
    {job : SteamJobData ID} {calls : List (SteamJobData ID)} (h : Gone job calls manager) :
    Gone job calls manager' := by
  have hconsistent := heffect.consistent h.consistent
  cases heffect with
  | unchanged => exact h
  | added id hfree =>
      have hne : job ≠ ⟨id, manager.added.length⟩ :=
        fun heq => Nat.lt_irrefl _ (h.consistent.nodes _ (heq ▸ h.added))
      exact ⟨hconsistent, List.mem_cons_of_mem _ h.added,
        List.not_mem_cons_of_ne_of_not_mem hne h.gone, h.silent⟩
  | called job' answer hjob hrunning =>
      refine ⟨hconsistent, h.added, h.gone, fun hmem => h.silent ?_⟩
      exact (List.mem_cons.mp hmem).resolve_left fun heq => h.gone (heq ▸ hjob)
  | cancelled job' hjob hrunning =>
      exact ⟨hconsistent, h.added, fun hmem => h.gone (List.mem_of_mem_erase hmem), h.silent⟩
  | returned job' running hrunning hjob =>
      exact ⟨hconsistent, h.added, fun hmem => h.gone (List.mem_of_mem_erase hmem), h.silent⟩

theorem step_gone {job : SteamJobData ID} {calls : List (SteamJobData ID)}
    (manager : JobManager ID Msg) (event : JobEvent ID Msg) (manager' : JobManager ID Msg)
    (h : Gone job calls manager) (hspares : event.SparesRunning getTargetJobID manager)
    (hstep : jobStep getTargetJobID manager event = some manager') : Gone job calls manager' :=
  (step_effect hspares hstep).gone h

/-- After `CancelJob` no job with the id is in the table. -/
theorem Consistent.cancelJob {manager : JobManager ID Msg} (h : manager.Consistent) (id : ID) :
    ∀ job ∈ (manager.cancelJob id).jobs, job.id ≠ id := by
  rw [JobManager.cancelJob]
  split
  · next hfind => exact find_none hfind
  · next job hfind =>
    obtain ⟨hjob, hid⟩ := find_some hfind
    intro job' hjob' hid'
    obtain ⟨hne, hmem⟩ := h.nodup.mem_erase_iff.mp hjob'
    exact hne (List.inj_on_of_nodup_map h.ids hmem hjob (hid'.trans hid.symm))

end JobManager

/-! ## Runs -/

instance (manager : JobManager ID Msg) :
    (event : JobEvent ID Msg) → Decidable (event.Possible manager)
  | .callbackReturns => inferInstanceAs (Decidable (manager.running ≠ []))
  | .addJob _ => .isTrue trivial
  | .jobFailed _ => .isTrue trivial
  | .jobCompleted _ _ => .isTrue trivial
  | .cancelJob _ => .isTrue trivial

instance (manager : JobManager ID Msg) :
    (event : JobEvent ID Msg) → Decidable (event.SparesRunning getTargetJobID manager)
  | .jobFailed id => inferInstanceAs (Decidable (∀ job ∈ manager.running, job.id ≠ id))
  | .jobCompleted msg _ =>
      inferInstanceAs (Decidable (∀ job ∈ manager.running, job.id ≠ getTargetJobID msg))
  | .cancelJob id => inferInstanceAs (Decidable (∀ job ∈ manager.running, job.id ≠ id))
  | .addJob _ => .isTrue trivial
  | .callbackReturns => .isTrue trivial

end Utilpp.Steam

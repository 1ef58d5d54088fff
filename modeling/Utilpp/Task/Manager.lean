import Utilpp.Handle
import Utilpp.Lib.Transition
import Mathlib.Data.List.Perm.Basic

/-!
# The task manager

`FTaskManagerBase` with the workflow ticks of `FTaskFlowTaskManager`. Producers put requests into
concurrent queues, the manager's `Tick` takes them in batches and hands tasks over to workflow
objects, and the threads of the workflows run `TickTaskWorkflow` on their objects. The two loops
of `WorkflowThreadTick` and the part behind them are steps of their own, so that a `Tick` can
come between them.
-/

namespace Utilpp.Task

open Lib

/-- `ETaskType`. -/
inductive ETaskType where
  | timer
  | common
  | tick
  | cancelable
  deriving DecidableEq, Repr

/-- `TaskDataBase_t` and the fields of the types derived from it. `task` is the number of the
`Add` call: it stands for the task's own object. Times are nanoseconds. -/
structure TaskData where
  type : ETaskType
  workflow : UInt32
  task : Nat
  repeatTime : Int
  timeout : Int
  deriving DecidableEq, Repr

/-- A task under its handle. -/
structure Entry where
  handle : UInt32
  data : TaskData
  deriving DecidableEq, Repr

/-- The map in which an entry is kept and its key there. -/
def Entry.key (e : Entry) : ETaskType × UInt32 := (e.data.type, e.handle)

instance : LawfulBEq (ETaskType × UInt32) := Prod.instLawfulBEq

/-- The maps `TickTasks`, `TimerTasks`, `Tasks` and `CancelableTasks` in one list: an entry is in
the map of its type. -/
abbrev Registry := List Entry

/-- `try_emplace` into the map of the entry's type. -/
def tryEmplace (registry : Registry) (e : Entry) : Registry :=
  if e.key ∈ registry.map Entry.key then registry else registry ++ [e]

/-- `erase` of a key from one of the maps. -/
def eraseKey (registry : Registry) (key : ETaskType × UInt32) : Registry :=
  registry.filter (·.key ≠ key)

/-- What a task sees of its life: its body is run, or a method of `FCancelableTaskBase` is
called. -/
inductive Callback where
  | run
  | init
  | tick
  | onStop
  | finalize
  deriving DecidableEq, Repr

/-- The same call to every cancelable task of a list. -/
def callCancelable (callback : Callback) (entries : List Entry) : List (Nat × Callback) :=
  (entries.filter (·.data.type = .cancelable)).map fun e => (e.data.task, callback)

/-! ## Workflow objects -/

/-- Where the thread of a workflow is in `TickTaskWorkflow`: not running, started, behind the
first loop of `WorkflowThreadTick`, behind the second one. -/
inductive Phase where
  | idle
  | launched
  | added
  | merged
  deriving DecidableEq, Repr

/-- `DEFAULT_REPEAT_TIME`. -/
def defaultRepeatTime : Int := 1000000000 / 60

/-- `TaskWorkflow_t`; `curTick` is `CurTickTime` of its `TimeRecorder`. -/
structure Workflow where
  repeatTime : Int := defaultRepeatTime
  timeout : Int := 0
  curTick : Int := 0
  phase : Phase := .idle
  appendingAdd : List Entry := []
  appendingDel : List Entry := []
  registry : Registry := []
  deriving DecidableEq, Repr

/-- The first loop of `WorkflowThreadTick`. -/
def Workflow.addLoop (w : Workflow) : Workflow :=
  { w with
    phase := .added
    appendingAdd := []
    registry := w.appendingAdd.foldl tryEmplace w.registry }

/-- The second loop of `WorkflowThreadTick`. -/
def Workflow.delLoop (w : Workflow) : Workflow :=
  { w with
    phase := .merged
    appendingDel := []
    registry := w.appendingDel.foldl (fun registry e => eraseKey registry e.key) w.registry }

/-- A timer that runs when `delta` has passed. -/
def Entry.due (delta : Int) (e : Entry) : Bool :=
  e.data.type = .timer && e.data.timeout ≤ delta

/-- A task that is over when `TickTaskWorkflow` has run it. -/
def Entry.finishes (delta : Int) (e : Entry) : Bool :=
  e.data.type = .common || e.due delta && e.data.repeatTime = 0

/-- The timeout of a timer that stays. -/
def Entry.elapse (delta : Int) (e : Entry) : Entry :=
  if e.data.type = .timer then
    { e with
      -- what the timer is late by is not made up for
      data.timeout := if e.due delta then e.data.repeatTime else e.data.timeout - delta }
  else e

/-- The bodies that `TickTaskWorkflow` runs, in its order. -/
def Workflow.bodies (w : Workflow) (delta : Int) : List (Nat × Callback) :=
  let needTick : Bool := w.timeout ≤ delta
  let runAll (p : Entry → Bool) : List (Nat × Callback) :=
    (w.registry.filter p).map fun e => (e.data.task, .run)
  runAll (fun e => needTick && e.data.type = .tick) ++ runAll (Entry.due delta) ++
    (if needTick then callCancelable .tick w.registry else []) ++
    runAll (fun e => e.data.type = .common)

/-- `TickTaskWorkflow` behind `WorkflowThreadTick`, at the time `now`. -/
def Workflow.run (w : Workflow) (now : Int) : Workflow :=
  let delta := now - w.curTick
  { w with
    phase := .idle
    curTick := now
    timeout := if w.timeout ≤ delta then w.repeatTime else w.timeout - delta
    registry := (w.registry.filter fun e => !e.finishes delta).map (Entry.elapse delta) }

/-- The tasks that `TickTaskWorkflow` gives to `ThreadFinishTask`. -/
def Workflow.finished (w : Workflow) (now : Int) : List Entry :=
  w.registry.filter (Entry.finishes (now - w.curTick))

/-! ## The manager -/

/-- The queues into which producers and workflow threads put requests to the manager. A request
to add a task is the function that `Tick` calls, with what it has captured. -/
structure Queues where
  syncAdd : List Entry := []
  syncDel : List UInt32 := []
  syncFinished : List Entry := []
  addWorkflows : List (UInt32 × Nat) := []
  delWorkflows : List UInt32 := []
  deriving DecidableEq, Repr

/-- The same requests in some order. A queue keeps the order of one producer, not that between
producers; here any order is allowed. -/
def Queues.Shuffles (q r : Queues) : Prop :=
  q.syncAdd.Perm r.syncAdd ∧ q.syncDel.Perm r.syncDel ∧ q.syncFinished.Perm r.syncFinished ∧
    q.addWorkflows.Perm r.addWorkflows ∧ q.delWorkflows.Perm r.delWorkflows

instance (q r : Queues) : Decidable (q.Shuffles r) :=
  inferInstanceAs (Decidable (_ ∧ _ ∧ _ ∧ _ ∧ _))

/-- `FTaskManagerBase`. Workflow objects are numbered, a number stands for the `shared_ptr`;
`datas` is `TaskWorkflowDatas`. `tasks` counts the `Add` calls and `log` records what the tasks
have seen. -/
structure Manager where
  taskCount : UInt32
  workflowCount : UInt32
  mainThread : UInt32
  tasks : Nat
  queues : Queues
  datas : List (UInt32 × Nat)
  objects : List Workflow
  registry : Registry
  log : List (Nat × Callback)
  deriving Repr

/-- The constructor: a workflow for `NullHandle` and one for the main thread. -/
def Manager.init : Manager where
  taskCount := 0
  workflowCount := (drawID 0).2
  mainThread := (drawID 0).1
  tasks := 0
  queues := {}
  datas := [(nullCommonHandleID, 0), ((drawID 0).1, 1)]
  objects := [{}, {}]
  registry := []
  log := []

/-! ## Requests -/

/-- `NewWorkflow`, at the time `now`. -/
def Manager.newWorkflow (s : Manager) (now : Int) : Manager :=
  let handle := drawID s.workflowCount
  { s with
    workflowCount := handle.2
    objects := s.objects ++ [{ curTick := now }]
    queues.addWorkflows := s.queues.addWorkflows ++ [(handle.1, s.objects.length)] }

/-- `ReleaseWorkflow`. -/
def Manager.releaseWorkflow (s : Manager) (handle : UInt32) : Manager :=
  -- the workflow of the main thread stays
  if s.mainThread = handle then s
  else { s with queues.delWorkflows := s.queues.delWorkflows ++ [handle] }

/-- `std::chrono::nanoseconds` of a `uint64_t`: its count is an `int64_t`. -/
def nanoseconds (count : UInt64) : Int := Int.bmod count.toNat (2 ^ 64)

/-- The calls that add a task. -/
inductive AddCall where
  | addCancelableTask (handle : UInt32)
  | addTick (handle : UInt32)
  | addTimer (handle : UInt32) (repeatTime timeout : UInt64)
  | addTaskNoReturn (handle : UInt32)
  deriving DecidableEq, Repr

/-- The data of the task that a call adds. -/
def AddCall.data (task : Nat) : AddCall → TaskData
  | .addCancelableTask handle => ⟨.cancelable, handle, task, 0, 0⟩
  | .addTick handle => ⟨.tick, handle, task, 0, 0⟩
  | .addTimer handle repeatTime timeout =>
      ⟨.timer, handle, task, nanoseconds repeatTime, nanoseconds timeout⟩
  | .addTaskNoReturn handle => ⟨.common, handle, task, 0, 0⟩

/-- The entry of the task that a call adds, under the handle that the call returns. -/
def Manager.newEntry (s : Manager) (call : AddCall) : Entry :=
  ⟨(drawID s.taskCount).1, call.data s.tasks⟩

/-- `AddCancelableTask`, `AddTick`, `AddTimer` and `AddTaskNoReturn`. -/
def Manager.add (s : Manager) (call : AddCall) : Manager :=
  { s with
    taskCount := (drawID s.taskCount).2
    tasks := s.tasks + 1
    queues.syncAdd := s.queues.syncAdd ++ [s.newEntry call] }

/-- `RemoveTask`. -/
def Manager.removeTask (s : Manager) (handle : UInt32) : Manager :=
  { s with queues.syncDel := s.queues.syncDel ++ [handle] }

/-! ## Tick -/

/-- `TaskWorkflowDatas.try_emplace`. -/
def emplaceWorkflow (datas : List (UInt32 × Nat)) (added : UInt32 × Nat) : List (UInt32 × Nat) :=
  if added.1 ∈ datas.map Prod.fst then datas else datas ++ [added]

/-- The first loop of `Tick`: new workflows. -/
def Manager.takeWorkflows (s : Manager) : Manager :=
  { s with
    queues.addWorkflows := []
    datas := s.queues.addWorkflows.foldl emplaceWorkflow s.datas }

/-- The release of one workflow in the second loop of `Tick`. -/
def Manager.releaseOne (s : Manager) (handle : UInt32) : Manager :=
  match (s.datas.lookup handle).bind (s.objects[·]?) with
  | none => s
  | some w =>
      { s with
        datas := s.datas.filter (·.1 ≠ handle)
        -- only tasks that the workflow has taken over are unregistered
        registry := s.registry.filter fun e => e.key ∉ w.registry.map Entry.key
        log := s.log ++ callCancelable .onStop w.registry }

/-- The function that an `Add` call has put into `SyncAddTaskDatas`. -/
def Manager.addOne (s : Manager) (e : Entry) : Manager :=
  -- the task of an unknown workflow is dropped
  match s.datas.lookup e.data.workflow with
  | none => s
  | some o =>
      -- `try_emplace` fails when the counter of handles has wrapped
      if e.key ∈ s.registry.map Entry.key then s
      else
        { s with
          registry := s.registry ++ [e]
          objects := s.objects.modify o fun w => { w with appendingAdd := w.appendingAdd ++ [e] } }

/-- The registered task that a request to remove a handle finds: `TickTasks`, `TimerTasks`,
`Tasks` and `CancelableTasks` are searched in this order. -/
def Manager.findTask (s : Manager) (handle : UInt32) : Option Entry :=
  [ETaskType.tick, .timer, .common, .cancelable].findSome? fun type =>
    s.registry.find? (·.key = (type, handle))

/-- One request of `SyncDelTaskDatas`. `TaskWorkflowDatas[...]` of a workflow that is not there
is a null pointer. -/
def Manager.removeOne (s : Manager) (handle : UInt32) : Option Manager :=
  match s.findTask handle with
  | none => some s
  | some e =>
      (s.datas.lookup e.data.workflow).map fun o =>
        { s with
          registry := eraseKey s.registry e.key
          objects := s.objects.modify o fun w => { w with appendingDel := w.appendingDel ++ [e] } }

/-- One task of `SyncFinishedTaskDatas`. -/
def Manager.finishOne (s : Manager) (e : Entry) : Manager :=
  match e.data.type with
  | .common | .cancelable | .timer => { s with registry := eraseKey s.registry e.key }
  | .tick => s

/-- `Tick` up to the requests to remove tasks. -/
def Manager.tickAdds (s : Manager) : Manager :=
  let taken : Manager := Manager.takeWorkflows
    { s with
      -- `try_dequeue_bulk` takes 100 requests at most
      queues.syncAdd := s.queues.syncAdd.drop 100
      queues.syncDel := s.queues.syncDel.drop 100 }
  let released : Manager := s.queues.delWorkflows.foldl Manager.releaseOne
    { taken with queues.delWorkflows := [] }
  (s.queues.syncAdd.take 100).foldl Manager.addOne released

/-- `Tick` behind the requests to remove tasks. -/
def Manager.tickFinished (s : Manager) : Manager :=
  (s.queues.syncFinished.take 100).foldl Manager.finishOne
    { s with queues.syncFinished := s.queues.syncFinished.drop 100 }

/-- `FTaskManagerBase::Tick`; `none` when a null pointer is dereferenced. -/
def Manager.tick (s : Manager) : Option Manager :=
  (exec Manager.removeOne s.tickAdds (s.queues.syncDel.take 100)).map Manager.tickFinished

/-! ## Steps -/

/-- What can happen: calls of producers, an order of the queues, a `Tick` of the manager, and the
parts of `TickTaskWorkflow` on a workflow object. -/
inductive Label where
  | newWorkflow (now : Int)
  | releaseWorkflow (handle : UInt32)
  | add (call : AddCall)
  | removeTask (handle : UInt32)
  | shuffle (queues : Queues)
  | tick
  | launch (object : Nat)
  | addLoop (object : Nat)
  | delLoop (object : Nat)
  | run (object : Nat) (now : Int)

/-- A part of `TickTaskWorkflow` that follows on `phase`, with the tasks it finishes and the
calls it makes. -/
def Manager.onWorkflow (s : Manager) (o : Nat) (phase : Phase) (f : Workflow → Workflow)
    (finished : Workflow → List Entry) (calls : Workflow → List (Nat × Callback)) :
    Option Manager :=
  match s.objects[o]? with
  | none => none
  | some w =>
      if w.phase = phase then
        some { s with
          objects := s.objects.modify o f
          queues.syncFinished := s.queues.syncFinished ++ finished w
          log := s.log ++ calls w }
      else none

/-- One step. There is no next state when the step is not possible or a null pointer is
dereferenced. -/
def step (s : Manager) : Label → Option Manager
  | .newWorkflow now => some (s.newWorkflow now)
  | .releaseWorkflow handle => some (s.releaseWorkflow handle)
  | .add call => some (s.add call)
  | .removeTask handle => some (s.removeTask handle)
  | .shuffle queues =>
      if s.queues.Shuffles queues then some { s with queues := queues } else none
  | .tick => s.tick
  | .launch o =>
      if o ∈ s.datas.map Prod.snd then
        s.onWorkflow o .idle (fun w => { w with phase := .launched }) (fun _ => []) (fun _ => [])
      else none
  | .addLoop o =>
      s.onWorkflow o .launched Workflow.addLoop (fun _ => [])
        (fun w => callCancelable .init w.appendingAdd)
  | .delLoop o =>
      s.onWorkflow o .added Workflow.delLoop (fun _ => [])
        (fun w => callCancelable .finalize w.appendingDel)
  | .run o now =>
      s.onWorkflow o .merged (·.run now) (·.finished now) (fun w => w.bodies (now - w.curTick))

variable {s t : Manager}

/-- What a part of `TickTaskWorkflow` does. -/
theorem onWorkflow_eq_some {o : Nat} {phase : Phase} {f : Workflow → Workflow}
    {finished : Workflow → List Entry} {calls : Workflow → List (Nat × Callback)}
    (h : s.onWorkflow o phase f finished calls = some t) :
    ∃ w, s.objects[o]? = some w ∧ w.phase = phase ∧ t = { s with
      objects := s.objects.modify o f
      queues.syncFinished := s.queues.syncFinished ++ finished w
      log := s.log ++ calls w } := by
  unfold Manager.onWorkflow at h
  split at h
  · cases h
  · rename_i w hw
    split at h
    · rename_i hphase
      cases h
      exact ⟨w, hw, hphase, rfl⟩
    · cases h

theorem step_shuffle {queues : Queues} (h : step s (.shuffle queues) = some t) :
    s.queues.Shuffles queues ∧ t = { s with queues := queues } := by
  have h : (if s.queues.Shuffles queues then some { s with queues := queues } else none) =
      some t := h
  split at h
  · cases h
    exact ⟨‹_›, rfl⟩
  · cases h

theorem step_launch {o : Nat} (h : step s (.launch o) = some t) :
    o ∈ s.datas.map Prod.snd ∧ s.onWorkflow o .idle (fun w => { w with phase := .launched })
      (fun _ => []) (fun _ => []) = some t := by
  have h : (if o ∈ s.datas.map Prod.snd then s.onWorkflow o .idle
      (fun w => { w with phase := .launched }) (fun _ => []) (fun _ => []) else none) = some t := h
  split at h
  · exact ⟨‹_›, h⟩
  · cases h

end Utilpp.Task

import Utilpp.Task.Integrity
import Mathlib.Logic.Function.Iterate

/-!
# The passes of `Tick` as single moves

`Tick` takes a batch of requests and then serves it. Serving a request does not look at the
queues, so that the batch may as well be taken request by request (`tickAdds_eq`,
`tickFinished_eq`). `tick_preserves` is the rule that follows: a property that every single move
keeps is kept by the whole `Tick`.
-/

namespace Utilpp.Task

open Lib

/-- Takes the first request of `SyncAddTaskDatas` and serves it. -/
def Manager.popAdd (s : Manager) : Manager :=
  match s.queues.syncAdd with
  | [] => s
  | e :: rest => Manager.addOne { s with queues.syncAdd := rest } e

/-- Takes the first task of `SyncFinishedTaskDatas` and erases it. -/
def Manager.popFinished (s : Manager) : Manager :=
  match s.queues.syncFinished with
  | [] => s
  | e :: rest => Manager.finishOne { s with queues.syncFinished := rest } e

/-- A finished task is erased; a tick task never finishes. -/
theorem finishOne_eq (s : Manager) (e : Entry) : s.finishOne e =
    if e.data.type = .tick then s else { s with registry := eraseKey s.registry e.key } := by
  unfold Manager.finishOne
  split <;> simp [*]

/-! ## Serving a request leaves the queues alone -/

theorem addOne_queues (s : Manager) (q : Queues) (e : Entry) :
    Manager.addOne { s with queues := q } e = { s.addOne e with queues := q } := by
  unfold Manager.addOne
  dsimp only
  split
  · rfl
  · split <;> rfl

theorem releaseOne_queues (s : Manager) (q : Queues) (handle : UInt32) :
    Manager.releaseOne { s with queues := q } handle =
      { s.releaseOne handle with queues := q } := by
  unfold Manager.releaseOne
  dsimp only
  split <;> rfl

theorem finishOne_queues (s : Manager) (q : Queues) (e : Entry) :
    Manager.finishOne { s with queues := q } e = { s.finishOne e with queues := q } := by
  unfold Manager.finishOne
  split <;> rfl

theorem removeOne_queues {s t : Manager} {handle : UInt32} (h : s.removeOne handle = some t) :
    t.queues = s.queues := by
  unfold Manager.removeOne at h
  split at h
  · cases h
    rfl
  · obtain ⟨o, -, rfl⟩ := Option.map_eq_some_iff.mp h
    rfl

/-- Every release of a `Tick` leaves the queues alone. -/
theorem foldl_releaseOne_queues (s : Manager) (q : Queues) (handles : List UInt32) :
    handles.foldl Manager.releaseOne { s with queues := q } =
      { handles.foldl Manager.releaseOne s with queues := q } := by
  induction handles generalizing s with
  | nil => rfl
  | cons handle rest ih => rw [List.foldl_cons, releaseOne_queues, ih, List.foldl_cons]

/-- A batch of `SyncAddTaskDatas` is served request by request. -/
theorem foldl_addOne (s : Manager) (batch rest : List Entry) :
    batch.foldl Manager.addOne { s with queues.syncAdd := rest } =
      Manager.popAdd^[batch.length] { s with queues.syncAdd := batch ++ rest } := by
  induction batch generalizing s with
  | nil => rfl
  | cons e batch ih =>
      have hpop : Manager.popAdd { s with queues.syncAdd := (e :: batch) ++ rest } =
          { s.addOne e with queues := { s.queues with syncAdd := batch ++ rest } } :=
        addOne_queues s _ e
      have hih := ih { s.addOne e with queues := s.queues }
      rw [List.foldl_cons, addOne_queues, List.length_cons, Function.iterate_succ_apply, hpop]
      exact hih

/-- A batch of `SyncFinishedTaskDatas` is served task by task. -/
theorem foldl_finishOne (s : Manager) (batch rest : List Entry) :
    batch.foldl Manager.finishOne { s with queues.syncFinished := rest } =
      Manager.popFinished^[batch.length] { s with queues.syncFinished := batch ++ rest } := by
  induction batch generalizing s with
  | nil => rfl
  | cons e batch ih =>
      have hpop : Manager.popFinished { s with queues.syncFinished := (e :: batch) ++ rest } =
          { s.finishOne e with queues := { s.queues with syncFinished := batch ++ rest } } :=
        finishOne_queues s _ e
      have hih := ih { s.finishOne e with queues := s.queues }
      rw [List.foldl_cons, finishOne_queues, List.length_cons, Function.iterate_succ_apply, hpop]
      exact hih

/-- The state of `Tick` when the workflows are added and released. -/
def Manager.tickWorkflows (s : Manager) : Manager :=
  s.queues.delWorkflows.foldl Manager.releaseOne
    { s.takeWorkflows with
      queues := { s.queues with
        syncDel := s.queues.syncDel.drop 100
        addWorkflows := []
        delWorkflows := [] } }

/-- The batch of requests to add tasks is served request by request. -/
theorem tickAdds_eq (s : Manager) :
    s.tickAdds = Manager.popAdd^[(s.queues.syncAdd.take 100).length] s.tickWorkflows := by
  let q : Queues := { s.queues with
    syncDel := s.queues.syncDel.drop 100
    addWorkflows := []
    delWorkflows := [] }
  have hqueues := foldl_releaseOne_queues s.takeWorkflows q s.queues.delWorkflows
  have hdropped := foldl_releaseOne_queues s.takeWorkflows
    { q with syncAdd := s.queues.syncAdd.drop 100 } s.queues.delWorkflows
  have hserved := foldl_addOne
    { s.queues.delWorkflows.foldl Manager.releaseOne s.takeWorkflows with queues := q }
    (s.queues.syncAdd.take 100) (s.queues.syncAdd.drop 100)
  rw [List.take_append_drop] at hserved
  unfold Manager.tickWorkflows
  refine Eq.trans ?_ (hserved.trans ?_)
  · exact congrArg (fun u => (s.queues.syncAdd.take 100).foldl Manager.addOne u) hdropped
  · exact congrArg Manager.popAdd^[(s.queues.syncAdd.take 100).length] hqueues.symm

/-- The batch of finished tasks is erased task by task. -/
theorem tickFinished_eq (s : Manager) :
    s.tickFinished = Manager.popFinished^[(s.queues.syncFinished.take 100).length] s := by
  have hserved := foldl_finishOne s (s.queues.syncFinished.take 100)
    (s.queues.syncFinished.drop 100)
  rw [List.take_append_drop] at hserved
  exact hserved

/-- A property that each move keeps is kept by repeating the move. -/
theorem iterate_preserves {P : Manager → Prop} {f : Manager → Manager}
    (hf : ∀ u, P u → P (f u)) {u : Manager} (hu : P u) (n : Nat) : P (f^[n] u) := by
  induction n generalizing u with
  | zero => exact hu
  | succ n ih => exact ih (hf u hu)

variable {s t : Manager}

/-! ## What each move does -/

/-- A request to add is dropped, or its task is registered and handed to the workflow that it
names. -/
theorem popAdd_cases (s : Manager) : s.popAdd = s ∨ ∃ e rest, s.queues.syncAdd = e :: rest ∧
    (s.popAdd = { s with queues.syncAdd := rest } ∨ ∃ o,
      s.datas.lookup e.data.workflow = some o ∧ e.key ∉ s.registry.map Entry.key ∧
      s.popAdd = { s with
        queues.syncAdd := rest
        registry := s.registry ++ [e]
        objects := s.objects.modify o
          (fun w => { w with appendingAdd := w.appendingAdd ++ [e] }) }) := by
  unfold Manager.popAdd
  split
  · exact .inl rfl
  · rename_i e rest hqueue
    refine .inr ⟨e, rest, hqueue, ?_⟩
    unfold Manager.addOne
    dsimp only
    split
    · exact .inl rfl
    · rename_i o hlookup
      split
      · exact .inl rfl
      · rename_i hkey
        exact .inr ⟨o, hlookup, hkey, rfl⟩

/-- A request to remove finds nothing, or a task whose entry goes to the workflow that it names. -/
theorem removeOne_cases {handle : UInt32} (h : s.removeOne handle = some t) : t = s ∨ ∃ e o,
    s.findTask handle = some e ∧ s.datas.lookup e.data.workflow = some o ∧
    t = { s with
      registry := eraseKey s.registry e.key
      objects := s.objects.modify o
        (fun w => { w with appendingDel := w.appendingDel ++ [e] }) } := by
  unfold Manager.removeOne at h
  split at h
  · cases h
    exact .inl rfl
  · rename_i e hfound
    obtain ⟨o, hlookup, rfl⟩ := Option.map_eq_some_iff.mp h
    exact .inr ⟨e, o, hfound, hlookup, rfl⟩

/-- A finished task is taken from the queue and erased; a tick task never finishes. -/
theorem popFinished_cases (s : Manager) : s.popFinished = s ∨ ∃ e rest,
    s.queues.syncFinished = e :: rest ∧
    (s.popFinished = { s with queues.syncFinished := rest } ∨
      s.popFinished = { s with
        queues.syncFinished := rest
        registry := eraseKey s.registry e.key }) := by
  unfold Manager.popFinished
  split
  · exact .inl rfl
  · rename_i e rest hqueue
    refine .inr ⟨e, rest, hqueue, ?_⟩
    rw [finishOne_eq]
    split
    · exact .inl rfl
    · exact .inr rfl

/-- A request to remove a task only takes entries out of the manager's maps. -/
theorem removeOne_registry {handle : UInt32} (h : s.removeOne handle = some t) :
    t.registry ⊆ s.registry := by
  unfold Manager.removeOne at h
  split at h
  · cases h
    exact List.Subset.refl _
  · obtain ⟨o, -, rfl⟩ := Option.map_eq_some_iff.mp h
    exact List.filter_sublist.subset

/-- A property that every request to remove keeps is kept by a batch of them. -/
theorem removes_preserves {P : Manager → Prop} {registry : Registry} {handles : List UInt32}
    (hremove : ∀ handle ∈ handles, ∀ u v, P u → u.registry ⊆ registry →
      u.removeOne handle = some v → P v)
    (hs : P s) (hsub : s.registry ⊆ registry)
    (hrun : exec Manager.removeOne s handles = some t) : P t := by
  induction handles generalizing s with
  | nil =>
      cases hrun
      exact hs
  | cons handle rest ih =>
      obtain ⟨u, hu, hrest⟩ := exec_cons_eq_some.mp hrun
      exact ih (fun other hmem => hremove other (List.mem_cons_of_mem _ hmem))
        (hremove handle List.mem_cons_self s u hs hsub hu)
        (List.Subset.trans (removeOne_registry hu) hsub) hrest

/-- A property that the workflows' part of `Tick` has and that every further move keeps is kept by
the whole `Tick`. A request to remove finds no task that is not registered behind the requests to
add. -/
theorem tick_preserves {P : Manager → Prop} (htick : s.tick = some t)
    (hworkflows : P s.tickWorkflows) (hadd : ∀ u, P u → P u.popAdd)
    (hremove : ∀ handle ∈ s.queues.syncDel.take 100, ∀ u v, P u →
      u.registry ⊆ s.tickAdds.registry → u.removeOne handle = some v → P v)
    (hfinish : ∀ u, P u → P u.popFinished) : P t := by
  obtain ⟨v, hv, rfl⟩ := Option.map_eq_some_iff.mp htick
  rw [tickFinished_eq]
  apply iterate_preserves hfinish
  have hadds : P s.tickAdds := by
    rw [tickAdds_eq]
    exact iterate_preserves hadd hworkflows _
  exact removes_preserves hremove hadds (List.Subset.refl _) hv

/-- What the workflows' part of `Tick` leaves alone. -/
structure WorkflowsFrame (s t : Manager) : Prop where
  taskCount : t.taskCount = s.taskCount
  tasks : t.tasks = s.tasks
  syncAdd : t.queues.syncAdd = s.queues.syncAdd
  syncFinished : t.queues.syncFinished = s.queues.syncFinished
  delWorkflows : t.queues.delWorkflows = []
  objects : t.objects = s.objects
  registry : t.registry ⊆ s.registry

theorem releaseOne_frame (s : Manager) (handle : UInt32) :
    ∃ datas registry log, s.releaseOne handle =
      { s with datas := datas, registry := registry, log := log } ∧ registry ⊆ s.registry := by
  unfold Manager.releaseOne
  split
  · exact ⟨_, _, _, rfl, List.Subset.refl _⟩
  · exact ⟨_, _, _, rfl, List.filter_sublist.subset⟩

theorem tickWorkflows_frame (s : Manager) : WorkflowsFrame s s.tickWorkflows := by
  refine List.foldlRecOn (motive := WorkflowsFrame s) _ _
    ⟨rfl, rfl, rfl, rfl, rfl, rfl, List.Subset.refl _⟩ fun u hu handle _ => ?_
  obtain ⟨datas, registry, log, hrelease, hsub⟩ := releaseOne_frame u handle
  rw [hrelease]
  exact { hu with registry := List.Subset.trans hsub hu.registry }

end Utilpp.Task

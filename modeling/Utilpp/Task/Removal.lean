import Utilpp.Task.Entries

/-!
# Removal of tasks

A request to remove a task travels behind the request to add it, first to the manager and then to
the workflow. `removed_task_gone` follows one task through all queues: when a `Tick` has taken the
request and the workflow has run both loops of `WorkflowThreadTick`, the task is in no map and
never runs again, provided that no request to remove overtakes its request to add. It overtakes
when the batch of 100 leaves the request to add in `SyncAddTaskDatas`, and when a `Tick` hands
both over between the two loops of the workflow (`overtaken_task_stays`).
-/

namespace Utilpp.Task

open Lib

/-! ## Numbers of tasks -/

/-- The entry is under the handle. -/
def Entry.isFor (handle : UInt32) (e : Entry) : Bool := e.handle = handle

theorem isFor_elapse (handle : UInt32) (delta : Int) (e : Entry) :
    Entry.isFor handle (e.elapse delta) = Entry.isFor handle e := by
  unfold Entry.isFor Entry.elapse
  split <;> rfl

/-- The number of `Add` calls fits the handles. -/
def Bounded (s : Manager) : Label → Prop
  | .add _ => s.tasks + 1 < 2 ^ 32
  | _ => True

/-- As long as the counter of handles has not wrapped, the handle of a task is its number. -/
structure Numbered (s : Manager) : Prop where
  counted : s.taskCount.toNat = s.tasks
  numbered : s.All fun e => e.handle.toNat = e.data.task ∧ e.data.task < s.tasks

variable {s t : Manager}

/-- A run that draws fewer than `2 ^ 32` handles is bounded all along. -/
theorem bounded_run {labels : List Label} (hrun : exec step s labels = some t)
    (htasks : t.tasks < 2 ^ 32) : Guarded step Bounded s labels := by
  induction labels generalizing s with
  | nil => trivial
  | cons label rest ih =>
      obtain ⟨u, hu, hrest⟩ := exec_cons_eq_some.mp hrun
      have hle := tasks_le_run hrest
      refine ⟨?_, fun v hv => ?_⟩
      · cases label with
        | add call =>
            cases hu
            have hle : s.tasks + 1 ≤ t.tasks := hle
            exact Nat.lt_of_le_of_lt hle htasks
        | _ => trivial
      · rw [hu, Option.some.injEq] at hv
        exact ih (hv ▸ hrest)

/-- The handle of a new task is its number. -/
theorem Numbered.newEntry (h : Numbered s) (hbound : s.tasks + 1 < 2 ^ 32) (call : AddCall) :
    (s.newEntry call).handle.toNat = s.tasks ∧ (s.newEntry call).data.task = s.tasks := by
  have hdraw := drawID_counted s.taskCount (by rw [h.counted]; exact hbound)
  constructor
  · show (drawID s.taskCount).1.toNat = s.tasks
    rw [hdraw.1, h.counted]
  · cases call <;> rfl

theorem Numbered.step (h : Numbered s) {label : Label} (hok : Bounded s label)
    (hstep : step s label = some t) : Numbered t := by
  have hle := tasks_le_step hstep
  have hall : t.All fun e => e.handle.toNat = e.data.task ∧ e.data.task < t.tasks := by
    refine Manager.All.step (s := s) ?_ ?_ ?_ hstep
    · intro delta e he
      unfold Entry.elapse
      split <;> exact he
    · exact h.numbered.mono fun e he => ⟨he.1, he.2.trans_le hle⟩
    · rintro call rfl
      obtain ⟨hhandle, htask⟩ := h.newEntry hok call
      cases hstep
      refine ⟨hhandle.trans htask.symm, ?_⟩
      rw [htask]
      exact Nat.lt_succ_self _
  refine ⟨?_, hall⟩
  by_cases hadd : ∃ call, label = .add call
  · obtain ⟨call, rfl⟩ := hadd
    cases hstep
    have hdraw := drawID_counted s.taskCount (by rw [h.counted]; exact hok)
    show (drawID s.taskCount).2.toNat = s.tasks + 1
    rw [hdraw.2, h.counted]
  · obtain ⟨htasks, hcount⟩ := counters_step (not_exists.mp hadd) hstep
    rw [htasks, hcount, h.counted]

/-! ## The way of one task -/

/-- A request to remove a task must not overtake the one to add it: a `Tick` leaves no request to
add a task for which it takes one to remove, and the second loop of `WorkflowThreadTick` finds no
task that waits to be taken over. -/
def Unovertaken (s : Manager) : Label → Prop
  | .tick => ∀ handle ∈ s.queues.syncDel.take 100,
      handle ∉ (s.queues.syncAdd.drop 100).map Entry.handle
  | .delLoop o => ∀ w ∈ s.objects[o]?, ∀ e ∈ w.appendingDel,
      e.handle ∉ w.appendingAdd.map Entry.handle
  | _ => True

instance (s : Manager) : (label : Label) → Decidable (Unovertaken s label)
  | .tick => List.decidableBAll _ _
  | .delLoop _ => inferInstanceAs (Decidable (∀ w ∈ _, _))
  | .newWorkflow _ | .releaseWorkflow _ | .add _ | .removeTask _ | .shuffle _ | .launch _
  | .addLoop _ | .run _ _ => inferInstanceAs (Decidable True)

/-- A workflow that has the task is the one that the task names, and the task is registered with
the manager or the workflow has a request to delete it. -/
def Manager.Keeps (e : Entry) (s : Manager) : Prop :=
  ∀ o, ∀ w : Workflow, s.objects[o]? = some w → 0 < w.live (Entry.isFor e.handle) →
    s.datas.lookup e.data.workflow = some o ∧
      (e.handle ∈ s.registry.map Entry.handle ∨ e.handle ∈ w.appendingDel.map Entry.handle)

/-- What the moves of the entries keep: the entries of the task agree, and at most one is on its
way. -/
structure Kept (e : Entry) (s : Manager) : Prop where
  own : s.All fun e' => e'.handle = e.handle →
    e'.data.type = e.data.type ∧ e'.data.workflow = e.data.workflow
  once : s.live (Entry.isFor e.handle) ≤ 1
  keeps : s.Keeps e

/-- A workflow has the task when it waits there or is in a map there. -/
theorem live_pos_iff {w : Workflow} {handle : UInt32} :
    0 < w.live (Entry.isFor handle) ↔
      handle ∈ w.appendingAdd.map Entry.handle ∨ handle ∈ w.registry.map Entry.handle := by
  have hcount : ∀ l : List Entry, 0 < l.countP (Entry.isFor handle) ↔
      handle ∈ l.map Entry.handle := by
    intro l
    rw [List.countP_pos_iff, List.mem_map]
    simp only [Entry.isFor, decide_eq_true_eq]
  unfold Workflow.live
  rw [Nat.add_pos_iff_pos_or_pos, hcount, hcount]

variable {e : Entry}

/-- An entry with the handle has the key of the task. -/
theorem key_eq {e' : Entry} (hown : e'.handle = e.handle →
    e'.data.type = e.data.type ∧ e'.data.workflow = e.data.workflow)
    (hhandle : e'.handle = e.handle) : e'.key = e.key := by
  unfold Entry.key
  rw [(hown hhandle).1, hhandle]

/-- Erasing another key leaves the handle in the map. -/
theorem mem_eraseKey_handle {registry : Registry} {handle : UInt32} {key : ETaskType × UInt32}
    (hne : key.2 ≠ handle) (h : handle ∈ registry.map Entry.handle) :
    handle ∈ (eraseKey registry key).map Entry.handle := by
  obtain ⟨e', hmem, rfl⟩ := List.mem_map.mp h
  refine List.mem_map.mpr ⟨e', List.mem_filter.mpr ⟨hmem, ?_⟩, rfl⟩
  have hkey : e'.key ≠ key := fun heq => hne (by rw [← heq]; rfl)
  simpa using hkey

/-- A change of one workflow that makes no new entry for the task and keeps its request to
delete. -/
theorem Manager.Keeps.modify (h : s.Keeps e) (o : Nat) (f : Workflow → Workflow)
    (hlive : ∀ w, s.objects[o]? = some w →
      (f w).live (Entry.isFor e.handle) ≤ w.live (Entry.isFor e.handle))
    (hdel : ∀ w, s.objects[o]? = some w → 0 < (f w).live (Entry.isFor e.handle) →
      e.handle ∈ w.appendingDel.map Entry.handle →
      e.handle ∈ (f w).appendingDel.map Entry.handle) :
    Manager.Keeps e { s with objects := s.objects.modify o f } := by
  intro o' w hw hpos
  rcases getElem?_modify_cases hw with ⟨v, rfl, hv, rfl⟩ | ⟨-, hw⟩
  · obtain ⟨hplaced, hheld⟩ := h o' v hv (Nat.lt_of_lt_of_le hpos (hlive v hv))
    exact ⟨hplaced, hheld.imp_right (hdel v hv hpos)⟩
  · exact h o' w hw hpos

/-- Serving a request to add a task. -/
theorem Manager.Keeps.addOne (h : s.Keeps e) {added : Entry}
    (hown : added.handle = e.handle → added.data.workflow = e.data.workflow) :
    (s.addOne added).Keeps e := by
  unfold Manager.addOne
  split
  · exact h
  · rename_i o hlookup
    split
    · exact h
    · by_cases hsame : added.handle = e.handle
      · -- The task is handed to the workflow that it names.
        intro o' w hw hpos
        have hregistered : e.handle ∈ (s.registry ++ [added]).map Entry.handle := by
          simp [hsame]
        refine ⟨?_, .inl hregistered⟩
        rcases getElem?_modify_cases hw with ⟨v, rfl, -, -⟩ | ⟨-, hw⟩
        · rw [← hown hsame]
          exact hlookup
        · exact (h o' w hw hpos).1
      · have hcount : Entry.isFor e.handle added = false := by simpa [Entry.isFor] using hsame
        have hmodify := h.modify o (fun w => { w with appendingAdd := w.appendingAdd ++ [added] })
          (fun w _ => by simp [Workflow.live, hcount]) (fun w _ _ hdel => hdel)
        intro o' w hw hpos
        obtain ⟨hplaced, hheld⟩ := hmodify o' w hw hpos
        refine ⟨hplaced, hheld.imp_left fun hmem => ?_⟩
        show e.handle ∈ (s.registry ++ [added]).map Entry.handle
        rw [List.map_append]
        exact List.mem_append_left _ hmem

theorem Kept.popAdd (h : Kept e s) : Kept e s.popAdd := by
  have hall := h.own.popAdd
  have hlive := (live_popAdd s).trans h.once
  unfold Manager.popAdd at hall hlive ⊢
  split
  · exact h
  · rename_i added rest hqueue
    have hown := h.own.syncAdd added (by rw [hqueue]; exact List.mem_cons_self)
    rw [hqueue] at hall hlive
    refine ⟨hall, hlive, ?_⟩
    exact Manager.Keeps.addOne (s := { s with queues.syncAdd := rest }) h.keeps
      fun hsame => (hown hsame).2

/-- Serving a request to remove a task. -/
theorem Kept.removeOne (h : Kept e s) {handle : UInt32}
    (hremove : s.removeOne handle = some t) : Kept e t := by
  have hall := h.own.removeOne hremove
  have hlive := live_removeOne (p := Entry.isFor e.handle) hremove
  unfold Manager.removeOne at hremove
  split at hremove
  · cases hremove
    exact h
  · rename_i found hfound
    obtain ⟨hmem, -⟩ := Manager.mem_of_findTask hfound
    obtain ⟨o, hlookup, rfl⟩ := Option.map_eq_some_iff.mp hremove
    have hown := h.own.registry found hmem
    have hmodify := h.keeps.modify o
      (fun w => { w with appendingDel := w.appendingDel ++ [found] }) (fun w _ => Nat.le_refl _)
      (fun w _ _ hdel => by rw [List.map_append]; exact List.mem_append_left _ hdel)
    refine ⟨hall, hlive.trans h.once, ?_⟩
    intro o' w hw hpos
    obtain ⟨hplaced, hheld⟩ := hmodify o' w hw hpos
    refine ⟨hplaced, ?_⟩
    by_cases hsame : found.handle = e.handle
    · -- The task leaves the manager's map for the queue of its workflow.
      have hobject : some o' = some o := by
        rw [← hlookup, (hown hsame).2]
        exact hplaced.symm
      cases hobject
      rcases getElem?_modify_cases hw with ⟨v, -, -, rfl⟩ | ⟨hne, -⟩
      · right
        simp [hsame]
      · exact absurd rfl hne
    · exact hheld.imp_left fun hmem => mem_eraseKey_handle hsame hmem

/-- Erasing a finished task. -/
theorem Kept.popFinished (h : Kept e s) : Kept e s.popFinished := by
  have hall := h.own.popFinished
  have hlive := (live_popFinished s).trans h.once
  unfold Manager.popFinished at hall hlive ⊢
  split
  · exact h
  · rename_i finished rest hqueue
    rw [hqueue] at hall hlive
    refine ⟨hall, hlive, ?_⟩
    intro o w hw hpos
    rw [finishOne_eq] at hw ⊢
    split at hw
    · rename_i htick
      rw [if_pos htick]
      exact h.keeps o w hw hpos
    · rename_i htick
      rw [if_neg htick]
      obtain ⟨hplaced, hheld⟩ := h.keeps o w hw hpos
      refine ⟨hplaced, hheld.imp_left fun hmem => mem_eraseKey_handle ?_ hmem⟩
      -- The finished task would be the one entry on its way, and the workflow has another.
      intro hsame
      have hsame : Entry.isFor e.handle finished = true := by
        simpa [Entry.isFor, Entry.key] using hsame
      have honce := h.once
      have hle : w.live (Entry.isFor e.handle) ≤
          (s.objects.map (Workflow.live (Entry.isFor e.handle))).sum := le_sum_map hw
      simp only [Manager.live, hqueue, List.countP_cons, hsame, if_true] at honce
      omega

/-- The workflows' part of a `Tick` that releases nothing. -/
theorem Kept.tickWorkflows (h : Kept e s) (hquiet : s.queues.delWorkflows = []) :
    Kept e s.tickWorkflows := by
  have hbegins := foldl_emplaceWorkflow s.datas s.queues.addWorkflows
  unfold Manager.tickWorkflows
  rw [hquiet]
  refine ⟨⟨h.own.syncAdd, h.own.syncFinished, h.own.registry, h.own.objects⟩, h.once, ?_⟩
  intro o w hw hpos
  obtain ⟨hplaced, hheld⟩ := h.keeps o w hw hpos
  exact ⟨lookup_extended hbegins hplaced, hheld⟩

/-- A part of `TickTaskWorkflow` that makes no new entry for the task and keeps its request to
delete. -/
theorem Manager.Keeps.onWorkflow (h : s.Keeps e) {o : Nat} {phase : Phase}
    {f : Workflow → Workflow} {finished : Workflow → List Entry}
    {calls : Workflow → List (Nat × Callback)}
    (hstep : s.onWorkflow o phase f finished calls = some t)
    (hlive : ∀ w, s.objects[o]? = some w →
      (f w).live (Entry.isFor e.handle) ≤ w.live (Entry.isFor e.handle))
    (hdel : ∀ w, s.objects[o]? = some w → 0 < (f w).live (Entry.isFor e.handle) →
      e.handle ∈ w.appendingDel.map Entry.handle →
      e.handle ∈ (f w).appendingDel.map Entry.handle) : t.Keeps e := by
  obtain ⟨w, -, -, rfl⟩ := onWorkflow_eq_some hstep
  exact h.modify o f hlive hdel

/-- When the second loop of `WorkflowThreadTick` has a request to delete the task, the workflow
does not have the task any more. -/
theorem delLoop_live {w : Workflow} (hown : w.All fun e' => e'.handle = e.handle →
      e'.data.type = e.data.type ∧ e'.data.workflow = e.data.workflow)
    (hok : ∀ e' ∈ w.appendingDel, e'.handle ∉ w.appendingAdd.map Entry.handle)
    (hdel : e.handle ∈ w.appendingDel.map Entry.handle) :
    ¬ 0 < w.delLoop.live (Entry.isFor e.handle) := by
  obtain ⟨deleted, hdeleted, hhandle⟩ := List.mem_map.mp hdel
  rw [live_pos_iff]
  rintro (hadd | hmem)
  · exact hok deleted hdeleted (hhandle ▸ hadd)
  · obtain ⟨e', hmem, hsame⟩ := List.mem_map.mp hmem
    obtain ⟨hmem, hkey⟩ := mem_foldl_eraseKey.mp hmem
    apply hkey
    rw [key_eq (hown.registry e' hmem) hsame, ← key_eq (hown.appendingDel deleted hdeleted) hhandle]
    exact List.mem_map_of_mem hdeleted

/-- Every step of a run without releases, in which no request to remove overtakes, keeps track of
the task. -/
theorem Kept.step (h : Kept e s) (hquiet : s.queues.delWorkflows = []) {label : Label}
    (hok : Unovertaken s label)
    (hadd : ∀ call, label = .add call → (s.newEntry call).handle ≠ e.handle)
    (hstep : step s label = some t) : Kept e t := by
  have hown : t.All fun e' => e'.handle = e.handle →
      e'.data.type = e.data.type ∧ e'.data.workflow = e.data.workflow := by
    refine h.own.step ?_ ?_ hstep
    · intro delta e' he'
      unfold Entry.elapse
      split <;> exact he'
    · intro call hcall hsame
      exact absurd hsame (hadd call hcall)
  have honce : t.live (Entry.isFor e.handle) ≤ 1 := by
    refine (live_step (isFor_elapse e.handle) ?_ hstep).trans h.once
    intro call hcall
    simpa [Entry.isFor] using hadd call hcall
  cases label with
  | newWorkflow now =>
      cases hstep
      refine ⟨hown, honce, ?_⟩
      intro o w hw hpos
      have hw : (s.objects ++ [{ curTick := now }])[o]? = some w := hw
      rw [List.getElem?_append] at hw
      split at hw
      · exact h.keeps o w hw hpos
      · obtain rfl := List.mem_singleton.mp (List.mem_of_getElem? hw)
        exact absurd hpos (by simp [Workflow.live])
  | releaseWorkflow handle =>
      cases hstep
      refine ⟨hown, honce, ?_⟩
      unfold Manager.releaseWorkflow
      split <;> exact h.keeps
  | add call | removeTask handle =>
      cases hstep
      exact ⟨hown, honce, h.keeps⟩
  | shuffle queues =>
      obtain ⟨-, rfl⟩ := step_shuffle hstep
      exact ⟨hown, honce, h.keeps⟩
  | tick =>
      exact tick_preserves (P := Kept e) hstep (h.tickWorkflows hquiet) (fun u hu => hu.popAdd)
        (fun handle _ u v hu _ hv => hu.removeOne hv) (fun u hu => hu.popFinished)
  | launch o =>
      refine ⟨hown, honce, h.keeps.onWorkflow (step_launch hstep).2 (fun w _ => ?_)
        (fun w _ _ hdel => hdel)⟩
      exact Nat.le_refl _
  | addLoop o =>
      refine ⟨hown, honce, h.keeps.onWorkflow hstep (fun w _ => ?_) (fun w _ _ hdel => hdel)⟩
      exact w.live_addLoop
  | delLoop o =>
      refine ⟨hown, honce, h.keeps.onWorkflow hstep (fun w _ => ?_) (fun w hw hpos hdel => ?_)⟩
      · exact w.live_delLoop
      · have hall := h.own.objects w (List.mem_of_getElem? hw)
        exact absurd hpos (delLoop_live hall (hok w hw) hdel)
  | run o now =>
      refine ⟨hown, honce, h.keeps.onWorkflow hstep (fun w _ => ?_) (fun w _ _ hdel => hdel)⟩
      have hrun := w.live_run (isFor_elapse e.handle) now
      omega

/-- Without calls of `ReleaseWorkflow` there is nothing to release. -/
theorem quiet_step (h : s.queues.delWorkflows = []) {label : Label}
    (hlabel : ∀ handle, label ≠ .releaseWorkflow handle) (hstep : step s label = some t) :
    t.queues.delWorkflows = [] := by
  cases label with
  | newWorkflow now | add call | removeTask handle =>
      cases hstep
      exact h
  | releaseWorkflow handle => exact absurd rfl (hlabel handle)
  | shuffle queues =>
      obtain ⟨hshuffle, rfl⟩ := step_shuffle hstep
      have hperm := hshuffle.2.2.2.2
      rw [h] at hperm
      exact hperm.nil_eq.symm
  | tick =>
      refine tick_preserves (P := fun u => u.queues.delWorkflows = []) hstep
        (tickWorkflows_frame s).delWorkflows (fun u hu => ?_) (fun handle _ u v hu _ hv => ?_)
        (fun u hu => ?_)
      · unfold Manager.popAdd
        split
        · exact hu
        · rw [addOne_queues]
          exact hu
      · rw [removeOne_queues hv]
        exact hu
      · unfold Manager.popFinished
        split
        · exact hu
        · rw [finishOne_queues]
          exact hu
  | launch o =>
      obtain ⟨w, -, -, rfl⟩ := onWorkflow_eq_some (step_launch hstep).2
      exact h
  | addLoop o | delLoop o | run o now =>
      obtain ⟨w, -, -, rfl⟩ := onWorkflow_eq_some hstep
      exact h

/-! ## The task leaves -/

/-- No request to add the task is left, and the manager has forgotten it. -/
structure Leaving (handle : UInt32) (s : Manager) : Prop where
  unqueued : ∀ e ∈ s.queues.syncAdd, e.handle ≠ handle
  unregistered : ∀ e ∈ s.registry, e.handle ≠ handle

/-- The task is not among the entries that a workflow has. -/
def Workflow.Lacks (handle : UInt32) (w : Workflow) : Prop :=
  (∀ e ∈ w.appendingAdd, e.handle ≠ handle) ∧ ∀ e ∈ w.registry, e.handle ≠ handle

/-- The task is in no map and on no way into one. -/
structure Gone (handle : UInt32) (s : Manager) : Prop extends Leaving handle s where
  unowned : ∀ w ∈ s.objects, w.Lacks handle

variable {handle : UInt32}

theorem Leaving.popAdd (h : Leaving handle s) : Leaving handle s.popAdd := by
  unfold Manager.popAdd
  split
  · exact h
  · rename_i e rest hqueue
    have hall := h.unqueued
    rw [hqueue, List.forall_mem_cons] at hall
    unfold Manager.addOne
    split
    · exact ⟨hall.2, h.unregistered⟩
    · split
      · exact ⟨hall.2, h.unregistered⟩
      · refine ⟨hall.2, fun e' hmem => ?_⟩
        rw [List.mem_append, List.mem_singleton] at hmem
        rcases hmem with hmem | rfl
        · exact h.unregistered e' hmem
        · exact hall.1

theorem Leaving.removeOne (h : Leaving handle s) {other : UInt32}
    (hremove : s.removeOne other = some t) : Leaving handle t := by
  unfold Manager.removeOne at hremove
  split at hremove
  · cases hremove
    exact h
  · obtain ⟨o, -, rfl⟩ := Option.map_eq_some_iff.mp hremove
    exact ⟨h.unqueued, fun e hmem => h.unregistered e (List.mem_of_mem_filter hmem)⟩

theorem Leaving.popFinished (h : Leaving handle s) : Leaving handle s.popFinished := by
  unfold Manager.popFinished
  split
  · exact h
  · rw [finishOne_eq]
    split
    · exact ⟨h.unqueued, h.unregistered⟩
    · exact ⟨h.unqueued, fun e hmem => h.unregistered e (List.mem_of_mem_filter hmem)⟩

/-- A task that leaves does not come back. -/
theorem Leaving.step (h : Leaving handle s) {label : Label}
    (hadd : ∀ call, label = .add call → (s.newEntry call).handle ≠ handle)
    (hstep : step s label = some t) : Leaving handle t := by
  cases label with
  | newWorkflow now | removeTask other =>
      cases hstep
      exact ⟨h.unqueued, h.unregistered⟩
  | releaseWorkflow other =>
      cases hstep
      unfold Manager.releaseWorkflow
      split <;> exact ⟨h.unqueued, h.unregistered⟩
  | add call =>
      cases hstep
      refine ⟨fun e hmem => ?_, h.unregistered⟩
      have hmem : e ∈ s.queues.syncAdd ++ [s.newEntry call] := hmem
      rw [List.mem_append, List.mem_singleton] at hmem
      rcases hmem with hmem | rfl
      · exact h.unqueued e hmem
      · exact hadd call rfl
  | shuffle queues =>
      obtain ⟨hshuffle, rfl⟩ := step_shuffle hstep
      exact ⟨fun e hmem => h.unqueued e (hshuffle.1.mem_iff.mpr hmem), h.unregistered⟩
  | tick =>
      have hframe := tickWorkflows_frame s
      refine tick_preserves (P := Leaving handle) hstep ?_ (fun u hu => hu.popAdd)
        (fun other _ u v hu _ hv => hu.removeOne hv) (fun u hu => hu.popFinished)
      exact ⟨hframe.syncAdd ▸ h.unqueued, fun e hmem => h.unregistered e (hframe.registry hmem)⟩
  | launch o =>
      obtain ⟨w, -, -, rfl⟩ := onWorkflow_eq_some (step_launch hstep).2
      exact ⟨h.unqueued, h.unregistered⟩
  | addLoop o | delLoop o | run o now =>
      obtain ⟨w, -, -, rfl⟩ := onWorkflow_eq_some hstep
      exact ⟨h.unqueued, h.unregistered⟩

/-- A part of `TickTaskWorkflow` gives a workflow no task that it lacks. -/
theorem lacks_onWorkflow {o : Nat} {phase : Phase} {f : Workflow → Workflow}
    {finished : Workflow → List Entry} {calls : Workflow → List (Nat × Callback)}
    (hstep : s.onWorkflow o phase f finished calls = some t)
    (hf : ∀ w : Workflow, w.Lacks handle → (f w).Lacks handle)
    (h : ∀ w ∈ s.objects, w.Lacks handle) : ∀ w ∈ t.objects, w.Lacks handle := by
  obtain ⟨v, -, -, rfl⟩ := onWorkflow_eq_some hstep
  intro w hw
  rcases mem_modify hw with hw | ⟨v, hv, rfl⟩
  · exact h w hw
  · exact hf v (h v (List.mem_of_getElem? hv))

theorem Gone.popAdd (h : Gone handle s) : Gone handle s.popAdd := by
  refine ⟨h.toLeaving.popAdd, ?_⟩
  unfold Manager.popAdd
  split
  · exact h.unowned
  · rename_i e rest hqueue
    have hall := h.unqueued
    rw [hqueue, List.forall_mem_cons] at hall
    unfold Manager.addOne
    split
    · exact h.unowned
    · split
      · exact h.unowned
      · intro w hw
        rcases mem_modify hw with hw | ⟨v, hv, rfl⟩
        · exact h.unowned w hw
        · obtain ⟨hadd, hregistry⟩ := h.unowned v (List.mem_of_getElem? hv)
          refine ⟨fun e' hmem => ?_, hregistry⟩
          rw [List.mem_append, List.mem_singleton] at hmem
          rcases hmem with hmem | rfl
          · exact hadd e' hmem
          · exact hall.1

theorem Gone.removeOne (h : Gone handle s) {other : UInt32}
    (hremove : s.removeOne other = some t) : Gone handle t := by
  refine ⟨h.toLeaving.removeOne hremove, ?_⟩
  unfold Manager.removeOne at hremove
  split at hremove
  · cases hremove
    exact h.unowned
  · obtain ⟨o, -, rfl⟩ := Option.map_eq_some_iff.mp hremove
    intro w hw
    rcases mem_modify hw with hw | ⟨v, hv, rfl⟩
    · exact h.unowned w hw
    · exact h.unowned v (List.mem_of_getElem? hv)

theorem Gone.popFinished (h : Gone handle s) : Gone handle s.popFinished := by
  refine ⟨h.toLeaving.popFinished, ?_⟩
  unfold Manager.popFinished
  split
  · exact h.unowned
  · rw [finishOne_eq]
    split <;> exact h.unowned

/-- A task that is gone does not come back. -/
theorem Gone.step (h : Gone handle s) {label : Label}
    (hadd : ∀ call, label = .add call → (s.newEntry call).handle ≠ handle)
    (hstep : step s label = some t) : Gone handle t := by
  refine ⟨h.toLeaving.step hadd hstep, ?_⟩
  cases label with
  | newWorkflow now =>
      cases hstep
      intro w hw
      have hw : w ∈ s.objects ++ [{ curTick := now }] := hw
      rw [List.mem_append, List.mem_singleton] at hw
      rcases hw with hw | rfl
      · exact h.unowned w hw
      · constructor <;> simp
  | releaseWorkflow other =>
      cases hstep
      unfold Manager.releaseWorkflow
      split <;> exact h.unowned
  | add call | removeTask other =>
      cases hstep
      exact h.unowned
  | shuffle queues =>
      obtain ⟨-, rfl⟩ := step_shuffle hstep
      exact h.unowned
  | tick =>
      have hframe := tickWorkflows_frame s
      refine (tick_preserves (P := Gone handle) hstep ?_ (fun u hu => hu.popAdd)
        (fun other _ u v hu _ hv => hu.removeOne hv) (fun u hu => hu.popFinished)).unowned
      exact ⟨⟨hframe.syncAdd ▸ h.unqueued,
        fun e hmem => h.unregistered e (hframe.registry hmem)⟩, hframe.objects ▸ h.unowned⟩
  | launch o => exact lacks_onWorkflow (step_launch hstep).2 (fun w hw => hw) h.unowned
  | addLoop o =>
      refine lacks_onWorkflow hstep (fun w hw => ⟨fun e hmem => ?_, fun e hmem => ?_⟩) h.unowned
      · cases hmem
      · rcases mem_foldl_tryEmplace hmem with hmem | hmem
        · exact hw.2 e hmem
        · exact hw.1 e hmem
  | delLoop o =>
      refine lacks_onWorkflow hstep (fun w hw => ⟨hw.1, fun e hmem => ?_⟩) h.unowned
      exact hw.2 e (mem_foldl_eraseKey.mp hmem).1
  | run o now =>
      refine lacks_onWorkflow hstep (fun w hw => ⟨hw.1, fun e hmem => ?_⟩) h.unowned
      obtain ⟨e', hmem', -, rfl⟩ := mem_run hmem
      have hsame : (e'.elapse (now - w.curTick)).handle = e'.handle := by
        unfold Entry.elapse
        split <;> rfl
      rw [hsame]
      exact hw.2 e' hmem'

/-! ## Runs of a body -/

/-- A run of the task's body: of its function, or of `Tick` of a cancelable task. -/
def isBody (task : Nat) (call : Nat × Callback) : Bool :=
  call.1 = task && (call.2 = .run || call.2 = .tick)

/-- How often the body of a task was run. -/
def Manager.bodyRuns (task : Nat) (s : Manager) : Nat := s.log.countP (isBody task)

/-- Calls other than `Tick` do not run a body. -/
theorem countP_callCancelable {task : Nat} {callback : Callback} (hcallback : callback ≠ .tick)
    (hrun : callback ≠ .run) (entries : List Entry) :
    (callCancelable callback entries).countP (isBody task) = 0 := by
  rw [List.countP_eq_zero]
  intro call hmem
  obtain ⟨e, -, rfl⟩ := List.mem_map.mp hmem
  simp [isBody, hcallback, hrun]

/-- `TickTaskWorkflow` runs only bodies of tasks in its maps. -/
theorem countP_bodies {task : Nat} {w : Workflow} (h : ∀ e ∈ w.registry, e.data.task ≠ task)
    (delta : Int) : (w.bodies delta).countP (isBody task) = 0 := by
  have hmap : ∀ (p : Entry → Bool) (callback : Callback),
      ((w.registry.filter p).map fun e => (e.data.task, callback)).countP (isBody task) = 0 := by
    intro p callback
    rw [List.countP_eq_zero]
    intro call hmem
    obtain ⟨e, he, rfl⟩ := List.mem_map.mp hmem
    simp [isBody, h e (List.mem_of_mem_filter he)]
  unfold Workflow.bodies callCancelable
  simp only [List.countP_append, hmap]
  split
  · rw [hmap]
  · rfl

/-- The release of workflows runs no body. -/
theorem bodyRuns_tickWorkflows (task : Nat) (s : Manager) :
    s.tickWorkflows.bodyRuns task = s.bodyRuns task := by
  refine List.foldlRecOn (motive := fun u : Manager => u.bodyRuns task = s.bodyRuns task) _ _ rfl
    fun u hu handle _ => ?_
  rw [← hu]
  unfold Manager.releaseOne Manager.bodyRuns
  split
  · rfl
  · simp [List.countP_append, countP_callCancelable]

/-- The body of a task that is gone is not run. -/
theorem Gone.bodyRuns_step {task : Nat} (h : Gone handle s) (hnumbered : Numbered s)
    (hnumber : handle.toNat = task) {label : Label} (hstep : Task.step s label = some t) :
    t.bodyRuns task = s.bodyRuns task := by
  cases label with
  | newWorkflow now | add call | removeTask other =>
      cases hstep
      rfl
  | releaseWorkflow other =>
      cases hstep
      unfold Manager.releaseWorkflow
      split <;> rfl
  | shuffle queues =>
      obtain ⟨-, rfl⟩ := step_shuffle hstep
      rfl
  | tick =>
      refine tick_preserves (P := fun u => u.bodyRuns task = s.bodyRuns task) hstep
        (bodyRuns_tickWorkflows task s) (fun u hu => ?_) (fun other _ u v hu _ hv => ?_)
        (fun u hu => ?_)
      · unfold Manager.popAdd
        split
        · exact hu
        · unfold Manager.addOne
          split
          · exact hu
          · split <;> exact hu
      · unfold Manager.removeOne at hv
        split at hv
        · cases hv
          exact hu
        · obtain ⟨o, -, rfl⟩ := Option.map_eq_some_iff.mp hv
          exact hu
      · unfold Manager.popFinished
        split
        · exact hu
        · rw [finishOne_eq]
          split <;> exact hu
  | launch o =>
      obtain ⟨w, -, -, rfl⟩ := onWorkflow_eq_some (step_launch hstep).2
      simp [Manager.bodyRuns]
  | addLoop o | delLoop o =>
      obtain ⟨w, -, -, rfl⟩ := onWorkflow_eq_some hstep
      simp [Manager.bodyRuns, List.countP_append, countP_callCancelable]
  | run o now =>
      obtain ⟨w, hw, -, rfl⟩ := onWorkflow_eq_some hstep
      have hmem := List.mem_of_getElem? hw
      have hbodies : ∀ e ∈ w.registry, e.data.task ≠ task := by
        intro e he hsame
        apply (h.unowned w hmem).2 e he
        apply UInt32.toNat.inj
        rw [((hnumbered.numbered.objects w hmem).registry e he).1, hsame, hnumber]
      simp [Manager.bodyRuns, List.countP_append, countP_bodies hbodies]

/-! ## The request is taken -/

/-- A request to remove the task leaves no registered entry with its handle. -/
theorem Kept.removeOne_self (h : Kept e s) (hremove : s.removeOne e.handle = some t) :
    ∀ e' ∈ t.registry, e'.handle ≠ e.handle := by
  unfold Manager.removeOne at hremove
  split at hremove
  · rename_i hnone
    cases hremove
    intro e' hmem hsame
    have hfind := List.findSome?_eq_none_iff.mp hnone e'.data.type (by cases e'.data.type <;> simp)
    exact absurd (List.find?_eq_none.mp hfind e' hmem) (by simp [Entry.key, hsame])
  · rename_i found hfound
    obtain ⟨hmem, hhandle⟩ := Manager.mem_of_findTask hfound
    obtain ⟨o, -, rfl⟩ := Option.map_eq_some_iff.mp hremove
    intro e' hmem' hsame
    obtain ⟨hmem', hkey⟩ := List.mem_filter.mp hmem'
    have hkey : e'.key ≠ found.key := by simpa using hkey
    apply hkey
    rw [key_eq (h.own.registry e' hmem') hsame, key_eq (h.own.registry found hmem) hhandle]

/-- Serving requests to remove tasks adds nothing to the registry of the manager. -/
theorem registry_removes {u v : Manager} {handles : List UInt32}
    (h : exec Manager.removeOne u handles = some v) : v.registry ⊆ u.registry := by
  have hkeep : ∀ (w : Manager) handle x, w.registry ⊆ u.registry → True →
      w.removeOne handle = some x → x.registry ⊆ u.registry := by
    intro w handle x hw _ hx
    unfold Manager.removeOne at hx
    split at hx
    · cases hx
      exact hw
    · obtain ⟨o, -, rfl⟩ := Option.map_eq_some_iff.mp hx
      exact List.Subset.trans List.filter_sublist.subset hw
  exact exec_invariant hkeep (List.Subset.refl _) (guarded_true _ _) h

theorem queues_removes {u v : Manager} {handles : List UInt32}
    (h : exec Manager.removeOne u handles = some v) : v.queues = u.queues := by
  have hkeep : ∀ (w : Manager) handle x, w.queues = u.queues → True →
      w.removeOne handle = some x → x.queues = u.queues :=
    fun w handle x hw _ hx => (removeOne_queues hx).trans hw
  exact exec_invariant hkeep rfl (guarded_true _ _) h

/-- A batch of requests to remove tasks that has one for the task. -/
theorem Kept.removes {handles : List UInt32} (h : Kept e s) (hmem : e.handle ∈ handles)
    (hremoves : exec Manager.removeOne s handles = some t) :
    ∀ e' ∈ t.registry, e'.handle ≠ e.handle := by
  induction handles generalizing s with
  | nil => cases hmem
  | cons other rest ih =>
      obtain ⟨u, hu, hrest⟩ := exec_cons_eq_some.mp hremoves
      by_cases hsame : other = e.handle
      · subst hsame
        exact fun e' he' => h.removeOne_self hu e' (registry_removes hrest he')
      · rw [List.mem_cons] at hmem
        exact ih (h.removeOne hu) (hmem.resolve_left (Ne.symm hsame)) hrest

/-- Serving requests to add tasks takes them from the queue. -/
theorem syncAdd_popAdd (n : Nat) (s : Manager) :
    (Manager.popAdd^[n] s).queues.syncAdd = s.queues.syncAdd.drop n := by
  induction n generalizing s with
  | zero => rfl
  | succ n ih =>
      rw [Function.iterate_succ_apply, ih]
      unfold Manager.popAdd
      split
      · rename_i hqueue
        rw [hqueue]
        simp
      · rename_i e rest hqueue
        rw [hqueue, addOne_queues]
        rfl

/-- A `Tick` that takes the request to remove the task leaves nothing of it with the manager. -/
theorem Kept.tick_taken (h : Kept e s) (hquiet : s.queues.delWorkflows = [])
    (hok : Unovertaken s .tick) (htaken : e.handle ∈ s.queues.syncDel.take 100)
    (htick : Task.step s .tick = some t) : Leaving e.handle t := by
  obtain ⟨v, hv, rfl⟩ := Option.map_eq_some_iff.mp htick
  have hadds : Kept e s.tickAdds := by
    rw [tickAdds_eq]
    exact iterate_preserves (fun u hu => hu.popAdd) (h.tickWorkflows hquiet) _
  have hdrop : v.queues.syncAdd = s.queues.syncAdd.drop 100 := by
    rw [queues_removes hv, tickAdds_eq, syncAdd_popAdd, (tickWorkflows_frame s).syncAdd,
      List.length_take]
    rcases Nat.le_total 100 s.queues.syncAdd.length with hle | hle
    · rw [Nat.min_eq_left hle]
    · rw [Nat.min_eq_right hle, List.drop_length, List.drop_eq_nil_of_le hle]
  have hleaving : Leaving e.handle v := by
    refine ⟨fun e' hmem hsame => ?_, hadds.removes htaken hv⟩
    rw [hdrop] at hmem
    exact hok e.handle htaken (hsame ▸ List.mem_map_of_mem hmem)
  rw [tickFinished_eq]
  exact iterate_preserves (fun u hu => hu.popFinished) hleaving _

/-! ## Runs -/

/-- The scope of the removal of tasks: no workflow is released, the handles do not wrap, and no
request to remove overtakes. -/
def InScope (s : Manager) (label : Label) : Prop :=
  (Unovertaken s label ∧ Bounded s label) ∧ ∀ handle, label ≠ .releaseWorkflow handle

/-- What holds of the task of an `Add` call all along. -/
structure Tracked (e : Entry) (s : Manager) : Prop where
  numbered : Numbered s
  quiet : s.queues.delWorkflows = []
  kept : Kept e s
  drawn : e.handle.toNat < s.tasks

/-- A later `Add` call returns another handle. -/
theorem Numbered.newEntry_ne (h : Numbered s) {label : Label} (hok : Bounded s label)
    (hdrawn : handle.toNat < s.tasks) :
    ∀ call, label = .add call → (s.newEntry call).handle ≠ handle := by
  rintro call rfl rfl
  have hnew := (h.newEntry hok call).1
  omega

theorem Tracked.step (h : Tracked e s) {label : Label} (hok : InScope s label)
    (hstep : step s label = some t) : Tracked e t := by
  obtain ⟨⟨hunovertaken, hbounded⟩, hlabel⟩ := hok
  exact ⟨h.numbered.step hbounded hstep, quiet_step h.quiet hlabel hstep,
    h.kept.step h.quiet hunovertaken (h.numbered.newEntry_ne hbounded h.drawn) hstep,
    Nat.lt_of_lt_of_le h.drawn (tasks_le_step hstep)⟩

/-- The `Add` call makes the one entry of the task. -/
theorem tracked_add (h : Numbered s) (hquiet : s.queues.delWorkflows = []) {call : AddCall}
    (hbound : s.tasks + 1 < 2 ^ 32) : Tracked (s.newEntry call) (s.add call) := by
  obtain ⟨hhandle, -⟩ := h.newEntry hbound call
  have hfresh : s.All fun e => e.handle ≠ (s.newEntry call).handle := by
    refine h.numbered.mono fun e he hsame => ?_
    rw [hsame] at he
    omega
  have hlive : s.live (Entry.isFor (s.newEntry call).handle) = 0 := by
    apply live_eq_zero
    exact hfresh.mono fun e he => by simpa [Entry.isFor] using he
  have hstep : step s (.add call) = some (s.add call) := rfl
  have hok : Bounded s (.add call) := hbound
  refine ⟨h.step hok hstep, hquiet, ⟨?_, ?_, ?_⟩, ?_⟩
  · refine Manager.All.step (s := s) ?_ (hfresh.mono fun e he hsame => absurd hsame he) ?_ hstep
    · intro delta e' he'
      unfold Entry.elapse
      split <;> exact he'
    · rintro other hother -
      cases hother
      exact ⟨rfl, rfl⟩
  · unfold Manager.live at hlive ⊢
    simp only [Manager.add, List.countP_append, List.countP_singleton]
    split <;> omega
  · intro o w hw hpos
    have hle : w.live (Entry.isFor (s.newEntry call).handle) ≤
        (s.objects.map (Workflow.live (Entry.isFor (s.newEntry call).handle))).sum := le_sum_map hw
    unfold Manager.live at hlive
    omega
  · show (s.newEntry call).handle.toNat < s.tasks + 1
    omega

/-- When the workflow has run its second loop, a task that leaves is gone. -/
theorem Tracked.delLoop (h : Tracked e s) (hleaving : Leaving e.handle s) {o : Nat}
    (hok : Unovertaken s (.delLoop o)) (hstep : Task.step s (.delLoop o) = some t)
    (hworkflow : t.datas.lookup e.data.workflow = some o) : Gone e.handle t := by
  refine ⟨hleaving.step (fun call hcall => by cases hcall) hstep, ?_⟩
  obtain ⟨w, hw, -, rfl⟩ := onWorkflow_eq_some hstep
  have hheld : ∀ o' (v : Workflow), s.objects[o']? = some v → 0 < v.live (Entry.isFor e.handle) →
      o' = o ∧ e.handle ∈ v.appendingDel.map Entry.handle := by
    intro o' v hv hpos
    obtain ⟨hplaced, hheld⟩ := h.kept.keeps o' v hv hpos
    rw [hplaced, Option.some.injEq] at hworkflow
    refine ⟨hworkflow, hheld.resolve_left fun hmem => ?_⟩
    obtain ⟨e', hmem, hsame⟩ := List.mem_map.mp hmem
    exact hleaving.unregistered e' hmem hsame
  have hlacks : ∀ v : Workflow, ¬ 0 < v.live (Entry.isFor e.handle) → v.Lacks e.handle := by
    intro v hv
    rw [live_pos_iff, not_or] at hv
    exact ⟨fun e' hmem hsame => hv.1 (hsame ▸ List.mem_map_of_mem hmem),
      fun e' hmem hsame => hv.2 (hsame ▸ List.mem_map_of_mem hmem)⟩
  intro v hv
  obtain ⟨o', hv⟩ := List.mem_iff_getElem?.mp hv
  apply hlacks
  rcases getElem?_modify_cases hv with ⟨u, rfl, hu, rfl⟩ | ⟨hne, hu⟩
  · intro hpos
    have hown := h.kept.own.objects u (List.mem_of_getElem? hu)
    have hdel := (hheld o' u hu (Nat.lt_of_lt_of_le hpos u.live_delLoop)).2
    exact delLoop_live hown (hok u hu) hdel hpos
  · exact fun hpos => hne (hheld o' v hu hpos).1

/-- A run in which a task is added and its removal requested, a `Tick` takes the request, and then
the workflow of the task runs both loops of `WorkflowThreadTick`. No workflow is released, and
fewer than `2 ^ 32` handles are drawn. -/
def RemovalRun (e : Entry) (labels : List Label) (t : Manager) : Prop :=
  ∃ before call queued handed o between s₀ s₁ s₂,
    labels = before ++ (.add call :: queued ++
      (.tick :: handed ++ .addLoop o :: between ++ [.delLoop o])) ∧
    exec step .init before = some s₀ ∧ e = s₀.newEntry call ∧
    exec step s₀ (.add call :: queued) = some s₁ ∧ .removeTask e.handle ∈ queued ∧
    e.handle ∈ s₁.queues.syncDel.take 100 ∧
    exec step s₁ (.tick :: handed ++ .addLoop o :: between) = some s₂ ∧
    step s₂ (.delLoop o) = some t ∧ t.datas.lookup e.data.workflow = some o ∧
    (∀ handle, .releaseWorkflow handle ∉ labels) ∧ t.tasks < 2 ^ 32

/-- The task is in no map of the manager or of a workflow, and its body is never run again. -/
def Removed (e : Entry) (t : Manager) : Prop :=
  ∀ after u, exec step t after = some u → u.tasks < 2 ^ 32 →
    (∀ e' ∈ u.registry, e'.handle ≠ e.handle) ∧
      (∀ w ∈ u.objects, ∀ e' ∈ w.registry, e'.handle ≠ e.handle) ∧
      u.bodyRuns e.data.task = t.bodyRuns e.data.task

/-- A task that is gone stays so in every continuation. -/
theorem Gone.removed (h : Gone e.handle t) (hnumbered : Numbered t)
    (hnumber : e.handle.toNat = e.data.task) (hdrawn : e.handle.toNat < t.tasks) :
    Removed e t := by
  intro after u hrun htasks
  have hkeep : ∀ s label v, (Numbered s ∧ Gone e.handle s ∧ e.handle.toNat < s.tasks ∧
      s.bodyRuns e.data.task = t.bodyRuns e.data.task) → Bounded s label →
      Task.step s label = some v → Numbered v ∧ Gone e.handle v ∧ e.handle.toNat < v.tasks ∧
        v.bodyRuns e.data.task = t.bodyRuns e.data.task := by
    rintro s label v ⟨hnum, hgone, hlt, hbody⟩ hok hstep
    exact ⟨hnum.step hok hstep, hgone.step (hnum.newEntry_ne hok hlt) hstep,
      Nat.lt_of_lt_of_le hlt (tasks_le_step hstep),
      (hgone.bodyRuns_step hnum hnumber hstep).trans hbody⟩
  have hinv := exec_invariant hkeep ⟨hnumbered, h, hdrawn, rfl⟩ (bounded_run hrun htasks) hrun
  obtain ⟨-, hgone, -, hbody⟩ := hinv
  exact ⟨hgone.unregistered, fun w hw => (hgone.unowned w hw).2, hbody⟩

/-- A run in scope keeps the numbers of the tasks and releases nothing. -/
theorem numbered_run {labels : List Label} (hok : Guarded step InScope .init labels)
    (hrun : exec step .init labels = some s) : Numbered s ∧ s.queues.delWorkflows = [] := by
  have hkeep : ∀ s label t, Numbered s ∧ s.queues.delWorkflows = [] → InScope s label →
      step s label = some t → Numbered t ∧ t.queues.delWorkflows = [] := by
    rintro s label t ⟨hnum, hquiet⟩ hok hstep
    exact ⟨hnum.step hok.1.2 hstep, quiet_step hquiet hok.2 hstep⟩
  have hinit : Manager.init.All fun e =>
      e.handle.toNat = e.data.task ∧ e.data.task < Manager.init.tasks := by
    constructor <;> simp [Manager.init]
    constructor <;> simp
  exact exec_invariant hkeep ⟨⟨rfl, hinit⟩, rfl⟩ hok hrun

/-- A `Tick` that takes the request and the run behind it: the task keeps leaving. -/
theorem Tracked.leaving {labels : List Label} (h : Tracked e s)
    (htaken : e.handle ∈ s.queues.syncDel.take 100)
    (hok : Guarded Task.step InScope s (.tick :: labels))
    (hrun : exec Task.step s (.tick :: labels) = some t) :
    Tracked e t ∧ Leaving e.handle t := by
  obtain ⟨u, htick, hrest⟩ := exec_cons_eq_some.mp hrun
  have hkeep : ∀ s label t, Tracked e s ∧ Leaving e.handle s → InScope s label →
      Task.step s label = some t → Tracked e t ∧ Leaving e.handle t := by
    rintro s label t ⟨htracked, hleaving⟩ hok hstep
    exact ⟨htracked.step hok hstep,
      hleaving.step (htracked.numbered.newEntry_ne hok.1.2 htracked.drawn) hstep⟩
  exact exec_invariant hkeep
    ⟨h.step hok.1 htick, h.kept.tick_taken h.quiet hok.1.1.1 htaken htick⟩ (hok.2 u htick) hrest

/-- Removal of a task takes effect in every run in which no request to remove overtakes. -/
theorem removed_task_gone {labels : List Label} (hrun : RemovalRun e labels t)
    (hok : Guarded step Unovertaken .init labels) : Removed e t := by
  obtain ⟨before, call, queued, handed, o, between, s₀, s₁, s₂, rfl, hbefore, rfl, hqueued, -,
    htaken, hhanded, hdel, hworkflow, hquiet, htasks⟩ := hrun
  have hlast : exec step s₂ [.delLoop o] = some t := exec_cons_eq_some.mpr ⟨t, hdel, rfl⟩
  have hall := exec_append_eq_some.mpr ⟨s₀, hbefore, exec_append_eq_some.mpr ⟨s₁, hqueued,
    exec_append_eq_some.mpr ⟨s₂, hhanded, hlast⟩⟩⟩
  have hscope : Guarded step InScope .init (before ++ (.add call :: queued ++
      (.tick :: handed ++ .addLoop o :: between ++ [.delLoop o]))) := by
    refine (hok.and (bounded_run hall htasks)).and (guarded_of_mem (fun label hmem handle => ?_) _)
    rintro rfl
    exact hquiet handle hmem
  obtain ⟨hscope₀, hscope⟩ := hscope.of_append hbefore
  obtain ⟨hscope₁, hscope⟩ := hscope.of_append hqueued
  obtain ⟨hscope₂, hscope₃⟩ := hscope.of_append hhanded
  -- From the `Add` call on the task is tracked.
  obtain ⟨hnumbered, hnothing⟩ := numbered_run hscope₀ hbefore
  obtain ⟨s, hs, hqueued⟩ := exec_cons_eq_some.mp hqueued
  have hbound : s₀.tasks + 1 < 2 ^ 32 := hscope₁.1.1.2
  have hnew : Tracked (s₀.newEntry call) s := by
    cases hs
    exact tracked_add hnumbered hnothing hbound
  have htracked : Tracked (s₀.newEntry call) s₁ :=
    exec_invariant (fun s label t h hok hstep => h.step hok hstep) hnew (hscope₁.2 s hs) hqueued
  -- The `Tick` makes the manager forget it, the second loop of its workflow makes it gone.
  obtain ⟨htracked, hleaving⟩ := htracked.leaving htaken hscope₂ hhanded
  have hgone := htracked.delLoop hleaving hscope₃.1.1.1 hdel hworkflow
  have htracked := htracked.step hscope₃.1 hdel
  obtain ⟨hhandle, htask⟩ := hnumbered.newEntry hbound call
  exact hgone.removed htracked.numbered (hhandle.trans htask.symm) htracked.drawn

/-- A tick task is added, run by its workflow and removed. -/
def tickTaskRun : List Label :=
  [.newWorkflow 0, .tick, .add (.addTick 1), .tick, .launch 2, .addLoop 2, .delLoop 2, .run 2 0,
    .removeTask 0, .tick, .launch 2, .addLoop 2, .delLoop 2]

/-- The removal of the task takes effect after its body was run once. -/
theorem tickTaskRun_removed :
    ∃ e t, RemovalRun e tickTaskRun t ∧ t.bodyRuns e.data.task = 1 ∧ Removed e t := by
  have hok : Guarded step Unovertaken .init tickTaskRun := by decide
  have hrun : ∃ e t, RemovalRun e tickTaskRun t ∧ t.bodyRuns e.data.task = 1 := by
    refine ⟨_, _, ⟨[.newWorkflow 0, .tick], .addTick 1, [.tick, .launch 2, .addLoop 2, .delLoop 2,
      .run 2 0, .removeTask 0], [.launch 2], 2, [], _, _, _, rfl, rfl, rfl, rfl, ?_, ?_, rfl, rfl,
      rfl, ?_, ?_⟩, rfl⟩
    · show Label.removeTask 0 ∈ _
      simp
    · decide
    · simp [tickTaskRun]
    · decide
  obtain ⟨e, t, hrun, hbody⟩ := hrun
  exact ⟨e, t, hrun, hbody, removed_task_gone hrun hok⟩

/-- A `Tick` hands the task and the request to delete it over between the two loops of the
workflow: the request is dropped, the next tick of the workflow takes the task over, and its body
is run. -/
theorem overtaken_task_stays :
    ∃ e t u, RemovalRun e [.newWorkflow 0, .tick, .launch 2, .addLoop 2, .add (.addTick 1),
        .removeTask 0, .tick, .delLoop 2, .run 2 0, .launch 2, .addLoop 2, .delLoop 2] t ∧
      exec step t [.run 2 1000000000] = some u ∧ t.bodyRuns e.data.task = 0 ∧
      u.bodyRuns e.data.task = 1 ∧ ¬ Removed e t := by
  refine ⟨_, _, _, ⟨[.newWorkflow 0, .tick, .launch 2, .addLoop 2], .addTick 1, [.removeTask 0],
    [.delLoop 2, .run 2 0, .launch 2], 2, [], _, _, _, rfl, rfl, rfl, rfl, ?_, ?_, rfl, rfl, rfl,
    ?_, ?_⟩, rfl, rfl, rfl, fun h => ?_⟩
  · show Label.removeTask 0 ∈ _
    simp
  · decide
  · simp
  · decide
  · have hbody := (h [.run 2 1000000000] _ rfl (by decide)).2.2
    exact absurd hbody (by decide)

end Utilpp.Task

import Utilpp.Task.Entries

/-!
# The life of a cancelable task

`FCancelableTaskBase` documents the calls that a task sees: `Init` once, `Tick`, `OnStop` when it
is removed, `Finalize` last. `lifecycle_run` shows it for every task that is never removed. A task
that is removed does not see it: `RemoveTask` finalizes it without `OnStop`
(`removed_without_onStop`), and the release of its workflow calls `OnStop` but never `Finalize`.
-/

namespace Utilpp.Task

open Lib

/-- The calls of one task in a list of calls. -/
def callsOf (task : Nat) (calls : List (Nat × Callback)) : List Callback :=
  (calls.filter (·.1 = task)).map Prod.snd

/-- The calls that a task has seen. -/
def Manager.callbacks (task : Nat) (s : Manager) : List Callback := callsOf task s.log

/-- The task is registered with a workflow that this `Tick` releases, or is in the maps of one; or
the `Tick` takes a request to remove the registered task. -/
def Manager.Removes (task : Nat) (s : Manager) : Prop :=
  (∃ e ∈ s.registry, e.data.task = task ∧ e.data.workflow ∈ s.queues.delWorkflows) ∨
    (∃ handle ∈ s.queues.delWorkflows,
      ∃ w ∈ ((s.takeWorkflows.datas.lookup handle).bind (s.objects[·]?)).toList,
        ∃ e ∈ w.registry, e.data.task = task) ∨
    ∃ e ∈ s.tickAdds.registry, e.data.task = task ∧ e.handle ∈ s.queues.syncDel.take 100

instance (task : Nat) (s : Manager) : Decidable (s.Removes task) :=
  inferInstanceAs (Decidable (_ ∨ _ ∨ _))

/-- Some `Tick` of the run has removed the task. -/
def WasRemoved (task : Nat) (labels : List Label) : Prop :=
  ∃ before after s, labels = before ++ .tick :: after ∧ exec step .init before = some s ∧
    s.Removes task

/-- The workflow object is known to no one and not running: it is destroyed, with its maps. -/
def Manager.Destroyed (s : Manager) (o : Nat) : Prop :=
  o ∉ s.datas.map Prod.snd ∧ o ∉ s.queues.addWorkflows.map Prod.snd ∧
    ∀ w ∈ s.objects[o]?, w.phase = .idle

/-- The documented life of a cancelable task, for a run that has reached `s`. -/
structure Lifecycle (task : Nat) (labels : List Label) (s : Manager) : Prop where
  /-- The calls are a first part of `Init`, `Tick` any number of times, `OnStop`, `Tick` any
  number of times, `Finalize`. -/
  order : ∃ before after, s.callbacks task <+: .init :: (List.replicate before .tick ++
    .onStop :: (List.replicate after .tick ++ [.finalize]))
  /-- A task that was removed has been told once. -/
  stopped : WasRemoved task labels → (s.callbacks task).count .onStop = 1
  /-- A task that was removed and is in no map has been finalized. -/
  finalized : WasRemoved task labels → (∀ e ∈ s.registry, e.data.task ≠ task) →
    (∀ o, ∀ w ∈ s.objects[o]?, (∃ e ∈ w.registry, e.data.task = task) → s.Destroyed o) →
    .finalize ∈ s.callbacks task

/-- The task is not removed in this step. -/
def Unremoved (task : Nat) (s : Manager) : Label → Prop
  | .tick => ¬ s.Removes task
  | _ => True

instance (task : Nat) (s : Manager) : (label : Label) → Decidable (Unremoved task s label)
  | .tick => inferInstanceAs (Decidable (¬ _))
  | .newWorkflow _ | .releaseWorkflow _ | .add _ | .removeTask _ | .shuffle _ | .launch _
  | .addLoop _ | .delLoop _ | .run _ _ => inferInstanceAs (Decidable True)

/-! ## Calls of one task -/

theorem callsOf_append (task : Nat) (first second : List (Nat × Callback)) :
    callsOf task (first ++ second) = callsOf task first ++ callsOf task second := by
  simp [callsOf]

/-- A cancelable task gets one call for each of its entries. -/
theorem callsOf_callCancelable {task : Nat} {entries : List Entry}
    (hcancelable : ∀ e ∈ entries, e.data.task = task → e.data.type = .cancelable)
    (callback : Callback) :
    callsOf task (callCancelable callback entries) =
      List.replicate (entries.countP (Entry.isOf task)) callback := by
  induction entries with
  | nil => rfl
  | cons e rest ih =>
      have hrest := ih fun e' hmem => hcancelable e' (List.mem_cons_of_mem _ hmem)
      have hsplit : callCancelable callback (e :: rest) =
          callCancelable callback [e] ++ callCancelable callback rest := by
        unfold callCancelable
        rw [← List.map_append, ← List.filter_append, List.singleton_append]
      rw [hsplit, callsOf_append, hrest, List.countP_cons]
      by_cases hof : e.data.task = task
      · have htype := hcancelable e List.mem_cons_self hof
        have hone : callsOf task (callCancelable callback [e]) = [callback] := by
          simp [callsOf, callCancelable, htype, hof]
        rw [hone, if_pos (by simpa [Entry.isOf] using hof), List.replicate_succ]
        rfl
      · have hnone : callsOf task (callCancelable callback [e]) = [] := by
          unfold callCancelable callsOf
          simp [hof]
        rw [hnone, if_neg (by simpa [Entry.isOf] using hof)]
        rfl

/-- A list without entries of the task makes no call to it. -/
theorem callsOf_callCancelable_of_ne {task : Nat} {entries : List Entry}
    (h : ∀ e ∈ entries, e.data.task ≠ task) (callback : Callback) :
    callsOf task (callCancelable callback entries) = [] := by
  have hcount : entries.countP (Entry.isOf task) = 0 := by
    rw [List.countP_eq_zero]
    intro e hmem
    simpa [Entry.isOf] using h e hmem
  rw [callsOf_callCancelable (fun e hmem hof => absurd hof (h e hmem)), hcount]
  rfl

/-- `TickTaskWorkflow` calls `Tick` of a cancelable task and nothing else. -/
theorem callsOf_bodies {task : Nat} {w : Workflow}
    (hcancelable : ∀ e ∈ w.registry, e.data.task = task → e.data.type = .cancelable)
    (delta : Int) : ∃ n, callsOf task (w.bodies delta) = List.replicate n .tick ∧
      (n ≠ 0 → ∃ e ∈ w.registry, e.data.task = task) := by
  have hrun : ∀ p : Entry → Bool, (∀ e, p e = true → e.data.type ≠ .cancelable) →
      callsOf task ((w.registry.filter p).map fun e => (e.data.task, Callback.run)) = [] := by
    intro p hp
    unfold callsOf
    rw [List.map_eq_nil_iff, List.filter_eq_nil_iff]
    intro call hmem
    obtain ⟨e, he, rfl⟩ := List.mem_map.mp hmem
    obtain ⟨he, hpe⟩ := List.mem_filter.mp he
    have hne : e.data.task ≠ task := fun hof => hp e hpe (hcancelable e he hof)
    simpa using hne
  have hticks := callsOf_callCancelable hcancelable .tick
  have hcount : w.registry.countP (Entry.isOf task) ≠ 0 → ∃ e ∈ w.registry, e.data.task = task := by
    intro hne
    obtain ⟨e, he, hof⟩ := List.countP_pos_iff.mp (Nat.pos_of_ne_zero hne)
    exact ⟨e, he, by simpa [Entry.isOf] using hof⟩
  unfold Workflow.bodies
  simp only [callsOf_append]
  rw [hrun _ (fun e he => by simp at he; simp [he.2]), hrun _ (fun e he => by
    simp [Entry.due] at he; simp [he.1]), hrun _ (fun e he => by simp at he; simp [he])]
  split
  · exact ⟨_, by rw [hticks]; simp, hcount⟩
  · exact ⟨0, rfl, fun h => absurd rfl h⟩

/-! ## A task that is not removed -/

/-- What holds of a cancelable task that was added and not removed: its one entry waits and it has
seen nothing, or it has seen `Init` and `Tick`. -/
structure Alive (task : Nat) (s : Manager) : Prop where
  once : s.live (Entry.isOf task) ≤ 1
  cancelable : s.All fun e => e.data.task = task → e.data.type = .cancelable
  undeleted : ∀ w ∈ s.objects, ∀ e ∈ w.appendingDel, e.data.task ≠ task
  queued : ∀ e ∈ s.queues.syncAdd, e.data.task = task → s.callbacks task = []
  waiting : ∀ w ∈ s.objects, ∀ e ∈ w.appendingAdd, e.data.task = task → s.callbacks task = []
  begun : ∀ w ∈ s.objects, ∀ e ∈ w.registry, e.data.task = task → s.callbacks task ≠ []
  shape : s.callbacks task = [] ∨
    ∃ n, s.callbacks task = .init :: List.replicate n .tick

variable {task : Nat} {s t : Manager}

theorem Alive.popAdd (h : Alive task s) : Alive task s.popAdd := by
  have honce := (live_popAdd s).trans h.once
  have hall := h.cancelable.popAdd
  rcases popAdd_cases s with heq | ⟨e, rest, hqueue, hcases⟩
  · rw [heq]
    exact h
  · have hqueued := h.queued
    rw [hqueue, List.forall_mem_cons] at hqueued
    rcases hcases with heq | ⟨o, -, -, heq⟩
    · rw [heq] at honce hall ⊢
      exact ⟨honce, hall, h.undeleted, hqueued.2, h.waiting, h.begun, h.shape⟩
    · rw [heq] at honce hall ⊢
      refine ⟨honce, hall, ?_, hqueued.2, ?_, ?_, h.shape⟩
      · intro w hw
        rcases mem_modify hw with hw | ⟨v, hv, rfl⟩
        · exact h.undeleted w hw
        · exact h.undeleted v (List.mem_of_getElem? hv)
      · intro w hw e' he'
        rcases mem_modify hw with hw | ⟨v, hv, rfl⟩
        · exact h.waiting w hw e' he'
        · rw [List.mem_append, List.mem_singleton] at he'
          rcases he' with he' | rfl
          · exact h.waiting v (List.mem_of_getElem? hv) e' he'
          · exact hqueued.1
      · intro w hw
        rcases mem_modify hw with hw | ⟨v, hv, rfl⟩
        · exact h.begun w hw
        · exact h.begun v (List.mem_of_getElem? hv)

theorem Alive.removeOne (h : Alive task s) {handle : UInt32}
    (hother : ∀ e, s.findTask handle = some e → e.data.task ≠ task)
    (hremove : s.removeOne handle = some t) : Alive task t := by
  have honce := (live_removeOne (p := Entry.isOf task) hremove).trans h.once
  have hall := h.cancelable.removeOne hremove
  rcases removeOne_cases hremove with rfl | ⟨e, o, hfound, -, rfl⟩
  · exact h
  · refine ⟨honce, hall, ?_, h.queued, ?_, ?_, h.shape⟩
    · intro w hw e' he'
      rcases mem_modify hw with hw | ⟨v, hv, rfl⟩
      · exact h.undeleted w hw e' he'
      · rw [List.mem_append, List.mem_singleton] at he'
        rcases he' with he' | rfl
        · exact h.undeleted v (List.mem_of_getElem? hv) e' he'
        · exact hother e' hfound
    · intro w hw
      rcases mem_modify hw with hw | ⟨v, hv, rfl⟩
      · exact h.waiting w hw
      · exact h.waiting v (List.mem_of_getElem? hv)
    · intro w hw
      rcases mem_modify hw with hw | ⟨v, hv, rfl⟩
      · exact h.begun w hw
      · exact h.begun v (List.mem_of_getElem? hv)

theorem Alive.popFinished (h : Alive task s) : Alive task s.popFinished := by
  have honce := (live_popFinished s).trans h.once
  have hall := h.cancelable.popFinished
  rcases popFinished_cases s with heq | ⟨e, rest, -, heq | heq⟩
  · rw [heq]
    exact h
  · rw [heq] at honce hall ⊢
    exact ⟨honce, hall, h.undeleted, h.queued, h.waiting, h.begun, h.shape⟩
  · rw [heq] at honce hall ⊢
    exact ⟨honce, hall, h.undeleted, h.queued, h.waiting, h.begun, h.shape⟩

/-- The release of workflows that do not have the task makes no call to it. -/
theorem callbacks_release {handles : List UInt32}
    (h : ∀ handle ∈ handles, ∀ w ∈ (s.datas.lookup handle).bind (s.objects[·]?),
      ∀ e ∈ w.registry, e.data.task ≠ task) :
    (handles.foldl Manager.releaseOne s).callbacks task = s.callbacks task := by
  induction handles generalizing s with
  | nil => rfl
  | cons handle rest ih =>
      rw [List.foldl_cons]
      cases hfound : (s.datas.lookup handle).bind (s.objects[·]?) with
      | none =>
          rw [releaseOne_of_none hfound]
          exact ih fun other hmem => h other (List.mem_cons_of_mem _ hmem)
      | some w =>
          have hreleased := releaseOne_of_some hfound
          have hcalls : (s.releaseOne handle).callbacks task = s.callbacks task := by
            rw [hreleased]
            show callsOf task (s.log ++ callCancelable .onStop w.registry) = callsOf task s.log
            rw [callsOf_append, callsOf_callCancelable_of_ne (h handle List.mem_cons_self w hfound),
              List.append_nil]
          rw [← hcalls]
          apply ih
          intro other hmem v hv
          rw [hreleased] at hv
          obtain ⟨o, ho, hobject⟩ := Option.bind_eq_some_iff.mp hv
          have hne : other ≠ handle := by
            rintro rfl
            exact lookup_filter_self ho
          rw [lookup_filter_ne hne] at ho
          exact h other (List.mem_cons_of_mem _ hmem) v
            (Option.bind_eq_some_iff.mpr ⟨o, ho, hobject⟩)

/-- The workflows' part of a `Tick` that does not remove the task. -/
theorem Alive.tickWorkflows (h : Alive task s) (hok : ¬ s.Removes task) :
    Alive task s.tickWorkflows := by
  have hframe := tickWorkflows_frame s
  have hcalls : s.tickWorkflows.callbacks task = s.callbacks task := by
    refine callbacks_release fun handle hmem w hw e he hof => hok (.inr (.inl ?_))
    exact ⟨handle, hmem, w, Option.mem_toList.mpr hw, e, he, hof⟩
  refine ⟨?_, ?_, ?_, ?_, ?_, ?_, ?_⟩
  · unfold Manager.live
    rw [hframe.syncAdd, hframe.syncFinished, hframe.objects]
    exact h.once
  · exact ⟨hframe.syncAdd ▸ h.cancelable.syncAdd, hframe.syncFinished ▸ h.cancelable.syncFinished,
      fun e hmem => h.cancelable.registry e (hframe.registry hmem),
      hframe.objects ▸ h.cancelable.objects⟩
  · rw [hframe.objects]
    exact h.undeleted
  · rw [hframe.syncAdd, hcalls]
    exact h.queued
  · rw [hframe.objects, hcalls]
    exact h.waiting
  · rw [hframe.objects, hcalls]
    exact h.begun
  · rw [hcalls]
    exact h.shape

theorem Alive.tick (h : Alive task s) (hok : ¬ s.Removes task) (htick : s.tick = some t) :
    Alive task t := by
  refine tick_preserves (P := Alive task) htick (h.tickWorkflows hok) (fun u hu => hu.popAdd)
    (fun handle hhandle u v hu hsub hv => ?_) (fun u hu => hu.popFinished)
  refine hu.removeOne (fun e hfound hof => hok (.inr (.inr ?_))) hv
  obtain ⟨hmem, hsame⟩ := Manager.mem_of_findTask hfound
  exact ⟨e, hsub hmem, hof, hsame ▸ hhandle⟩

/-- When the entry of the task waits in a workflow, it is nowhere else on its way. -/
theorem Alive.alone (h : Alive task s) {o : Nat} {w : Workflow} (hw : s.objects[o]? = some w)
    (hpos : 0 < w.appendingAdd.countP (Entry.isOf task)) :
    w.appendingAdd.countP (Entry.isOf task) = 1 ∧
      (∀ e ∈ s.queues.syncAdd, e.data.task ≠ task) ∧
      ∀ o' (v : Workflow), o' ≠ o → s.objects[o']? = some v →
        ∀ e ∈ v.appendingAdd, e.data.task ≠ task := by
  have hlive : w.live (Entry.isOf task) = w.appendingAdd.countP (Entry.isOf task) +
      w.registry.countP (Entry.isOf task) := rfl
  obtain ⟨hone, hsync, hothers⟩ := live_alone h.once hw (by omega)
  refine ⟨by omega, fun e hmem => isOf_eq_false.mp (hsync e hmem), fun o' v hne hv e hmem => ?_⟩
  exact isOf_eq_false.mp ((Workflow.live_eq_zero.mp (hothers o' v hne hv)).1 e hmem)

theorem Alive.addLoop (h : Alive task s) {o : Nat} (hstep : step s (.addLoop o) = some t)
    (honce : t.live (Entry.isOf task) ≤ 1)
    (hall : t.All fun e => e.data.task = task → e.data.type = .cancelable) : Alive task t := by
  obtain ⟨w, hw, -, rfl⟩ := onWorkflow_eq_some hstep
  have hmem := List.mem_of_getElem? hw
  have hcalls := callsOf_callCancelable (h.cancelable.objects w hmem).appendingAdd .init
  have hundeleted : ∀ v ∈ s.objects.modify o Workflow.addLoop, ∀ e ∈ v.appendingDel,
      e.data.task ≠ task := by
    intro v hv
    rcases mem_modify hv with hv | ⟨u, hu, rfl⟩
    · exact h.undeleted v hv
    · exact h.undeleted u (List.mem_of_getElem? hu)
  rcases Nat.eq_zero_or_pos (w.appendingAdd.countP (Entry.isOf task)) with hzero | hpos
  · -- The task does not wait here, and sees nothing.
    have hsame : Manager.callbacks task { s with
        objects := s.objects.modify o Workflow.addLoop
        queues.syncFinished := s.queues.syncFinished ++ []
        log := s.log ++ callCancelable .init w.appendingAdd } = s.callbacks task := by
      show callsOf task (s.log ++ callCancelable .init w.appendingAdd) = callsOf task s.log
      rw [callsOf_append, hcalls, hzero, List.replicate_zero, List.append_nil]
    refine ⟨honce, hall, hundeleted, ?_, ?_, ?_, ?_⟩
    · rw [hsame]
      exact h.queued
    · rw [hsame]
      intro v hv
      rcases mem_modify hv with hv | ⟨u, -, rfl⟩
      · exact h.waiting v hv
      · exact fun e he => nomatch he
    · rw [hsame]
      intro v hv e he hof
      rcases mem_modify hv with hv | ⟨u, hu, rfl⟩
      · exact h.begun v hv e he hof
      · rw [hw, Option.some.injEq] at hu
        subst hu
        rcases mem_foldl_tryEmplace he with he | he
        · exact h.begun w hmem e he hof
        · exact absurd (by simpa [Entry.isOf] using hof) (List.countP_eq_zero.mp hzero e he)
    · rw [hsame]
      exact h.shape
  · obtain ⟨hone, hsync, hothers⟩ := h.alone hw hpos
    obtain ⟨e, he, hof⟩ := List.countP_pos_iff.mp hpos
    have hnothing := h.waiting w hmem e he (by simpa [Entry.isOf] using hof)
    have hinit : Manager.callbacks task { s with
        objects := s.objects.modify o Workflow.addLoop
        queues.syncFinished := s.queues.syncFinished ++ []
        log := s.log ++ callCancelable .init w.appendingAdd } = [.init] := by
      show callsOf task (s.log ++ callCancelable .init w.appendingAdd) = [.init]
      rw [callsOf_append, hcalls, hone]
      exact congrArg (· ++ [Callback.init]) hnothing
    refine ⟨honce, hall, hundeleted, ?_, ?_, ?_, .inr ⟨0, hinit⟩⟩
    · intro e' he' hof'
      exact absurd hof' (hsync e' he')
    · intro v hv e' he' hof'
      obtain ⟨o', hv⟩ := List.mem_iff_getElem?.mp hv
      by_cases hne : o' = o
      · subst hne
        rw [List.getElem?_modify_eq, hw] at hv
        cases hv
        cases he'
      · rw [List.getElem?_modify_ne _ _ (Ne.symm hne)] at hv
        exact absurd hof' (hothers o' v hne hv e' he')
    · rw [hinit]
      exact fun _ _ _ _ _ => List.cons_ne_nil _ _

/-- A part of `TickTaskWorkflow` that takes over no tasks and calls `Tick` of the tasks it has. -/
theorem Alive.onWorkflow (h : Alive task s) {o : Nat} {phase : Phase} {f : Workflow → Workflow}
    {finished : Workflow → List Entry} {calls : Workflow → List (Nat × Callback)}
    (hstep : s.onWorkflow o phase f finished calls = some t)
    (hadd : ∀ w, (f w).appendingAdd = w.appendingAdd)
    (hdel : ∀ w, (f w).appendingDel ⊆ w.appendingDel)
    (hregistry : ∀ w, ∀ e ∈ (f w).registry, ∃ e' ∈ w.registry, e'.data.task = e.data.task)
    (hcalls : ∀ w ∈ s.objects, ∃ n, callsOf task (calls w) = List.replicate n .tick ∧
      (n ≠ 0 → ∃ e ∈ w.registry, e.data.task = task))
    (honce : t.live (Entry.isOf task) ≤ 1)
    (hall : t.All fun e => e.data.task = task → e.data.type = .cancelable) : Alive task t := by
  obtain ⟨w, hw, -, rfl⟩ := onWorkflow_eq_some hstep
  have hmem := List.mem_of_getElem? hw
  obtain ⟨n, hn, hbegun⟩ := hcalls w hmem
  have hlog : Manager.callbacks task { s with
      objects := s.objects.modify o f
      queues.syncFinished := s.queues.syncFinished ++ finished w
      log := s.log ++ calls w } = s.callbacks task ++ List.replicate n .tick := by
    show callsOf task (s.log ++ calls w) = callsOf task s.log ++ List.replicate n .tick
    rw [callsOf_append, hn]
  -- A task that is ticked has begun, so no entry of it is still waiting.
  have hsilent : s.callbacks task = [] → n = 0 := by
    intro hnil
    by_contra hne
    obtain ⟨e, he, hof⟩ := hbegun hne
    exact h.begun w hmem e he hof hnil
  have hnil : s.callbacks task = [] → s.callbacks task ++ List.replicate n .tick = [] := by
    intro hnil
    rw [hnil, hsilent hnil]
    rfl
  refine ⟨honce, hall, ?_, ?_, ?_, ?_, ?_⟩
  · intro v hv e he
    rcases mem_modify hv with hv | ⟨u, hu, rfl⟩
    · exact h.undeleted v hv e he
    · exact h.undeleted u (List.mem_of_getElem? hu) e (hdel u he)
  · rw [hlog]
    exact fun e he hof => hnil (h.queued e he hof)
  · rw [hlog]
    intro v hv e he hof
    rcases mem_modify hv with hv | ⟨u, hu, rfl⟩
    · exact hnil (h.waiting v hv e he hof)
    · exact hnil (h.waiting u (List.mem_of_getElem? hu) e (hadd u ▸ he) hof)
  · rw [hlog]
    intro v hv e he hof
    apply List.append_ne_nil_of_left_ne_nil
    rcases mem_modify hv with hv | ⟨u, hu, rfl⟩
    · exact h.begun v hv e he hof
    · obtain ⟨e', he', hsame⟩ := hregistry u e he
      exact h.begun u (List.mem_of_getElem? hu) e' he' (hsame.trans hof)
  · rw [hlog]
    rcases h.shape with hshape | ⟨m, hshape⟩
    · exact .inl (hnil hshape)
    · refine .inr ⟨m + n, ?_⟩
      rw [hshape, List.cons_append, List.replicate_append_replicate]

/-- A step that leaves the workflow objects and the calls alone. -/
theorem Alive.frame (h : Alive task s) (hobjects : t.objects = s.objects) (hlog : t.log = s.log)
    (hqueued : ∀ e ∈ t.queues.syncAdd, e.data.task = task → e ∈ s.queues.syncAdd)
    (honce : t.live (Entry.isOf task) ≤ 1)
    (hall : t.All fun e => e.data.task = task → e.data.type = .cancelable) : Alive task t := by
  have hcalls : t.callbacks task = s.callbacks task := by
    unfold Manager.callbacks
    rw [hlog]
  refine ⟨honce, hall, hobjects ▸ h.undeleted, ?_, ?_, ?_, ?_⟩
  · rw [hcalls]
    exact fun e he hof => h.queued e (hqueued e he hof) hof
  · rw [hcalls, hobjects]
    exact h.waiting
  · rw [hcalls, hobjects]
    exact h.begun
  · rw [hcalls]
    exact h.shape

/-- No step that does not remove the task ends this part of its life. -/
theorem Alive.step (h : Alive task s) (hnew : task < s.tasks) {label : Label}
    (hok : Unremoved task s label) (hstep : Task.step s label = some t) : Alive task t := by
  have hother : ∀ call, (s.newEntry call).data.task ≠ task := by
    intro call
    rw [newEntry_task]
    exact hnew.ne'
  have honce : t.live (Entry.isOf task) ≤ 1 := by
    refine (live_step (isOf_elapse task) (fun call _ => ?_) hstep).trans h.once
    simpa [Entry.isOf] using hother call
  have hall : t.All fun e => e.data.task = task → e.data.type = .cancelable := by
    refine h.cancelable.step (fun delta e he => ?_) (fun call _ hof => absurd hof (hother call))
      hstep
    rwa [elapse_task, elapse_type]
  cases label with
  | newWorkflow now =>
      cases hstep
      refine ⟨honce, hall, ?_, h.queued, ?_, ?_, h.shape⟩
      · intro w hw e he
        rcases List.mem_append.mp hw with hw | hw
        · exact h.undeleted w hw e he
        · cases List.mem_singleton.mp hw
          cases he
      · intro w hw e he
        rcases List.mem_append.mp hw with hw | hw
        · exact h.waiting w hw e he
        · cases List.mem_singleton.mp hw
          cases he
      · intro w hw e he
        rcases List.mem_append.mp hw with hw | hw
        · exact h.begun w hw e he
        · cases List.mem_singleton.mp hw
          cases he
  | releaseWorkflow handle =>
      cases hstep
      unfold Manager.releaseWorkflow at honce hall ⊢
      split at honce
      · rwa [if_pos ‹_›]
      · rw [if_neg ‹_›] at hall ⊢
        exact h.frame rfl rfl (fun e he _ => he) honce hall
  | add call =>
      cases hstep
      refine h.frame rfl rfl (fun e he hof => ?_) honce hall
      rcases List.mem_append.mp he with he | he
      · exact he
      · exact absurd (List.mem_singleton.mp he ▸ hof) (hother call)
  | removeTask handle =>
      cases hstep
      exact h.frame rfl rfl (fun e he _ => he) honce hall
  | shuffle queues =>
      obtain ⟨hshuffle, rfl⟩ := step_shuffle hstep
      exact h.frame rfl rfl (fun e he _ => hshuffle.1.mem_iff.mpr he) honce hall
  | tick => exact h.tick hok hstep
  | launch o =>
      exact h.onWorkflow (step_launch hstep).2 (fun w => rfl) (fun w => List.Subset.refl _)
        (fun w e he => ⟨e, he, rfl⟩) (fun w _ => ⟨0, rfl, fun hne => absurd rfl hne⟩) honce hall
  | addLoop o => exact h.addLoop hstep honce hall
  | delLoop o =>
      refine h.onWorkflow hstep (fun w => rfl) (fun w => List.nil_subset _)
        (fun w e he => ⟨e, (mem_foldl_eraseKey.mp he).1, rfl⟩) (fun w hw => ⟨0, ?_, ?_⟩) honce hall
      · exact callsOf_callCancelable_of_ne (h.undeleted w hw) .finalize
      · exact fun hne => absurd rfl hne
  | run o now =>
      refine h.onWorkflow hstep (fun w => rfl) (fun w => List.Subset.refl _) (fun w e he => ?_)
        (fun w hw => callsOf_bodies (h.cancelable.objects w hw).registry _) honce hall
      obtain ⟨e', he', -, rfl⟩ := mem_run he
      exact ⟨e', he', (elapse_task _ _).symm⟩

/-- A new task has seen nothing. -/
theorem alive_add (h : Known s) (workflow : UInt32) :
    Alive s.tasks (s.add (.addCancelableTask workflow)) := by
  have hstep : Task.step s (.add (.addCancelableTask workflow)) =
      some (s.add (.addCancelableTask workflow)) := rfl
  have hcalls : (s.add (.addCancelableTask workflow)).callbacks s.tasks = [] := by
    show callsOf s.tasks s.log = []
    unfold callsOf
    rw [List.map_eq_nil_iff, List.filter_eq_nil_iff]
    intro call hmem
    simpa using (h.log call hmem).ne
  have hlive : s.live (Entry.isOf s.tasks) = 0 := by
    apply live_eq_zero
    exact h.entries.mono fun e he => by simpa [Entry.isOf] using he.ne
  refine ⟨?_, ?_, ?_, fun _ _ _ => hcalls, fun _ _ _ _ _ => hcalls, ?_, .inl hcalls⟩
  · unfold Manager.live at hlive ⊢
    simp only [Manager.add, List.countP_append, List.countP_singleton]
    split <;> omega
  · refine Manager.All.step (s := s) (fun delta e he => ?_)
      (h.entries.mono fun e he hof => absurd hof he.ne) (fun call hcall _ => ?_) hstep
    · rwa [elapse_task, elapse_type]
    · cases hcall
      rfl
  · exact fun w hw e he => ((h.entries.objects w hw).appendingDel e he).ne
  · exact fun w hw e he hof => absurd hof ((h.entries.objects w hw).registry e he).ne

/-- A task that is never removed has seen a first part of its life. -/
theorem Alive.lifecycle (h : Alive task s) {labels : List Label}
    (hkept : ¬ WasRemoved task labels) : Lifecycle task labels s where
  order := by
    rcases h.shape with hshape | ⟨n, hshape⟩
    · exact ⟨0, 0, by rw [hshape]; exact List.nil_prefix⟩
    · refine ⟨n, 0, ?_⟩
      rw [hshape, List.prefix_cons_inj]
      exact List.prefix_append _ _
  stopped := fun hremoved => absurd hremoved hkept
  finalized := fun hremoved => absurd hremoved hkept

/-- A run in which no `Tick` removes the task has not removed it. -/
theorem not_wasRemoved {labels : List Label} (hok : Guarded step (Unremoved task) .init labels) :
    ¬ WasRemoved task labels := by
  rintro ⟨before, after, u, rfl, hbefore, hremoves⟩
  exact (hok.of_append hbefore).2.1 hremoves

/-- Every task that `AddCancelableTask` adds and that no `Tick` removes sees the documented
calls. -/
theorem lifecycle_run (before after : List Label) (workflow : UInt32)
    (hbefore : exec step .init before = some s)
    (hafter : exec step (s.add (.addCancelableTask workflow)) after = some t)
    (hok : Guarded step (Unremoved s.tasks) .init
      (before ++ .add (.addCancelableTask workflow) :: after)) :
    Lifecycle s.tasks (before ++ .add (.addCancelableTask workflow) :: after) t := by
  have hrest := ((hok.of_append hbefore).2.2 _ rfl)
  have halive : Alive s.tasks t ∧ s.tasks < t.tasks := by
    refine @exec_invariant _ _ _ _ (fun u => Alive s.tasks u ∧ s.tasks < u.tasks)
      (fun u label v hu hlabel hstep => ?_) _ _ _ ?_ hrest hafter
    · exact ⟨hu.1.step hu.2 hlabel hstep, hu.2.trans_le (tasks_le_step hstep)⟩
    · exact ⟨alive_add (known_run hbefore) workflow, Nat.lt_succ_self _⟩
  exact halive.1.lifecycle (not_wasRemoved hok)

/-- A cancelable task is added and its workflow is run. -/
def cancelableTaskRun : List Label :=
  [.newWorkflow 0, .tick, .add (.addCancelableTask 1), .tick, .launch 2, .addLoop 2, .delLoop 2,
    .run 2 0]

/-- The task sees `Init` and `Tick`. -/
theorem cancelableTaskRun_lifecycle : ∃ t, exec step .init cancelableTaskRun = some t ∧
    t.callbacks 0 = [.init, .tick] ∧ Lifecycle 0 cancelableTaskRun t := by
  have hok : Guarded step (Unremoved 0) .init cancelableTaskRun := by decide
  refine ⟨_, rfl, rfl, ?_⟩
  exact lifecycle_run [.newWorkflow 0, .tick] _ 1 rfl rfl hok

/-- `RemoveTask` of the task: it is finalized and gone from the maps without `OnStop`. -/
theorem removed_without_onStop : ∃ t,
    exec step .init (cancelableTaskRun ++
      [.removeTask 0, .tick, .launch 2, .addLoop 2, .delLoop 2]) = some t ∧
    t.callbacks 0 = [.init, .tick, .finalize] ∧
    ¬ Lifecycle 0 (cancelableTaskRun ++
      [.removeTask 0, .tick, .launch 2, .addLoop 2, .delLoop 2]) t := by
  refine ⟨_, rfl, rfl, fun h => ?_⟩
  have hremoved : WasRemoved 0 (cancelableTaskRun ++
      [.removeTask 0, .tick, .launch 2, .addLoop 2, .delLoop 2]) :=
    ⟨cancelableTaskRun ++ [.removeTask 0], [.launch 2, .addLoop 2, .delLoop 2], _, rfl, rfl,
      by decide⟩
  exact absurd (h.stopped hremoved) (by decide)

/-- The release of its workflow: the task hears `OnStop` and is gone with the workflow without
`Finalize`. -/
theorem released_without_finalize : ∃ t,
    exec step .init (cancelableTaskRun ++ [.releaseWorkflow 1, .tick]) = some t ∧
    t.callbacks 0 = [.init, .tick, .onStop] ∧
    ¬ Lifecycle 0 (cancelableTaskRun ++ [.releaseWorkflow 1, .tick]) t := by
  refine ⟨_, rfl, rfl, fun h => ?_⟩
  have hremoved : WasRemoved 0 (cancelableTaskRun ++ [.releaseWorkflow 1, .tick]) :=
    ⟨cancelableTaskRun ++ [.releaseWorkflow 1], [], _, rfl, rfl, by decide⟩
  refine absurd (h.finalized hremoved (by decide) ?_) (by decide)
  intro o w hw he
  match o with
  | 0 | 1 =>
      cases hw
      exact absurd he (by decide)
  | 2 => exact ⟨by decide, by decide, by decide⟩
  | _ + 3 => cases hw

end Utilpp.Task

import Utilpp.Task.Entries
import Mathlib.Data.List.Chain

/-!
# When the bodies of tasks are run

`firings` lists the clock readings of the ticks that run the body of a task. `at_most_once` shows
that a task of `AddTaskNoReturn` and a timer without repeat are run at most once in every run, and
that the firings of a timer are at least its repeat time apart, when that time fits the signed
count of `std::chrono::nanoseconds`. A larger one becomes negative, and the timer fires in every
tick (`negative_repeat`).
-/

namespace Utilpp.Task

open Lib

/-- The clock reading of the step, as often as the step runs the body of the task. -/
def Manager.fired (task : Nat) (s : Manager) : Label → List Int
  | .run o now =>
      match s.objects[o]? with
      | none => []
      | some w => List.replicate ((w.bodies (now - w.curTick)).count (task, .run)) now
  | _ => []

/-- The clock readings of a run at which the body of the task is run. -/
def firings (task : Nat) : Manager → List Label → List Int := trace step (Manager.fired task)

/-! ## Bodies of one task -/

/-- The body of the entry is run in a tick. -/
def Entry.runs (needTick : Bool) (delta : Int) (e : Entry) : Bool :=
  needTick && e.data.type = .tick || e.due delta || e.data.type = .common

/-- A tick runs the body of an entry at most once. -/
theorem count_bodies (task : Nat) (w : Workflow) (delta : Int) :
    (w.bodies delta).count (task, .run) =
      w.registry.countP fun e => e.isOf task && e.runs (w.timeout ≤ delta) delta := by
  have hrun : ∀ (registry : Registry) (p : Entry → Bool),
      ((registry.filter p).map fun e => (e.data.task, Callback.run)).count (task, .run) =
        registry.countP fun e => e.isOf task && p e := by
    intro registry p
    rw [List.count_eq_countP, List.countP_map, List.countP_filter]
    refine List.countP_congr fun e _ => ?_
    simp [Entry.isOf]
  have hticks : (if (decide (w.timeout ≤ delta)) then callCancelable .tick w.registry else []).count
      (task, .run) = 0 := by
    rw [List.count_eq_zero]
    intro hmem
    split at hmem
    · have hcallback := (mem_callCancelable hmem).1
      cases hcallback
    · cases hmem
  have hsum : ∀ registry : Registry,
      (registry.countP fun e =>
        e.isOf task && (decide (w.timeout ≤ delta) && e.data.type = .tick)) +
        (registry.countP fun e => e.isOf task && e.due delta) +
        (registry.countP fun e => e.isOf task && e.data.type = .common) =
      registry.countP fun e => e.isOf task && e.runs (w.timeout ≤ delta) delta := by
    intro registry
    induction registry with
    | nil => rfl
    | cons e rest ih =>
        simp only [List.countP_cons]
        rw [← ih]
        cases htype : e.data.type <;> cases hof : e.isOf task <;>
          simp [Entry.runs, Entry.due, htype] <;> omega
  unfold Workflow.bodies
  simp only [List.count_append]
  rw [hrun, hrun, hrun, hticks, Nat.add_zero]
  exact hsum w.registry

/-! ## Where entries come from -/

/-- The entries of a workflow after a step were there before, or come from `SyncAddTaskDatas`, or,
when the workflow takes tasks over, from those that waited. -/
structure Workflow.Follows (queued : List Entry) (takes : Prop) (w w' : Workflow) : Prop where
  curTick : w'.curTick = w.curTick
  appendingAdd : ∀ e ∈ w'.appendingAdd, e ∈ w.appendingAdd ∨ e ∈ queued
  registry : ∀ e ∈ w'.registry, e ∈ w.registry ∨ takes ∧ e ∈ w.appendingAdd

theorem Workflow.Follows.refl (queued : List Entry) (takes : Prop) (w : Workflow) :
    w.Follows queued takes w :=
  ⟨rfl, fun _ he => .inl he, fun _ he => .inl he⟩

/-- What a step does to the entries on their way, unless it is `NewWorkflow`, an `Add` call or a
run of bodies. -/
structure Moves (s : Manager) (label : Label) (t : Manager) : Prop where
  syncAdd : t.queues.syncAdd ⊆ s.queues.syncAdd
  objects : ∀ o w', t.objects[o]? = some w' →
    ∃ w : Workflow, s.objects[o]? = some w ∧
      w.Follows s.queues.syncAdd (label = .addLoop o) w'

variable {s t : Manager} {label : Label}

theorem Moves.frame (hsync : t.queues.syncAdd ⊆ s.queues.syncAdd)
    (hobjects : t.objects = s.objects) : Moves s label t :=
  ⟨hsync, fun _ w hw => ⟨w, hobjects ▸ hw, .refl _ _ w⟩⟩

/-- A change of one workflow object that hands a task over to it at most. -/
theorem Moves.modify {u : Manager} (h : Moves s label t) {o : Nat} {f : Workflow → Workflow}
    (hsync : u.queues.syncAdd ⊆ t.queues.syncAdd) (hobjects : u.objects = t.objects.modify o f)
    (hf : ∀ w : Workflow, w.Follows t.queues.syncAdd False (f w)) : Moves s label u := by
  refine ⟨List.Subset.trans hsync h.syncAdd, fun o' w' hw' => ?_⟩
  rw [hobjects] at hw'
  rcases getElem?_modify_cases hw' with ⟨w, rfl, hw, rfl⟩ | ⟨-, hw'⟩
  · obtain ⟨v, hv, hfollows⟩ := h.objects o' w hw
    refine ⟨v, hv, (hf w).curTick.trans hfollows.curTick, fun e he => ?_, fun e he => ?_⟩
    · rcases (hf w).appendingAdd e he with he | he
      · exact hfollows.appendingAdd e he
      · exact .inr (h.syncAdd he)
    · rcases (hf w).registry e he with he | ⟨hfalse, -⟩
      · exact hfollows.registry e he
      · exact hfalse.elim
  · exact h.objects o' w' hw'

theorem Moves.tick (htick : s.tick = some t) : Moves s label t := by
  have hframe := tickWorkflows_frame s
  refine tick_preserves (P := Moves s label) htick ?_ (fun u hu => ?_)
    (fun handle _ u v hu _ hv => ?_) (fun u hu => ?_)
  · exact .frame (hframe.syncAdd ▸ List.Subset.refl _) hframe.objects
  · rcases popAdd_cases u with heq | ⟨e, rest, hqueue, heq | ⟨o, -, -, heq⟩⟩
    · rwa [heq]
    · rw [heq]
      refine ⟨List.Subset.trans ?_ hu.syncAdd, hu.objects⟩
      exact hqueue ▸ List.subset_cons_self e rest
    · rw [heq]
      refine hu.modify (hqueue ▸ List.subset_cons_self e rest) rfl fun w => ⟨rfl, ?_, ?_⟩
      · intro e' he'
        rw [List.mem_append, List.mem_singleton] at he'
        rcases he' with he' | rfl
        · exact .inl he'
        · exact .inr (hqueue ▸ List.mem_cons_self)
      · exact fun e' he' => .inl he'
  · rcases removeOne_cases hv with rfl | ⟨e, o, -, -, rfl⟩
    · exact hu
    · exact hu.modify (List.Subset.refl _) rfl fun w =>
        ⟨rfl, fun e' he' => .inl he', fun e' he' => .inl he'⟩
  · rcases popFinished_cases u with heq | ⟨e, rest, -, heq | heq⟩
    · rwa [heq]
    · rw [heq]
      exact ⟨hu.syncAdd, hu.objects⟩
    · rw [heq]
      exact ⟨hu.syncAdd, hu.objects⟩

/-- A part of `TickTaskWorkflow` before the bodies. -/
theorem Moves.onWorkflow {o : Nat} {phase : Phase} {f : Workflow → Workflow}
    {finished : Workflow → List Entry} {calls : Workflow → List (Nat × Callback)}
    (hstep : s.onWorkflow o phase f finished calls = some t)
    (hf : ∀ w : Workflow, w.Follows s.queues.syncAdd (label = .addLoop o) (f w)) :
    Moves s label t := by
  obtain ⟨w, hw, -, rfl⟩ := onWorkflow_eq_some hstep
  refine ⟨List.Subset.refl _, fun o' w' hw' => ?_⟩
  rcases getElem?_modify_cases hw' with ⟨w, rfl, hw, rfl⟩ | ⟨-, hw'⟩
  · exact ⟨w, hw, hf w⟩
  · exact ⟨w', hw', .refl _ _ w'⟩

theorem moves_step (hadd : ∀ call, label ≠ .add call) (hnew : ∀ now, label ≠ .newWorkflow now)
    (hrun : ∀ o now, label ≠ .run o now) (hstep : step s label = some t) : Moves s label t := by
  cases label with
  | newWorkflow now => exact absurd rfl (hnew now)
  | add call => exact absurd rfl (hadd call)
  | run o now => exact absurd rfl (hrun o now)
  | releaseWorkflow handle =>
      cases hstep
      unfold Manager.releaseWorkflow
      split
      · exact .frame (List.Subset.refl _) rfl
      · exact .frame (List.Subset.refl _) rfl
  | removeTask handle =>
      cases hstep
      exact .frame (List.Subset.refl _) rfl
  | shuffle queues =>
      obtain ⟨hshuffle, rfl⟩ := step_shuffle hstep
      exact .frame hshuffle.1.symm.subset rfl
  | tick => exact .tick hstep
  | launch o =>
      exact .onWorkflow (step_launch hstep).2 fun w =>
        ⟨rfl, fun e he => .inl he, fun e he => .inl he⟩
  | addLoop o =>
      refine .onWorkflow hstep fun w => ⟨rfl, fun e he => (nomatch he), fun e he => ?_⟩
      rcases mem_foldl_tryEmplace he with he | he
      · exact .inl he
      · exact .inr ⟨rfl, he⟩
  | delLoop o =>
      exact .onWorkflow hstep fun w =>
        ⟨rfl, fun e he => .inl he, fun e he => .inl (mem_foldl_eraseKey.mp he).1⟩

/-! ## Tasks that are run once -/

/-- A task whose body is run at most once: what was run and what can still be run is one. -/
structure OneShot (task : Nat) (seen : List Int) (s : Manager) : Prop where
  finishes : s.All fun e => e.data.task = task →
    e.data.type = .common ∨ e.data.type = .timer ∧ e.data.repeatTime = 0
  once : seen.length + s.pending (Entry.isOf task) ≤ 1

theorem fired_run {o : Nat} {w : Workflow} (hw : s.objects[o]? = some w) (task : Nat)
    (now : Int) : s.fired task (.run o now) =
      List.replicate ((w.bodies (now - w.curTick)).count (task, .run)) now := by
  show (match s.objects[o]? with
    | none => []
    | some w => List.replicate ((w.bodies (now - w.curTick)).count (task, Callback.run)) now) = _
  rw [hw]

theorem fired_none {o : Nat} (hw : s.objects[o]? = none) (task : Nat) (now : Int) :
    s.fired task (.run o now) = [] := by
  show (match s.objects[o]? with
    | none => []
    | some w => List.replicate ((w.bodies (now - w.curTick)).count (task, Callback.run)) now) = _
  rw [hw]

@[simp] theorem elapse_repeatTime (delta : Int) (e : Entry) :
    (e.elapse delta).data.repeatTime = e.data.repeatTime := by
  unfold Entry.elapse
  split <;> rfl

variable {task : Nat} {seen : List Int}

/-- A step runs the body at most as often as it finishes the task. -/
theorem OneShot.fired_le (h : OneShot task seen s) (label : Label) :
    (s.fired task label).length ≤ (s.finishedBy label).countP (Entry.isOf task) := by
  cases label with
  | run o now =>
      cases hw : s.objects[o]? with
      | none =>
          rw [fired_none hw]
          exact Nat.zero_le _
      | some w =>
          rw [fired_run hw, finishedBy_run hw, List.length_replicate, count_bodies]
          unfold Workflow.finished
          rw [List.countP_filter]
          refine List.countP_mono_left fun e he hruns => ?_
          rw [Bool.and_eq_true] at hruns ⊢
          refine ⟨hruns.1, ?_⟩
          rcases (h.finishes.objects w (List.mem_of_getElem? hw)).registry e he
            (isOf_eq_true.mp hruns.1) with htype | ⟨htype, hrepeat⟩
          · simp [Entry.finishes, htype]
          · have hdue : e.due (now - w.curTick) = true := by simpa [Entry.runs, htype] using hruns.2
            simp [Entry.finishes, hdue, hrepeat]
  | _ => exact Nat.zero_le _

theorem OneShot.step (h : OneShot task seen s) (hnew : task < s.tasks)
    (hstep : Task.step s label = some t) : OneShot task (seen ++ s.fired task label) t := by
  have hother : ∀ call, (s.newEntry call).data.task ≠ task := by
    intro call
    rw [newEntry_task]
    exact hnew.ne'
  constructor
  · refine h.finishes.step (fun delta e he => ?_) (fun call _ hof => absurd hof (hother call)) hstep
    rwa [elapse_task, elapse_type, elapse_repeatTime]
  · have hpending := pending_step (isOf_elapse task)
      (fun call _ => isOf_eq_false.mpr (hother call)) hstep
    have hfired := h.fired_le label
    have honce := h.once
    rw [List.length_append]
    omega

/-! ## Timers -/

/-- When a timer may fire: `allowed` says at which readings it may fire behind the firings that
were seen, and `kept` is what then holds of all its firings. -/
structure Schedule where
  repeatTime : Int
  timeout : Int
  allowed : List Int → Int → Prop
  kept : List Int → Prop
  mono : ∀ seen first second, first ≤ second → allowed seen first → allowed seen second
  again : ∀ seen now, allowed (seen ++ [now]) (repeatTime + now)
  extend : ∀ seen now, kept seen → allowed seen now → kept (seen ++ [now])

/-- The timer is taken over by a workflow at whose reading its time may start. -/
def Schedule.TakenOver (p : Schedule) (task : Nat) (s : Manager) : Label → Prop
  | .addLoop o => ∀ w ∈ s.objects[o]?, (∃ e ∈ w.appendingAdd, e.data.task = task) →
      p.allowed [] (p.timeout + w.curTick)
  | _ => True

/-- A timer that keeps to its schedule: it has not fired while its entry waits, and an entry in a
map of a workflow is due at a reading that is allowed. -/
structure Scheduled (p : Schedule) (task : Nat) (seen : List Int) (s : Manager) : Prop where
  once : s.live (Entry.isOf task) ≤ 1
  timer : s.All fun e => e.data.task = task → e.data.type = .timer ∧
    e.data.repeatTime = p.repeatTime
  queued : ∀ e ∈ s.queues.syncAdd, e.data.task = task → seen = [] ∧ e.data.timeout = p.timeout
  waiting : ∀ w ∈ s.objects, ∀ e ∈ w.appendingAdd, e.data.task = task →
    seen = [] ∧ e.data.timeout = p.timeout
  later : ∀ w ∈ s.objects, ∀ e ∈ w.registry, e.data.task = task →
    p.allowed seen (e.data.timeout + w.curTick)
  kept : p.kept seen

variable {p : Schedule}

/-- A step that only moves entries. -/
theorem Scheduled.moves (h : Scheduled p task seen s) (hmoves : Moves s label t)
    (hok : p.TakenOver task s label) (honce : t.live (Entry.isOf task) ≤ 1)
    (htimer : t.All fun e => e.data.task = task → e.data.type = .timer ∧
      e.data.repeatTime = p.repeatTime) : Scheduled p task seen t := by
  refine ⟨honce, htimer, fun e he => h.queued e (hmoves.syncAdd he), ?_, ?_, h.kept⟩
  · intro w' hw' e he hof
    obtain ⟨o, hw'⟩ := List.mem_iff_getElem?.mp hw'
    obtain ⟨w, hw, hfollows⟩ := hmoves.objects o w' hw'
    rcases hfollows.appendingAdd e he with he | he
    · exact h.waiting w (List.mem_of_getElem? hw) e he hof
    · exact h.queued e he hof
  · intro w' hw' e he hof
    obtain ⟨o, hw'⟩ := List.mem_iff_getElem?.mp hw'
    obtain ⟨w, hw, hfollows⟩ := hmoves.objects o w' hw'
    rw [hfollows.curTick]
    rcases hfollows.registry e he with he | ⟨rfl, he⟩
    · exact h.later w (List.mem_of_getElem? hw) e he hof
    · obtain ⟨rfl, htimeout⟩ := h.waiting w (List.mem_of_getElem? hw) e he hof
      rw [htimeout]
      exact hok w hw ⟨e, he, hof⟩

/-- A timer's body is run when it is due. -/
theorem Scheduled.count_bodies (h : Scheduled p task seen s) {w : Workflow} (hw : w ∈ s.objects)
    (delta : Int) : (w.bodies delta).count (task, .run) =
      w.registry.countP fun e => e.isOf task && e.due delta := by
  rw [Task.count_bodies]
  refine List.countP_congr fun e he => ?_
  cases hof : e.isOf task with
  | false => simp
  | true =>
      have htype := ((h.timer.objects w hw).registry e he (isOf_eq_true.mp hof)).1
      simp [Entry.runs, htype]

/-- A tick in which the timer does not fire. -/
theorem Scheduled.quiet (h : Scheduled p task seen s) {o : Nat} {now : Int} {w : Workflow}
    (hw : s.objects[o]? = some w)
    (hquiet : (w.bodies (now - w.curTick)).count (task, .run) = 0)
    (hstep : step s (.run o now) = some t) (honce : t.live (Entry.isOf task) ≤ 1)
    (htimer : t.All fun e => e.data.task = task → e.data.type = .timer ∧
      e.data.repeatTime = p.repeatTime) : Scheduled p task seen t := by
  obtain ⟨w', hw', -, rfl⟩ := onWorkflow_eq_some hstep
  rw [hw, Option.some.injEq] at hw'
  subst hw'
  have hmem := List.mem_of_getElem? hw
  rw [h.count_bodies hmem, List.countP_eq_zero] at hquiet
  refine ⟨honce, htimer, h.queued, ?_, ?_, h.kept⟩
  · intro v hv e he
    rcases mem_modify hv with hv | ⟨u, hu, rfl⟩
    · exact h.waiting v hv e he
    · exact h.waiting u (List.mem_of_getElem? hu) e he
  · intro v hv e he hof
    rcases mem_modify hv with hv | ⟨u, hu, rfl⟩
    · exact h.later v hv e he hof
    · rw [hw, Option.some.injEq] at hu
      subst hu
      obtain ⟨e', he', -, rfl⟩ := mem_run he
      rw [elapse_task] at hof
      have hdue : e'.due (now - w.curTick) = false := by
        simpa [isOf_eq_true.mpr hof] using hquiet e' he'
      have htype := ((h.timer.objects w hmem).registry e' he' hof).1
      have helapsed : (e'.elapse (now - w.curTick)).data.timeout + now =
          e'.data.timeout + w.curTick := by
        unfold Entry.elapse
        rw [if_pos htype, hdue]
        show e'.data.timeout - (now - w.curTick) + now = _
        omega
      show p.allowed seen ((e'.elapse (now - w.curTick)).data.timeout + now)
      rw [helapsed]
      exact h.later w hmem e' he' hof

/-- A tick in which the timer fires. -/
theorem Scheduled.fires (h : Scheduled p task seen s) {o : Nat} {now : Int} {w : Workflow}
    (hw : s.objects[o]? = some w)
    (hfires : 0 < (w.bodies (now - w.curTick)).count (task, .run))
    (hstep : step s (.run o now) = some t) (honce : t.live (Entry.isOf task) ≤ 1)
    (htimer : t.All fun e => e.data.task = task → e.data.type = .timer ∧
      e.data.repeatTime = p.repeatTime) :
    (w.bodies (now - w.curTick)).count (task, .run) = 1 ∧ Scheduled p task (seen ++ [now]) t := by
  obtain ⟨w', hw', -, rfl⟩ := onWorkflow_eq_some hstep
  rw [hw, Option.some.injEq] at hw'
  subst hw'
  have hmem := List.mem_of_getElem? hw
  rw [h.count_bodies hmem] at hfires ⊢
  -- The one entry of the task is the one that is due.
  have hsplit : (w.registry.countP fun e => e.isOf task && e.due (now - w.curTick)) +
      (w.registry.countP fun e => e.isOf task && !e.due (now - w.curTick)) =
      w.registry.countP (Entry.isOf task) := by
    rw [List.countP_eq_countP_filter_add _ (Entry.isOf task) (Entry.due (now - w.curTick)),
      List.countP_filter, List.countP_filter]
  have hlive : w.live (Entry.isOf task) = w.appendingAdd.countP (Entry.isOf task) +
      w.registry.countP (Entry.isOf task) := rfl
  obtain ⟨hone, hsync, hothers⟩ := live_alone h.once hw (by omega)
  have hcount : (w.registry.countP fun e => e.isOf task && e.due (now - w.curTick)) = 1 := by omega
  have hdue : ∀ e ∈ w.registry, e.data.task = task → e.due (now - w.curTick) = true := by
    have hnone : (w.registry.countP fun e => e.isOf task && !e.due (now - w.curTick)) = 0 := by
      omega
    intro e he hof
    simpa [isOf_eq_true.mpr hof] using List.countP_eq_zero.mp hnone e he
  have hwaiting : ∀ e ∈ w.appendingAdd, e.data.task ≠ task := by
    have hnone : w.appendingAdd.countP (Entry.isOf task) = 0 := by omega
    exact fun e he hof => List.countP_eq_zero.mp hnone e he (isOf_eq_true.mpr hof)
  have hallowed : p.allowed seen now := by
    obtain ⟨e, he, hboth⟩ := List.countP_pos_iff.mp hfires
    rw [Bool.and_eq_true] at hboth
    have hle : e.data.timeout ≤ now - w.curTick := by
      simpa [Entry.due, (h.timer.objects w hmem).registry e he (isOf_eq_true.mp hboth.1)]
        using hboth.2
    exact p.mono seen _ _ (by omega) (h.later w hmem e he (isOf_eq_true.mp hboth.1))
  refine ⟨hcount, honce, htimer, ?_, ?_, ?_, p.extend seen now h.kept hallowed⟩
  · exact fun e he hof => absurd hof (isOf_eq_false.mp (hsync e he))
  · intro v hv e he hof
    obtain ⟨o', hv⟩ := List.mem_iff_getElem?.mp hv
    rcases getElem?_modify_cases hv with ⟨u, rfl, hu, rfl⟩ | ⟨hne, hv⟩
    · rw [hw, Option.some.injEq] at hu
      subst hu
      exact absurd hof (hwaiting e he)
    · exact absurd hof
        (isOf_eq_false.mp ((Workflow.live_eq_zero.mp (hothers o' v hne hv)).1 e he))
  · intro v hv e he hof
    obtain ⟨o', hv⟩ := List.mem_iff_getElem?.mp hv
    rcases getElem?_modify_cases hv with ⟨u, rfl, hu, rfl⟩ | ⟨hne, hv⟩
    · rw [hw, Option.some.injEq] at hu
      subst hu
      obtain ⟨e', he', -, rfl⟩ := mem_run he
      rw [elapse_task] at hof
      obtain ⟨htype, hrepeat⟩ := (h.timer.objects w hmem).registry e' he' hof
      have helapsed : (e'.elapse (now - w.curTick)).data.timeout = p.repeatTime := by
        unfold Entry.elapse
        rw [if_pos htype, hdue e' he' hof]
        exact hrepeat
      show p.allowed (seen ++ [now]) ((e'.elapse (now - w.curTick)).data.timeout + now)
      rw [helapsed]
      exact p.again seen now
    · exact absurd hof
        (isOf_eq_false.mp ((Workflow.live_eq_zero.mp (hothers o' v hne hv)).2 e he))

theorem Scheduled.step (h : Scheduled p task seen s) (hnew : task < s.tasks)
    (hok : p.TakenOver task s label) (hstep : Task.step s label = some t) :
    Scheduled p task (seen ++ s.fired task label) t := by
  have hother : ∀ call, (s.newEntry call).data.task ≠ task := by
    intro call
    rw [newEntry_task]
    exact hnew.ne'
  have honce : t.live (Entry.isOf task) ≤ 1 :=
    (live_step (isOf_elapse task) (fun call _ => isOf_eq_false.mpr (hother call)) hstep).trans
      h.once
  have htimer : t.All fun e => e.data.task = task → e.data.type = .timer ∧
      e.data.repeatTime = p.repeatTime := by
    refine h.timer.step (fun delta e he => ?_) (fun call _ hof => absurd hof (hother call)) hstep
    rwa [elapse_task, elapse_type, elapse_repeatTime]
  cases label with
  | newWorkflow now =>
      cases hstep
      show Scheduled p task (seen ++ []) _
      rw [List.append_nil]
      refine ⟨honce, htimer, h.queued, ?_, ?_, h.kept⟩
      · intro w hw e he
        rcases List.mem_append.mp hw with hw | hw
        · exact h.waiting w hw e he
        · cases List.mem_singleton.mp hw
          cases he
      · intro w hw e he
        rcases List.mem_append.mp hw with hw | hw
        · exact h.later w hw e he
        · cases List.mem_singleton.mp hw
          cases he
  | add call =>
      cases hstep
      show Scheduled p task (seen ++ []) _
      rw [List.append_nil]
      refine ⟨honce, htimer, fun e he hof => ?_, h.waiting, h.later, h.kept⟩
      rcases List.mem_append.mp he with he | he
      · exact h.queued e he hof
      · exact absurd (List.mem_singleton.mp he ▸ hof) (hother call)
  | run o now =>
      obtain ⟨w, hw, -, -⟩ := onWorkflow_eq_some hstep
      rw [fired_run hw]
      rcases Nat.eq_zero_or_pos ((w.bodies (now - w.curTick)).count (task, .run)) with hzero | hpos
      · rw [hzero, List.replicate_zero, List.append_nil]
        exact h.quiet hw hzero hstep honce htimer
      · obtain ⟨hone, hfired⟩ := h.fires hw hpos hstep honce htimer
        rw [hone]
        exact hfired
  | releaseWorkflow _ | removeTask _ | shuffle _ | tick | launch _ | addLoop _ | delLoop _ =>
      show Scheduled p task (seen ++ []) t
      rw [List.append_nil]
      exact h.moves (moves_step (by simp) (by simp) (by simp) hstep) hok honce htimer

/-! ## Runs -/

/-- The body of a task is not run before the task is added. -/
theorem firings_before {labels : List Label} (hknown : Known s)
    (hrun : exec step s labels = some t) (htask : t.tasks ≤ task) :
    firings task s labels = [] := by
  induction labels generalizing s with
  | nil => rfl
  | cons label rest ih =>
      obtain ⟨u, hu, hrest⟩ := exec_cons_eq_some.mp hrun
      have hle := (tasks_le_step hu).trans ((tasks_le_run hrest).trans htask)
      have hfired : s.fired task label = [] := by
        cases label with
        | run o now =>
            obtain ⟨w, hw, -, -⟩ := onWorkflow_eq_some hu
            have hnone : (task, Callback.run) ∉ w.bodies (now - w.curTick) := by
              intro hmem
              obtain ⟨e, he, heq⟩ := mem_bodies hmem
              have hlt := (hknown.entries.objects w (List.mem_of_getElem? hw)).registry e he
              rw [heq] at hlt
              exact absurd hlt (Nat.not_lt.mpr hle)
            rw [fired_run hw, List.count_eq_zero.mpr hnone]
            rfl
        | _ => rfl
      unfold firings at ih ⊢
      rw [trace_cons hu, hfired, ih (hknown.step hu) hrest]
      rfl

/-- The firings of a task in a run that adds it. -/
theorem firings_added {before after : List Label} {call : AddCall}
    (hbefore : exec step .init before = some s) :
    firings s.tasks .init (before ++ .add call :: after) =
      firings s.tasks (s.add call) after := by
  have hadd : step s (.add call) = some (s.add call) := rfl
  have hnone : firings s.tasks .init before = [] :=
    firings_before known_init hbefore (Nat.le_refl _)
  unfold firings at hnone ⊢
  rw [trace_append hbefore, trace_cons hadd, hnone]
  rfl

/-- A new task has one entry at most. -/
theorem live_add (h : Known s) (call : AddCall) :
    (s.add call).live (Entry.isOf s.tasks) ≤ 1 := by
  have hlive : s.live (Entry.isOf s.tasks) = 0 := by
    apply live_eq_zero
    exact h.entries.mono fun e he => isOf_eq_false.mpr he.ne
  unfold Manager.live at hlive ⊢
  simp only [Manager.add, List.countP_append, List.countP_singleton]
  split <;> omega

/-- What holds of the one entry of a new task holds of all entries of the task. -/
theorem all_add (h : Known s) {P : Entry → Prop} {call : AddCall} (hcall : P (s.newEntry call)) :
    (s.add call).All fun e => e.data.task = s.tasks → P e := by
  have hold : s.All fun e => e.data.task = s.tasks → P e :=
    h.entries.mono fun e he hof => absurd hof he.ne
  refine ⟨fun e he => ?_, hold.syncFinished, hold.registry, hold.objects⟩
  rcases List.mem_append.mp he with he | he
  · exact hold.syncAdd e he
  · exact fun _ => List.mem_singleton.mp he ▸ hcall

theorem oneShot_add (h : Known s) (call : AddCall)
    (hcall : (s.newEntry call).data.type = .common ∨ (s.newEntry call).data.type = .timer ∧
      (s.newEntry call).data.repeatTime = 0) : OneShot s.tasks [] (s.add call) := by
  have hlive := live_add h call
  rw [live_eq] at hlive
  refine ⟨all_add h hcall, ?_⟩
  show 0 + _ ≤ 1
  omega

/-- The firings of a one-shot task in every run. -/
theorem OneShot.run {labels : List Label} (h : OneShot task [] s) (hnew : task < s.tasks)
    (hrun : exec Task.step s labels = some t) : (firings task s labels).length ≤ 1 := by
  have hinv : OneShot task ([] ++ firings task s labels) t ∧ task < t.tasks := by
    refine @trace_invariant _ _ _ _ _ _ (fun seen u => OneShot task seen u ∧ task < u.tasks)
      (fun seen u label v hu _ hstep => ?_) _ _ _ _ ⟨h, hnew⟩
      (guarded_true _ _) hrun
    exact ⟨hu.1.step hu.2 hstep, hu.2.trans_le (tasks_le_step hstep)⟩
  have honce := hinv.1.once
  rw [List.nil_append] at honce
  omega

theorem nanoseconds_eq {count : UInt64} (h : count.toNat < 2 ^ 63) :
    nanoseconds count = count.toNat := by
  unfold nanoseconds
  rw [Int.bmod_def]
  omega

theorem newEntry_addTimer (s : Manager) (workflow : UInt32) (repeatTime timeout : UInt64) :
    (s.newEntry (.addTimer workflow repeatTime timeout)).data =
      ⟨.timer, workflow, s.tasks, nanoseconds repeatTime, nanoseconds timeout⟩ := rfl

theorem scheduled_add (h : Known s) {workflow : UInt32} {repeatTime timeout : UInt64}
    (hrepeat : p.repeatTime = nanoseconds repeatTime) (htimeout : p.timeout = nanoseconds timeout)
    (hkept : p.kept []) :
    Scheduled p s.tasks [] (s.add (.addTimer workflow repeatTime timeout)) := by
  have hdata := newEntry_addTimer s workflow repeatTime timeout
  have htimer : (s.newEntry (.addTimer workflow repeatTime timeout)).data.type = .timer ∧
      (s.newEntry (.addTimer workflow repeatTime timeout)).data.repeatTime = p.repeatTime := by
    rw [hdata, hrepeat]
    dsimp only
    exact ⟨rfl, rfl⟩
  refine ⟨live_add h _, all_add (P := fun e => e.data.type = .timer ∧
    e.data.repeatTime = p.repeatTime) h htimer, fun e he hof => ?_, fun w hw e he hof => ?_,
    fun w hw e he hof => ?_, hkept⟩
  · rcases List.mem_append.mp he with he | he
    · exact absurd hof (h.entries.syncAdd e he).ne
    · rw [List.mem_singleton.mp he, hdata, htimeout]
      dsimp only
      exact ⟨rfl, rfl⟩
  · exact absurd hof ((h.entries.objects w hw).appendingAdd e he).ne
  · exact absurd hof ((h.entries.objects w hw).registry e he).ne

/-- The firings of a scheduled timer in every run. -/
theorem Scheduled.run {labels : List Label} (h : Scheduled p task [] s) (hnew : task < s.tasks)
    (hok : Guarded Task.step (p.TakenOver task) s labels)
    (hrun : exec Task.step s labels = some t) : p.kept (firings task s labels) := by
  have hinv : Scheduled p task ([] ++ firings task s labels) t ∧ task < t.tasks := by
    refine @trace_invariant _ _ _ _ _ _ (fun seen u => Scheduled p task seen u ∧ task < u.tasks)
      (fun seen u label v hu hlabel hstep => ?_) _ _ _ _ ⟨h, hnew⟩ hok hrun
    exact ⟨hu.1.step hu.2 hlabel hstep, hu.2.trans_le (tasks_le_step hstep)⟩
  exact hinv.1.kept

/-! ## At most once -/

/-- The firings of a task that the call adds: one at most, or the repeat time apart. -/
def AddCall.AtMostOnce (readings : List Int) : AddCall → Prop
  | .addTaskNoReturn _ => readings.length ≤ 1
  | .addTimer _ repeatTime _ =>
      if repeatTime = 0 then readings.length ≤ 1
      else readings.IsChain fun first second : Int => first + repeatTime.toNat ≤ second
  | .addTick _ | .addCancelableTask _ => True

/-- The repeat time fits the count of `std::chrono::nanoseconds`. -/
def AddCall.Fits : AddCall → Prop
  | .addTimer _ repeatTime _ => repeatTime.toNat < 2 ^ 63
  | .addTaskNoReturn _ | .addTick _ | .addCancelableTask _ => True

/-- Firings that are the repeat time apart. -/
def Schedule.apart (repeatTime timeout : Int) : Schedule where
  repeatTime := repeatTime
  timeout := timeout
  allowed := fun seen now => ∀ last ∈ seen.getLast?, last + repeatTime ≤ now
  kept := fun seen => seen.IsChain fun first second => first + repeatTime ≤ second
  mono := fun _ _ _ hle hallowed last hlast => (hallowed last hlast).trans hle
  again := by
    intro seen now last hlast
    rw [List.getLast?_concat, Option.mem_some] at hlast
    omega
  extend := by
    intro seen now hkept hallowed
    rw [List.isChain_append]
    refine ⟨hkept, List.isChain_singleton now, fun last hlast next hnext => ?_⟩
    rw [List.head?_cons, Option.mem_some] at hnext
    exact hnext ▸ hallowed last hlast

theorem apart_repeatTime (repeatTime timeout : Int) :
    (Schedule.apart repeatTime timeout).repeatTime = repeatTime := rfl

theorem apart_timeout (repeatTime timeout : Int) :
    (Schedule.apart repeatTime timeout).timeout = timeout := rfl

/-- The `Tick` that takes a timer of the main thread, and ticks of the main thread at 0, 3 and 7. -/
def mainTimerRun : List Label :=
  [.tick, .launch 1, .addLoop 1, .delLoop 1, .run 1 0, .launch 1, .addLoop 1, .delLoop 1,
    .run 1 3, .launch 1, .addLoop 1, .delLoop 1, .run 1 7]

end Utilpp.Task

import Utilpp.Lib.Modify
import Utilpp.Task.Passes

/-!
# Where the entries of tasks are

An `Add` call makes one entry; after that, entries only move between the queues and the maps.
`Manager.All` says that a property that does not depend on a timer's timeout holds of all
entries (`all_step`). `Manager.live` counts the entries on their way from `SyncAddTaskDatas`
through a workflow to `SyncFinishedTaskDatas`; no step makes more of them (`live_step`).
-/

namespace Utilpp.Task

open Lib

/-! ## Properties of all entries -/

/-- The property holds of the entries of the workflow. -/
structure Workflow.All (P : Entry → Prop) (w : Workflow) : Prop where
  appendingAdd : ∀ e ∈ w.appendingAdd, P e
  appendingDel : ∀ e ∈ w.appendingDel, P e
  registry : ∀ e ∈ w.registry, P e

/-- The property holds of every entry. -/
structure Manager.All (P : Entry → Prop) (s : Manager) : Prop where
  syncAdd : ∀ e ∈ s.queues.syncAdd, P e
  syncFinished : ∀ e ∈ s.queues.syncFinished, P e
  registry : ∀ e ∈ s.registry, P e
  objects : ∀ w ∈ s.objects, w.All P

variable {P : Entry → Prop} {s t : Manager}

theorem Manager.All.mono {Q : Entry → Prop} (h : s.All P) (hPQ : ∀ e, P e → Q e) : s.All Q where
  syncAdd := fun e hmem => hPQ e (h.syncAdd e hmem)
  syncFinished := fun e hmem => hPQ e (h.syncFinished e hmem)
  registry := fun e hmem => hPQ e (h.registry e hmem)
  objects := fun w hw =>
    ⟨fun e hmem => hPQ e ((h.objects w hw).appendingAdd e hmem),
      fun e hmem => hPQ e ((h.objects w hw).appendingDel e hmem),
      fun e hmem => hPQ e ((h.objects w hw).registry e hmem)⟩

/-- A new map entry is an old one or the one that is put in. -/
theorem mem_foldl_tryEmplace {e : Entry} {registry : Registry} {added : List Entry}
    (h : e ∈ added.foldl tryEmplace registry) : e ∈ registry ∨ e ∈ added := by
  induction added generalizing registry with
  | nil => exact .inl h
  | cons first rest ih =>
      rcases ih h with h | h
      · unfold tryEmplace at h
        split at h
        · exact .inl h
        · rw [List.mem_append, List.mem_singleton] at h
          rcases h with h | rfl
          · exact .inl h
          · exact .inr List.mem_cons_self
      · exact .inr (List.mem_cons_of_mem _ h)

/-- Erasing keys leaves the entries with other keys. -/
theorem mem_foldl_eraseKey {e : Entry} {registry : Registry} {deleted : List Entry} :
    e ∈ deleted.foldl (fun registry e => eraseKey registry e.key) registry ↔
      e ∈ registry ∧ e.key ∉ deleted.map Entry.key := by
  induction deleted generalizing registry with
  | nil => simp
  | cons first rest ih =>
      rw [List.foldl_cons, ih, eraseKey, List.mem_filter, List.map_cons, List.mem_cons]
      simp only [ne_eq, decide_not, Bool.not_eq_true', decide_eq_false_iff_not, not_or]
      exact and_assoc

theorem Workflow.All.addLoop {w : Workflow} (h : w.All P) : w.addLoop.All P where
  appendingAdd := by
    intro e hmem
    cases hmem
  appendingDel := h.appendingDel
  registry := by
    intro e hmem
    rcases mem_foldl_tryEmplace hmem with hmem | hmem
    · exact h.registry e hmem
    · exact h.appendingAdd e hmem

theorem Workflow.All.delLoop {w : Workflow} (h : w.All P) : w.delLoop.All P where
  appendingAdd := h.appendingAdd
  appendingDel := by
    intro e hmem
    cases hmem
  registry := fun e hmem => h.registry e (mem_foldl_eraseKey.mp hmem).1

/-- An entry of a map after `TickTaskWorkflow` was there before, but for its timeout. -/
theorem mem_run {w : Workflow} {now : Int} {e : Entry} (h : e ∈ (w.run now).registry) :
    ∃ e' ∈ w.registry, e'.finishes (now - w.curTick) = false ∧
      e = e'.elapse (now - w.curTick) := by
  obtain ⟨e', hmem, rfl⟩ := List.mem_map.mp h
  obtain ⟨hmem, hfin⟩ := List.mem_filter.mp hmem
  exact ⟨e', hmem, by simpa using hfin, rfl⟩

theorem Workflow.All.run {w : Workflow} (hP : ∀ delta e, P e → P (Entry.elapse delta e))
    (h : w.All P) (now : Int) : (w.run now).All P where
  appendingAdd := h.appendingAdd
  appendingDel := h.appendingDel
  registry := by
    intro e hmem
    obtain ⟨e', hmem', -, rfl⟩ := mem_run hmem
    exact hP _ _ (h.registry e' hmem')

/-- A part of `TickTaskWorkflow` that keeps the property in its workflow keeps it everywhere. -/
theorem Manager.All.onWorkflow (h : s.All P) {o : Nat} {phase : Phase} {f : Workflow → Workflow}
    {finished : Workflow → List Entry} {calls : Workflow → List (Nat × Callback)}
    (hf : ∀ w : Workflow, w.All P → (f w).All P)
    (hfinished : ∀ w : Workflow, w.All P → ∀ e ∈ finished w, P e)
    (hstep : s.onWorkflow o phase f finished calls = some t) : t.All P := by
  obtain ⟨w, hw, -, rfl⟩ := onWorkflow_eq_some hstep
  have hall := h.objects w (List.mem_of_getElem? hw)
  refine ⟨h.syncAdd, ?_, h.registry, ?_⟩
  · intro e hmem
    have hmem : e ∈ s.queues.syncFinished ++ finished w := hmem
    rw [List.mem_append] at hmem
    rcases hmem with hmem | hmem
    · exact h.syncFinished e hmem
    · exact hfinished w hall e hmem
  · intro v hv
    rcases mem_modify hv with hv | ⟨v, hv', rfl⟩
    · exact h.objects v hv
    · exact hf v (h.objects v (List.mem_of_getElem? hv'))

theorem Manager.All.addOne (h : s.All P) {e : Entry} (he : P e) : (s.addOne e).All P := by
  unfold Manager.addOne
  split
  · exact h
  · split
    · exact h
    · refine ⟨h.syncAdd, h.syncFinished, ?_, ?_⟩
      · intro e' hmem
        rw [List.mem_append, List.mem_singleton] at hmem
        rcases hmem with hmem | rfl
        · exact h.registry e' hmem
        · exact he
      · intro v hv
        rcases mem_modify hv with hv | ⟨w, hw, rfl⟩
        · exact h.objects v hv
        · have hall := h.objects w (List.mem_of_getElem? hw)
          refine ⟨?_, hall.appendingDel, hall.registry⟩
          intro e' hmem
          rw [List.mem_append, List.mem_singleton] at hmem
          rcases hmem with hmem | rfl
          · exact hall.appendingAdd e' hmem
          · exact he

theorem Manager.All.popAdd (h : s.All P) : s.popAdd.All P := by
  unfold Manager.popAdd
  split
  · exact h
  · rename_i e rest hqueue
    have hall := h.syncAdd
    rw [hqueue] at hall
    apply Manager.All.addOne
    · exact ⟨fun e' hmem => hall e' (List.mem_cons_of_mem _ hmem), h.syncFinished, h.registry,
        h.objects⟩
    · exact hall e List.mem_cons_self

theorem Manager.All.removeOne (h : s.All P) {handle : UInt32}
    (hremove : s.removeOne handle = some t) : t.All P := by
  unfold Manager.removeOne at hremove
  split at hremove
  · cases hremove
    exact h
  · rename_i e hfound
    obtain ⟨o, -, rfl⟩ := Option.map_eq_some_iff.mp hremove
    refine ⟨h.syncAdd, h.syncFinished, fun e' hmem => h.registry e' (List.mem_of_mem_filter hmem),
      ?_⟩
    intro v hv
    rcases mem_modify hv with hv | ⟨w, hw, rfl⟩
    · exact h.objects v hv
    · have hall := h.objects w (List.mem_of_getElem? hw)
      refine ⟨hall.appendingAdd, ?_, hall.registry⟩
      intro e' hmem
      rw [List.mem_append, List.mem_singleton] at hmem
      rcases hmem with hmem | rfl
      · exact hall.appendingDel e' hmem
      · exact h.registry e' (Manager.mem_of_findTask hfound).1

theorem Manager.All.popFinished (h : s.All P) : s.popFinished.All P := by
  unfold Manager.popFinished
  split
  · exact h
  · rename_i e rest hqueue
    have hall := h.syncFinished
    rw [hqueue] at hall
    have hrest : ∀ e' ∈ rest, P e' := fun e' hmem => hall e' (List.mem_cons_of_mem _ hmem)
    rw [finishOne_eq]
    split
    · exact ⟨h.syncAdd, hrest, h.registry, h.objects⟩
    · exact ⟨h.syncAdd, hrest, fun e' hmem => h.registry e' (List.mem_of_mem_filter hmem),
        h.objects⟩

/-- A property that does not depend on timeouts and holds of the entries that `Add` calls make
holds of all entries. -/
theorem Manager.All.step (hP : ∀ delta e, P e → P (Entry.elapse delta e)) (h : s.All P)
    {label : Label} (hadd : ∀ call, label = .add call → P (s.newEntry call))
    (hstep : step s label = some t) : t.All P := by
  cases label with
  | newWorkflow now =>
      cases hstep
      refine ⟨h.syncAdd, h.syncFinished, h.registry, ?_⟩
      intro w hw
      have hw : w ∈ s.objects ++ [{ curTick := now }] := hw
      rw [List.mem_append, List.mem_singleton] at hw
      rcases hw with hw | rfl
      · exact h.objects w hw
      · constructor <;> simp
  | releaseWorkflow handle =>
      cases hstep
      unfold Manager.releaseWorkflow
      split
      · exact h
      · exact ⟨h.syncAdd, h.syncFinished, h.registry, h.objects⟩
  | add call =>
      cases hstep
      refine ⟨?_, h.syncFinished, h.registry, h.objects⟩
      intro e hmem
      have hmem : e ∈ s.queues.syncAdd ++ [s.newEntry call] := hmem
      rw [List.mem_append, List.mem_singleton] at hmem
      rcases hmem with hmem | rfl
      · exact h.syncAdd e hmem
      · exact hadd call rfl
  | removeTask handle =>
      cases hstep
      exact ⟨h.syncAdd, h.syncFinished, h.registry, h.objects⟩
  | shuffle queues =>
      obtain ⟨hshuffle, rfl⟩ := step_shuffle hstep
      exact ⟨fun e hmem => h.syncAdd e (hshuffle.1.mem_iff.mpr hmem),
        fun e hmem => h.syncFinished e (hshuffle.2.2.1.mem_iff.mpr hmem), h.registry, h.objects⟩
  | tick =>
      have hframe := tickWorkflows_frame s
      refine tick_preserves (P := Manager.All P) hstep ?_ (fun u hu => hu.popAdd)
        (fun handle _ u v hu _ hv => hu.removeOne hv) (fun u hu => hu.popFinished)
      exact ⟨hframe.syncAdd ▸ h.syncAdd, hframe.syncFinished ▸ h.syncFinished,
        fun e hmem => h.registry e (hframe.registry hmem), hframe.objects ▸ h.objects⟩
  | launch o =>
      refine h.onWorkflow (fun w hw => ?_) (fun w _ e hmem => ?_) (step_launch hstep).2
      · exact ⟨hw.appendingAdd, hw.appendingDel, hw.registry⟩
      · cases hmem
  | addLoop o =>
      refine h.onWorkflow (fun w hw => hw.addLoop) (fun w _ e hmem => ?_) hstep
      cases hmem
  | delLoop o =>
      refine h.onWorkflow (fun w hw => hw.delLoop) (fun w _ e hmem => ?_) hstep
      cases hmem
  | run o now =>
      exact h.onWorkflow (fun w hw => hw.run hP now)
        (fun w hw e hmem => hw.registry e (List.mem_of_mem_filter hmem)) hstep

/-! ## Entries on their way -/

/-- The entries of a workflow that it has to take over or has taken over. -/
def Workflow.live (p : Entry → Bool) (w : Workflow) : Nat :=
  w.appendingAdd.countP p + w.registry.countP p

/-- The entries between `SyncAddTaskDatas` and `SyncFinishedTaskDatas`. -/
def Manager.live (p : Entry → Bool) (s : Manager) : Nat :=
  s.queues.syncAdd.countP p + s.queues.syncFinished.countP p +
    (s.objects.map (Workflow.live p)).sum

/-- The entries between `SyncAddTaskDatas` and the body's run. -/
def Manager.pending (p : Entry → Bool) (s : Manager) : Nat :=
  s.queues.syncAdd.countP p + (s.objects.map (Workflow.live p)).sum

variable {p : Entry → Bool}

theorem live_eq (s : Manager) : s.live p = s.pending p + s.queues.syncFinished.countP p := by
  unfold Manager.live Manager.pending
  omega

/-- `try_emplace` puts in each entry at most once. -/
theorem countP_foldl_tryEmplace (p : Entry → Bool) (registry : Registry) (added : List Entry) :
    (added.foldl tryEmplace registry).countP p ≤ registry.countP p + added.countP p := by
  induction added generalizing registry with
  | nil => simp
  | cons e rest ih =>
      refine (ih _).trans ?_
      unfold tryEmplace
      rw [List.countP_cons]
      split
      · omega
      · rw [List.countP_append, List.countP_singleton]
        omega

theorem Workflow.live_addLoop (w : Workflow) : w.addLoop.live p ≤ w.live p := by
  have hle := countP_foldl_tryEmplace p w.registry w.appendingAdd
  simp only [Workflow.live, Workflow.addLoop, List.countP_nil]
  omega

theorem Workflow.live_delLoop (w : Workflow) : w.delLoop.live p ≤ w.live p := by
  have hregistry : (w.appendingDel.foldl
      (fun registry e => eraseKey registry e.key) w.registry).countP p ≤ w.registry.countP p :=
    List.foldlRecOn
      (motive := fun registry : Registry => registry.countP p ≤ w.registry.countP p) _ _
      (Nat.le_refl _) fun _ hle _ _ => Nat.le_trans List.filter_sublist.countP_le hle
  simp only [Workflow.live, Workflow.delLoop]
  omega

theorem Workflow.live_run (hp : ∀ delta e, p (Entry.elapse delta e) = p e) (w : Workflow)
    (now : Int) : (w.run now).live p + (w.finished now).countP p = w.live p := by
  have hsplit := List.countP_eq_countP_filter_add w.registry p (Entry.finishes (now - w.curTick))
  have helapse : (p ∘ Entry.elapse (now - w.curTick)) = p := funext fun e => hp _ e
  simp only [Workflow.live, Workflow.run, Workflow.finished, List.countP_map, helapse]
  omega

/-- A part of `TickTaskWorkflow` makes no more entries than its workflow has. -/
theorem pending_onWorkflow {o : Nat} {phase : Phase} {f : Workflow → Workflow}
    {finished : Workflow → List Entry} {calls : Workflow → List (Nat × Callback)}
    (hstep : s.onWorkflow o phase f finished calls = some t)
    (hf : ∀ w : Workflow, (f w).live p + (finished w).countP p ≤ w.live p) :
    ∃ w, s.objects[o]? = some w ∧ t.queues.syncFinished = s.queues.syncFinished ++ finished w ∧
      t.pending p + (finished w).countP p ≤ s.pending p := by
  obtain ⟨w, hw, -, rfl⟩ := onWorkflow_eq_some hstep
  refine ⟨w, hw, rfl, ?_⟩
  have hsum := sum_map_modify (f := f) (g := Workflow.live p) hw
  have hle := hf w
  simp only [Manager.pending]
  omega

/-- Changing a workflow that does not exist changes nothing. -/
theorem sum_live_modify (o : Nat) (f : Workflow → Workflow) {n : Nat}
    (hf : ∀ w : Workflow, (f w).live p ≤ w.live p + n) :
    ((s.objects.modify o f).map (Workflow.live p)).sum ≤
      (s.objects.map (Workflow.live p)).sum + n := by
  cases hw : s.objects[o]? with
  | none =>
      rw [List.modify_eq_self (List.getElem?_eq_none_iff.mp hw)]
      exact Nat.le_add_right _ _
  | some w =>
      have hsum := sum_map_modify (f := f) (g := Workflow.live p) hw
      have hle := hf w
      omega

theorem pending_popAdd (s : Manager) : s.popAdd.pending p ≤ s.pending p := by
  rcases popAdd_cases s with heq | ⟨e, rest, hqueue, heq | ⟨o, -, -, heq⟩⟩
  · rw [heq]
  · rw [heq]
    simp only [Manager.pending, hqueue, List.countP_cons]
    omega
  · have hsum := sum_live_modify (s := s) (p := p) o
      (fun w => { w with appendingAdd := w.appendingAdd ++ [e] })
      (fun w => by
        simp only [Workflow.live, List.countP_append]
        exact (Nat.add_right_comm _ _ _).le)
    rw [List.countP_singleton] at hsum
    rw [heq]
    simp only [Manager.pending, hqueue, List.countP_cons]
    omega

theorem pending_removeOne {handle : UInt32} (h : s.removeOne handle = some t) :
    t.pending p ≤ s.pending p := by
  rcases removeOne_cases h with rfl | ⟨e, o, -, -, rfl⟩
  · exact Nat.le_refl _
  · have hsum := sum_live_modify (s := s) (p := p) (n := 0) o
      (fun w => { w with appendingDel := w.appendingDel ++ [e] }) (fun w => Nat.le_refl _)
    simp only [Manager.pending]
    omega

theorem pending_popFinished (s : Manager) : s.popFinished.pending p = s.pending p := by
  rcases popFinished_cases s with heq | ⟨e, rest, -, heq | heq⟩ <;> rw [heq] <;> rfl

theorem live_popAdd (s : Manager) : s.popAdd.live p ≤ s.live p := by
  have hfinished : s.popAdd.queues.syncFinished = s.queues.syncFinished := by
    rcases popAdd_cases s with heq | ⟨e, rest, -, heq | ⟨o, -, -, heq⟩⟩ <;> rw [heq]
  rw [live_eq, live_eq, hfinished]
  exact Nat.add_le_add_right (pending_popAdd s) _

/-- A request to remove a task makes no more entries. -/
theorem live_removeOne {handle : UInt32} (h : s.removeOne handle = some t) :
    t.live p ≤ s.live p := by
  rw [live_eq, live_eq, removeOne_queues h]
  exact Nat.add_le_add_right (pending_removeOne h) _

theorem live_popFinished (s : Manager) : s.popFinished.live p ≤ s.live p := by
  rw [live_eq, live_eq, pending_popFinished]
  refine Nat.add_le_add_left ?_ _
  rcases popFinished_cases s with heq | ⟨e, rest, hqueue, heq | heq⟩
  · rw [heq]
  · rw [heq, hqueue]
    exact (List.sublist_cons_self e rest).countP_le
  · rw [heq, hqueue]
    exact (List.sublist_cons_self e rest).countP_le

/-- No entry counts of which the property is false. -/
theorem live_eq_zero {p : Entry → Bool} (h : s.All fun e => p e = false) : s.live p = 0 := by
  have hzero : ∀ l : List Entry, (∀ e ∈ l, p e = false) → l.countP p = 0 := by
    intro l hl
    rw [List.countP_eq_zero]
    intro e hmem
    simp [hl e hmem]
  have hobjects : (s.objects.map (Workflow.live p)).sum = 0 := by
    rw [List.sum_eq_zero]
    intro n hn
    obtain ⟨w, hw, rfl⟩ := List.mem_map.mp hn
    have hadd := hzero _ (h.objects w hw).appendingAdd
    have hregistry := hzero _ (h.objects w hw).registry
    unfold Workflow.live
    omega
  unfold Manager.live
  rw [hzero _ h.syncAdd, hzero _ h.syncFinished, hobjects]

/-- The tasks that a step gives to `ThreadFinishTask`. -/
def Manager.finishedBy (s : Manager) : Label → List Entry
  | .run o now =>
      match s.objects[o]? with
      | none => []
      | some w => w.finished now
  | _ => []

theorem finishedBy_run {o : Nat} {w : Workflow} (hw : s.objects[o]? = some w) (now : Int) :
    s.finishedBy (.run o now) = w.finished now := by
  show (match s.objects[o]? with
    | none => []
    | some w => w.finished now) = w.finished now
  rw [hw]

/-- No step but an `Add` call makes more entries, and a tick that finishes tasks leaves fewer. -/
theorem pending_step (hp : ∀ delta e, p (Entry.elapse delta e) = p e) {label : Label}
    (hadd : ∀ call, label = .add call → p (s.newEntry call) = false)
    (hstep : step s label = some t) :
    t.pending p + (s.finishedBy label).countP p ≤ s.pending p := by
  cases label with
  | newWorkflow now =>
      cases hstep
      simp [Manager.pending, Manager.newWorkflow, Workflow.live, Manager.finishedBy]
  | releaseWorkflow handle =>
      cases hstep
      unfold Manager.releaseWorkflow
      split <;> exact Nat.le_refl _
  | add call =>
      cases hstep
      have hnew := hadd call rfl
      simp [Manager.pending, Manager.add, List.countP_append, hnew, Manager.finishedBy]
  | removeTask handle =>
      cases hstep
      exact Nat.le_refl _
  | shuffle queues =>
      obtain ⟨hshuffle, rfl⟩ := step_shuffle hstep
      have hadds := hshuffle.1.countP_eq p
      simp only [Manager.pending, Manager.finishedBy, List.countP_nil]
      omega
  | tick =>
      have hframe := tickWorkflows_frame s
      refine tick_preserves (P := fun u => u.pending p ≤ s.pending p) hstep ?_
        (fun u hu => (pending_popAdd u).trans hu)
        (fun handle _ u v hu _ hv => (pending_removeOne hv).trans hu)
        (fun u hu => (pending_popFinished u).le.trans hu)
      simp only [Manager.pending, hframe.syncAdd, hframe.objects]
      exact Nat.le_refl _
  | launch o =>
      obtain ⟨w, -, -, hle⟩ := pending_onWorkflow (p := p) (step_launch hstep).2
        (fun w => Nat.le_refl _)
      exact hle
  | addLoop o =>
      obtain ⟨w, -, -, hle⟩ := pending_onWorkflow (p := p) hstep (fun w => w.live_addLoop)
      exact hle
  | delLoop o =>
      obtain ⟨w, -, -, hle⟩ := pending_onWorkflow (p := p) hstep (fun w => w.live_delLoop)
      exact hle
  | run o now =>
      obtain ⟨w, hw, -, hle⟩ := pending_onWorkflow hstep (fun w => (w.live_run hp now).le)
      rwa [finishedBy_run hw]

/-- What a step does to `SyncFinishedTaskDatas`. -/
theorem finished_step {label : Label} (hstep : step s label = some t) :
    t.queues.syncFinished.countP p ≤
      s.queues.syncFinished.countP p + (s.finishedBy label).countP p := by
  have hpart : ∀ {o : Nat} {phase : Phase} {f : Workflow → Workflow}
      {calls : Workflow → List (Nat × Callback)},
      s.onWorkflow o phase f (fun _ => []) calls = some t →
      t.queues.syncFinished.countP p ≤ s.queues.syncFinished.countP p := by
    intro o phase f calls hpart
    obtain ⟨w, -, -, rfl⟩ := onWorkflow_eq_some hpart
    show (s.queues.syncFinished ++ []).countP p ≤ _
    rw [List.append_nil]
  cases label with
  | newWorkflow now | removeTask handle | add call =>
      cases hstep
      exact Nat.le_refl _
  | releaseWorkflow handle =>
      cases hstep
      unfold Manager.releaseWorkflow
      split <;> exact Nat.le_refl _
  | shuffle queues =>
      obtain ⟨hshuffle, rfl⟩ := step_shuffle hstep
      exact (hshuffle.2.2.1.countP_eq p).ge
  | tick =>
      have hframe := tickWorkflows_frame s
      refine tick_preserves (P := fun u => u.queues.syncFinished.countP p ≤
        s.queues.syncFinished.countP p) hstep (hframe.syncFinished ▸ Nat.le_refl _) (fun u hu => ?_)
        (fun handle _ u v hu _ hv => ?_) (fun u hu => ?_)
      · rcases popAdd_cases u with heq | ⟨e, rest, -, heq | ⟨o, -, -, heq⟩⟩ <;> rwa [heq]
      · rwa [removeOne_queues hv]
      · rcases popFinished_cases u with heq | ⟨e, rest, hqueue, heq | heq⟩
        · rwa [heq]
        · rw [hqueue] at hu
          rw [heq]
          exact (List.sublist_cons_self e rest).countP_le.trans hu
        · rw [hqueue] at hu
          rw [heq]
          exact (List.sublist_cons_self e rest).countP_le.trans hu
  | launch o => exact hpart (step_launch hstep).2
  | addLoop o | delLoop o => exact hpart hstep
  | run o now =>
      obtain ⟨w, hw, -, rfl⟩ := onWorkflow_eq_some hstep
      rw [finishedBy_run hw, ← List.countP_append]

/-- No step but an `Add` call makes more entries, and an `Add` call makes one. -/
theorem live_step (hp : ∀ delta e, p (Entry.elapse delta e) = p e) {label : Label}
    (hadd : ∀ call, label = .add call → p (s.newEntry call) = false)
    (hstep : step s label = some t) : t.live p ≤ s.live p := by
  have hpending := pending_step hp hadd hstep
  have hfinished := finished_step (p := p) hstep
  rw [live_eq, live_eq]
  omega

/-- When there is one entry at most and a workflow has one, there is none elsewhere. -/
theorem live_alone (honce : s.live p ≤ 1) {o : Nat} {w : Workflow} (hw : s.objects[o]? = some w)
    (hpos : 0 < w.live p) : w.live p = 1 ∧ (∀ e ∈ s.queues.syncAdd, p e = false) ∧
      ∀ o' (v : Workflow), o' ≠ o → s.objects[o']? = some v → v.live p = 0 := by
  have hsum := sum_map_modify (g := Workflow.live p) (f := fun _ => {}) hw
  have hempty : Workflow.live p {} = 0 := rfl
  unfold Manager.live at honce
  refine ⟨by omega, fun e hmem => ?_, fun o' v hne hv => ?_⟩
  · have hnone : s.queues.syncAdd.countP p = 0 := by omega
    simpa using List.countP_eq_zero.mp hnone e hmem
  · have hv' : (s.objects.modify o fun _ => {})[o']? = some v := by
      rw [List.getElem?_modify_ne _ _ (Ne.symm hne)]
      exact hv
    have hle : v.live p ≤ ((s.objects.modify o fun _ => {}).map (Workflow.live p)).sum :=
      le_sum_map hv'
    omega

/-- Where nothing counts, no entry has the property. -/
theorem Workflow.live_eq_zero {w : Workflow} : w.live p = 0 ↔
    (∀ e ∈ w.appendingAdd, p e = false) ∧ ∀ e ∈ w.registry, p e = false := by
  unfold Workflow.live
  rw [Nat.add_eq_zero_iff, List.countP_eq_zero, List.countP_eq_zero]
  simp only [Bool.not_eq_true]

/-! ## Numbers of tasks -/

/-- The counters change in `Add` calls only. -/
theorem counters_step {label : Label} (hlabel : ∀ call, label ≠ .add call)
    (hstep : step s label = some t) : t.tasks = s.tasks ∧ t.taskCount = s.taskCount := by
  cases label with
  | add call => exact absurd rfl (hlabel call)
  | newWorkflow now | removeTask handle =>
      cases hstep
      exact ⟨rfl, rfl⟩
  | releaseWorkflow handle =>
      cases hstep
      unfold Manager.releaseWorkflow
      split <;> exact ⟨rfl, rfl⟩
  | shuffle queues =>
      obtain ⟨-, rfl⟩ := step_shuffle hstep
      exact ⟨rfl, rfl⟩
  | tick =>
      have hframe := tickWorkflows_frame s
      refine tick_preserves (P := fun u => u.tasks = s.tasks ∧ u.taskCount = s.taskCount) hstep
        ⟨hframe.tasks, hframe.taskCount⟩ (fun u hu => ?_) (fun handle _ u v hu _ hv => ?_)
        (fun u hu => ?_)
      · rcases popAdd_cases u with heq | ⟨e, rest, -, heq | ⟨o, -, -, heq⟩⟩ <;> rwa [heq]
      · rcases removeOne_cases hv with rfl | ⟨e, o, -, -, rfl⟩ <;> exact hu
      · rcases popFinished_cases u with heq | ⟨e, rest, -, heq | heq⟩ <;> rwa [heq]
  | launch o =>
      obtain ⟨w, -, -, rfl⟩ := onWorkflow_eq_some (step_launch hstep).2
      exact ⟨rfl, rfl⟩
  | addLoop o | delLoop o | run o now =>
      obtain ⟨w, -, -, rfl⟩ := onWorkflow_eq_some hstep
      exact ⟨rfl, rfl⟩

theorem tasks_le_step {label : Label} (hstep : step s label = some t) : s.tasks ≤ t.tasks := by
  by_cases hadd : ∃ call, label = .add call
  · obtain ⟨call, rfl⟩ := hadd
    cases hstep
    exact Nat.le_succ _
  · exact (counters_step (not_exists.mp hadd) hstep).1.ge

theorem tasks_le_run {labels : List Label} (hrun : exec step s labels = some t) :
    s.tasks ≤ t.tasks := by
  induction labels generalizing s with
  | nil =>
      cases hrun
      exact Nat.le_refl _
  | cons label rest ih =>
      obtain ⟨u, hu, hrest⟩ := exec_cons_eq_some.mp hrun
      exact (tasks_le_step hu).trans (ih hrest)

/-- The entry that an `Add` call makes has the number of the call. -/
@[simp] theorem newEntry_task (s : Manager) (call : AddCall) :
    (s.newEntry call).data.task = s.tasks := by
  cases call <;> rfl

@[simp] theorem elapse_task (delta : Int) (e : Entry) :
    (e.elapse delta).data.task = e.data.task := by
  unfold Entry.elapse
  split <;> rfl

@[simp] theorem elapse_type (delta : Int) (e : Entry) :
    (e.elapse delta).data.type = e.data.type := by
  unfold Entry.elapse
  split <;> rfl

/-- The entry is of the task. -/
def Entry.isOf (task : Nat) (e : Entry) : Bool := e.data.task = task

@[simp] theorem isOf_eq_false {task : Nat} {e : Entry} :
    Entry.isOf task e = false ↔ e.data.task ≠ task := by
  simp [Entry.isOf]

@[simp] theorem isOf_eq_true {task : Nat} {e : Entry} :
    Entry.isOf task e = true ↔ e.data.task = task := by
  simp [Entry.isOf]

theorem isOf_elapse (task : Nat) (delta : Int) (e : Entry) :
    Entry.isOf task (e.elapse delta) = Entry.isOf task e := by
  unfold Entry.isOf
  rw [elapse_task]

/-- The tasks that are called have entries. -/
theorem mem_callCancelable {callback : Callback} {entries : List Entry} {call : Nat × Callback}
    (h : call ∈ callCancelable callback entries) :
    call.2 = callback ∧ ∃ e ∈ entries, e.data.type = .cancelable ∧ e.data.task = call.1 := by
  obtain ⟨e, he, rfl⟩ := List.mem_map.mp h
  obtain ⟨he, htype⟩ := List.mem_filter.mp he
  exact ⟨rfl, e, he, by simpa using htype, rfl⟩

theorem mem_bodies {w : Workflow} {delta : Int} {call : Nat × Callback}
    (h : call ∈ w.bodies delta) : ∃ e ∈ w.registry, e.data.task = call.1 := by
  have hrun : ∀ p : Entry → Bool, call ∈ ((w.registry.filter p).map
      fun e => (e.data.task, Callback.run)) → ∃ e ∈ w.registry, e.data.task = call.1 := by
    intro p hmem
    obtain ⟨e, he, rfl⟩ := List.mem_map.mp hmem
    exact ⟨e, List.mem_of_mem_filter he, rfl⟩
  unfold Workflow.bodies at h
  simp only [List.mem_append] at h
  rcases h with ((h | h) | h) | h
  · exact hrun _ h
  · exact hrun _ h
  · split at h
    · obtain ⟨-, e, he, -, heq⟩ := mem_callCancelable h
      exact ⟨e, he, heq⟩
    · cases h
  · exact hrun _ h

/-- The calls of released workflows have a property of the numbers of tasks that all entries and
calls have. -/
theorem log_tickWorkflows {Q : Nat → Prop} (hall : s.All fun e => Q e.data.task)
    (hlog : ∀ call ∈ s.log, Q call.1) : ∀ call ∈ s.tickWorkflows.log, Q call.1 := by
  suffices hrelease : s.tickWorkflows.objects = s.objects ∧
      ∀ call ∈ s.tickWorkflows.log, Q call.1 from hrelease.2
  refine List.foldlRecOn
    (motive := fun u : Manager => u.objects = s.objects ∧ ∀ call ∈ u.log, Q call.1) _ _
    ⟨rfl, hlog⟩ fun u hu handle _ => ?_
  obtain ⟨hobjects, hlog⟩ := hu
  unfold Manager.releaseOne
  split
  · exact ⟨hobjects, hlog⟩
  · rename_i w hw
    refine ⟨hobjects, fun call hmem => ?_⟩
    rcases List.mem_append.mp hmem with hmem | hmem
    · exact hlog call hmem
    · obtain ⟨-, e, he, -, heq⟩ := mem_callCancelable hmem
      obtain ⟨o, -, hobject⟩ := Option.bind_eq_some_iff.mp hw
      rw [hobjects] at hobject
      exact heq ▸ (hall.objects w (List.mem_of_getElem? hobject)).registry e he

/-- A property of the numbers of tasks that all entries and calls have, the calls of a step
have. -/
theorem log_step {Q : Nat → Prop} (hall : s.All fun e => Q e.data.task)
    (hlog : ∀ call ∈ s.log, Q call.1) {label : Label} (hstep : step s label = some t) :
    ∀ call ∈ t.log, Q call.1 := by
  have hpart : ∀ {o : Nat} {phase : Phase} {f : Workflow → Workflow}
      {finished : Workflow → List Entry} {calls : Workflow → List (Nat × Callback)},
      s.onWorkflow o phase f finished calls = some t →
      (∀ w ∈ s.objects, ∀ call ∈ calls w, Q call.1) → ∀ call ∈ t.log, Q call.1 := by
    intro o phase f finished calls hpart hcalls
    obtain ⟨w, hw, -, rfl⟩ := onWorkflow_eq_some hpart
    intro call hmem
    rcases List.mem_append.mp hmem with hmem | hmem
    · exact hlog call hmem
    · exact hcalls w (List.mem_of_getElem? hw) call hmem
  cases label with
  | newWorkflow now | removeTask handle | add call =>
      cases hstep
      exact hlog
  | releaseWorkflow handle =>
      cases hstep
      unfold Manager.releaseWorkflow
      split <;> exact hlog
  | shuffle queues =>
      obtain ⟨-, rfl⟩ := step_shuffle hstep
      exact hlog
  | tick =>
      refine tick_preserves (P := fun u => ∀ call ∈ u.log, Q call.1) hstep ?_ (fun u hu => ?_)
        (fun handle _ u v hu _ hv => ?_) (fun u hu => ?_)
      · exact log_tickWorkflows hall hlog
      · rcases popAdd_cases u with heq | ⟨e, rest, -, heq | ⟨o, -, -, heq⟩⟩ <;> rwa [heq]
      · rcases removeOne_cases hv with rfl | ⟨e, o, -, -, rfl⟩ <;> exact hu
      · rcases popFinished_cases u with heq | ⟨e, rest, -, heq | heq⟩ <;> rwa [heq]
  | launch o =>
      refine hpart (step_launch hstep).2 fun w _ call hmem => ?_
      cases hmem
  | addLoop o =>
      refine hpart hstep fun w hw call hmem => ?_
      obtain ⟨-, e, he, -, heq⟩ := mem_callCancelable hmem
      exact heq ▸ (hall.objects w hw).appendingAdd e he
  | delLoop o =>
      refine hpart hstep fun w hw call hmem => ?_
      obtain ⟨-, e, he, -, heq⟩ := mem_callCancelable hmem
      exact heq ▸ (hall.objects w hw).appendingDel e he
  | run o now =>
      refine hpart hstep fun w hw call hmem => ?_
      obtain ⟨e, he, heq⟩ := mem_bodies hmem
      exact heq ▸ (hall.objects w hw).registry e he

/-- Entries and calls are of tasks that were added. -/
structure Known (s : Manager) : Prop where
  entries : s.All fun e => e.data.task < s.tasks
  log : ∀ call ∈ s.log, call.1 < s.tasks

theorem Known.step (h : Known s) {label : Label} (hstep : Task.step s label = some t) :
    Known t := by
  have hle := tasks_le_step hstep
  refine ⟨?_, fun call hmem => ?_⟩
  · refine Manager.All.step (fun delta e he => by rwa [elapse_task])
      (h.entries.mono fun e he => he.trans_le hle) ?_ hstep
    rintro call rfl
    cases hstep
    rw [newEntry_task]
    exact Nat.lt_succ_self _
  · exact (log_step (Q := (· < s.tasks)) h.entries h.log hstep call hmem).trans_le hle

theorem known_init : Known .init := by
  refine ⟨⟨?_, ?_, ?_, ?_⟩, ?_⟩
  · exact fun e hmem => nomatch hmem
  · exact fun e hmem => nomatch hmem
  · exact fun e hmem => nomatch hmem
  · intro w hw
    have hw : w ∈ [({} : Workflow), {}] := hw
    simp only [List.mem_cons, List.not_mem_nil, or_false, or_self] at hw
    subst hw
    exact ⟨fun e hmem => (nomatch hmem), fun e hmem => (nomatch hmem),
      fun e hmem => (nomatch hmem)⟩
  · exact fun call hmem => nomatch hmem

theorem known_run {labels : List Label} (hrun : exec step .init labels = some s) : Known s :=
  exec_invariant (fun _ _ _ h _ hstep => h.step hstep) known_init
    (guarded_true _ _) hrun

end Utilpp.Task

import Utilpp.Task.Manager

/-!
# Referential integrity of the task manager

Every task that is registered with the manager names a workflow in `TaskWorkflowDatas`, so that
the removal pass of `Tick` never meets a null pointer (`integrity_run`). The release of a workflow
unregisters the tasks in the workflow's own maps only. A task that the workflow has not taken
over yet, or that has left these maps, stays registered and names a workflow that is gone
(`released_before_handover`).
-/

namespace Utilpp.Task

open Lib

/-- Every registered task names a workflow that is there. -/
def Manager.Integrity (s : Manager) : Prop :=
  ∀ e ∈ s.registry, e.data.workflow ∈ s.datas.map Prod.fst

instance (s : Manager) : Decidable s.Integrity := inferInstanceAs (Decidable (∀ e ∈ _, _))

/-- The entry is in the map of its type of the workflow that has the handle. -/
def Manager.Holds (s : Manager) (handle : UInt32) (e : Entry) : Prop :=
  ∃ w ∈ (s.datas.lookup handle).bind (s.objects[·]?), e.key ∈ w.registry.map Entry.key

instance (s : Manager) (handle : UInt32) (e : Entry) : Decidable (s.Holds handle e) :=
  match h : (s.datas.lookup handle).bind (s.objects[·]?) with
  | none => .isFalse (by rintro ⟨w, hw, -⟩; rw [h] at hw; cases hw)
  | some w =>
      decidable_of_iff (e.key ∈ w.registry.map Entry.key)
        ⟨fun hkey => ⟨w, h, hkey⟩, fun ⟨v, hv, hkey⟩ => by
          rw [h, Option.mem_some_iff] at hv
          exact hv ▸ hkey⟩

/-- When a `Tick` releases a workflow, the workflow has taken over the registered tasks that name
it and still has them. -/
def Settled (s : Manager) : Label → Prop
  | .tick => ∀ handle ∈ s.queues.delWorkflows, ∀ e ∈ s.registry,
      e.data.workflow = handle → s.Holds handle e
  | _ => True

instance (s : Manager) : (label : Label) → Decidable (Settled s label)
  | .tick => List.decidableBAll _ _
  | .newWorkflow _ | .releaseWorkflow _ | .add _ | .removeTask _ | .shuffle _ | .launch _
  | .addLoop _ | .delLoop _ | .run _ _ => inferInstanceAs (Decidable True)

/-! ## The passes of `Tick` -/

/-- New workflows are put behind those that are there. -/
theorem foldl_emplaceWorkflow (datas added : List (UInt32 × Nat)) :
    datas <+: added.foldl emplaceWorkflow datas := by
  induction added generalizing datas with
  | nil => exact List.prefix_refl _
  | cons first rest ih =>
      refine List.IsPrefix.trans ?_ (ih _)
      unfold emplaceWorkflow
      split
      · exact List.prefix_refl _
      · exact List.prefix_append _ _

/-- What is found in an association list is found in every extension of it. -/
theorem lookup_extended {datas more : List (UInt32 × Nat)} {handle : UInt32} {o : Nat}
    (hmore : datas <+: more) (h : datas.lookup handle = some o) : more.lookup handle = some o := by
  obtain ⟨rest, rfl⟩ := hmore
  rw [List.lookup_append, h]
  rfl

/-- A key of an association list is found. -/
theorem exists_lookup {datas : List (UInt32 × Nat)} {handle : UInt32}
    (h : handle ∈ datas.map Prod.fst) : ∃ o, datas.lookup handle = some o := by
  cases hlookup : datas.lookup handle with
  | some o => exact ⟨o, rfl⟩
  | none =>
      obtain ⟨pair, hmem, rfl⟩ := List.mem_map.mp h
      rw [List.lookup_eq_none_iff] at hlookup
      simpa using hlookup pair hmem

/-- What is found has its key in the list. -/
theorem mem_of_lookup {datas : List (UInt32 × Nat)} {handle : UInt32} {o : Nat}
    (h : datas.lookup handle = some o) : handle ∈ datas.map Prod.fst := by
  by_contra hnone
  have hlookup : datas.lookup handle = none := by
    rw [List.lookup_eq_none_iff]
    intro pair hmem
    have hne : handle ≠ pair.1 := fun heq => hnone (heq ▸ List.mem_map_of_mem hmem)
    simpa using hne
  rw [hlookup] at h
  cases h

/-- Other handles are found as before when one is erased. -/
theorem lookup_filter_ne {datas : List (UInt32 × Nat)} {handle other : UInt32}
    (hne : other ≠ handle) :
    (datas.filter (·.1 ≠ handle)).lookup other = datas.lookup other := by
  induction datas with
  | nil => rfl
  | cons pair rest ih =>
      obtain ⟨first, o⟩ := pair
      by_cases hfirst : first = handle
      · subst hfirst
        have hbeq : (other == first) = false := by simpa using hne
        rw [List.filter_cons_of_neg (by simp), ih, List.lookup_cons, hbeq]
      · rw [List.filter_cons_of_pos (by simpa using hfirst), List.lookup_cons, List.lookup_cons, ih]

/-- An erased handle is not found. -/
theorem lookup_filter_self {datas : List (UInt32 × Nat)} {handle : UInt32} {o : Nat} :
    (datas.filter (·.1 ≠ handle)).lookup handle ≠ some o := by
  intro h
  obtain ⟨pair, hmem, hfst⟩ := List.mem_map.mp (mem_of_lookup h)
  have hne := (List.mem_filter.mp hmem).2
  exact absurd hfst (by simpa using hne)

variable {s t : Manager}

/-- The release of an unknown workflow does nothing. -/
theorem releaseOne_of_none {handle : UInt32}
    (h : (s.datas.lookup handle).bind (s.objects[·]?) = none) : s.releaseOne handle = s := by
  unfold Manager.releaseOne
  rw [h]

/-- The release of a known workflow erases it and the tasks that it has taken over. -/
theorem releaseOne_of_some {handle : UInt32} {w : Workflow}
    (h : (s.datas.lookup handle).bind (s.objects[·]?) = some w) :
    s.releaseOne handle = { s with
      datas := s.datas.filter (·.1 ≠ handle)
      registry := s.registry.filter fun e => e.key ∉ w.registry.map Entry.key
      log := s.log ++ callCancelable .onStop w.registry } := by
  unfold Manager.releaseOne
  rw [h]

/-- The releases of one `Tick` keep the integrity when every workflow that is released has the
tasks that name it. -/
theorem Manager.Integrity.release {handles : List UInt32} (h : s.Integrity)
    (hsettled : ∀ handle ∈ handles, ∀ e ∈ s.registry, e.data.workflow = handle →
      s.Holds handle e) : (handles.foldl Manager.releaseOne s).Integrity := by
  induction handles generalizing s with
  | nil => exact h
  | cons handle rest ih =>
      rw [List.foldl_cons]
      cases hfound : (s.datas.lookup handle).bind (s.objects[·]?) with
      | none =>
          rw [releaseOne_of_none hfound]
          exact ih h fun handle' hmem => hsettled handle' (List.mem_cons_of_mem _ hmem)
      | some w =>
          have hreleased := releaseOne_of_some hfound
          -- A task that is left does not name the workflow: it would be in its maps.
          have hother : ∀ e ∈ (s.releaseOne handle).registry, e ∈ s.registry ∧
              e.data.workflow ≠ handle := by
            intro e hmem
            rw [hreleased] at hmem
            obtain ⟨hmem, hkey⟩ := List.mem_filter.mp hmem
            refine ⟨hmem, fun hname => ?_⟩
            obtain ⟨v, hv, hkey'⟩ := hsettled handle List.mem_cons_self e hmem hname
            rw [hfound, Option.mem_some_iff] at hv
            subst hv
            exact of_decide_eq_true hkey hkey'
          apply ih
          · intro e hmem
            obtain ⟨hmem, hne⟩ := hother e hmem
            obtain ⟨pair, hpair, hname⟩ := List.mem_map.mp (h e hmem)
            rw [hreleased]
            refine List.mem_map.mpr ⟨pair, List.mem_filter.mpr ⟨hpair, ?_⟩, hname⟩
            simpa [hname] using hne
          · rintro _ hmem e hin rfl
            obtain ⟨hin, hne⟩ := hother e hin
            obtain ⟨v, hv, hkey⟩ := hsettled _ (List.mem_cons_of_mem _ hmem) e hin rfl
            refine ⟨v, ?_, hkey⟩
            rw [hreleased]
            simpa only [lookup_filter_ne hne] using hv

/-- The functions that add tasks keep the integrity. -/
theorem Manager.Integrity.adds {entries : List Entry} (h : s.Integrity) :
    (entries.foldl Manager.addOne s).Integrity := by
  induction entries generalizing s with
  | nil => exact h
  | cons e rest ih =>
      apply ih
      unfold Manager.addOne
      split
      · exact h
      · rename_i o hlookup
        split
        · exact h
        · intro e' hmem
          rw [List.mem_append, List.mem_singleton] at hmem
          rcases hmem with hmem | rfl
          · exact h e' hmem
          · exact mem_of_lookup hlookup

/-- A task that is found is registered. -/
theorem Manager.mem_of_findTask {handle : UInt32} {e : Entry} (h : s.findTask handle = some e) :
    e ∈ s.registry ∧ e.handle = handle := by
  obtain ⟨type, -, hfind⟩ := List.exists_of_findSome?_eq_some h
  have hkey : e.key = (type, handle) := by simpa using List.find?_some hfind
  exact ⟨List.mem_of_find?_eq_some hfind, congrArg Prod.snd hkey⟩

/-- A request to remove a task is served and keeps the integrity. -/
theorem Manager.Integrity.removeOne (h : s.Integrity) (handle : UInt32) :
    ∃ t, s.removeOne handle = some t ∧ t.Integrity := by
  unfold Manager.removeOne
  split
  · exact ⟨s, rfl, h⟩
  · rename_i e hfound
    obtain ⟨o, ho⟩ := exists_lookup (h e (mem_of_findTask hfound).1)
    rw [ho]
    exact ⟨_, rfl, fun e' hmem => h e' (List.mem_of_mem_filter hmem)⟩

/-- Finished tasks only leave the registry. -/
theorem Manager.Integrity.finishes {entries : List Entry} (h : s.Integrity) :
    (entries.foldl Manager.finishOne s).Integrity := by
  induction entries generalizing s with
  | nil => exact h
  | cons e rest ih =>
      apply ih
      unfold Manager.finishOne
      split
      · exact fun e' hmem => h e' (List.mem_of_mem_filter hmem)
      · exact fun e' hmem => h e' (List.mem_of_mem_filter hmem)
      · exact fun e' hmem => h e' (List.mem_of_mem_filter hmem)
      · exact h

/-- A `Tick` that releases settled workflows only is defined and keeps the integrity. -/
theorem Manager.Integrity.tick (h : s.Integrity) (hok : Settled s .tick) :
    ∃ t, s.tick = some t ∧ t.Integrity := by
  have hbegins := foldl_emplaceWorkflow s.datas s.queues.addWorkflows
  have hadds : s.tickAdds.Integrity := by
    apply Manager.Integrity.adds
    apply Manager.Integrity.release
    · intro e hmem
      obtain ⟨o, ho⟩ := exists_lookup (h e hmem)
      exact mem_of_lookup (lookup_extended hbegins ho)
    · rintro _ hmem e hin rfl
      obtain ⟨w, hw, hkey⟩ := hok _ hmem e hin rfl
      obtain ⟨o, ho, hobject⟩ := Option.bind_eq_some_iff.mp hw
      refine ⟨w, ?_, hkey⟩
      exact Option.bind_eq_some_iff.mpr ⟨o, lookup_extended hbegins ho, hobject⟩
  obtain ⟨u, hu, hinv⟩ : ∃ u, exec Manager.removeOne s.tickAdds (s.queues.syncDel.take 100) =
      some u ∧ u.Integrity :=
    exec_defined (fun u handle hu _ => hu.removeOne handle) hadds
      (guarded_of_forall (fun _ _ => trivial) _ _)
  refine ⟨u.tickFinished, ?_, ?_⟩
  · unfold Manager.tick
    rw [hu]
    rfl
  · exact Manager.Integrity.finishes (s := { u with
      queues.syncFinished := u.queues.syncFinished.drop 100 }) hinv

/-! ## Runs -/

/-- Every settled step keeps the integrity. -/
theorem Manager.Integrity.step (h : s.Integrity) {label : Label} (hok : Settled s label)
    (hstep : step s label = some t) : t.Integrity := by
  cases label with
  | newWorkflow now | add call | removeTask handle =>
      cases hstep
      exact h
  | releaseWorkflow handle =>
      cases hstep
      unfold Manager.releaseWorkflow
      split <;> exact h
  | shuffle queues =>
      obtain ⟨-, rfl⟩ := step_shuffle hstep
      exact h
  | tick =>
      obtain ⟨u, hu, hinv⟩ := h.tick hok
      have hstep : s.tick = some t := hstep
      rw [hu, Option.some.injEq] at hstep
      exact hstep ▸ hinv
  | launch o =>
      obtain ⟨w, -, -, rfl⟩ := onWorkflow_eq_some (step_launch hstep).2
      exact h
  | addLoop o | delLoop o | run o now =>
      obtain ⟨w, -, -, rfl⟩ := onWorkflow_eq_some hstep
      exact h

/-- In every run that releases settled workflows only, every registered task names a workflow
that is there, and the next such `Tick` meets no null pointer. -/
theorem integrity_run {labels : List Label} (hok : Guarded step Settled .init labels)
    (hrun : exec step .init labels = some s) :
    s.Integrity ∧ (Settled s .tick → ∃ t, step s .tick = some t) := by
  have hinit : Manager.init.Integrity := by
    intro e hmem
    cases hmem
  have hinv : s.Integrity :=
    exec_invariant (fun _ _ _ h hok hstep => h.step hok hstep) hinit hok hrun
  refine ⟨hinv, fun htick => ?_⟩
  obtain ⟨t, ht, -⟩ := hinv.tick htick
  exact ⟨t, ht⟩

/-- A workflow takes over a task and is released. -/
def settledRun : List Label :=
  [.newWorkflow 0, .tick, .add (.addTick 1), .tick, .launch 2, .addLoop 2, .delLoop 2, .run 2 5,
    .releaseWorkflow 1, .removeTask 0]

/-- The `Tick` that releases the workflow and serves the request to remove its task. -/
theorem settledRun_integrity :
    ∃ s t, exec step .init settledRun = some s ∧ s.Integrity ∧ s.registry ≠ [] ∧
      step s .tick = some t := by
  have hok : Guarded step Settled .init settledRun := by decide
  have hsome : (exec step .init settledRun).isSome = true := by decide
  obtain ⟨s, hs⟩ := Option.isSome_iff_exists.mp hsome
  have hlast : ∀ s, exec step .init settledRun = some s → s.registry ≠ [] ∧ Settled s .tick := by
    decide
  obtain ⟨hne, hsettled⟩ := hlast s hs
  obtain ⟨hinv, htick⟩ := integrity_run hok hs
  obtain ⟨t, ht⟩ := htick hsettled
  exact ⟨s, t, hs, hinv, hne, ht⟩

/-- The workflow is released when the manager has registered a task that the workflow has not
taken over: the task names a workflow that is gone, and its removal dereferences a null
pointer. -/
theorem released_before_handover :
    ∃ s, exec step .init [.newWorkflow 0, .tick, .add (.addTick 1), .tick, .releaseWorkflow 1,
        .tick] = some s ∧ ¬ s.Integrity ∧ exec step s [.removeTask 0, .tick] = none := by
  refine ⟨_, rfl, by decide, by decide⟩

end Utilpp.Task

import Utilpp.Task.Entries

/-!
# `Tick` with producers in between

`Manager.tick` is a `Tick` that nobody interrupts. Here its accesses to the queues are steps of
their own, with calls of producers and parts of workflow ticks in between; `tick_uninterrupted`
relates the two. `no_early_drop` shows that a task is never dropped because its workflow is not
yet known: the workflow is announced before the task, and `Tick` takes the announcements behind
the requests to add tasks. A served request registers its task, unless the counter of handles has
wrapped around onto a task that is still registered (`handle_taken`).
-/

namespace Utilpp.Task

open Lib

/-- Where a `Tick` is, with the requests to add and to remove tasks that it has taken. -/
inductive Stage where
  | idle
  | taking (adds : List Entry)
  | addingWorkflows (adds : List Entry) (dels : List UInt32)
  | releasingWorkflows (adds : List Entry) (dels : List UInt32)
  | adding (adds : List Entry) (dels : List UInt32)
  | removing (dels : List UInt32)
  | finishing
  deriving DecidableEq, Repr

/-- The requests to add tasks that are taken and not served. -/
def Stage.adds : Stage → List Entry
  | .taking adds | .addingWorkflows adds _ | .releasingWorkflows adds _ | .adding adds _ => adds
  | .idle | .removing _ | .finishing => []

/-- The manager and its running `Tick`. -/
structure Ticking where
  manager : Manager
  stage : Stage
  deriving Repr

def Ticking.init : Ticking := ⟨.init, .idle⟩

/-- The next access of `Tick`: `try_dequeue_bulk` of one of the queues, with what is done with the
batch, or the service of one request. -/
def Ticking.tick (s : Ticking) : Option Ticking :=
  match s.stage with
  | .idle =>
      some ⟨{ s.manager with queues.syncAdd := s.manager.queues.syncAdd.drop 100 },
        .taking (s.manager.queues.syncAdd.take 100)⟩
  | .taking adds =>
      some ⟨{ s.manager with queues.syncDel := s.manager.queues.syncDel.drop 100 },
        .addingWorkflows adds (s.manager.queues.syncDel.take 100)⟩
  | .addingWorkflows adds dels =>
      match s.manager.queues.addWorkflows.take 5 with
      | [] => some { s with stage := .releasingWorkflows adds dels }
      | added :: batch =>
          some ⟨{ s.manager with
            queues.addWorkflows := s.manager.queues.addWorkflows.drop 5
            datas := (added :: batch).foldl emplaceWorkflow s.manager.datas }, s.stage⟩
  | .releasingWorkflows adds dels =>
      match s.manager.queues.delWorkflows.take 5 with
      | [] => some { s with stage := .adding adds dels }
      | released :: batch =>
          some ⟨(released :: batch).foldl Manager.releaseOne
            { s.manager with queues.delWorkflows := s.manager.queues.delWorkflows.drop 5 },
            s.stage⟩
  | .adding [] dels => some { s with stage := .removing dels }
  | .adding (e :: adds) dels => some ⟨s.manager.addOne e, .adding adds dels⟩
  | .removing [] => some { s with stage := .finishing }
  | .removing (handle :: dels) => (s.manager.removeOne handle).map fun t => ⟨t, .removing dels⟩
  | .finishing => some ⟨s.manager.tickFinished, .idle⟩

/-- A step of `Tick`, or a step of somebody else. -/
inductive TickLabel where
  | tick
  | other (label : Label)

namespace Ticking

/-- One step; `Tick` is not called while it is running. -/
def step (s : Ticking) : TickLabel → Option Ticking
  | .tick => s.tick
  | .other .tick => none
  | .other label => (Task.step s.manager label).map fun t => { s with manager := t }

end Ticking

/-! ## A `Tick` that nobody interrupts -/

/-- The second part of a run of `Tick` steps follows on the first. -/
theorem exec_ticks {s t u : Ticking} {m n : Nat}
    (h : exec Ticking.step s (List.replicate m .tick) = some t)
    (h' : exec Ticking.step t (List.replicate n .tick) = some u) :
    exec Ticking.step s (List.replicate (m + n) .tick) = some u := by
  rw [← List.replicate_append_replicate]
  exact exec_append_eq_some.mpr ⟨t, h, h'⟩

theorem exec_tick {s t : Ticking} (h : s.tick = some t) :
    exec Ticking.step s (List.replicate 1 .tick) = some t :=
  exec_cons_eq_some.mpr ⟨t, h, rfl⟩

variable {s t : Manager}

/-- The workflows are added in batches until the queue is empty. -/
theorem exec_addingWorkflows (s : Manager) (adds : List Entry) (dels : List UInt32)
    (queue datas : List (UInt32 × Nat)) :
    ∃ n, exec Ticking.step
      ⟨{ s with queues.addWorkflows := queue, datas := datas }, .addingWorkflows adds dels⟩
      (List.replicate n .tick) =
        some ⟨{ s with queues.addWorkflows := [], datas := queue.foldl emplaceWorkflow datas },
          .releasingWorkflows adds dels⟩ := by
  induction hlength : queue.length using Nat.strong_induction_on generalizing queue datas with
  | _ length ih =>
      cases queue with
      | nil => exact ⟨1, exec_tick rfl⟩
      | cons added rest =>
          obtain ⟨n, hn⟩ := ih (rest.drop 4).length (by
            rw [List.length_cons] at hlength
            rw [List.length_drop]
            omega) (rest.drop 4) ((added :: rest.take 4).foldl emplaceWorkflow datas) rfl
          refine ⟨1 + n, exec_ticks (exec_tick rfl) ?_⟩
          rw [← List.foldl_append, List.cons_append, List.take_append_drop] at hn
          exact hn

/-- The workflows are released in batches until the queue is empty. -/
theorem exec_releasingWorkflows (s : Manager) (adds : List Entry) (dels : List UInt32)
    (queue : List UInt32) :
    ∃ n, exec Ticking.step
      ⟨{ s with queues.delWorkflows := queue }, .releasingWorkflows adds dels⟩
      (List.replicate n .tick) =
        some ⟨queue.foldl Manager.releaseOne { s with queues.delWorkflows := [] },
          .adding adds dels⟩ := by
  induction hlength : queue.length using Nat.strong_induction_on generalizing queue s with
  | _ length ih =>
      cases queue with
      | nil => exact ⟨1, exec_tick rfl⟩
      | cons released rest =>
          let q (queue : List UInt32) : Queues := { s.queues with delWorkflows := queue }
          have hbatch := foldl_releaseOne_queues s (q (rest.drop 4)) (released :: rest.take 4)
          have hnone := foldl_releaseOne_queues s (q []) (released :: rest.take 4)
          obtain ⟨n, hn⟩ := ih (rest.drop 4).length (by
            rw [List.length_cons] at hlength
            rw [List.length_drop]
            omega) { (released :: rest.take 4).foldl Manager.releaseOne s with queues := q [] }
            (rest.drop 4) rfl
          refine ⟨1 + n, exec_ticks (exec_tick rfl) ?_⟩
          have hall : (released :: rest).foldl Manager.releaseOne { s with queues := q [] } =
              (rest.drop 4).foldl Manager.releaseOne
                { (released :: rest.take 4).foldl Manager.releaseOne s with queues := q [] } := by
            rw [← hnone, ← List.foldl_append, List.cons_append, List.take_append_drop]
          show exec Ticking.step ⟨(released :: rest.take 4).foldl Manager.releaseOne
              { s with queues := q (rest.drop 4) }, .releasingWorkflows adds dels⟩ _ =
            some ⟨(released :: rest).foldl Manager.releaseOne { s with queues := q [] },
              .adding adds dels⟩
          rw [hbatch, hall]
          exact hn

/-- The requests to add tasks are served one by one. -/
theorem exec_adding (s : Manager) (adds : List Entry) (dels : List UInt32) :
    ∃ n, exec Ticking.step ⟨s, .adding adds dels⟩ (List.replicate n .tick) =
      some ⟨adds.foldl Manager.addOne s, .removing dels⟩ := by
  induction adds generalizing s with
  | nil => exact ⟨1, exec_tick rfl⟩
  | cons e adds ih =>
      obtain ⟨n, hn⟩ := ih (s.addOne e)
      exact ⟨1 + n, exec_ticks (exec_tick rfl) hn⟩

/-- The requests to remove tasks are served one by one. -/
theorem exec_removing {dels : List UInt32} (h : exec Manager.removeOne s dels = some t) :
    ∃ n, exec Ticking.step ⟨s, .removing dels⟩ (List.replicate n .tick) =
      some ⟨t, .finishing⟩ := by
  induction dels generalizing s with
  | nil =>
      cases h
      exact ⟨1, exec_tick rfl⟩
  | cons handle dels ih =>
      obtain ⟨u, hu, hrest⟩ := exec_cons_eq_some.mp h
      obtain ⟨n, hn⟩ := ih hrest
      refine ⟨1 + n, exec_ticks (exec_tick ?_) hn⟩
      show (s.removeOne handle).map (fun t => (⟨t, .removing dels⟩ : Ticking)) = _
      rw [hu]
      rfl

/-- A `Tick` that nobody interrupts does what `Manager.tick` does. -/
theorem tick_uninterrupted (h : s.tick = some t) :
    ∃ n, exec Ticking.step ⟨s, .idle⟩ (List.replicate n .tick) = some ⟨t, .idle⟩ := by
  obtain ⟨u, hu, rfl⟩ := Option.map_eq_some_iff.mp h
  let taken : Manager := { s with
    queues.syncAdd := s.queues.syncAdd.drop 100
    queues.syncDel := s.queues.syncDel.drop 100 }
  let adds := s.queues.syncAdd.take 100
  let dels := s.queues.syncDel.take 100
  have hbatches : exec Ticking.step ⟨s, .idle⟩ (List.replicate 2 .tick) =
      some ⟨taken, .addingWorkflows adds dels⟩ := rfl
  obtain ⟨i, hi⟩ := exec_addingWorkflows taken adds dels taken.queues.addWorkflows taken.datas
  obtain ⟨j, hj⟩ := exec_releasingWorkflows taken.takeWorkflows adds dels taken.queues.delWorkflows
  obtain ⟨k, hk⟩ := exec_adding (taken.queues.delWorkflows.foldl Manager.releaseOne
    { taken.takeWorkflows with queues.delWorkflows := [] }) adds dels
  obtain ⟨l, hl⟩ := exec_removing hu
  have hlast : exec Ticking.step ⟨u, .finishing⟩ (List.replicate 1 .tick) =
      some ⟨u.tickFinished, .idle⟩ := rfl
  exact ⟨_, exec_ticks hbatches (exec_ticks hi (exec_ticks hj (exec_ticks hk
    (exec_ticks hl hlast))))⟩

/-! ## What is done with requests to add tasks -/

/-- The task is registered with the manager and handed over to the workflow that it names. -/
def Manager.registered (s : Manager) (e : Entry) : Bool :=
  e ∈ s.registry && match (s.datas.lookup e.data.workflow).bind (s.objects[·]?) with
    | none => false
    | some w => e ∈ w.appendingAdd

/-- What is observed of a request that `Tick` serves: the task, whether its workflow is known,
whether its handle is taken by a task of the same type, and whether it is registered then. -/
structure Served where
  task : Nat
  known : Bool
  taken : Bool
  registered : Bool
  deriving DecidableEq, Repr

/-- The requests to add tasks that a step serves. -/
def Ticking.served (s : Ticking) : TickLabel → List Served
  | .tick =>
      match s.stage with
      | .adding (e :: _) _ =>
          [⟨e.data.task, (s.manager.datas.lookup e.data.workflow).isSome,
            e.key ∈ s.manager.registry.map Entry.key, (s.manager.addOne e).registered e⟩]
      | _ => []
  | .other _ => []

/-- A request whose workflow is there and whose handle is free registers its task. -/
theorem registered_addOne {e : Entry} {o : Nat} (hlookup : s.datas.lookup e.data.workflow = some o)
    (hobject : o < s.objects.length) (hkey : e.key ∉ s.registry.map Entry.key) :
    (s.addOne e).registered e = true := by
  have hadd : s.addOne e = { s with
      registry := s.registry ++ [e]
      objects := s.objects.modify o
        (fun w => { w with appendingAdd := w.appendingAdd ++ [e] }) } := by
    unfold Manager.addOne
    rw [hlookup]
    dsimp only
    rw [if_neg hkey]
  unfold Manager.registered
  rw [hadd]
  dsimp only
  rw [hlookup, Option.bind_some, List.getElem?_modify_eq, List.getElem?_eq_getElem hobject]
  simp

/-! ## Steps of the others -/

/-- What a step of somebody else does to what `Tick` reads. -/
structure Arrives (s : Manager) (label : Label) (t : Manager) : Prop where
  datas : t.datas = s.datas
  tasks : s.tasks ≤ t.tasks
  objects : s.objects.length ≤ t.objects.length
  announced : s.queues.addWorkflows ⊆ t.queues.addWorkflows
  placed : ∀ added ∈ t.queues.addWorkflows, added ∈ s.queues.addWorkflows ∨
    added.2 < t.objects.length
  released : ∀ handle ∈ t.queues.delWorkflows, handle ∈ s.queues.delWorkflows ∨
    label = .releaseWorkflow handle
  queued : s.queues.syncAdd ⊆ t.queues.syncAdd
  added : ∀ e ∈ t.queues.syncAdd, e ∈ s.queues.syncAdd ∨
    e.data.task = s.tasks ∧ t.tasks = s.tasks + 1

theorem Arrives.refl (s : Manager) (label : Label) : Arrives s label s where
  datas := rfl
  tasks := Nat.le_refl _
  objects := Nat.le_refl _
  announced := List.Subset.refl _
  placed := fun _ hmem => .inl hmem
  released := fun _ hmem => .inl hmem
  queued := List.Subset.refl _
  added := fun _ hmem => .inl hmem

theorem arrives_onWorkflow {o : Nat} {phase : Phase} {f : Workflow → Workflow}
    {finished : Workflow → List Entry} {calls : Workflow → List (Nat × Callback)} {label : Label}
    (h : s.onWorkflow o phase f finished calls = some t) : Arrives s label t := by
  obtain ⟨w, -, -, rfl⟩ := onWorkflow_eq_some h
  exact { Arrives.refl s label with
    objects := (List.length_modify f s.objects o).ge
    placed := fun _ hmem => .inl hmem }

theorem arrives_step {label : Label} (hlabel : label ≠ .tick) (h : step s label = some t) :
    Arrives s label t := by
  cases label with
  | tick => exact absurd rfl hlabel
  | newWorkflow now =>
      cases h
      have hlength : (s.newWorkflow now).objects.length = s.objects.length + 1 := List.length_append
      refine { Arrives.refl s (.newWorkflow now) with
        objects := ?_, announced := ?_, placed := ?_ }
      · exact hlength ▸ Nat.le_succ _
      · exact List.subset_append_left _ _
      · intro added hmem
        rcases List.mem_append.mp hmem with hmem | hmem
        · exact .inl hmem
        · cases List.mem_singleton.mp hmem
          exact .inr (hlength ▸ Nat.lt_succ_self _)
  | releaseWorkflow handle =>
      cases h
      unfold Manager.releaseWorkflow
      split
      · exact .refl s _
      · refine { Arrives.refl s (.releaseWorkflow handle) with released := ?_ }
        intro other hmem
        rcases List.mem_append.mp hmem with hmem | hmem
        · exact .inl hmem
        · exact .inr (List.mem_singleton.mp hmem ▸ rfl)
  | add call =>
      cases h
      refine { Arrives.refl s (.add call) with
        tasks := Nat.le_succ _, queued := ?_, added := ?_ }
      · exact List.subset_append_left _ _
      · intro e hmem
        rcases List.mem_append.mp hmem with hmem | hmem
        · exact .inl hmem
        · cases List.mem_singleton.mp hmem
          exact .inr ⟨newEntry_task s call, rfl⟩
  | removeTask handle =>
      cases h
      exact { Arrives.refl s (.removeTask handle) with }
  | shuffle queues =>
      obtain ⟨hshuffle, rfl⟩ := step_shuffle h
      exact { Arrives.refl s (.shuffle queues) with
        announced := hshuffle.2.2.2.1.subset
        placed := fun _ hmem => .inl (hshuffle.2.2.2.1.mem_iff.mpr hmem)
        released := fun _ hmem => .inl (hshuffle.2.2.2.2.mem_iff.mpr hmem)
        queued := hshuffle.1.subset
        added := fun _ hmem => .inl (hshuffle.1.mem_iff.mpr hmem) }
  | launch o => exact arrives_onWorkflow (step_launch h).2
  | addLoop o | delLoop o | run o now => exact arrives_onWorkflow h

/-! ## Steps of `Tick` -/

/-- What a step of `Tick` does to the workflows. -/
structure Advances (s t : Manager) : Prop where
  tasks : t.tasks = s.tasks
  objects : t.objects.length = s.objects.length
  datas : ∀ pair ∈ t.datas, pair ∈ s.datas ∨ pair ∈ s.queues.addWorkflows
  addWorkflows : t.queues.addWorkflows ⊆ s.queues.addWorkflows
  delWorkflows : t.queues.delWorkflows ⊆ s.queues.delWorkflows
  keeps : ∀ handle ∉ s.queues.delWorkflows, handle ∈ s.datas.map Prod.fst →
    handle ∈ t.datas.map Prod.fst
  announced : ∀ handle ∉ s.queues.delWorkflows, handle ∈ s.queues.addWorkflows.map Prod.fst →
    handle ∈ t.datas.map Prod.fst ∨ handle ∈ t.queues.addWorkflows.map Prod.fst

theorem Advances.refl (s : Manager) : Advances s s where
  tasks := rfl
  objects := rfl
  datas := fun _ hmem => .inl hmem
  addWorkflows := List.Subset.refl _
  delWorkflows := List.Subset.refl _
  keeps := fun _ _ hmem => hmem
  announced := fun _ _ hmem => .inr hmem

/-- The workflows of a batch are known behind it. -/
theorem mem_foldl_emplaceWorkflow (datas added : List (UInt32 × Nat)) :
    (∀ pair ∈ added.foldl emplaceWorkflow datas, pair ∈ datas ∨ pair ∈ added) ∧
      ∀ handle ∈ added.map Prod.fst, handle ∈ (added.foldl emplaceWorkflow datas).map Prod.fst := by
  induction added generalizing datas with
  | nil => exact ⟨fun pair hmem => .inl hmem, fun handle hmem => nomatch hmem⟩
  | cons first rest ih =>
      obtain ⟨hpairs, hhandles⟩ := ih (emplaceWorkflow datas first)
      constructor
      · intro pair hmem
        rcases hpairs pair hmem with hmem | hmem
        · unfold emplaceWorkflow at hmem
          split at hmem
          · exact .inl hmem
          · rw [List.mem_append, List.mem_singleton] at hmem
            rcases hmem with hmem | rfl
            · exact .inl hmem
            · exact .inr List.mem_cons_self
        · exact .inr (List.mem_cons_of_mem _ hmem)
      · intro handle hmem
        rw [List.map_cons, List.mem_cons] at hmem
        rcases hmem with rfl | hmem
        · have hfirst : first.1 ∈ (emplaceWorkflow datas first).map Prod.fst := by
            unfold emplaceWorkflow
            split
            · assumption
            · simp
          exact ((foldl_emplaceWorkflow _ rest).map Prod.fst).subset hfirst
        · exact hhandles handle hmem

/-- A handle that is not released stays a key. -/
theorem mem_keys_filter {datas : List (UInt32 × Nat)} {handle other : UInt32}
    (hne : other ≠ handle) (h : other ∈ datas.map Prod.fst) :
    other ∈ (datas.filter (·.1 ≠ handle)).map Prod.fst := by
  obtain ⟨pair, hmem, rfl⟩ := List.mem_map.mp h
  exact List.mem_map_of_mem (List.mem_filter.mpr ⟨hmem, by simpa using hne⟩)

/-- A release takes one workflow out. -/
theorem Advances.releaseOne {u : Manager} (h : Advances s u) {handle : UInt32}
    (hmem : handle ∈ s.queues.delWorkflows) : Advances s (u.releaseOne handle) := by
  have hne : ∀ other ∉ s.queues.delWorkflows, other ≠ handle := by
    rintro other hother rfl
    exact hother hmem
  unfold Manager.releaseOne
  split
  · exact h
  · refine { h with datas := ?_, keeps := ?_, announced := ?_ }
    · exact fun pair hpair => h.datas pair (List.mem_of_mem_filter hpair)
    · intro other hother hknown
      exact mem_keys_filter (hne other hother) (h.keeps other hother hknown)
    · intro other hother hqueued
      exact (h.announced other hother hqueued).imp_left (mem_keys_filter (hne other hother))

theorem Advances.releases {u : Manager} (h : Advances s u) {handles : List UInt32}
    (hsub : handles ⊆ s.queues.delWorkflows) :
    Advances s (handles.foldl Manager.releaseOne u) :=
  List.foldlRecOn (motive := Advances s) _ _ h fun _ hu _ hmem => hu.releaseOne (hsub hmem)

theorem advances_addOne (s : Manager) (e : Entry) : Advances s (s.addOne e) := by
  unfold Manager.addOne
  split
  · exact .refl s
  · split
    · exact .refl s
    · exact { Advances.refl s with objects := List.length_modify _ _ _ }

theorem advances_removeOne {handle : UInt32} (h : s.removeOne handle = some t) :
    Advances s t := by
  rcases removeOne_cases h with rfl | ⟨e, o, -, -, rfl⟩
  · exact .refl _
  · exact { Advances.refl s with objects := List.length_modify _ _ _ }

theorem advances_finished (s : Manager) : Advances s s.tickFinished := by
  rw [tickFinished_eq]
  refine iterate_preserves (P := Advances s) (fun u hu => ?_) (.refl s) _
  rcases popFinished_cases u with heq | ⟨e, rest, -, heq | heq⟩
  · rwa [heq]
  · rw [heq]
    exact { hu with }
  · rw [heq]
    exact { hu with }

theorem advances_adding (s : Manager) :
    Advances s { s with
      queues.addWorkflows := s.queues.addWorkflows.drop 5
      datas := (s.queues.addWorkflows.take 5).foldl emplaceWorkflow s.datas } := by
  obtain ⟨hpairs, hhandles⟩ := mem_foldl_emplaceWorkflow s.datas (s.queues.addWorkflows.take 5)
  refine { Advances.refl s with
    datas := fun pair hmem => (hpairs pair hmem).imp_right List.mem_of_mem_take
    addWorkflows := List.drop_subset 5 _
    keeps := fun handle _ hmem => ((foldl_emplaceWorkflow _ _).map Prod.fst).subset hmem
    announced := fun handle _ hmem => ?_ }
  rw [← List.take_append_drop 5 s.queues.addWorkflows, List.map_append, List.mem_append] at hmem
  exact hmem.imp_left (hhandles handle)

/-- The entries of requests to add tasks that are not served. -/
def Ticking.requests (s : Ticking) : List Entry := s.manager.queues.syncAdd ++ s.stage.adds

/-- What a step of `Tick` does to the requests that it has taken or takes: only the first of the
batch is served, and the service does not begin before the queue of new workflows was empty. -/
structure Progresses (s t : Ticking) : Prop where
  advances : Advances s.manager t.manager
  requests : t.requests ⊆ s.requests
  served : ∀ e ∈ s.requests, e ∈ t.requests ∨ ∃ adds dels, s.stage = .adding (e :: adds) dels
  ready : ∀ adds dels, t.stage = .releasingWorkflows adds dels ∨ t.stage = .adding adds dels →
    s.manager.queues.addWorkflows = [] ∨ ∃ adds' dels', adds ⊆ adds' ∧
      (s.stage = .releasingWorkflows adds' dels' ∨ s.stage = .adding adds' dels')

/-- A step that leaves the requests alone. -/
theorem Progresses.quiet {s t : Ticking} (hadvances : Advances s.manager t.manager)
    (hqueue : t.manager.queues.syncAdd = s.manager.queues.syncAdd)
    (hstage : t.stage.adds = s.stage.adds)
    (hready : ∀ adds dels, t.stage = .releasingWorkflows adds dels ∨ t.stage = .adding adds dels →
      s.manager.queues.addWorkflows = [] ∨
        s.stage = .releasingWorkflows adds dels ∨ s.stage = .adding adds dels) :
    Progresses s t := by
  have hrequests : t.requests = s.requests := by
    unfold Ticking.requests
    rw [hqueue, hstage]
  refine ⟨hadvances, hrequests ▸ List.Subset.refl _, fun e hmem => .inl (hrequests ▸ hmem),
    fun adds dels hkind => ?_⟩
  exact (hready adds dels hkind).imp_right fun hsame => ⟨adds, dels, List.Subset.refl _, hsame⟩

theorem tick_addingWorkflows (m : Manager) (adds : List Entry) (dels : List UInt32) :
    Ticking.tick ⟨m, .addingWorkflows adds dels⟩ =
      if m.queues.addWorkflows = [] then some ⟨m, .releasingWorkflows adds dels⟩
      else
        some ⟨{ m with
          queues.addWorkflows := m.queues.addWorkflows.drop 5
          datas := (m.queues.addWorkflows.take 5).foldl emplaceWorkflow m.datas },
          .addingWorkflows adds dels⟩ := by
  unfold Ticking.tick
  dsimp only
  cases m.queues.addWorkflows with
  | nil => rfl
  | cons added rest => rfl

theorem tick_releasingWorkflows (m : Manager) (adds : List Entry) (dels : List UInt32) :
    Ticking.tick ⟨m, .releasingWorkflows adds dels⟩ =
      if m.queues.delWorkflows = [] then some ⟨m, .adding adds dels⟩
      else
        some ⟨(m.queues.delWorkflows.take 5).foldl Manager.releaseOne
          { m with queues.delWorkflows := m.queues.delWorkflows.drop 5 },
          .releasingWorkflows adds dels⟩ := by
  unfold Ticking.tick
  dsimp only
  cases m.queues.delWorkflows with
  | nil => rfl
  | cons released rest => rfl

theorem progresses_addingWorkflows {m : Manager} {adds : List Entry} {dels : List UInt32}
    {t : Ticking} (h : Ticking.tick ⟨m, .addingWorkflows adds dels⟩ = some t) :
    Progresses ⟨m, .addingWorkflows adds dels⟩ t := by
  rw [tick_addingWorkflows] at h
  split at h
  · rename_i hqueue
    cases h
    exact .quiet (.refl m) rfl rfl fun _ _ _ => .inl hqueue
  · cases h
    refine .quiet (advances_adding m) rfl rfl fun adds' dels' hkind => ?_
    simp at hkind

theorem progresses_releasingWorkflows {m : Manager} {adds : List Entry} {dels : List UInt32}
    {t : Ticking} (h : Ticking.tick ⟨m, .releasingWorkflows adds dels⟩ = some t) :
    Progresses ⟨m, .releasingWorkflows adds dels⟩ t := by
  rw [tick_releasingWorkflows] at h
  split at h
  · cases h
    refine .quiet (.refl m) rfl rfl fun adds' dels' hkind => .inr (.inl ?_)
    simpa [eq_comm] using hkind
  · cases h
    have hstart : Advances m { m with
        queues.delWorkflows := m.queues.delWorkflows.drop 5 } :=
      { Advances.refl m with delWorkflows := List.drop_subset 5 _ }
    have hqueues := foldl_releaseOne_queues m
      { m.queues with delWorkflows := m.queues.delWorkflows.drop 5 }
      (m.queues.delWorkflows.take 5)
    refine .quiet (hstart.releases (List.take_subset 5 _)) ?_ rfl fun _ _ hkind => .inr hkind
    have hsync := congrArg (fun u : Manager => u.queues.syncAdd) hqueues
    exact hsync

theorem queues_addOne (m : Manager) (e : Entry) : (m.addOne e).queues = m.queues := by
  have hqueues := congrArg (fun u : Manager => u.queues) (addOne_queues m m.queues e)
  exact hqueues

/-- The first request of the batch is served. -/
theorem progresses_addOne (m : Manager) (e : Entry) (adds : List Entry) (dels : List UInt32) :
    Progresses ⟨m, .adding (e :: adds) dels⟩ ⟨m.addOne e, .adding adds dels⟩ := by
  refine ⟨advances_addOne m e, ?_, ?_, ?_⟩
  · show (m.addOne e).queues.syncAdd ++ adds ⊆ m.queues.syncAdd ++ (e :: adds)
    rw [queues_addOne]
    exact List.append_subset.mpr ⟨List.subset_append_left _ _,
      List.Subset.trans (List.subset_cons_self e adds) (List.subset_append_right _ _)⟩
  · intro e' hmem
    have hmem : e' ∈ m.queues.syncAdd ++ (e :: adds) := hmem
    show e' ∈ (m.addOne e).queues.syncAdd ++ adds ∨ _
    rw [queues_addOne]
    simp only [List.mem_append, List.mem_cons] at hmem ⊢
    rcases hmem with hmem | rfl | hmem
    · exact .inl (.inl hmem)
    · exact .inr ⟨adds, dels, rfl⟩
    · exact .inl (.inr hmem)
  · intro adds' dels' hkind
    refine .inr ⟨e :: adds, dels, ?_, .inr rfl⟩
    simp only [reduceCtorEq, Stage.adding.injEq, false_or] at hkind
    exact hkind.1 ▸ List.subset_cons_self e adds

theorem progresses_finishing (m : Manager) :
    Progresses ⟨m, .finishing⟩ ⟨m.tickFinished, .idle⟩ := by
  refine .quiet (advances_finished m) ?_ rfl fun adds' dels' hkind => ?_
  · rw [tickFinished_eq]
    refine iterate_preserves (P := fun u => u.queues.syncAdd = m.queues.syncAdd)
      (fun u hu => ?_) rfl _
    rcases popFinished_cases u with heq | ⟨e, rest, -, heq | heq⟩ <;> rwa [heq]
  · simp at hkind

theorem progresses_tick {s t : Ticking} (h : s.tick = some t) : Progresses s t := by
  obtain ⟨m, stage⟩ := s
  cases stage with
  | idle =>
      cases h
      have hall : (m.queues.syncAdd.drop 100 ++ m.queues.syncAdd.take 100).Perm
          (m.queues.syncAdd ++ []) := by
        rw [List.append_nil]
        exact List.perm_append_comm.trans (.of_eq (List.take_append_drop _ _))
      refine ⟨{ Advances.refl m with }, hall.subset, fun e hmem => .inl (hall.symm.subset hmem), ?_⟩
      intro adds dels hkind
      simp at hkind
  | taking adds =>
      cases h
      refine .quiet { Advances.refl m with } rfl rfl fun adds' dels' hkind => ?_
      simp at hkind
  | addingWorkflows adds dels => exact progresses_addingWorkflows h
  | releasingWorkflows adds dels => exact progresses_releasingWorkflows h
  | adding adds dels =>
      cases adds with
      | nil =>
          cases h
          refine .quiet (.refl m) rfl rfl fun adds' dels' hkind => ?_
          simp at hkind
      | cons e adds =>
          cases h
          exact progresses_addOne m e adds dels
  | removing dels =>
      cases dels with
      | nil =>
          cases h
          refine .quiet (.refl m) rfl rfl fun adds' dels' hkind => ?_
          simp at hkind
      | cons handle dels =>
          obtain ⟨u, hu, rfl⟩ := Option.map_eq_some_iff.mp h
          refine .quiet (advances_removeOne hu) ?_ rfl fun adds' dels' hkind => ?_
          · exact congrArg Queues.syncAdd (removeOne_queues hu)
          · simp at hkind
  | finishing =>
      cases h
      exact progresses_finishing m

/-! ## No early drop -/

/-- What holds in every run: the workflow objects exist, and the requests and the served ones are
of tasks that were added. -/
structure Sound (seen : List Served) (s : Ticking) : Prop where
  datas : ∀ pair ∈ s.manager.datas, pair.2 < s.manager.objects.length
  queued : ∀ pair ∈ s.manager.queues.addWorkflows, pair.2 < s.manager.objects.length
  requests : ∀ e ∈ s.requests, e.data.task < s.manager.tasks
  seen : ∀ served ∈ seen, served.task < s.manager.tasks

variable {seen : List Served}

/-- A step of somebody else is a step of the manager. -/
theorem other_step {s t : Ticking} {label : Label} (h : s.step (.other label) = some t) :
    label ≠ .tick ∧ t.stage = s.stage ∧ Task.step s.manager label = some t.manager := by
  have hne : label ≠ .tick := by
    rintro rfl
    cases h
  have h : (Task.step s.manager label).map (fun m => { s with manager := m }) = some t := by
    cases label with
    | tick => exact absurd rfl hne
    | _ => exact h
  obtain ⟨m, hm, rfl⟩ := Option.map_eq_some_iff.mp h
  exact ⟨hne, rfl, hm⟩

/-- The task of a served request was the first of the batch. -/
theorem served_cases {s : Ticking} {label : TickLabel} {served : Served}
    (h : served ∈ s.served label) : ∃ e adds dels, label = .tick ∧
      s.stage = .adding (e :: adds) dels ∧
      served = ⟨e.data.task, (s.manager.datas.lookup e.data.workflow).isSome,
        e.key ∈ s.manager.registry.map Entry.key, (s.manager.addOne e).registered e⟩ := by
  cases label with
  | other label => cases h
  | tick =>
      unfold Ticking.served at h
      dsimp only at h
      split at h
      · rename_i e adds dels hstage
        exact ⟨e, adds, dels, rfl, hstage, List.mem_singleton.mp h⟩
      · cases h

theorem mem_requests_of_adding {s : Ticking} {e : Entry} {adds : List Entry} {dels : List UInt32}
    (h : s.stage = .adding (e :: adds) dels) : e ∈ s.requests := by
  unfold Ticking.requests
  rw [h]
  exact List.mem_append_right _ List.mem_cons_self

theorem Sound.step {s t : Ticking} (h : Sound seen s) {label : TickLabel}
    (hstep : s.step label = some t) : Sound (seen ++ s.served label) t := by
  have hserved : ∀ served ∈ seen ++ s.served label, served.task < s.manager.tasks := by
    intro served hmem
    rcases List.mem_append.mp hmem with hmem | hmem
    · exact h.seen served hmem
    · obtain ⟨e, adds, dels, -, hstage, rfl⟩ := served_cases hmem
      exact h.requests e (mem_requests_of_adding hstage)
  cases label with
  | tick =>
      have hprogress := progresses_tick hstep
      have hadvances := hprogress.advances
      refine ⟨fun pair hmem => ?_, fun pair hmem => ?_, fun e hmem => ?_, ?_⟩
      · rw [hadvances.objects]
        exact (hadvances.datas pair hmem).elim (h.datas pair) (h.queued pair)
      · rw [hadvances.objects]
        exact h.queued pair (hadvances.addWorkflows hmem)
      · rw [hadvances.tasks]
        exact h.requests e (hprogress.requests hmem)
      · rw [hadvances.tasks]
        exact hserved
  | other label =>
      obtain ⟨hne, hstage, hmanager⟩ := other_step hstep
      have harrives := arrives_step hne hmanager
      refine ⟨fun pair hmem => ?_, fun pair hmem => ?_, fun e hmem => ?_, fun served hmem => ?_⟩
      · rw [harrives.datas] at hmem
        exact (h.datas pair hmem).trans_le harrives.objects
      · exact (harrives.placed pair hmem).elim
          (fun hmem => (h.queued pair hmem).trans_le harrives.objects) id
      · rcases List.mem_append.mp hmem with hmem | hmem
        · rcases harrives.added e hmem with hmem | ⟨htask, htasks⟩
          · exact (h.requests e (List.mem_append_left _ hmem)).trans_le harrives.tasks
          · omega
        · rw [hstage] at hmem
          exact (h.requests e (List.mem_append_right _ hmem)).trans_le harrives.tasks
      · exact (hserved served hmem).trans_le harrives.tasks

theorem sound_init : Sound [] .init where
  datas := by decide
  queued := fun _ hmem => nomatch hmem
  requests := fun _ hmem => nomatch hmem
  seen := fun _ hmem => nomatch hmem

/-- A workflow that `NewWorkflow` has returned and nobody releases is known or announced. -/
structure Announced (handle : UInt32) (s : Ticking) : Prop where
  known : handle ∈ s.manager.datas.map Prod.fst ∨
    handle ∈ s.manager.queues.addWorkflows.map Prod.fst
  unreleased : handle ∉ s.manager.queues.delWorkflows

theorem unreleased_step {s t : Ticking} {handle : UInt32} {label : TickLabel}
    (h : handle ∉ s.manager.queues.delWorkflows) (hok : label ≠ .other (.releaseWorkflow handle))
    (hstep : s.step label = some t) : handle ∉ t.manager.queues.delWorkflows := by
  intro hmem
  cases label with
  | tick => exact h ((progresses_tick hstep).advances.delWorkflows hmem)
  | other label =>
      obtain ⟨hne, -, hmanager⟩ := other_step hstep
      rcases (arrives_step hne hmanager).released handle hmem with hmem | rfl
      · exact h hmem
      · exact hok rfl

theorem Announced.step {s t : Ticking} {handle : UInt32} (h : Announced handle s)
    {label : TickLabel} (hok : label ≠ .other (.releaseWorkflow handle))
    (hstep : s.step label = some t) : Announced handle t := by
  refine ⟨?_, unreleased_step h.unreleased hok hstep⟩
  cases label with
  | tick =>
      have hadvances := (progresses_tick hstep).advances
      rcases h.known with hmem | hmem
      · exact .inl (hadvances.keeps handle h.unreleased hmem)
      · exact hadvances.announced handle h.unreleased hmem
  | other label =>
      obtain ⟨hne, -, hmanager⟩ := other_step hstep
      have harrives := arrives_step hne hmanager
      rw [harrives.datas]
      exact h.known.imp_right fun hmem => List.map_subset Prod.fst harrives.announced hmem

/-- A task that was added for an announced workflow: its request waits or was served well, and
when it is about to be served the workflow is known. -/
structure Awaited (handle : UInt32) (task : Nat) (seen : List Served) (s : Ticking) : Prop where
  sound : Sound seen s
  announced : Announced handle s
  drawn : task < s.manager.tasks
  own : ∀ e ∈ s.requests, e.data.task = task → e.data.workflow = handle
  ready : ∀ adds dels, s.stage = .releasingWorkflows adds dels ∨ s.stage = .adding adds dels →
    (∃ e ∈ adds, e.data.task = task) → handle ∈ s.manager.datas.map Prod.fst
  kept : (∃ e ∈ s.requests, e.data.task = task) ∨ ∃ served ∈ seen, served.task = task
  served : ∀ served ∈ seen, served.task = task →
    served.known = true ∧ (served.taken = true ∨ served.registered = true)

variable {handle : UInt32} {task : Nat}

/-- What is found under a handle is a workflow object. -/
theorem mem_of_lookup_eq_some {datas : List (UInt32 × Nat)} {o : Nat}
    (h : datas.lookup handle = some o) : (handle, o) ∈ datas := by
  obtain ⟨first, second, rfl, -⟩ := List.lookup_eq_some_iff.mp h
  exact List.mem_append_right _ List.mem_cons_self

/-- The service of the task's request. -/
theorem Awaited.serves {s : Ticking} (h : Awaited handle task seen s) {label : TickLabel} :
    ∀ served ∈ s.served label, served.task = task →
      served.known = true ∧ (served.taken = true ∨ served.registered = true) := by
  intro served hmem hof
  obtain ⟨e, adds, dels, -, hstage, rfl⟩ := served_cases hmem
  have hworkflow := h.own e (mem_requests_of_adding hstage) hof
  have hknown := h.ready _ _ (.inr hstage) ⟨e, List.mem_cons_self, hof⟩
  obtain ⟨o, hlookup⟩ := exists_lookup hknown
  have hobject := h.sound.datas _ (mem_of_lookup_eq_some hlookup)
  rw [← hworkflow] at hlookup
  refine ⟨Option.isSome_iff_exists.mpr ⟨o, hlookup⟩, ?_⟩
  by_cases hkey : e.key ∈ s.manager.registry.map Entry.key
  · exact .inl (decide_eq_true hkey)
  · exact .inr (registered_addOne hlookup hobject hkey)

theorem Awaited.step {s t : Ticking} (h : Awaited handle task seen s) {label : TickLabel}
    (hok : label ≠ .other (.releaseWorkflow handle)) (hstep : s.step label = some t) :
    Awaited handle task (seen ++ s.served label) t := by
  have hserved : ∀ served ∈ seen ++ s.served label, served.task = task →
      served.known = true ∧ (served.taken = true ∨ served.registered = true) := by
    intro served hmem
    rcases List.mem_append.mp hmem with hmem | hmem
    · exact h.served served hmem
    · exact h.serves served hmem
  cases label with
  | tick =>
      have hprogress := progresses_tick hstep
      have hadvances := hprogress.advances
      refine ⟨h.sound.step hstep, h.announced.step hok hstep, hadvances.tasks ▸ h.drawn,
        fun e hmem => h.own e (hprogress.requests hmem), ?_, ?_, hserved⟩
      · intro adds dels hkind hfound
        apply hadvances.keeps handle h.announced.unreleased
        rcases hprogress.ready adds dels hkind with hempty | ⟨adds', dels', hsub, hkind'⟩
        · -- `Tick` has found the queue of new workflows empty.
          refine h.announced.known.resolve_right fun hmem => ?_
          rw [hempty] at hmem
          cases hmem
        · obtain ⟨e, hmem, hof⟩ := hfound
          exact h.ready adds' dels' hkind' ⟨e, hsub hmem, hof⟩
      · rcases h.kept with ⟨e, hmem, hof⟩ | ⟨served, hmem, hof⟩
        · rcases hprogress.served e hmem with hmem | ⟨adds, dels, hstage⟩
          · exact .inl ⟨e, hmem, hof⟩
          · refine .inr ⟨⟨e.data.task, (s.manager.datas.lookup e.data.workflow).isSome,
              e.key ∈ s.manager.registry.map Entry.key, (s.manager.addOne e).registered e⟩,
              List.mem_append_right _ ?_, hof⟩
            unfold Ticking.served
            rw [hstage]
            exact List.mem_singleton_self _
        · exact .inr ⟨served, List.mem_append_left _ hmem, hof⟩
  | other label =>
      obtain ⟨hne, hstage, hmanager⟩ := other_step hstep
      have harrives := arrives_step hne hmanager
      refine ⟨h.sound.step hstep, h.announced.step hok hstep, h.drawn.trans_le harrives.tasks,
        fun e hmem hof => ?_, ?_, ?_, hserved⟩
      · rcases List.mem_append.mp hmem with hmem | hmem
        · rcases harrives.added e hmem with hmem | ⟨htask, -⟩
          · exact h.own e (List.mem_append_left _ hmem) hof
          · exact absurd (hof.symm.trans htask) h.drawn.ne
        · rw [hstage] at hmem
          exact h.own e (List.mem_append_right _ hmem) hof
      · rw [hstage, harrives.datas]
        exact h.ready
      · have hrequests : s.requests ⊆ t.requests := by
          unfold Ticking.requests
          rw [hstage]
          exact List.append_subset.mpr ⟨List.Subset.trans harrives.queued
            (List.subset_append_left _ _), List.subset_append_right _ _⟩
        rcases h.kept with ⟨e, hmem, hof⟩ | ⟨served, hmem, hof⟩
        · exact .inl ⟨e, hrequests hmem, hof⟩
        · exact .inr ⟨served, List.mem_append_left _ hmem, hof⟩

/-- The workflow handle that a call names. -/
def AddCall.workflow : AddCall → UInt32
  | .addCancelableTask handle | .addTick handle | .addTimer handle _ _ | .addTaskNoReturn handle =>
      handle

/-- A run in which `NewWorkflow` returns a handle, then a task is added for it, and nobody
releases the handle: `s` is the state of the `NewWorkflow` call, `u` that of the `Add` call. -/
structure AddedRun (before middle after : List TickLabel) (now : Int) (call : AddCall)
    (s u t : Ticking) : Prop where
  announces : exec Ticking.step .init before = some s
  adds : exec Ticking.step { s with manager := s.manager.newWorkflow now } middle = some u
  names : call.workflow = (drawID s.manager.workflowCount).1
  ends : exec Ticking.step { u with manager := u.manager.add call } after = some t
  unreleased : ∀ label ∈ before ++ (middle ++ after),
    label ≠ .other (.releaseWorkflow call.workflow)

/-- The requests to add tasks that are served in such a run. -/
def addedServed (before middle after : List TickLabel) (now : Int) (call : AddCall) :
    List Served :=
  trace Ticking.step Ticking.served .init
    (before ++ .other (.newWorkflow now) :: (middle ++ .other (.add call) :: after))

/-- The task still waits for its `Tick` or was served; and when it was served, its workflow was
known and it was registered, unless its handle was taken. -/
def NotDropped (task : Nat) (served : List Served) (t : Ticking) : Prop :=
  ((∃ e ∈ t.requests, e.data.task = task) ∨ ∃ request ∈ served, request.task = task) ∧
  ∀ request ∈ served, request.task = task →
    request.known = true ∧ (request.taken = true ∨ request.registered = true)

/-- The handle that `NewWorkflow` returns is announced. -/
theorem announced_newWorkflow {s : Ticking} (now : Int)
    (h : (drawID s.manager.workflowCount).1 ∉ s.manager.queues.delWorkflows) :
    Announced (drawID s.manager.workflowCount).1
      { s with manager := s.manager.newWorkflow now } := by
  refine ⟨.inr ?_, h⟩
  show _ ∈ (s.manager.queues.addWorkflows ++ [_]).map Prod.fst
  rw [List.map_append]
  exact List.mem_append_right _ (List.mem_singleton_self _)

/-- The task of an `Add` call waits. -/
theorem awaited_add {s : Ticking} {call : AddCall} (hsound : Sound seen s)
    (hannounced : Announced call.workflow s) :
    Awaited call.workflow s.manager.tasks seen { s with manager := s.manager.add call } := by
  have hadd : s.step (.other (.add call)) = some { s with manager := s.manager.add call } := rfl
  have hsound' := hsound.step hadd
  have hnone : seen ++ s.served (.other (.add call)) = seen := List.append_nil seen
  rw [hnone] at hsound'
  have hworkflow : (s.manager.newEntry call).data.workflow = call.workflow := by cases call <;> rfl
  refine ⟨hsound', hannounced.step (by simp) hadd, Nat.lt_succ_self _, ?_, ?_, ?_, ?_⟩
  · intro e hmem hof
    have hmem : e ∈ (s.manager.queues.syncAdd ++ [s.manager.newEntry call]) ++ s.stage.adds := hmem
    simp only [List.mem_append, List.mem_singleton] at hmem
    rcases hmem with (hmem | rfl) | hmem
    · exact absurd hof (hsound.requests e (List.mem_append_left _ hmem)).ne
    · exact hworkflow
    · exact absurd hof (hsound.requests e (List.mem_append_right _ hmem)).ne
  · rintro adds dels hkind ⟨e, hmem, hof⟩
    have hstage : s.stage.adds = adds := by
      rcases hkind with hkind | hkind
      · exact congrArg Stage.adds hkind
      · exact congrArg Stage.adds hkind
    rw [← hstage] at hmem
    exact absurd hof (hsound.requests e (List.mem_append_right _ hmem)).ne
  · refine .inl ⟨s.manager.newEntry call, ?_, newEntry_task _ _⟩
    exact List.mem_append_left _ (List.mem_append_right _ (List.mem_singleton_self _))
  · exact fun served hmem hof => absurd hof (hsound.seen served hmem).ne

/-- What holds at the end of a run that does not release the handle. -/
theorem sound_run {labels : List TickLabel} {s : Ticking}
    (hok : ∀ label ∈ labels, label ≠ .other (.releaseWorkflow handle))
    (hrun : exec Ticking.step .init labels = some s) :
    Sound (trace Ticking.step Ticking.served .init labels) s ∧
      handle ∉ s.manager.queues.delWorkflows := by
  refine @trace_invariant _ _ _ _ _ _
    (fun seen r => Sound seen r ∧ handle ∉ r.manager.queues.delWorkflows)
    (fun seen r label v hr hlabel hstep => ?_) [] _ _ _ ⟨sound_init, fun hmem => nomatch hmem⟩
    (guarded_of_mem hok _) hrun
  exact ⟨hr.1.step hstep, unreleased_step hr.2 hlabel hstep⟩

theorem Announced.run {labels : List TickLabel} {s t : Ticking} (hsound : Sound seen s)
    (h : Announced handle s) (hok : ∀ label ∈ labels, label ≠ .other (.releaseWorkflow handle))
    (hrun : exec Ticking.step s labels = some t) :
    Sound (seen ++ trace Ticking.step Ticking.served s labels) t ∧ Announced handle t := by
  refine @trace_invariant _ _ _ _ _ _ (fun seen r => Sound seen r ∧ Announced handle r)
    (fun seen r label v hr hlabel hstep => ?_) _ _ _ _ ⟨hsound, h⟩ (guarded_of_mem hok _) hrun
  exact ⟨hr.1.step hstep, hr.2.step hlabel hstep⟩

theorem Awaited.run {labels : List TickLabel} {s t : Ticking} (h : Awaited handle task seen s)
    (hok : ∀ label ∈ labels, label ≠ .other (.releaseWorkflow handle))
    (hrun : exec Ticking.step s labels = some t) :
    Awaited handle task (seen ++ trace Ticking.step Ticking.served s labels) t :=
  trace_invariant (fun _ _ _ _ hr hlabel hstep => hr.step hlabel hstep) h (guarded_of_mem hok _)
    hrun

/-- A task that is added for a workflow that `NewWorkflow` has returned and that nobody releases is
not dropped, whatever producers and workflow threads do between the steps of `Tick`. -/
theorem no_early_drop (before middle after : List TickLabel) (now : Int) (call : AddCall)
    {s u t : Ticking} (h : AddedRun before middle after now call s u t) :
    NotDropped u.manager.tasks (addedServed before middle after now call) t := by
  have hunreleased := h.unreleased
  simp only [List.mem_append] at hunreleased
  obtain ⟨hsound, hdel⟩ := sound_run (fun label hmem => hunreleased label (.inl hmem)) h.announces
  have hnew : s.step (.other (.newWorkflow now)) =
      some { s with manager := s.manager.newWorkflow now } := rfl
  have hadd : u.step (.other (.add call)) = some { u with manager := u.manager.add call } := rfl
  have hannounced := announced_newWorkflow now (h.names ▸ hdel)
  rw [← h.names] at hannounced
  have hsound' := hsound.step hnew
  obtain ⟨hsound₂, hannounced₂⟩ := hannounced.run hsound'
    (fun label hmem => hunreleased label (.inr (.inl hmem))) h.adds
  have hawaited := (awaited_add hsound₂ hannounced₂).run
    (fun label hmem => hunreleased label (.inr (.inr hmem))) h.ends
  have hserved : addedServed before middle after now call =
      trace Ticking.step Ticking.served .init before ++ s.served (.other (.newWorkflow now)) ++
        trace Ticking.step Ticking.served { s with manager := s.manager.newWorkflow now } middle ++
        trace Ticking.step Ticking.served { u with manager := u.manager.add call } after := by
    unfold addedServed
    rw [trace_append h.announces, trace_cons hnew, trace_append h.adds, trace_cons hadd]
    simp only [List.append_assoc]
    rfl
  rw [← hserved] at hawaited
  exact ⟨hawaited.kept, hawaited.served⟩

/-- `NewWorkflow` and `AddTick` come when a `Tick` has passed the queue of new workflows; the next
`Tick` takes both and registers the task. -/
theorem no_early_drop_between : ∃ s u t,
    AddedRun (List.replicate 3 .tick) [] (List.replicate 10 .tick) 0 (.addTick 1) s u t ∧
    addedServed (List.replicate 3 .tick) [] (List.replicate 10 .tick) 0 (.addTick 1) =
      [⟨0, true, false, true⟩] ∧
    NotDropped 0 (addedServed (List.replicate 3 .tick) [] (List.replicate 10 .tick) 0
      (.addTick 1)) t := by
  have hrun : ∃ s u t, AddedRun (List.replicate 3 .tick) [] (List.replicate 10 .tick) 0
      (.addTick 1) s u t ∧ u.manager.tasks = 0 := by
    refine ⟨_, _, _, ⟨rfl, rfl, rfl, rfl, ?_⟩, rfl⟩
    intro label hmem
    simp only [List.nil_append, List.mem_append, List.mem_replicate] at hmem
    rcases hmem with ⟨-, rfl⟩ | ⟨-, rfl⟩ <;> simp
  obtain ⟨s, u, t, hrun, htasks⟩ := hrun
  exact ⟨s, u, t, hrun, by decide, htasks ▸ no_early_drop _ _ _ _ _ hrun⟩

/-! ## A handle that is taken -/

/-- A tick task for a workflow that does not exist, and the `Tick` that drops it. -/
def droppedTask : List TickLabel := .other (.add (.addTick 9)) :: List.replicate 8 .tick

/-- A tick task is registered with workflow 1; the counters of tasks are the given ones. -/
def oneTask (taskCount : UInt32) (tasks : Nat) : Ticking where
  manager :=
    { Manager.init with
      taskCount := taskCount
      tasks := tasks
      workflowCount := 2
      datas := [(nullCommonHandleID, 0), (0, 1), (1, 2)]
      objects := [{}, {}, { appendingAdd := [⟨0, ⟨.tick, 1, 0, 0, 0⟩⟩] }]
      registry := [⟨0, ⟨.tick, 1, 0, 0, 0⟩⟩] }
  stage := .idle

theorem exec_droppedTask (taskCount : UInt32) (tasks : Nat) :
    exec Ticking.step (oneTask taskCount tasks) droppedTask =
      some (oneTask (drawID taskCount).2 (tasks + 1)) := rfl

/-- Dropped tasks leave nothing behind but the counters. -/
theorem exec_droppedTasks (n : Nat) (taskCount : UInt32) (tasks : Nat) :
    exec Ticking.step (oneTask taskCount tasks) (List.replicate n droppedTask).flatten =
      some (oneTask ((fun count => (drawID count).2)^[n] taskCount) (tasks + n)) := by
  induction n generalizing taskCount tasks with
  | zero => rfl
  | succ n ih =>
      rw [List.replicate_succ, List.flatten_cons, exec_append_eq_some]
      refine ⟨_, exec_droppedTask taskCount tasks, ?_⟩
      rw [ih, Function.iterate_succ_apply, Nat.add_right_comm]
      rfl

/-- The counter of handles counts up to the null handle. -/
theorem drawID_iterate {n : Nat} (h : n + 1 < 2 ^ 32) :
    ((fun count => (drawID count).2)^[n] 1).toNat = n + 1 := by
  induction n with
  | zero => rfl
  | succ n ih =>
      have hcount := ih (by omega)
      rw [Function.iterate_succ_apply', (drawID_counted _ (by omega)).2, hcount]

/-- `2 ^ 32 - 2` dropped tasks later the counter is at the null handle. -/
theorem exec_wrap : exec Ticking.step (oneTask 1 1)
    (List.replicate (2 ^ 32 - 2) droppedTask).flatten =
      some (oneTask nullCommonHandleID (1 + (2 ^ 32 - 2))) := by
  have hcount : (fun count => (drawID count).2)^[2 ^ 32 - 2] 1 = nullCommonHandleID := by
    apply UInt32.toNat_inj.mp
    rw [drawID_iterate (by omega)]
    rfl
  rw [exec_droppedTasks, hcount]

/-- A task that is not in the manager's maps is not registered. -/
theorem registered_eq_false {e : Entry} (h : e ∉ s.registry) : s.registered e = false := by
  unfold Manager.registered
  rw [decide_eq_false h, Bool.false_and]

/-- The next tick task of workflow 1 gets the handle of the first one and is not registered. -/
theorem served_wrapped (n : Nat) : trace Ticking.step Ticking.served
    { oneTask nullCommonHandleID (1 + n) with
      manager := (oneTask nullCommonHandleID (1 + n)).manager.add (.addTick 1) }
    (List.replicate 5 .tick) = [⟨1 + n, true, true, false⟩] := by
  have hdraw : drawID nullCommonHandleID = (0, 1) := rfl
  have hadd : (oneTask nullCommonHandleID (1 + n)).manager.add (.addTick 1) =
      { (oneTask 1 (1 + n + 1)).manager with
        queues.syncAdd := [⟨0, ⟨.tick, 1, 1 + n, 0, 0⟩⟩] } := by
    show { (oneTask (drawID nullCommonHandleID).2 (1 + n + 1)).manager with
      queues.syncAdd := [⟨(drawID nullCommonHandleID).1, ⟨.tick, 1, 1 + n, 0, 0⟩⟩] } = _
    rw [hdraw]
  have hserved : trace Ticking.step Ticking.served
      ⟨{ (oneTask 1 (1 + n + 1)).manager with
        queues.syncAdd := [⟨0, ⟨.tick, 1, 1 + n, 0, 0⟩⟩] }, .idle⟩ (List.replicate 5 .tick) =
      [⟨1 + n, true, true, (oneTask 1 (1 + n + 1)).manager.registered
        ⟨0, ⟨.tick, 1, 1 + n, 0, 0⟩⟩⟩] := rfl
  have hnone : (⟨0, ⟨.tick, 1, 1 + n, 0, 0⟩⟩ : Entry) ∉
      (oneTask 1 (1 + n + 1)).manager.registry := by
    simp [oneTask]
  rw [hadd, ← registered_eq_false hnone]
  exact hserved

/-- The labels of a dropped task release nothing. -/
theorem droppedTasks_unreleased {n : Nat} {label : TickLabel}
    (h : label ∈ (List.replicate n droppedTask).flatten) :
    label ≠ .other (.releaseWorkflow handle) := by
  obtain ⟨labels, hlabels, hmem⟩ := List.mem_flatten.mp h
  rw [List.eq_of_mem_replicate hlabels, droppedTask, List.mem_cons, List.mem_replicate] at hmem
  rcases hmem with rfl | ⟨-, rfl⟩ <;> simp

/-- A run to the second task, over any number of tasks that were dropped before. -/
theorem addedRun_wrapped (first dropped : List TickLabel) {n : Nat}
    (hfirst : exec Ticking.step { Ticking.init with manager := Manager.init.newWorkflow 0 } first =
      some (oneTask 1 1))
    (hdropped : exec Ticking.step (oneTask 1 1) dropped =
      some (oneTask nullCommonHandleID (1 + n)))
    (hunreleased : ∀ label ∈ first ++ dropped, label ≠ .other (.releaseWorkflow 1)) :
    ∃ t, AddedRun [] (first ++ dropped) (List.replicate 5 .tick) 0 (.addTick 1) .init
        (oneTask nullCommonHandleID (1 + n)) t ∧
      ⟨1 + n, true, true, false⟩ ∈
        addedServed [] (first ++ dropped) (List.replicate 5 .tick) 0 (.addTick 1) := by
  have hmiddle : exec Ticking.step { Ticking.init with manager := Manager.init.newWorkflow 0 }
      (first ++ dropped) = some (oneTask nullCommonHandleID (1 + n)) :=
    exec_append_eq_some.mpr ⟨_, hfirst, hdropped⟩
  refine ⟨_, ⟨rfl, hmiddle, rfl, rfl, ?_⟩, ?_⟩
  · intro label hmem
    rw [List.nil_append, List.mem_append] at hmem
    rcases hmem with hmem | hmem
    · exact hunreleased label hmem
    · rw [List.eq_of_mem_replicate hmem]
      simp
  · have hnew : Ticking.init.step (.other (.newWorkflow 0)) =
        some { Ticking.init with manager := Manager.init.newWorkflow 0 } := rfl
    have hadd : (oneTask nullCommonHandleID (1 + n)).step (.other (.add (.addTick 1))) =
        some { oneTask nullCommonHandleID (1 + n) with
          manager := (oneTask nullCommonHandleID (1 + n)).manager.add (.addTick 1) } := rfl
    unfold addedServed
    rw [List.nil_append, trace_cons hnew, trace_append hmiddle, trace_cons hadd, served_wrapped]
    simp

/-- The first tick task of workflow 1 is still registered when the counter of handles has wrapped
around: a second one gets the same handle, and `Tick` does not register it. -/
theorem handle_taken : ∃ middle s u t,
    AddedRun [] middle (List.replicate 5 .tick) 0 (.addTick 1) s u t ∧
    ⟨u.manager.tasks, true, true, false⟩ ∈
      addedServed [] middle (List.replicate 5 .tick) 0 (.addTick 1) := by
  obtain ⟨t, hrun, hserved⟩ := addedRun_wrapped
    (.other (.add (.addTick 1)) :: List.replicate 9 .tick) _ rfl exec_wrap (by
      intro label hmem
      rw [List.mem_append, List.mem_cons, List.mem_replicate] at hmem
      rcases hmem with (rfl | ⟨-, rfl⟩) | hmem
      · simp
      · simp
      · exact droppedTasks_unreleased hmem)
  exact ⟨_, _, _, t, hrun, hserved⟩

end Utilpp.Task

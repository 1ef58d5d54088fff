import Utilpp.Process.ChildSchedule

/-!
# Runs of the child process manager

When a run follows the schedule, and what spoils it. A delegate that runs the manager while the
exit of a child is reported, or while the loop is running, leaves a call behind that never returns
(`Doomed`). A pipe that cannot be read to its end keeps the manager at that child for ever
(`held_step`), whatever else happens.
-/

namespace Utilpp.Process

open Lib

variable {δ : Type}

/-! ## A child that is not finished -/

/-- Whether an entry is about the turn of a process: its begin or its end. -/
def Seen.isTurn : Seen δ → Bool
  | .started _ => true
  | .notStarted _ => true
  | .onExit _ _ _ => true
  | _ => false

/-- The turns that were recorded. -/
def turns (seen : List (Nat × Seen δ)) : List (Nat × Seen δ) :=
  seen.filter fun entry => entry.2.isTurn

/-- Whether a frame reports an exit. -/
def Frame.isOnExit : Frame → Bool
  | .onExit _ _ _ => true
  | _ => false

/-- The exits that are being reported. -/
def exits (running : List Frame) : List Frame := running.filter Frame.isOnExit

theorem turns_record {m : Manager δ} {number : Nat} {entry : Seen δ} (h : entry.isTurn = false) :
    turns (m.record number entry).seen = turns m.seen := by
  show turns (m.seen ++ [(number, entry)]) = _
  rw [turns, List.filter_append]
  simp [turns, h]

/-- A property of a process that was started and is not finished. -/
structure Unfinished (K : UVProcess δ → Prop) : Prop where
  finished : ∀ p, K p → p.finished = none
  register : ∀ p onRead onExit,
    K p → K { p with onReadDelegate := onRead, onExitDelegate := onExit }
  exited : ∀ p status signal, K p → p.process = .active →
    K { p with process := .idle, exit := some (status, signal) }
  stopReading : ∀ p stream eof, K p → p.pipe stream = .active → K (p.stopReading stream eof)

/-- The manager is at a process with the property. -/
structure Held (K : UVProcess δ → Prop) (handle : UInt32) (m : Manager δ) : Prop where
  valid : handle ≠ nullCommonHandleID
  current : m.currentHandle = handle
  process : ∃ p, m.processes handle = some p ∧ K p

/-- The manager stays where it is. -/
structure Stays (m t : Manager δ) : Prop where
  exits : exits t.running = exits m.running
  turns : turns t.seen = turns m.seen
  processes : ∀ handle, m.processes handle ≠ none → t.processes handle ≠ none
  run : .loop .run ∈ m.running → .loop .run ∈ t.running

theorem Stays.refl (m : Manager δ) : Stays m m := ⟨rfl, rfl, fun _ h => h, fun h => h⟩

theorem Stays.trans {m t u : Manager δ} (h : Stays m t) (h' : Stays t u) : Stays m u :=
  ⟨h'.exits.trans h.exits, h'.turns.trans h.turns,
    fun handle hsome => h'.processes handle (h.processes handle hsome),
    fun hrun => h'.run (h.run hrun)⟩

theorem Stays.set {m : Manager δ} (handle : UInt32) (p : UVProcess δ) :
    Stays m (m.set handle p) := by
  refine ⟨rfl, rfl, fun other hsome => ?_, fun h => h⟩
  by_cases heq : other = handle
  · subst heq
    rw [Manager.set_self]
    nofun
  · rw [Manager.set_other m heq]
    exact hsome

theorem Stays.record {m : Manager δ} {number : Nat} {entry : Seen δ}
    (h : entry.isTurn = false) : Stays m (m.record number entry) :=
  ⟨rfl, turns_record h, fun _ hsome => hsome, fun hrun => hrun⟩

theorem Stays.push {m : Manager δ} {frame : Frame} (h : frame.isOnExit = false) :
    Stays m { m with running := frame :: m.running } := by
  refine ⟨?_, rfl, fun _ hsome => hsome, fun hrun => List.mem_cons_of_mem _ hrun⟩
  exact List.filter_cons_of_neg (by rw [h]; nofun)

section

variable {K : UVProcess δ → Prop} {handle : UInt32} {m : Manager δ}

/-- Another process changes, or the one at which the manager is keeps its property. -/
theorem Held.set (h : Held K handle m) {other : UInt32} {q : UVProcess δ}
    (hkeep : other = handle → K q) : Held K handle (m.set other q) := by
  refine ⟨h.valid, h.current, ?_⟩
  by_cases heq : other = handle
  · subst heq
    exact ⟨q, Manager.set_self m other q, hkeep rfl⟩
  · obtain ⟨p, hp, hK⟩ := h.process
    exact ⟨p, (Manager.set_other m (Ne.symm heq) q).trans hp, hK⟩

theorem Held.record (h : Held K handle m) (number : Nat) (entry : Seen δ) :
    Held K handle (m.record number entry) := ⟨h.valid, h.current, h.process⟩

theorem Held.frames (h : Held K handle m) (running : List Frame) :
    Held K handle { m with running } := ⟨h.valid, h.current, h.process⟩

theorem Held.uvRun (h : Held K handle m) {t : Manager δ} {caller : Caller}
    (ht : m.uvRun caller = some t) : Held K handle t ∧ Stays m t := by
  rw [Manager.uvRun] at ht
  split at ht
  · cases ht
  · cases ht
    exact ⟨h.frames _, .push rfl⟩

theorem Held.finish (hK : Unfinished K) (h : Held K handle m) (caller : Caller) :
    m.finish caller = m.uvRun caller := by
  obtain ⟨p, hp, hprop⟩ := h.process
  refine Manager.finish_unfinished ?_ (hK.finished p hprop) caller
  rw [h.current]
  exact hp

end

/-- The loop returns to `Tick`, or `Run` enters it again. -/
theorem Held.loopReturns {K : UVProcess δ → Prop} {handle : UInt32} {m t : Manager δ}
    (hK : Unfinished K) (h : Held K handle m) {first : Option UInt32} {result : SpawnResult}
    (hfirst : m.Begins first) (ht : m.loopReturns first result = some t) :
    Held K handle t ∧ Stays m t := by
  obtain ⟨p, hp, hprop⟩ := h.process
  rw [Manager.loopReturns] at ht
  split at ht
  · rename_i running hframes
    cases ht
    refine ⟨h.frames _, ?_, rfl, fun _ hsome => hsome, fun hrun => ?_⟩
    · rw [hframes]
      rfl
    · rw [hframes] at hrun
      exact (List.mem_cons.mp hrun).resolve_left fun h => by cases h
  · rename_i running hframes
    have hnull : m.currentHandle ≠ nullCommonHandleID := by
      rw [h.current]
      exact h.valid
    cases first with
    | none => cases hp.symm.trans (hfirst handle)
    | some other =>
        replace ht : Manager.finish { m with running } .run = some t := (if_neg hnull).symm.trans ht
        rw [(h.frames running).finish hK] at ht
        change (if Manager.inCallback { m with running } then none
          else some { m with running := .loop .run :: running }) = some t at ht
        split at ht
        · cases ht
        · cases ht
          rw [← hframes]
          exact ⟨h, .refl m⟩
  · cases ht

/-- One event, when no exit of the child can be reported. -/
theorem held_step {K : UVProcess δ → Prop} {handle : UInt32} {m t : Manager δ} {event : Event δ}
    (hK : Unfinished K) (h : Held K handle m)
    (hreturn : ∀ other number caller running,
      m.running = .onExit other number caller :: running → m.delegateReturns = none)
    (hpossible : m.Possible event) (ht : managerStep m event = some t) :
    Held K handle t ∧ Stays m t := by
  obtain ⟨p, hp, hprop⟩ := h.process
  have hnull : m.currentHandle ≠ nullCommonHandleID := by
    rw [h.current]
    exact h.valid
  cases event with
  | spawnProcess data =>
      cases ht
      rcases m.spawnProcess_cases data with ⟨processCount, hsame⟩ |
        ⟨other, processCount, hvalid, hnone, hnew⟩
      · rw [hsame]
        exact ⟨⟨h.valid, h.current, h.process⟩, rfl, rfl, fun _ hsome => hsome, fun hrun => hrun⟩
      · rw [hnew]
        have hother : other ≠ handle := by
          rintro rfl
          cases hp.symm.trans hnone
        have hcounted : Held K handle { m with processCount, made := m.made + 1 } :=
          ⟨h.valid, h.current, h.process⟩
        have hstays : Stays m { m with processCount, made := m.made + 1 } :=
          ⟨rfl, rfl, fun _ hsome => hsome, fun hrun => hrun⟩
        exact ⟨(hcounted.set fun heq => absurd heq hother).record _ _,
          (hstays.trans (.set _ _)).trans (.record rfl)⟩
  | registerOnRead other delegate =>
      cases ht
      rw [Manager.registerOnRead]
      split
      · exact ⟨h, .refl m⟩
      · rename_i q hq
        refine ⟨h.set ?_, .set _ _⟩
        rintro rfl
        cases hp.symm.trans hq
        exact hK.register p delegate p.onExitDelegate hprop
  | registerOnExit other delegate =>
      cases ht
      rw [Manager.registerOnExit]
      split
      · exact ⟨h, .refl m⟩
      · rename_i q hq
        refine ⟨h.set ?_, .set _ _⟩
        rintro rfl
        cases hp.symm.trans hq
        exact hK.register p p.onReadDelegate delegate hprop
  | tick first result =>
      replace ht : m.finish .tick = some t := (if_neg hnull).symm.trans ht
      rw [h.finish hK] at ht
      exact h.uvRun ht
  | run => exact h.uvRun ht
  | loopReturns first result => exact h.loopReturns hK hpossible.2 ht
  | exited other status signal =>
      obtain ⟨-, q, hq, hactive⟩ := hpossible
      replace ht : m.onUvProcessClosed other status signal = some t := ht
      rw [Manager.onUvProcessClosed, hq] at ht
      cases ht
      refine ⟨(h.set ?_).record _ _, (Stays.set _ _).trans (.record rfl)⟩
      rintro rfl
      cases hp.symm.trans hq
      exact hK.exited p status signal hprop hactive
  | read other stream input =>
      obtain ⟨-, q, hq, hactive⟩ := hpossible
      have hkeep : ∀ eof, other = handle → K (q.stopReading stream eof) := by
        rintro eof rfl
        cases hp.symm.trans hq
        exact hK.stopReading p stream eof hprop hactive
      replace ht : m.onRead other stream input = some t := ht
      rw [Manager.onRead, hq] at ht
      cases input with
      | eof =>
          cases ht
          exact ⟨(h.set (hkeep true)).record _ _, (Stays.set _ _).trans (.record rfl)⟩
      | error code =>
          cases ht
          exact ⟨(h.set (hkeep false)).record _ _, (Stays.set _ _).trans (.record rfl)⟩
      | bytes bytes =>
          have hrecord : Stays m (m.record q.number (.onRead q.onReadDelegate stream bytes)) :=
            .record rfl
          change some (if q.onReadDelegate.isSome then
            { m.record q.number (.onRead q.onReadDelegate stream bytes) with
              running := .onRead :: m.running }
            else m.record q.number (.onRead q.onReadDelegate stream bytes)) = some t at ht
          split at ht
          · cases ht
            exact ⟨(h.record _ _).frames _, hrecord.trans (.push rfl)⟩
          · cases ht
            exact ⟨h.record _ _, hrecord⟩
  | delegateReturns =>
      replace ht : m.delegateReturns = some t := ht
      cases hframes : m.running with
      | nil => exact absurd hframes hpossible.1
      | cons frame running =>
          cases frame with
          | loop caller => exact absurd hframes hpossible.2.head
          | onRead =>
              rw [Manager.delegateReturns, hframes] at ht
              cases ht
              refine ⟨h.frames running, ?_, rfl, fun _ hsome => hsome, fun hrun => ?_⟩
              · rw [hframes]
                rfl
              · rw [hframes] at hrun
                exact (List.mem_cons.mp hrun).resolve_left fun h => by cases h
          | onExit other number caller =>
              rw [hreturn other number caller running hframes] at ht
              cases ht

/-- A run, when none of its states can report the exit of the child. -/
theorem held_run {K : UVProcess δ → Prop} {handle : UInt32} {m t : Manager δ}
    {events : List (Event δ)} (hK : Unfinished K) (h : Held K handle m)
    (hreturn : ∀ u : Manager δ, Held K handle u → exits u.running = exits m.running →
      ∀ other number caller running,
        u.running = .onExit other number caller :: running → u.delegateReturns = none)
    (hpossible : Guarded managerStep Manager.Possible m events)
    (hrun : exec managerStep m events = some t) : Held K handle t ∧ Stays m t := by
  have hstep : ∀ u event v, Held K handle u ∧ Stays m u → u.Possible event →
      managerStep u event = some v → Held K handle v ∧ Stays m v := by
    rintro u event v ⟨hheld, hstays⟩ hok hv
    obtain ⟨hheld', hstays'⟩ := held_step hK hheld (hreturn u hheld hstays.exits) hok hv
    exact ⟨hheld', hstays.trans hstays'⟩
  exact exec_invariant hstep ⟨h, .refl m⟩ hpossible hrun

/-! ## A pipe that cannot be read -/

/-- A stream is not read any more, and its end was not seen. -/
def UVProcess.Cut (stream : Stream) (p : UVProcess δ) : Prop :=
  p.pipe stream ≠ .active ∧ p.pipeEof stream = false

theorem UVProcess.cut_unfinished (stream : Stream) :
    Unfinished (UVProcess.Cut stream : UVProcess δ → Prop) := by
  refine ⟨fun p hcut => ?_, fun p _ _ hcut => ⟨hcut.1, hcut.2⟩,
    fun p _ _ hcut _ => ⟨hcut.1, hcut.2⟩, fun p other eof hcut hactive => ?_⟩
  · refine if_neg ?_
    rintro ⟨herr, hout⟩
    have hnot := hcut.2
    cases stream with
    | out => cases hnot.symm.trans hout
    | err => cases hnot.symm.trans herr
  · have hother : other ≠ stream := by
      rintro rfl
      exact hcut.1 hactive
    cases stream with
    | out =>
        cases other with
        | out => exact absurd rfl hother
        | err => exact hcut
    | err =>
        cases other with
        | out => exact hcut
        | err => exact absurd rfl hother

theorem Child.stopReading_cut {p : UVProcess δ} {progress : Progress} (h : Child p progress)
    {stream : Stream} (hactive : p.pipe stream = .active) :
    (p.stopReading stream false).Cut stream := by
  have hnot := (h.pipe stream).not_eof hactive
  cases stream with
  | out => exact ⟨nofun, (Bool.or_false _).trans hnot⟩
  | err => exact ⟨nofun, (Bool.or_false _).trans hnot⟩

/-- What the manager does on top of the calls that are running. -/
structure Extends (m t : Manager δ) : Prop where
  made : m.made ≤ t.made
  processes : ∀ handle q, t.processes handle = some q →
    (∃ p, m.processes handle = some p ∧ p.number = q.number) ∨ m.made ≤ q.number
  running : m.running <:+ t.running

theorem Extends.refl (m : Manager δ) : Extends m m :=
  ⟨le_rfl, fun _ q hq => .inl ⟨q, hq, rfl⟩, List.suffix_refl _⟩

theorem Extends.trans {m t u : Manager δ} (h : Extends m t) (h' : Extends t u) : Extends m u := by
  refine ⟨h.made.trans h'.made, fun handle q hq => ?_, h.running.trans h'.running⟩
  rcases h'.processes handle q hq with ⟨p, hp, hsame⟩ | hnew
  · rw [← hsame]
    exact h.processes handle p hp
  · exact .inr (h.made.trans hnew)

theorem Extends.record (m : Manager δ) (number : Nat) (entry : Seen δ) :
    Extends m (m.record number entry) :=
  ⟨le_rfl, fun _ q hq => .inl ⟨q, hq, rfl⟩, List.suffix_refl _⟩

theorem Extends.push (m : Manager δ) (frame : Frame) :
    Extends m { m with running := frame :: m.running } :=
  ⟨le_rfl, fun _ q hq => .inl ⟨q, hq, rfl⟩, List.suffix_cons _ _⟩

theorem Extends.set {m : Manager δ} {handle : UInt32} {p q : UVProcess δ}
    (hp : m.processes handle = some p) (hnumber : q.number = p.number) :
    Extends m (m.set handle q) := by
  refine ⟨le_rfl, fun other r hr => .inl ?_, List.suffix_refl _⟩
  by_cases heq : other = handle
  · subst heq
    rw [Manager.set_self, Option.some.injEq] at hr
    exact ⟨p, hp, hr ▸ hnumber.symm⟩
  · rw [Manager.set_other m heq] at hr
    exact ⟨r, hr, rfl⟩

theorem Extends.uvRun {m t : Manager δ} {caller : Caller} (ht : m.uvRun caller = some t) :
    Extends m t ∧ t.processes = m.processes := by
  rw [Manager.uvRun] at ht
  split at ht
  · cases ht
  · cases ht
    exact ⟨.push m _, rfl⟩

/-- What `ClearProcessData` needs of the process, and what is left. -/
theorem Extends.clear {m t : Manager δ} {handle : UInt32} {p : UVProcess δ} {caller : Caller}
    (hp : m.processes handle = some p)
    (ht : ((m.clearProcessData handle).bind fun m => m.uvRun caller) = some t) :
    Extends m t ∧ p.process ≠ .closed ∧ t.processes handle = none := by
  obtain ⟨u, hu, hrun⟩ := Option.bind_eq_some_iff.mp ht
  obtain ⟨hextends, hsame⟩ := Extends.uvRun hrun
  rw [Manager.clearProcessData, hp] at hu
  replace hu : (p.process.close.bind fun _ => p.inPipe.close.bind fun _ =>
    p.outPipe.close.bind fun _ => p.errPipe.close.bind fun _ => if m.inCallback then none else
      some { m with
        processes := Function.update m.processes handle none
        currentHandle := nullCommonHandleID }) = some u := hu
  obtain ⟨_, hprocess, hu⟩ := Option.bind_eq_some_iff.mp hu
  obtain ⟨_, _, hu⟩ := Option.bind_eq_some_iff.mp hu
  obtain ⟨_, _, hu⟩ := Option.bind_eq_some_iff.mp hu
  obtain ⟨_, _, hu⟩ := Option.bind_eq_some_iff.mp hu
  split at hu
  · cases hu
  · cases hu
    have herase : Extends m { m with
        processes := Function.update m.processes handle none
        currentHandle := nullCommonHandleID } := by
      refine ⟨le_rfl, fun other q hq => .inl ?_, List.suffix_refl _⟩
      replace hq : Function.update m.processes handle none other = some q := hq
      by_cases heq : other = handle
      · subst heq
        rw [Function.update_self] at hq
        cases hq
      · rw [Function.update_of_ne heq] at hq
        exact ⟨q, hq, rfl⟩
    refine ⟨herase.trans hextends, ?_, ?_⟩
    · intro hclosed
      rw [hclosed] at hprocess
      cases hprocess
    · rw [hsame]
      exact Function.update_self handle _ _

/-- A report runs the delegate, or clears the process at once. -/
theorem Extends.report {m t : Manager δ} {handle : UInt32} {p : UVProcess δ}
    {status signal : Int} {caller : Caller} (hp : m.processes handle = some p)
    (ht : m.report handle p status signal caller = some t) :
    Extends m t ∧ (t.running = .onExit handle p.number caller :: m.running ∨
      (p.process ≠ .closed ∧ t.processes handle = none)) := by
  rw [Manager.report] at ht
  have hrecord := Extends.record m p.number (.onExit p.onExitDelegate status signal)
  split at ht
  · cases ht
    exact ⟨hrecord.trans (.push _ _), .inl rfl⟩
  · obtain ⟨hextends, hcleared⟩ := Extends.clear
      (m := m.record p.number (.onExit p.onExitDelegate status signal)) hp ht
    exact ⟨hrecord.trans hextends, .inr hcleared⟩

theorem UVProcess.internalSpawnProcess_number (p : UVProcess δ) (result : SpawnResult) :
    (p.internalSpawnProcess result).1.number = p.number := by
  cases result with
  | started => rfl
  | notSpawned => rfl
  | outNotRead => rfl
  | errNotRead => rfl

theorem Extends.start {m t : Manager δ} {handle : UInt32} {result : SpawnResult}
    {caller : Caller} (ht : m.start handle result caller = some t) : Extends m t := by
  rw [Manager.start] at ht
  obtain ⟨p, hp, ht⟩ := Option.bind_eq_some_iff.mp ht
  have hpicked := Extends.set (m := { m with currentHandle := handle }) hp
    (p.internalSpawnProcess_number result)
  have hset : Extends m ({ m with currentHandle := handle }.set handle
      (p.internalSpawnProcess result).1) := ⟨hpicked.made, hpicked.processes, hpicked.running⟩
  replace ht : (if (p.internalSpawnProcess result).2 then _ else _) = some t := ht
  split at ht
  · exact (hset.trans (.record _ _ _)).trans (Extends.uvRun ht).1
  · refine (hset.trans (.record _ _ _)).trans (Extends.report ?_ ht).1
    exact Manager.set_self _ _ _

theorem Extends.finish {m t : Manager δ} {caller : Caller} (ht : m.finish caller = some t) :
    Extends m t := by
  obtain ⟨p, hp, _⟩ := Option.bind_eq_some_iff.mp ht
  cases hfinished : p.finished with
  | none =>
      rw [Manager.finish_unfinished hp hfinished] at ht
      exact (Extends.uvRun ht).1
  | some result =>
      rw [Manager.finish_finished hp hfinished] at ht
      exact (Extends.report hp ht).1

/-- An event works on top of the calls that are running, or on top of all but the last, which
returns; an exit that was reported can return only while its process is there. -/
theorem managerStep_extends {m t : Manager δ} {event : Event δ}
    (ht : managerStep m event = some t) :
    Extends m t ∨ ∃ frame running, m.running = frame :: running ∧ Extends { m with running } t ∧
      ∀ handle number caller, frame = .onExit handle number caller →
        (∃ p, m.processes handle = some p ∧ p.number = number) ∧ t.processes handle = none := by
  cases event with
  | spawnProcess data =>
      cases ht
      rcases m.spawnProcess_cases data with ⟨processCount, hsame⟩ |
        ⟨handle, processCount, hvalid, hnone, hnew⟩
      · rw [hsame]
        exact .inl ⟨le_rfl, fun _ q hq => .inl ⟨q, hq, rfl⟩, List.suffix_refl _⟩
      · rw [hnew]
        refine .inl ⟨Nat.le_succ m.made, fun other q hq => ?_, List.suffix_refl _⟩
        replace hq : Function.update m.processes handle _ other = some q := hq
        by_cases heq : other = handle
        · subst heq
          rw [Function.update_self, Option.some.injEq] at hq
          exact .inr (hq ▸ le_rfl)
        · rw [Function.update_of_ne heq] at hq
          exact .inl ⟨q, hq, rfl⟩
  | registerOnRead handle delegate =>
      cases ht
      rw [Manager.registerOnRead]
      split
      · exact .inl (.refl m)
      · rename_i p hp
        exact .inl (.set hp rfl)
  | registerOnExit handle delegate =>
      cases ht
      rw [Manager.registerOnExit]
      split
      · exact .inl (.refl m)
      · rename_i p hp
        exact .inl (.set hp rfl)
  | tick first result =>
      replace ht : (if m.currentHandle = nullCommonHandleID then _ else _) = some t := ht
      split at ht
      · cases first with
        | none =>
            cases ht
            exact .inl (.refl m)
        | some handle => exact .inl (.start ht)
      · exact .inl (.finish ht)
  | run => exact .inl (Extends.uvRun ht).1
  | loopReturns first result =>
      replace ht : m.loopReturns first result = some t := ht
      rw [Manager.loopReturns] at ht
      split at ht
      · rename_i running hframes
        cases ht
        exact .inr ⟨_, running, hframes, .refl _, fun _ _ _ h => by cases h⟩
      · rename_i running hframes
        refine .inr ⟨_, running, hframes, ?_, fun _ _ _ h => by cases h⟩
        cases first with
        | none =>
            cases ht
            exact .refl _
        | some handle =>
            replace ht : (if m.currentHandle = nullCommonHandleID then _ else _) = some t := ht
            split at ht
            · exact .start ht
            · exact .finish ht
      · cases ht
  | exited handle status signal =>
      obtain ⟨p, hp, rfl⟩ := Option.map_eq_some_iff.mp ht
      have hset : Extends m (m.set handle
          { p with process := .idle, exit := some (status, signal) }) := .set hp rfl
      exact .inl (hset.trans (.record _ _ _))
  | read handle stream input =>
      obtain ⟨p, hp, rfl⟩ := Option.map_eq_some_iff.mp ht
      refine .inl ?_
      cases input with
      | eof => exact (Extends.set hp (p.stopReading_number stream true)).trans (.record _ _ _)
      | error code =>
          exact (Extends.set hp (p.stopReading_number stream false)).trans (.record _ _ _)
      | bytes bytes =>
          show Extends m (if p.onReadDelegate.isSome then _ else _)
          split
          · exact (Extends.record m p.number _).trans (.push _ _)
          · exact .record _ _ _
  | delegateReturns =>
      replace ht : m.delegateReturns = some t := ht
      rw [Manager.delegateReturns] at ht
      split at ht
      · rename_i running hframes
        cases ht
        exact .inr ⟨_, running, hframes, .refl _, fun _ _ _ h => by cases h⟩
      · rename_i handle number caller running hframes
        obtain ⟨p, hp, ht⟩ := Option.bind_eq_some_iff.mp ht
        split at ht
        · rename_i hnumber
          obtain ⟨hextends, _, hnone⟩ := Extends.clear (m := { m with running }) hp ht
          refine .inr ⟨_, running, hframes, hextends, fun handle number caller heq => ?_⟩
          cases heq
          exact ⟨⟨p, hp, hnumber⟩, hnone⟩
        · cases ht
      · cases ht

/-- A child whose pipes could not be read: it is closed before its end is reported. -/
def UVProcess.Unread (p : UVProcess δ) : Prop := p.process = .closed ∧ p.exit = none

theorem UVProcess.unread_unfinished : Unfinished (UVProcess.Unread : UVProcess δ → Prop) := by
  refine ⟨fun p hunread => ?_, fun p _ _ hunread => hunread, fun p _ _ hunread hactive => ?_,
    fun p stream eof hunread _ => ?_⟩
  · rw [finished, hunread.2]
    split
    · rfl
    · rfl
  · cases hunread.1.symm.trans hactive
  · cases stream with
    | out => exact hunread
    | err => exact hunread

/-- A call is running that cannot return. -/
inductive Doomed (m : Manager δ) : Prop where
  | unread (handle : UInt32) (number : Nat) (caller : Caller)
      (hheld : Held UVProcess.Unread handle m)
      (hexits : (exits m.running).head? = some (.onExit handle number caller))
  | gone (handle : UInt32) (number : Nat) (caller : Caller)
      (hmem : .onExit handle number caller ∈ m.running) (hmade : number < m.made)
      (hgone : ∀ p, m.processes handle = some p → p.number ≠ number)
  | twice (handle : UInt32) (number : Nat) (inner outer : Caller)
      (hsub : List.Sublist [.onExit handle number inner, .onExit handle number outer] m.running)
      (hmade : number < m.made)
  | nested (p : UVProcess δ) (caller : Caller) (below : List Frame)
      (hframes : m.running = .loop .run :: .onExit m.currentHandle p.number caller :: below)
      (hvalid : m.currentHandle ≠ nullCommonHandleID)
      (hp : m.processes m.currentHandle = some p) (hfinished : p.finished ≠ none)
      (hmade : p.number < m.made) (hquiet : ∀ handle q, m.processes handle = some q → q.Quiet)

theorem Doomed.running {m : Manager δ} (h : Doomed m) : m.running ≠ [] := by
  intro hnil
  cases h with
  | unread handle number caller hheld hexits =>
      rw [hnil] at hexits
      cases hexits
  | gone handle number caller hmem =>
      rw [hnil] at hmem
      cases hmem
  | twice handle number inner outer hsub =>
      rw [hnil] at hsub
      cases hsub
  | nested p caller below hframes => cases hframes.symm.trans hnil

/-- The exit of a child is reported again while its delegate is running. -/
theorem Doomed.of_report {m t : Manager δ} {p : UVProcess δ} {outer inner : Caller}
    {below : List Frame} (hframes : m.running = .onExit m.currentHandle p.number outer :: below)
    (hp : m.processes m.currentHandle = some p) (hfinished : p.finished ≠ none)
    (hmade : p.number < m.made) (ht : m.finish inner = some t) : Doomed t := by
  obtain ⟨⟨status, signal⟩, hresult⟩ := Option.ne_none_iff_exists'.mp hfinished
  rw [Manager.finish_finished hp hresult] at ht
  obtain ⟨hextends, hrunning | ⟨_, hnone⟩⟩ := Extends.report hp ht
  · refine .twice m.currentHandle p.number inner outer ?_ (hmade.trans_le hextends.made)
    rw [hrunning, hframes]
    exact ((List.nil_sublist below).cons_cons _).cons_cons _
  · refine .gone m.currentHandle p.number outer ?_ (hmade.trans_le hextends.made) ?_
    · refine hextends.running.subset ?_
      rw [hframes]
      exact List.mem_cons_self
    · intro q hq
      cases hq.symm.trans hnone

/-- What is gone does not come back. -/
theorem Extends.gone {m t : Manager δ} (h : Extends m t) {handle : UInt32} {number : Nat}
    (hmade : number < m.made) (hgone : ∀ p, m.processes handle = some p → p.number ≠ number)
    {q : UVProcess δ} (hq : t.processes handle = some q) : q.number ≠ number := by
  rcases h.processes handle q hq with ⟨p, hp, hsame⟩ | hnew
  · exact hsame ▸ hgone p hp
  · exact (hmade.trans_le hnew).ne'

theorem Doomed.step {m t : Manager δ} {event : Event δ} (h : Doomed m)
    (hpossible : m.Possible event) (ht : managerStep m event = some t) : Doomed t := by
  cases h with
  | unread handle number caller hheld hexits =>
      have hreturn : ∀ other number' caller' running,
          m.running = .onExit other number' caller' :: running → m.delegateReturns = none := by
        intro other number' caller' running hframes
        rw [hframes] at hexits
        cases hexits
        obtain ⟨p, hp, hclosed, _⟩ := hheld.process
        cases hresult : m.delegateReturns with
        | none => rfl
        | some u =>
            rw [Manager.delegateReturns, hframes] at hresult
            obtain ⟨q, hq, hresult⟩ := Option.bind_eq_some_iff.mp hresult
            split at hresult
            · exact absurd hclosed (by
                cases hp.symm.trans hq
                exact (Extends.clear (m := { m with running }) hq hresult).2.1)
            · cases hresult
      obtain ⟨hheld', hstays⟩ :=
        held_step UVProcess.unread_unfinished hheld hreturn hpossible ht
      exact .unread handle number caller hheld' (hstays.exits ▸ hexits)
  | gone handle number caller hmem hmade hgone =>
      rcases managerStep_extends ht with hextends | ⟨frame, running, hframes, hextends, hreturns⟩
      · exact .gone handle number caller (hextends.running.subset hmem)
          (hmade.trans_le hextends.made) fun q hq => hextends.gone hmade hgone hq
      · rw [hframes] at hmem
        rcases List.mem_cons.mp hmem with heq | hmem
        · obtain ⟨⟨p, hp, hnumber⟩, _⟩ := hreturns handle number caller heq.symm
          exact absurd hnumber (hgone p hp)
        · exact .gone handle number caller (hextends.running.subset hmem)
            (hmade.trans_le hextends.made) fun q hq => hextends.gone hmade hgone hq
  | twice handle number inner outer hsub hmade =>
      rcases managerStep_extends ht with hextends | ⟨frame, running, hframes, hextends, hreturns⟩
      · exact .twice handle number inner outer (hsub.trans hextends.running.sublist)
          (hmade.trans_le hextends.made)
      · rw [hframes] at hsub
        cases hsub with
        | cons _ hsub =>
            exact .twice handle number inner outer (hsub.trans hextends.running.sublist)
              (hmade.trans_le hextends.made)
        | cons_cons _ hsub =>
            obtain ⟨_, hnone⟩ := hreturns handle number inner rfl
            refine .gone handle number outer
              (hextends.running.subset (List.singleton_sublist.mp hsub))
              (hmade.trans_le hextends.made) fun q hq => ?_
            cases hq.symm.trans hnone
  | nested p caller below hframes hvalid hp hfinished hmade hquiet =>
      have hlooping : ¬ m.UsersTurn := fun hturn => hturn.head hframes
      cases event with
      | spawnProcess data => exact absurd hpossible hlooping
      | registerOnRead handle delegate => exact absurd hpossible hlooping
      | registerOnExit handle delegate => exact absurd hpossible hlooping
      | tick first result => exact absurd hpossible.1 hlooping
      | run => exact absurd hpossible hlooping
      | delegateReturns => exact absurd hpossible.2 hlooping
      | exited handle status signal =>
          obtain ⟨_, q, hq, hactive⟩ := hpossible
          exact absurd hactive (hquiet handle q hq).process
      | read handle stream input =>
          obtain ⟨_, q, hq, hactive⟩ := hpossible
          exact absurd hactive ((hquiet handle q hq).pipe stream)
      | loopReturns first result =>
          replace ht : m.loopReturns first result = some t := ht
          rw [Manager.loopReturns, hframes] at ht
          cases first with
          | none =>
              have hnone := hpossible.2 m.currentHandle
              cases hp.symm.trans hnone
          | some handle =>
              replace ht := (if_neg hvalid).symm.trans ht
              exact Doomed.of_report
                (m := { m with running := .onExit m.currentHandle p.number caller :: below })
                rfl hp hfinished hmade ht

/-- A process that is started but cannot be read is closed before its end is reported. -/
theorem Doomed.of_start {m t : Manager δ} (h : Scheduled m)
    (hhandle : m.currentHandle = nullCommonHandleID) {handle : UInt32} {result : SpawnResult}
    {caller : Caller} (hreads : ¬ result.Reads) (hnothing : m.running = [])
    (ht : m.start handle result caller = some t) : Doomed t := by
  obtain ⟨s, -, -, hjobs, -⟩ := h
  obtain ⟨p, hp, hstart⟩ := Option.bind_eq_some_iff.mp ht
  have hvalid := hjobs.valid handle p hp
  have hexit : p.exit = none := (hjobs.waits handle p hp (hhandle ▸ hvalid)).1.exit
  -- both failures close the process and answer `false`
  have hfailed : ∃ q, p.internalSpawnProcess result = (q, false) ∧ q.Unread := by
    cases result with
    | started => exact absurd (.inl rfl) hreads
    | notSpawned => exact absurd (.inr rfl) hreads
    | outNotRead => exact ⟨_, rfl, rfl, hexit⟩
    | errNotRead => exact ⟨_, rfl, rfl, hexit⟩
  obtain ⟨q, hq, hunread⟩ := hfailed
  rw [hq] at hstart
  replace hstart : Manager.report (({ m with currentHandle := handle }.set handle q).record p.number
    (.notStarted p.options)) handle q (-1) 0 caller = some t := hstart
  rw [Manager.report] at hstart
  split at hstart
  · cases hstart
    refine .unread handle q.number caller ⟨hvalid, rfl, q, Manager.set_self _ _ _, hunread⟩ ?_
    show (exits (.onExit handle q.number caller :: m.running)).head? = _
    rw [hnothing]
    rfl
  · have hopen := (Extends.clear (m := (({ m with currentHandle := handle }.set handle q).record
      p.number (.notStarted p.options)).record q.number (.onExit q.onExitDelegate (-1) 0))
      (Manager.set_self _ _ _) hstart).2.1
    exact absurd hunread.1 hopen

/-- In the turn of the user, when he may not run the manager: libuv has called back, or the exit of
a child that ran is being reported. -/
theorem Scheduled.not_calm {m : Manager δ} (h : Scheduled m) (hturn : m.UsersTurn)
    (hnot : ¬ m.Calm) :
    ∃ p, m.currentHandle ≠ nullCommonHandleID ∧ m.processes m.currentHandle = some p ∧
      ((m.inCallback ∧ p.finished = none) ∨
        (∃ caller, m.running = [.onExit m.currentHandle p.number caller]) ∧ p.finished ≠ none ∧
          p.number < m.made ∧ ∀ handle q, m.processes handle = some q → q.Quiet) := by
  have hnothing : m.running ≠ [] := by
    intro hnil
    refine hnot ⟨?_, ?_⟩
    · rw [Manager.inCallback, hnil]
      exact List.not_mem_nil
    · rw [hnil]
      exact fun _ _ _ hmem => absurd hmem List.not_mem_nil
  obtain ⟨s, -, hmade, hjobs, hstage⟩ := h
  cases hstage with
  | idle hhandle hcurrent hrunning =>
      rcases hrunning with hnone | ⟨caller, hloop⟩
      · exact absurd hnone hnothing
      · exact absurd hloop hturn.head
  | child p progress hhandle hp hcurrent hchild hrunning =>
      generalize hframes : m.running = running at hrunning
      cases hrunning with
      | user => exact absurd hframes hnothing
      | loop caller => exact absurd hframes hturn.head
      | onRead caller hfinished =>
          refine ⟨p, hhandle, hp, .inl ⟨?_, hfinished⟩⟩
          rw [Manager.inCallback, hframes]
          exact List.mem_cons_self
  | reported p hhandle hp hcurrent hclosable hquiet hrunning =>
      generalize hframes : m.running = running at hrunning
      cases hrunning with
      | loop inner caller hfinished => exact absurd hframes hturn.head
      | user caller =>
          refine ⟨p, hhandle, hp, .inr ⟨⟨caller, rfl⟩, fun hfinished => hnot ⟨?_, ?_⟩,
            hmade ▸ hjobs.number _ p hp, fun handle q hq => ?_⟩⟩
          · rw [Manager.inCallback, hframes]
            exact fun hmem => by cases List.mem_singleton.mp hmem
          · intro handle number other hmem q hq
            rw [hframes] at hmem
            cases List.mem_singleton.mp hmem
            cases hp.symm.trans hq
            exact hfinished
          · by_cases heq : handle = m.currentHandle
            · subst heq
              cases hp.symm.trans hq
              exact hquiet
            · exact (hjobs.waits handle q hq heq).1.quiet

theorem Scheduled.idle_running {m : Manager δ} (h : Scheduled m) (hturn : m.UsersTurn)
    (hhandle : m.currentHandle = nullCommonHandleID) : m.running = [] := by
  obtain ⟨s, -, -, -, hstage⟩ := h
  cases hstage with
  | idle _ _ hrunning =>
      rcases hrunning with hnone | ⟨caller, hloop⟩
      · exact hnone
      · exact absurd hloop hturn.head
  | child _ _ hvalid => exact absurd hhandle hvalid
  | reported _ hvalid => exact absurd hhandle hvalid

theorem Doomed.of_impolite {m t : Manager δ} {event : Event δ} (h : Scheduled m)
    (hpossible : m.Possible event) (hnot : ¬ m.Polite event)
    (ht : managerStep m event = some t) : Doomed t := by
  cases event with
  | spawnProcess data => exact absurd trivial hnot
  | registerOnRead handle delegate => exact absurd trivial hnot
  | registerOnExit handle delegate => exact absurd trivial hnot
  | exited handle status signal => exact absurd trivial hnot
  | read handle stream input => exact absurd trivial hnot
  | delegateReturns => exact absurd trivial hnot
  | tick first result =>
      obtain ⟨hturn, hfirst⟩ := hpossible
      by_cases hcalm : m.Calm
      · have hstart : m.currentHandle = nullCommonHandleID ∧ first ≠ none ∧ ¬ result.Reads := by
          by_contra hall
          refine hnot ⟨hcalm, fun hhandle hsome => ?_⟩
          by_contra hreads
          exact hall ⟨hhandle, hsome, hreads⟩
        obtain ⟨hhandle, hsome, hreads⟩ := hstart
        obtain ⟨handle, rfl⟩ := Option.ne_none_iff_exists'.mp hsome
        replace ht := (if_pos hhandle).symm.trans ht
        exact .of_start h hhandle hreads (h.idle_running hturn hhandle) ht
      · obtain ⟨p, hvalid, hp, ⟨hcallback, hfinished⟩ | ⟨⟨caller, hframes⟩, hfinished, hmade, _⟩⟩ :=
          h.not_calm hturn hcalm
        · replace ht := (if_neg hvalid).symm.trans ht
          rw [Manager.finish_unfinished hp hfinished, Manager.uvRun, if_pos hcallback] at ht
          cases ht
        · exact .of_report hframes hp hfinished hmade ((if_neg hvalid).symm.trans ht)
  | run =>
      replace ht : m.uvRun .run = some t := ht
      obtain ⟨p, hvalid, hp, ⟨hcallback, _⟩ | ⟨⟨caller, hframes⟩, hfinished, hmade, hquiet⟩⟩ :=
        h.not_calm hpossible hnot
      · rw [Manager.uvRun, if_pos hcallback] at ht
        cases ht
      · rw [Manager.uvRun] at ht
        split at ht
        · cases ht
        · cases ht
          exact .nested p caller [] (congrArg _ hframes) hvalid hp hfinished hmade hquiet
  | loopReturns first result =>
      obtain ⟨hloop, hfirst⟩ := hpossible
      have hstart : m.running.head? = some (.loop .run) ∧ m.currentHandle = nullCommonHandleID ∧
          first ≠ none ∧ ¬ result.Reads := by
        by_contra hall
        refine hnot fun hhead hhandle hsome => ?_
        by_contra hreads
        exact hall ⟨hhead, hhandle, hsome, hreads⟩
      obtain ⟨hhead, hhandle, hsome, hreads⟩ := hstart
      obtain ⟨handle, rfl⟩ := Option.ne_none_iff_exists'.mp hsome
      obtain ⟨running, hframes⟩ := List.head?_eq_some_iff.mp hhead
      obtain ⟨hafter, hturn, _⟩ := h.pop hframes
      replace ht : m.loopReturns (some handle) result = some t := ht
      rw [Manager.loopReturns, hframes] at ht
      replace ht := (if_pos hhandle).symm.trans ht
      exact .of_start hafter hhandle hreads (hafter.idle_running hturn hhandle) ht

/-- When the delegates are polite, what is recorded of the run follows the schedule, and the
manager has the processes of the schedule and no others: those that wait and the one at which it
is. -/
theorem children_follow_schedule (events : List (Event δ))
    (hpossible : Guarded managerStep Manager.Possible {} events)
    (hpolite : Guarded managerStep Manager.Polite {} events) :
    ∃ m s, exec managerStep {} events = some m ∧ schedule m.seen = some s ∧ s.made = m.made ∧
      (∀ number, s.waiting number ≠ none ↔ ∃ handle p, m.processes handle = some p ∧
        p.number = number ∧ handle ≠ m.currentHandle) ∧
      ∀ number turn, s.current = some (number, turn) → ∃ p,
        m.processes m.currentHandle = some p ∧ p.number = number := by
  obtain ⟨m, hm, s, hseen, hmade, hjobs, hstage⟩ := run_follows_schedule events hpossible hpolite
  refine ⟨m, s, hm, hseen, hmade, fun number => ⟨hjobs.waiting number, ?_⟩,
    fun number turn hturn => ?_⟩
  · rintro ⟨handle, p, hp, rfl, hother⟩ hnone
    have hoptions := (hjobs.waits handle p hp hother).2
    rw [hnone] at hoptions
    cases hoptions
  · cases hstage with
    | idle _ hcurrent => cases hturn.symm.trans hcurrent
    | child p progress _ hp hcurrent =>
        cases hturn.symm.trans hcurrent
        exact ⟨p, hp, rfl⟩
    | reported _ _ _ hcurrent => cases hturn.symm.trans hcurrent

/-- A program that is started by `Tick`. -/
theorem child_started :
    ∃ m s, exec (managerStep (δ := Unit)) {}
        [.spawnProcess { filepath := [97] }, .tick (some 0) .started] = some m ∧
      schedule m.seen = some s ∧ s.made = m.made ∧
      (∀ number, s.waiting number ≠ none ↔ ∃ handle p, m.processes handle = some p ∧
        p.number = number ∧ handle ≠ m.currentHandle) ∧
      ∀ number turn, s.current = some (number, turn) → ∃ p,
        m.processes m.currentHandle = some p ∧ p.number = number := by
  refine children_follow_schedule _ ⟨fun _ => nofun, fun m hm => ?_⟩ ⟨trivial, fun m hm => ?_⟩
  · cases hm
    exact ⟨⟨fun _ => nofun, nofun⟩, fun _ _ => trivial⟩
  · cases hm
    exact ⟨⟨⟨nofun, nofun⟩, fun _ _ => .inl rfl⟩, fun _ _ => trivial⟩

/-- A run that has returned to the user was polite at every step. -/
theorem returned_run_polite {events : List (Event δ)} {m : Manager δ}
    (hpossible : Guarded managerStep Manager.Possible {} events)
    (hrun : exec managerStep {} events = some m) (hreturned : m.running = []) :
    Guarded managerStep Manager.Polite {} events := by
  by_contra hnot
  have hdoomed : Doomed m := exec_spoiled_of
    (fun _ _ h hpre hok => managerStep_scheduled h ⟨hpre, hok⟩)
    (fun _ _ _ h hpre hbad hstep => .of_impolite h hpre hbad hstep)
    (fun _ _ _ h hpre hstep => h.step hpre hstep) scheduled_initially hpossible hnot hrun
  exact hdoomed.running hreturned

/-- A run of `Tick` that has returned. -/
theorem returned_tick_polite : Guarded (managerStep (δ := Unit)) Manager.Polite {}
    [.spawnProcess { filepath := [97] }, .tick (some 0) .started,
      .loopReturns (some 0) .started] := by
  refine returned_run_polite ⟨fun _ => nofun, fun m hm => ?_⟩ rfl rfl
  cases hm
  refine ⟨⟨fun _ => nofun, nofun⟩, fun m hm => ?_⟩
  cases hm
  exact ⟨⟨⟨.tick, rfl⟩, nofun⟩, fun _ _ => trivial⟩

end Utilpp.Process

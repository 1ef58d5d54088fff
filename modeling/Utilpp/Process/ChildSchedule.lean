import Utilpp.Process.ChildProcess

/-!
# One child at a time

`Schedule` is what the manager is for: the processes that were accepted wait, one of them has its
turn, it is started with what it was accepted with, its output is passed on until both its pipes
are at their end, and its exit is reported once, before the next one has its turn. What is recorded
of every run of the manager follows it (`managerStep_agrees`), as long as the delegates do not run
the manager at the wrong time and the pipes of a child that was started can be read.
-/

namespace Utilpp.Process

open Lib

variable {δ : Type}

/-! ## The schedule -/

/-- A pipe as the system reported it. -/
inductive Pipe where
  | reading
  | ended
  | broken
  deriving DecidableEq

/-- What is known of a child that was started. -/
structure Progress where
  exit : Option (Int × Int) := none
  out : Pipe := .reading
  err : Pipe := .reading
  deriving DecidableEq

/-- The pipe of a stream. -/
def Progress.pipe (progress : Progress) : Stream → Pipe
  | .out => progress.out
  | .err => progress.err

/-- A pipe is not read any more. -/
def Progress.close (progress : Progress) (stream : Stream) (pipe : Pipe) : Progress :=
  match stream with
  | .out => { progress with out := pipe }
  | .err => { progress with err := pipe }

/-- The turn of a process: it could not be started, or it runs. -/
inductive Turn where
  | failed
  | child (progress : Progress)
  deriving DecidableEq

/-- The exit that is to be reported, when the turn is over. -/
def Turn.result : Turn → Option (Int × Int)
  | .failed => some (-1, 0)
  | .child progress =>
      if progress.err = .ended ∧ progress.out = .ended then progress.exit else none

/-- The options for a process that is accepted with `data`. -/
def SpawnData.options (data : SpawnData) : ProcessOptions where
  file := cString data.filepath
  args := (data.filepath :: data.argvs).map cString
  cwd := if data.cwd = [] then none else some (cString data.cwd)
  hideWindow := data.hideWindow

/-- The processes that wait, and the one that has its turn. -/
structure Schedule where
  made : Nat := 0
  waiting : Nat → Option SpawnData := fun _ => none
  current : Option (Nat × Turn) := none

namespace Schedule

/-- A process that waits gets its turn, with the options that it was accepted with. -/
def take (s : Schedule) (number : Nat) (options : ProcessOptions) (turn : Turn) :
    Option Schedule :=
  if s.current = none ∧ (s.waiting number).map SpawnData.options = some options then
    some { s with
      waiting := Function.update s.waiting number none, current := some (number, turn) }
  else none

/-- The child that has its turn goes on. -/
def advance (s : Schedule) (number : Nat) (next : Progress → Option Progress) :
    Option Schedule :=
  match s.current with
  | some (current, .child progress) =>
      if current = number then
        (next progress).map fun progress =>
          { s with current := some (number, .child progress) }
      else none
  | _ => none

/-- One entry of the record. -/
def next (s : Schedule) : Nat × Seen δ → Option Schedule
  | (number, .accepted data) =>
      if number = s.made then
        some { s with
          made := s.made + 1, waiting := Function.update s.waiting number (some data) }
      else none
  | (number, .started options) => s.take number options (.child {})
  | (number, .notStarted options) => s.take number options .failed
  | (number, .exited status signal) =>
      s.advance number fun progress =>
        if progress.exit = none then some { progress with exit := some (status, signal) } else none
  | (number, .eof stream) =>
      s.advance number fun progress =>
        if progress.pipe stream = .reading then some (progress.close stream .ended) else none
  | (number, .error stream) =>
      s.advance number fun progress =>
        if progress.pipe stream = .reading then some (progress.close stream .broken) else none
  | (number, .onRead _ stream _) =>
      s.advance number fun progress =>
        if progress.pipe stream = .reading then some progress else none
  | (number, .onExit _ status signal) =>
      match s.current with
      | some (current, turn) =>
          if current = number ∧ turn.result = some (status, signal) then
            some { s with current := none }
          else none
      | none => none

end Schedule

/-- The schedule behind a record, if the record follows it. -/
def schedule (seen : List (Nat × Seen δ)) : Option Schedule :=
  seen.foldlM Schedule.next {}

theorem schedule_append {seen : List (Nat × Seen δ)} {s t : Schedule} {entry : Nat × Seen δ}
    (h : schedule seen = some s) (hnext : s.next entry = some t) :
    schedule (seen ++ [entry]) = some t := by
  rw [schedule, List.foldlM_append]
  show (schedule seen).bind _ = some t
  rw [h]
  show ([entry].foldlM Schedule.next s) = some t
  rw [List.foldlM_cons, hnext]
  rfl

theorem Schedule.take_eq {s : Schedule} {number : Nat} {options : ProcessOptions}
    (hnone : s.current = none)
    (hwaiting : (s.waiting number).map SpawnData.options = some options) (turn : Turn) :
    s.take number options turn =
      some { s with
        waiting := Function.update s.waiting number none, current := some (number, turn) } :=
  if_pos ⟨hnone, hwaiting⟩

theorem Schedule.advance_eq {s : Schedule} {number : Nat} {progress after : Progress}
    {next : Progress → Option Progress} (h : s.current = some (number, .child progress))
    (hnext : next progress = some after) :
    s.advance number next = some { s with current := some (number, .child after) } := by
  rw [advance, h]
  show (if number = number then (next progress).map _ else none) = _
  rw [if_pos rfl, hnext]
  rfl

theorem Schedule.next_onExit {s : Schedule} {number : Nat} {turn : Turn} {status signal : Int}
    (h : s.current = some (number, turn)) (hresult : turn.result = some (status, signal))
    (delegate : Option δ) :
    s.next (number, .onExit delegate status signal) = some { s with current := none } := by
  rw [next, h]
  exact if_pos ⟨rfl, hresult⟩

/-! ## The manager in a run -/

/-- A process that was not started. -/
structure UVProcess.Waits (p : UVProcess δ) : Prop where
  process : p.process = .fresh
  pipe : ∀ stream, p.pipe stream = .fresh
  exit : p.exit = none
  pipeEof : ∀ stream, p.pipeEof stream = false

/-- A process whose handles can be closed. -/
structure UVProcess.Closable (p : UVProcess δ) : Prop where
  process : p.process.Open
  inPipe : p.inPipe.Open
  pipe : ∀ stream, (p.pipe stream).Open

/-- A pipe of the manager and what is known of it. -/
inductive PipeAgrees : UVHandle → Bool → Pipe → Prop where
  | reading : PipeAgrees .active false .reading
  | ended : PipeAgrees .idle true .ended
  | broken : PipeAgrees .idle false .broken

/-- A process that was started and what is known of it. -/
structure Child (p : UVProcess δ) (progress : Progress) : Prop where
  exit : progress.exit = p.exit
  process : (p.process = .active ∧ p.exit = none) ∨ (p.process = .idle ∧ p.exit ≠ none)
  inPipe : p.inPipe.Open
  pipe : ∀ stream, PipeAgrees (p.pipe stream) (p.pipeEof stream) (progress.pipe stream)

/-- A process for which no callback can come. -/
structure UVProcess.Quiet (p : UVProcess δ) : Prop where
  process : p.process ≠ .active
  pipe : ∀ stream, p.pipe stream ≠ .active

/-- The frames when no exit is being reported. -/
inductive Calls (p : UVProcess δ) : List Frame → Prop where
  | user : Calls p []
  | loop (caller : Caller) : Calls p [.loop caller]
  | onRead (caller : Caller) (hfinished : p.finished = none) :
      Calls p [.onRead, .loop caller]

/-- The frames while an exit is being reported. -/
inductive ReportCalls (p : UVProcess δ) (handle : UInt32) : List Frame → Prop where
  | user (caller : Caller) : ReportCalls p handle [.onExit handle p.number caller]
  | loop (inner caller : Caller) (hfinished : p.finished = none) :
      ReportCalls p handle [.loop inner, .onExit handle p.number caller]

theorem Calls.of_finished {p q : UVProcess δ} {running : List Frame} (h : Calls p running)
    (hfinished : q.finished = p.finished) : Calls q running := by
  cases h with
  | user => exact .user
  | loop caller => exact .loop caller
  | onRead caller hnone => exact .onRead caller (hfinished.trans hnone)

theorem ReportCalls.of_finished {p q : UVProcess δ} {handle : UInt32} {running : List Frame}
    (h : ReportCalls p handle running) (hfinished : q.finished = p.finished)
    (hnumber : q.number = p.number) : ReportCalls q handle running := by
  cases h with
  | user caller =>
      rw [← hnumber]
      exact .user caller
  | loop inner caller hnone =>
      rw [← hnumber]
      exact .loop inner caller (hfinished.trans hnone)

/-- Where the manager is. -/
inductive Stage (current : Option (Nat × Turn)) (processes : UInt32 → Option (UVProcess δ))
    (handle : UInt32) (running : List Frame) : Prop where
  | idle (hhandle : handle = nullCommonHandleID) (hcurrent : current = none)
      (hrunning : running = [] ∨ ∃ caller, running = [.loop caller])
  | child (p : UVProcess δ) (progress : Progress) (hhandle : handle ≠ nullCommonHandleID)
      (hp : processes handle = some p) (hcurrent : current = some (p.number, .child progress))
      (hchild : Child p progress) (hrunning : Calls p running)
  | reported (p : UVProcess δ) (hhandle : handle ≠ nullCommonHandleID)
      (hp : processes handle = some p) (hcurrent : current = none) (hclosable : p.Closable)
      (hquiet : p.Quiet) (hrunning : ReportCalls p handle running)

/-- The processes of the manager are those of the schedule; all but the one at `current` wait. -/
structure Jobs (made : Nat) (waiting : Nat → Option SpawnData)
    (processes : UInt32 → Option (UVProcess δ)) (current : UInt32) : Prop where
  valid : ∀ handle p, processes handle = some p → handle ≠ nullCommonHandleID
  number : ∀ handle p, processes handle = some p → p.number < made
  unique : ∀ handle other p q, processes handle = some p → processes other = some q →
    p.number = q.number → handle = other
  waits : ∀ handle p, processes handle = some p → handle ≠ current →
    p.Waits ∧ (waiting p.number).map SpawnData.options = some p.options
  waiting : ∀ number, waiting number ≠ none →
    ∃ handle p, processes handle = some p ∧ p.number = number ∧ handle ≠ current

/-- The manager follows the schedule. -/
structure Agrees (s : Schedule) (m : Manager δ) : Prop where
  made : s.made = m.made
  jobs : Jobs s.made s.waiting m.processes m.currentHandle
  stage : Stage s.current m.processes m.currentHandle m.running

/-- What is recorded of the manager follows a schedule. -/
def Scheduled (m : Manager δ) : Prop := ∃ s, schedule m.seen = some s ∧ Agrees s m

theorem UVProcess.Waits.quiet {p : UVProcess δ} (h : p.Waits) : p.Quiet where
  process := by
    rw [h.process]
    nofun
  pipe := fun stream => by
    rw [h.pipe stream]
    nofun

theorem PipeAgrees.isOpen {handle : UVHandle} {eof : Bool} {pipe : Pipe}
    (h : PipeAgrees handle eof pipe) : handle.Open := by
  cases h with
  | reading => exact .inr rfl
  | ended => exact .inl rfl
  | broken => exact .inl rfl

theorem PipeAgrees.reading_iff {handle : UVHandle} {eof : Bool} {pipe : Pipe}
    (h : PipeAgrees handle eof pipe) : handle = .active ↔ pipe = .reading := by
  cases h with
  | reading => exact ⟨fun _ => rfl, fun _ => rfl⟩
  | ended => exact ⟨nofun, nofun⟩
  | broken => exact ⟨nofun, nofun⟩

theorem PipeAgrees.ended_iff {handle : UVHandle} {eof : Bool} {pipe : Pipe}
    (h : PipeAgrees handle eof pipe) : eof = true ↔ pipe = .ended := by
  cases h with
  | reading => exact ⟨nofun, nofun⟩
  | ended => exact ⟨fun _ => rfl, fun _ => rfl⟩
  | broken => exact ⟨nofun, nofun⟩

theorem PipeAgrees.not_eof {handle : UVHandle} {eof : Bool} {pipe : Pipe}
    (h : PipeAgrees handle eof pipe) (hactive : handle = .active) : eof = false := by
  cases h with
  | reading => rfl
  | ended => cases hactive
  | broken => cases hactive

theorem Child.closable {p : UVProcess δ} {progress : Progress} (h : Child p progress) :
    p.Closable where
  process := by
    rcases h.process with ⟨hprocess, _⟩ | ⟨hprocess, _⟩
    · exact .inr hprocess
    · exact .inl hprocess
  inPipe := h.inPipe
  pipe := fun stream => (h.pipe stream).isOpen

/-- The test of the manager is that of the schedule. -/
theorem Child.result {p : UVProcess δ} {progress : Progress} (h : Child p progress) :
    (Turn.child progress).result = p.finished := by
  have herr := (h.pipe .err).ended_iff
  have hout := (h.pipe .out).ended_iff
  rw [Turn.result, UVProcess.finished, h.exit]
  refine if_congr ?_ rfl rfl
  exact and_congr herr.symm hout.symm

/-- A child that has exited with both pipes at their end is quiet. -/
theorem Child.quiet {p : UVProcess δ} {progress : Progress} (h : Child p progress)
    (hfinished : p.finished ≠ none) : p.Quiet := by
  have hends : p.errPipeEof = true ∧ p.outPipeEof = true := by
    by_contra hnot
    exact hfinished (if_neg hnot)
  have hexit : p.exit ≠ none := by
    rw [UVProcess.finished, if_pos hends] at hfinished
    exact hfinished
  refine ⟨fun hactive => ?_, fun stream hactive => ?_⟩
  · rcases h.process with ⟨_, hnone⟩ | ⟨hidle, _⟩
    · exact hexit hnone
    · cases hactive.symm.trans hidle
  · have hreading := (h.pipe stream).reading_iff.mp hactive
    cases stream with
    | out => cases hreading.symm.trans ((h.pipe .out).ended_iff.mp hends.2)
    | err => cases hreading.symm.trans ((h.pipe .err).ended_iff.mp hends.1)

/-- While a pipe is read the child is not finished. -/
theorem Child.not_finished {p : UVProcess δ} {progress : Progress} (h : Child p progress)
    {stream : Stream} (hactive : p.pipe stream = .active) : p.finished = none := by
  by_contra hnot
  exact (h.quiet hnot).pipe stream hactive

/-! ## The processes that wait -/

section

variable {made : Nat} {waiting : Nat → Option SpawnData}
  {processes : UInt32 → Option (UVProcess δ)} {current : UInt32}

/-- A process changes, but not its number. -/
theorem Jobs.set (h : Jobs made waiting processes current) {handle : UInt32} {p q : UVProcess δ}
    (hp : processes handle = some p) (hnumber : q.number = p.number)
    (hwaits : handle ≠ current → p.Waits → q.Waits ∧ q.options = p.options) :
    Jobs made waiting (Function.update processes handle (some q)) current := by
  have hback : ∀ other r, Function.update processes handle (some q) other = some r →
      ∃ r', processes other = some r' ∧ r'.number = r.number := by
    intro other r hr
    by_cases heq : other = handle
    · subst heq
      rw [Function.update_self, Option.some.injEq] at hr
      exact ⟨p, hp, hr ▸ hnumber.symm⟩
    · rw [Function.update_of_ne heq] at hr
      exact ⟨r, hr, rfl⟩
  refine ⟨fun other r hr => ?_, fun other r hr => ?_, fun one two r r' hr hr' heq => ?_,
    fun other r hr hother => ?_, fun number hsome => ?_⟩
  · obtain ⟨r', hr', _⟩ := hback other r hr
    exact h.valid other r' hr'
  · obtain ⟨r', hr', hsame⟩ := hback other r hr
    exact hsame ▸ h.number other r' hr'
  · obtain ⟨q₁, hq₁, hsame₁⟩ := hback one r hr
    obtain ⟨q₂, hq₂, hsame₂⟩ := hback two r' hr'
    exact h.unique one two q₁ q₂ hq₁ hq₂ ((hsame₁.trans heq).trans hsame₂.symm)
  · by_cases heq : other = handle
    · subst heq
      rw [Function.update_self, Option.some.injEq] at hr
      subst hr
      obtain ⟨hp', hoptions⟩ := h.waits other p hp hother
      obtain ⟨hq, hsame⟩ := hwaits hother hp'
      refine ⟨hq, ?_⟩
      rw [hnumber, hsame]
      exact hoptions
    · rw [Function.update_of_ne heq] at hr
      exact h.waits other r hr hother
  · obtain ⟨other, r, hr, hsame, hother⟩ := h.waiting number hsome
    by_cases heq : other = handle
    · subst heq
      cases hr.symm.trans hp
      exact ⟨other, q, Function.update_self other _ _, hnumber.trans hsame, hother⟩
    · exact ⟨other, r, (Function.update_of_ne heq _ _).trans hr, hsame, hother⟩

/-- A process is accepted. -/
theorem Jobs.accept (h : Jobs made waiting processes current) {handle : UInt32}
    {q : UVProcess δ} {data : SpawnData} (hvalid : handle ≠ nullCommonHandleID)
    (hnone : processes handle = none) (hcurrent : handle ≠ current) (hnumber : q.number = made)
    (hwaits : q.Waits) (hoptions : data.options = q.options) :
    Jobs (made + 1) (Function.update waiting made (some data))
      (Function.update processes handle (some q)) current := by
  have hold : ∀ other r, processes other = some r → other ≠ handle := by
    rintro other r hr rfl
    cases hr.symm.trans hnone
  have hcases : ∀ other r, Function.update processes handle (some q) other = some r →
      (other = handle ∧ q = r) ∨ processes other = some r := by
    intro other r hr
    by_cases heq : other = handle
    · subst heq
      rw [Function.update_self, Option.some.injEq] at hr
      exact .inl ⟨rfl, hr⟩
    · rw [Function.update_of_ne heq] at hr
      exact .inr hr
  refine ⟨fun other r hr => ?_, fun other r hr => ?_, fun one two r r' hr hr' heq => ?_,
    fun other r hr hother => ?_, fun number hsome => ?_⟩
  · rcases hcases other r hr with ⟨rfl, rfl⟩ | hr
    · exact hvalid
    · exact h.valid other r hr
  · rcases hcases other r hr with ⟨rfl, rfl⟩ | hr
    · rw [hnumber]
      exact Nat.lt_succ_self made
    · exact Nat.lt_succ_of_lt (h.number other r hr)
  · rcases hcases one r hr with ⟨rfl, rfl⟩ | hone
    · rcases hcases two r' hr' with ⟨rfl, rfl⟩ | htwo
      · rfl
      · have hless := h.number two r' htwo
        omega
    · rcases hcases two r' hr' with ⟨rfl, rfl⟩ | htwo
      · have hless := h.number one r hone
        omega
      · exact h.unique one two r r' hone htwo heq
  · rcases hcases other r hr with ⟨rfl, rfl⟩ | hr
    · refine ⟨hwaits, ?_⟩
      rw [hnumber, Function.update_self]
      exact congrArg some hoptions
    · have hless := h.number other r hr
      rw [Function.update_of_ne hless.ne]
      exact h.waits other r hr hother
  · by_cases heq : number = made
    · exact ⟨handle, q, Function.update_self handle _ _, hnumber.trans heq.symm, hcurrent⟩
    · rw [Function.update_of_ne heq] at hsome
      obtain ⟨other, r, hr, hsame, hother⟩ := h.waiting number hsome
      exact ⟨other, r, (Function.update_of_ne (hold other r hr) _ _).trans hr, hsame, hother⟩

/-- A process gets its turn. -/
theorem Jobs.pick (h : Jobs made waiting processes nullCommonHandleID) {handle : UInt32}
    {p : UVProcess δ} (hp : processes handle = some p) :
    Jobs made (Function.update waiting p.number none) processes handle := by
  refine ⟨h.valid, h.number, h.unique, fun other r hr hother => ?_, fun number hsome => ?_⟩
  · have hne : r.number ≠ p.number := fun heq => hother (h.unique other handle r p hr hp heq)
    rw [Function.update_of_ne hne]
    exact h.waits other r hr (h.valid other r hr)
  · by_cases heq : number = p.number
    · rw [heq, Function.update_self] at hsome
      exact absurd rfl hsome
    · rw [Function.update_of_ne heq] at hsome
      obtain ⟨other, r, hr, hsame, _⟩ := h.waiting number hsome
      have hother : other ≠ handle := by
        rintro rfl
        cases hr.symm.trans hp
        exact heq hsame.symm
      exact ⟨other, r, hr, hsame, hother⟩

/-- A process is cleared. -/
theorem Jobs.clear (h : Jobs made waiting processes current) :
    Jobs made waiting (Function.update processes current none) nullCommonHandleID := by
  have hback : ∀ other r, Function.update processes current none other = some r →
      other ≠ current ∧ processes other = some r := by
    intro other r hr
    by_cases heq : other = current
    · subst heq
      rw [Function.update_self] at hr
      cases hr
    · rw [Function.update_of_ne heq] at hr
      exact ⟨heq, hr⟩
  refine ⟨fun other r hr => ?_, fun other r hr => ?_, fun one two r r' hr hr' heq => ?_,
    fun other r hr _ => ?_, fun number hsome => ?_⟩
  · exact h.valid other r (hback other r hr).2
  · exact h.number other r (hback other r hr).2
  · exact h.unique one two r r' (hback one r hr).2 (hback two r' hr').2 heq
  · obtain ⟨hother, hr⟩ := hback other r hr
    exact h.waits other r hr hother
  · obtain ⟨other, r, hr, hsame, hother⟩ := h.waiting number hsome
    exact ⟨other, r, (Function.update_of_ne hother _ _).trans hr, hsame, h.valid other r hr⟩

end

/-! ## The steps -/

theorem UVHandle.Open.close {handle : UVHandle} (h : handle.Open) :
    handle.close = some .closed := by
  rcases h with rfl | rfl
  · rfl
  · rfl

theorem Manager.clearProcessData_eq {m : Manager δ} {handle : UInt32} {p : UVProcess δ}
    (hp : m.processes handle = some p) (hclosable : p.Closable) (hcallback : ¬ m.inCallback) :
    m.clearProcessData handle =
      some { m with
        processes := Function.update m.processes handle none
        currentHandle := nullCommonHandleID } := by
  rw [clearProcessData, hp]
  show (p.process.close.bind fun _ => p.inPipe.close.bind fun _ => p.outPipe.close.bind fun _ =>
    p.errPipe.close.bind fun _ => if m.inCallback then none else _) = _
  have hout : p.outPipe.close = some .closed := (hclosable.pipe .out).close
  have herr : p.errPipe.close = some .closed := (hclosable.pipe .err).close
  rw [hclosable.process.close, hclosable.inPipe.close, hout, herr]
  exact if_neg hcallback

theorem Manager.finish_unfinished {m : Manager δ} {p : UVProcess δ}
    (hp : m.processes m.currentHandle = some p) (hnone : p.finished = none) (caller : Caller) :
    m.finish caller = m.uvRun caller := by
  rw [finish, hp, Option.bind_some, hnone]

theorem Manager.finish_finished {m : Manager δ} {p : UVProcess δ} {status signal : Int}
    (hp : m.processes m.currentHandle = some p) (hsome : p.finished = some (status, signal))
    (caller : Caller) :
    m.finish caller = m.report m.currentHandle p status signal caller := by
  rw [finish, hp, Option.bind_some, hsome]

/-- `SpawnProcess` accepts a process under a handle that is free, or only draws a number. -/
theorem Manager.spawnProcess_cases (m : Manager δ) (data : SpawnData) :
    (∃ processCount, (m.spawnProcess data).2 = { m with processCount }) ∨
      ∃ handle processCount, handle ≠ nullCommonHandleID ∧ m.processes handle = none ∧
        (m.spawnProcess data).2 =
          ({ m with processCount, made := m.made + 1 }.set handle (.new m.made handle data)).record
            m.made (.accepted data) := by
  rw [spawnProcess]
  split
  · exact .inl ⟨m.processCount, rfl⟩
  · cases hold : m.processes (drawID m.processCount).1 with
    | some p =>
        refine .inl ⟨(drawID m.processCount).2, ?_⟩
        dsimp only
        rw [hold]
    | none =>
        refine .inr ⟨(drawID m.processCount).1, (drawID m.processCount).2, drawID_ne_null _, hold,
          ?_⟩
        dsimp only
        rw [hold]

theorem UVProcess.new_waits (number : Nat) (handle : UInt32) (data : SpawnData) :
    (new number handle data : UVProcess δ).Waits := by
  refine ⟨rfl, fun stream => ?_, rfl, fun stream => ?_⟩
  · cases stream with
    | out => rfl
    | err => rfl
  · cases stream with
    | out => rfl
    | err => rfl

theorem UVProcess.new_options (number : Nat) (handle : UInt32) (data : SpawnData) :
    data.options = (new number handle data : UVProcess δ).options := by
  have hcwd : ((if data.cwd = [] then none else some data.cwd).map cString) =
      if data.cwd = [] then none else some (cString data.cwd) := by
    split
    · rfl
    · rfl
  exact congrArg (fun cwd => ProcessOptions.mk _ _ cwd data.hideWindow) hcwd.symm

/-- The data of a process that was reported is cleared, and the loop runs. -/
theorem Scheduled.clear {m : Manager δ} {s : Schedule} {p : UVProcess δ}
    (hseen : schedule m.seen = some s) (hmade : s.made = m.made)
    (hjobs : Jobs s.made s.waiting m.processes m.currentHandle) (hcurrent : s.current = none)
    (hp : m.processes m.currentHandle = some p) (hclosable : p.Closable)
    (hrunning : m.running = []) (caller : Caller) :
    ∃ t, ((m.clearProcessData m.currentHandle).bind fun m => m.uvRun caller) = some t ∧
      Scheduled t := by
  have hcallback : ¬ m.inCallback := by
    rw [Manager.inCallback, hrunning]
    exact List.not_mem_nil
  rw [Manager.clearProcessData_eq hp hclosable hcallback]
  refine ⟨_, if_neg hcallback, s, hseen, hmade, hjobs.clear,
    .idle rfl hcurrent (.inr ⟨caller, ?_⟩)⟩
  exact congrArg _ hrunning

/-- The end of a turn is reported. -/
theorem Scheduled.report {m : Manager δ} {s : Schedule} {p : UVProcess δ} {turn : Turn}
    {status signal : Int} (hseen : schedule m.seen = some s) (hmade : s.made = m.made)
    (hjobs : Jobs s.made s.waiting m.processes m.currentHandle)
    (hcurrent : s.current = some (p.number, turn)) (hresult : turn.result = some (status, signal))
    (hp : m.processes m.currentHandle = some p) (hclosable : p.Closable) (hquiet : p.Quiet)
    (hrunning : m.running = []) (caller : Caller) :
    ∃ t, m.report m.currentHandle p status signal caller = some t ∧ Scheduled t := by
  have hseen' := schedule_append hseen
    (Schedule.next_onExit hcurrent hresult p.onExitDelegate)
  rw [Manager.report]
  split
  · refine ⟨_, rfl, _, hseen', hmade, hjobs, .reported p (hjobs.valid _ _ hp) hp rfl hclosable
      hquiet ?_⟩
    show ReportCalls p m.currentHandle (.onExit m.currentHandle p.number caller :: m.running)
    rw [hrunning]
    exact .user caller
  · exact Scheduled.clear (m := m.record p.number (.onExit p.onExitDelegate status signal))
      (s := { s with current := none }) hseen' hmade hjobs rfl hp hclosable hrunning caller

/-- `uv_spawn` fails, or both pipes can be read. -/
def SpawnResult.Reads (result : SpawnResult) : Prop := result = .started ∨ result = .notSpawned

instance (result : SpawnResult) : Decidable result.Reads :=
  inferInstanceAs (Decidable (_ ∨ _))

theorem UVProcess.Waits.child {p : UVProcess δ} (h : p.Waits) :
    Child (p.internalSpawnProcess .started).1 {} := by
  refine ⟨h.exit.symm, .inl ⟨rfl, h.exit⟩, .inl rfl, fun stream => ?_⟩
  cases stream with
  | out =>
      have heof : p.outPipeEof = false := h.pipeEof .out
      show PipeAgrees .active p.outPipeEof .reading
      rw [heof]
      exact .reading
  | err =>
      have heof : p.errPipeEof = false := h.pipeEof .err
      show PipeAgrees .active p.errPipeEof .reading
      rw [heof]
      exact .reading

theorem UVProcess.notSpawned_closable (p : UVProcess δ) :
    (p.internalSpawnProcess .notSpawned).1.Closable := by
  refine ⟨.inl rfl, .inl rfl, fun stream => ?_⟩
  cases stream with
  | out => exact .inl rfl
  | err => exact .inl rfl

theorem UVProcess.notSpawned_quiet (p : UVProcess δ) :
    (p.internalSpawnProcess .notSpawned).1.Quiet := by
  refine ⟨nofun, fun stream => ?_⟩
  cases stream with
  | out => nofun
  | err => nofun

/-- A process gets its turn. -/
theorem Scheduled.start {m : Manager δ} {s : Schedule} {p : UVProcess δ} {handle : UInt32}
    {result : SpawnResult} (hseen : schedule m.seen = some s) (hmade : s.made = m.made)
    (hjobs : Jobs s.made s.waiting m.processes nullCommonHandleID) (hcurrent : s.current = none)
    (hp : m.processes handle = some p) (hresult : result.Reads) (hrunning : m.running = [])
    (caller : Caller) : ∃ t, m.start handle result caller = some t ∧ Scheduled t := by
  have hvalid := hjobs.valid handle p hp
  obtain ⟨hwaits, hoptions⟩ := hjobs.waits handle p hp hvalid
  have hcallback : ¬ m.inCallback := by
    rw [Manager.inCallback, hrunning]
    exact List.not_mem_nil
  rw [Manager.start, hp]
  rcases hresult with rfl | rfl
  · have hnext : s.next (p.number, (.started p.options : Seen δ)) = _ :=
      Schedule.take_eq hcurrent hoptions (.child {})
    have hseen' := schedule_append hseen hnext
    refine ⟨_, if_neg hcallback, _, hseen', hmade, (hjobs.pick hp).set hp rfl ?_,
      .child _ {} hvalid (Function.update_self handle _ _) rfl hwaits.child ?_⟩
    · exact fun hne => absurd rfl hne
    · show Calls _ (.loop caller :: m.running)
      rw [hrunning]
      exact .loop caller
  · have hnext : s.next (p.number, (.notStarted p.options : Seen δ)) = _ :=
      Schedule.take_eq hcurrent hoptions .failed
    have hseen' := schedule_append hseen hnext
    have hjobs' : Jobs s.made (Function.update s.waiting p.number none)
        (Function.update m.processes handle (some (p.internalSpawnProcess .notSpawned).1)) handle :=
      (hjobs.pick hp).set hp rfl fun hne => absurd rfl hne
    exact Scheduled.report
      (m := ({ m with currentHandle := handle }.set handle
        (p.internalSpawnProcess .notSpawned).1).record p.number (.notStarted p.options))
      (p := (p.internalSpawnProcess .notSpawned).1) hseen' hmade hjobs' rfl rfl
      (Function.update_self handle _ _) p.notSpawned_closable p.notSpawned_quiet hrunning caller

/-- The manager looks after the child. -/
theorem Scheduled.finish {m : Manager δ} {s : Schedule} {p : UVProcess δ} {progress : Progress}
    (hseen : schedule m.seen = some s) (hmade : s.made = m.made)
    (hjobs : Jobs s.made s.waiting m.processes m.currentHandle)
    (hp : m.processes m.currentHandle = some p)
    (hcurrent : s.current = some (p.number, .child progress)) (hchild : Child p progress)
    (hrunning : m.running = []) (caller : Caller) :
    ∃ t, m.finish caller = some t ∧ Scheduled t := by
  have hcallback : ¬ m.inCallback := by
    rw [Manager.inCallback, hrunning]
    exact List.not_mem_nil
  cases hfinished : p.finished with
  | none =>
      rw [Manager.finish_unfinished hp hfinished]
      refine ⟨_, if_neg hcallback, s, hseen, hmade, hjobs,
        .child p progress (hjobs.valid _ _ hp) hp hcurrent hchild ?_⟩
      show Calls p (.loop caller :: m.running)
      rw [hrunning]
      exact .loop caller
  | some result =>
      have hquiet := hchild.quiet (by rw [hfinished]; nofun)
      rw [Manager.finish_finished hp hfinished]
      exact Scheduled.report hseen hmade hjobs hcurrent (hchild.result.trans hfinished) hp
        hchild.closable hquiet hrunning caller

theorem Stage.current_valid {current : Option (Nat × Turn)}
    {processes : UInt32 → Option (UVProcess δ)} {handle : UInt32} {running : List Frame}
    (h : Stage current processes handle running) :
    handle = nullCommonHandleID ∨ processes handle ≠ none := by
  cases h with
  | idle hhandle => exact .inl hhandle
  | child p _ _ hp => exact .inr (by rw [hp]; nofun)
  | reported p _ hp => exact .inr (by rw [hp]; nofun)

/-- Another process changes. -/
theorem Stage.set_other {current : Option (Nat × Turn)}
    {processes : UInt32 → Option (UVProcess δ)} {handle other : UInt32} {running : List Frame}
    (h : Stage current processes handle running) (hne : handle ≠ other)
    (q : Option (UVProcess δ)) :
    Stage current (Function.update processes other q) handle running := by
  cases h with
  | idle hhandle hcurrent hrunning => exact .idle hhandle hcurrent hrunning
  | child p progress hhandle hp hcurrent hchild hrunning =>
      exact .child p progress hhandle ((Function.update_of_ne hne _ _).trans hp) hcurrent hchild
        hrunning
  | reported p hhandle hp hcurrent hclosable hquiet hrunning =>
      exact .reported p hhandle ((Function.update_of_ne hne _ _).trans hp) hcurrent hclosable
        hquiet hrunning

theorem Scheduled.spawnProcess {m : Manager δ} (h : Scheduled m) (data : SpawnData) :
    Scheduled (m.spawnProcess data).2 := by
  obtain ⟨s, hseen, hmade, hjobs, hstage⟩ := h
  rcases m.spawnProcess_cases data with ⟨processCount, hsame⟩ |
    ⟨handle, processCount, hvalid, hnone, hnew⟩
  · rw [hsame]
    exact ⟨s, hseen, hmade, hjobs, hstage⟩
  · rw [hnew]
    have hother : handle ≠ m.currentHandle := by
      rintro rfl
      rcases hstage.current_valid with hnull | hsome
      · exact hvalid hnull
      · exact hsome hnone
    have hnext : s.next (m.made, (.accepted data : Seen δ)) = _ := if_pos hmade.symm
    refine ⟨_, schedule_append hseen hnext, congrArg Nat.succ hmade, ?_,
      hstage.set_other hother.symm _⟩
    show Jobs (s.made + 1) (Function.update s.waiting m.made (some data)) _ m.currentHandle
    rw [← hmade]
    exact hjobs.accept hvalid hnone hother rfl (UVProcess.new_waits _ _ data)
      (UVProcess.new_options _ _ data)

/-- Delegates are registered. -/
theorem Scheduled.register {m : Manager δ} (h : Scheduled m) {handle : UInt32}
    {p : UVProcess δ} (hp : m.processes handle = some p) (onRead onExit : Option δ) :
    Scheduled (m.set handle { p with onReadDelegate := onRead, onExitDelegate := onExit }) := by
  obtain ⟨s, hseen, hmade, hjobs, hstage⟩ := h
  have hjobs' : Jobs s.made s.waiting (m.set handle
      { p with onReadDelegate := onRead, onExitDelegate := onExit }).processes m.currentHandle :=
    hjobs.set hp rfl fun _ hwaits =>
      ⟨⟨hwaits.process, hwaits.pipe, hwaits.exit, hwaits.pipeEof⟩, rfl⟩
  refine ⟨s, hseen, hmade, hjobs', ?_⟩
  by_cases hcurrent : m.currentHandle = handle
  · subst hcurrent
    have hself := m.set_self m.currentHandle
      { p with onReadDelegate := onRead, onExitDelegate := onExit }
    cases hstage with
    | idle hhandle hcurrent hrunning => exact .idle hhandle hcurrent hrunning
    | child q progress hhandle hq hcurrent hchild hrunning =>
        cases hp.symm.trans hq
        exact .child _ progress hhandle hself hcurrent
          ⟨hchild.exit, hchild.process, hchild.inPipe, hchild.pipe⟩ (hrunning.of_finished rfl)
    | reported q hhandle hq hcurrent hclosable hquiet hrunning =>
        cases hp.symm.trans hq
        exact .reported _ hhandle hself hcurrent
          ⟨hclosable.process, hclosable.inPipe, hclosable.pipe⟩ ⟨hquiet.process, hquiet.pipe⟩
          (hrunning.of_finished rfl rfl)
  · exact hstage.set_other hcurrent _

/-- When a delegate may run the manager: it was not called by the loop, and no exit of a child that
ran is being reported. -/
def Manager.Calm (m : Manager δ) : Prop :=
  ¬ m.inCallback ∧ ∀ handle number caller, .onExit handle number caller ∈ m.running →
    ∀ p, m.processes handle = some p → p.finished = none

/-- A delegate runs the manager only when it may, and what was started can be read. -/
def Manager.Polite (m : Manager δ) : Event δ → Prop
  | .tick first result =>
      m.Calm ∧ (m.currentHandle = nullCommonHandleID → first ≠ none → result.Reads)
  | .run => m.Calm
  | .loopReturns first result =>
      m.running.head? = some (.loop .run) → m.currentHandle = nullCommonHandleID →
        first ≠ none → result.Reads
  | _ => True

/-- While the exit of a process that could not be started is reported, the manager only loops. -/
theorem Scheduled.finish_reported {m : Manager δ} {s : Schedule} {p : UVProcess δ}
    (hseen : schedule m.seen = some s) (hmade : s.made = m.made)
    (hjobs : Jobs s.made s.waiting m.processes m.currentHandle) (hcurrent : s.current = none)
    (hp : m.processes m.currentHandle = some p) (hclosable : p.Closable) (hquiet : p.Quiet)
    (hfinished : p.finished = none) {caller : Caller}
    (hrunning : m.running = [.onExit m.currentHandle p.number caller]) (inner : Caller) :
    ∃ t, m.finish inner = some t ∧ Scheduled t := by
  have hcallback : ¬ m.inCallback := by
    rw [Manager.inCallback, hrunning]
    nofun
  rw [Manager.finish_unfinished hp hfinished]
  refine ⟨_, if_neg hcallback, s, hseen, hmade, hjobs,
    .reported p (hjobs.valid _ _ hp) hp hcurrent hclosable hquiet ?_⟩
  show ReportCalls p m.currentHandle (.loop inner :: m.running)
  rw [hrunning]
  exact .loop inner caller hfinished

theorem Manager.UsersTurn.head {m : Manager δ} (h : m.UsersTurn) {caller : Caller}
    {running : List Frame} : m.running ≠ .loop caller :: running := by
  intro heq
  refine h caller ?_
  rw [heq]
  rfl

theorem Manager.Looping.head {m : Manager δ} (h : m.Looping) :
    ∃ caller running, m.running = .loop caller :: running := by
  obtain ⟨caller, hhead⟩ := h
  obtain ⟨running, hrunning⟩ := List.head?_eq_some_iff.mp hhead
  exact ⟨caller, running, hrunning⟩

/-- When nothing has its turn, the user's turn is outside of all calls. -/
theorem Scheduled.begin {m : Manager δ} (h : Scheduled m) (hturn : m.UsersTurn)
    (hhandle : m.currentHandle = nullCommonHandleID) {handle : UInt32}
    (hsome : m.processes handle ≠ none) {result : SpawnResult} (hreads : result.Reads)
    (caller : Caller) : ∃ t, m.start handle result caller = some t ∧ Scheduled t := by
  obtain ⟨s, hseen, hmade, hjobs, hstage⟩ := h
  obtain ⟨p, hp⟩ := Option.ne_none_iff_exists'.mp hsome
  cases hstage with
  | idle _ hcurrent hrunning =>
      rcases hrunning with hnone | ⟨other, hloop⟩
      · exact Scheduled.start hseen hmade (hhandle ▸ hjobs) hcurrent hp hreads hnone caller
      · exact absurd hloop hturn.head
  | child _ _ hvalid => exact absurd hhandle hvalid
  | reported _ hvalid => exact absurd hhandle hvalid

theorem Scheduled.look {m : Manager δ} (h : Scheduled m) (hturn : m.UsersTurn) (hcalm : m.Calm)
    (hvalid : m.currentHandle ≠ nullCommonHandleID) (caller : Caller) :
    ∃ t, m.finish caller = some t ∧ Scheduled t := by
  obtain ⟨s, hseen, hmade, hjobs, hstage⟩ := h
  cases hstage with
  | idle hhandle => exact absurd hhandle hvalid
  | child p progress _ hp hcurrent hchild hrunning =>
      generalize hframes : m.running = running at hrunning
      cases hrunning with
      | user => exact Scheduled.finish hseen hmade hjobs hp hcurrent hchild hframes caller
      | loop other => exact absurd hframes hturn.head
      | onRead other hfinished =>
          refine absurd ?_ hcalm.1
          rw [Manager.inCallback, hframes]
          exact List.mem_cons_self
  | reported p _ hp hcurrent hclosable hquiet hrunning =>
      generalize hframes : m.running = running at hrunning
      cases hrunning with
      | user other =>
          have hmem : Frame.onExit m.currentHandle p.number other ∈ m.running := by
            rw [hframes]
            exact List.mem_cons_self
          exact Scheduled.finish_reported hseen hmade hjobs hcurrent hp hclosable hquiet
            (hcalm.2 _ _ _ hmem p hp) hframes caller
      | loop inner other hfinished => exact absurd hframes hturn.head

theorem Scheduled.tick {m : Manager δ} (h : Scheduled m) {first : Option UInt32}
    {result : SpawnResult} (hturn : m.UsersTurn) (hfirst : m.Begins first) (hcalm : m.Calm)
    (hreads : m.currentHandle = nullCommonHandleID → first ≠ none → result.Reads) :
    ∃ t, m.tick first result = some t ∧ Scheduled t := by
  by_cases hhandle : m.currentHandle = nullCommonHandleID
  · cases first with
    | none => exact ⟨m, if_pos hhandle, h⟩
    | some handle =>
        obtain ⟨t, ht, hscheduled⟩ := h.begin hturn hhandle hfirst (hreads hhandle nofun) .tick
        exact ⟨t, (if_pos hhandle).trans ht, hscheduled⟩
  · obtain ⟨t, ht, hscheduled⟩ := h.look hturn hcalm hhandle .tick
    exact ⟨t, (if_neg hhandle).trans ht, hscheduled⟩

theorem Scheduled.run {m : Manager δ} (h : Scheduled m) (hturn : m.UsersTurn)
    (hcalm : m.Calm) : ∃ t, m.uvRun .run = some t ∧ Scheduled t := by
  obtain ⟨s, hseen, hmade, hjobs, hstage⟩ := h
  refine ⟨_, if_neg hcalm.1, s, hseen, hmade, hjobs, ?_⟩
  show Stage s.current m.processes m.currentHandle (.loop .run :: m.running)
  cases hstage with
  | idle hhandle hcurrent hrunning =>
      rcases hrunning with hnone | ⟨caller, hloop⟩
      · rw [hnone]
        exact .idle hhandle hcurrent (.inr ⟨.run, rfl⟩)
      · exact absurd hloop hturn.head
  | child p progress hhandle hp hcurrent hchild hrunning =>
      refine .child p progress hhandle hp hcurrent hchild ?_
      generalize hframes : m.running = running at hrunning
      cases hrunning with
      | user => exact .loop .run
      | loop caller => exact absurd hframes hturn.head
      | onRead caller hfinished =>
          refine absurd ?_ hcalm.1
          rw [Manager.inCallback, hframes]
          exact List.mem_cons_self
  | reported p hhandle hp hcurrent hclosable hquiet hrunning =>
      refine .reported p hhandle hp hcurrent hclosable hquiet ?_
      generalize hframes : m.running = running at hrunning
      cases hrunning with
      | user caller =>
          have hmem : Frame.onExit m.currentHandle p.number caller ∈ m.running := by
            rw [hframes]
            exact List.mem_cons_self
          exact .loop .run caller (hcalm.2 _ _ _ hmem p hp)
      | loop inner caller hfinished => exact absurd hframes hturn.head

/-- When the loop returns, its caller goes on where it may. -/
theorem Scheduled.pop {m : Manager δ} (h : Scheduled m) {caller : Caller} {running : List Frame}
    (hframes : m.running = .loop caller :: running) :
    Scheduled { m with running } ∧ Manager.UsersTurn { m with running } ∧
      Manager.Calm { m with running } := by
  obtain ⟨s, hseen, hmade, hjobs, hstage⟩ := h
  have hnothing : Manager.UsersTurn { m with running := [] } ∧
      Manager.Calm { m with running := [] } :=
    ⟨fun _ => nofun, List.not_mem_nil, fun _ _ _ hmem => absurd hmem List.not_mem_nil⟩
  cases hstage with
  | idle hhandle hcurrent hrunning =>
      rcases hrunning with hnone | ⟨other, hother⟩
      · cases hframes.symm.trans hnone
      · cases hframes.symm.trans hother
        exact ⟨⟨s, hseen, hmade, hjobs, .idle hhandle hcurrent (.inl rfl)⟩, hnothing⟩
  | child p progress hhandle hp hcurrent hchild hrunning =>
      rw [hframes] at hrunning
      cases hrunning
      exact ⟨⟨s, hseen, hmade, hjobs, .child p progress hhandle hp hcurrent hchild .user⟩,
        hnothing⟩
  | reported p hhandle hp hcurrent hclosable hquiet hrunning =>
      rw [hframes] at hrunning
      cases hrunning with
      | loop inner other hfinished =>
          refine ⟨⟨s, hseen, hmade, hjobs,
            .reported p hhandle hp hcurrent hclosable hquiet (.user other)⟩,
            fun _ => nofun, nofun, fun handle number caller hmem q hq => ?_⟩
          cases List.mem_singleton.mp hmem
          cases hp.symm.trans hq
          exact hfinished

theorem Scheduled.loopReturns {m : Manager δ} (h : Scheduled m) {first : Option UInt32}
    {result : SpawnResult} (hloop : m.Looping) (hfirst : m.Begins first)
    (hreads : m.running.head? = some (.loop .run) → m.currentHandle = nullCommonHandleID →
      first ≠ none → result.Reads) :
    ∃ t, m.loopReturns first result = some t ∧ Scheduled t := by
  obtain ⟨caller, running, hframes⟩ := hloop.head
  obtain ⟨hafter, hturn, hcalm⟩ := h.pop hframes
  rw [Manager.loopReturns, hframes]
  cases caller with
  | tick => exact ⟨_, rfl, hafter⟩
  | run =>
      cases first with
      | none => exact ⟨_, rfl, hafter⟩
      | some handle =>
          show ∃ t, (if m.currentHandle = nullCommonHandleID then _ else _) = some t ∧ _
          split
          · rename_i hhandle
            have hhead : m.running.head? = some (.loop .run) := by
              rw [hframes]
              rfl
            exact hafter.begin hturn hhandle hfirst (hreads hhead hhandle nofun) .run
          · rename_i hhandle
            exact hafter.look hturn hcalm hhandle .run

/-- libuv calls back only for the child. -/
theorem Agrees.callback {s : Schedule} {m : Manager δ} (h : Agrees s m) (hloop : m.Looping)
    {handle : UInt32} {p : UVProcess δ} (hp : m.processes handle = some p) (hactive : ¬ p.Quiet) :
    handle = m.currentHandle ∧ ∃ progress caller, s.current = some (p.number, .child progress) ∧
      Child p progress ∧ m.running = [.loop caller] := by
  have hcurrent : handle = m.currentHandle := by
    by_contra hne
    exact hactive (h.jobs.waits handle p hp hne).1.quiet
  subst hcurrent
  refine ⟨rfl, ?_⟩
  obtain ⟨caller, running, hframes⟩ := hloop.head
  cases h.stage with
  | idle hhandle => exact absurd hhandle (h.jobs.valid _ p hp)
  | child q progress hhandle hq hcurrent hchild hrunning =>
      cases hp.symm.trans hq
      rw [hframes] at hrunning
      cases hrunning
      exact ⟨progress, caller, hcurrent, hchild, hframes⟩
  | reported q hhandle hq hcurrent hclosable hquiet hrunning =>
      cases hp.symm.trans hq
      exact absurd hquiet hactive

theorem Scheduled.onUvProcessClosed {m : Manager δ} (h : Scheduled m) (hloop : m.Looping)
    {handle : UInt32} {p : UVProcess δ} (hp : m.processes handle = some p)
    (hactive : p.process = .active) (status signal : Int) :
    ∃ t, m.onUvProcessClosed handle status signal = some t ∧ Scheduled t := by
  obtain ⟨s, hseen, hagrees⟩ := h
  obtain ⟨rfl, progress, caller, hcurrent, hchild, hframes⟩ :=
    hagrees.callback hloop hp fun hquiet => hquiet.process hactive
  have hnone : p.exit = none := by
    rcases hchild.process with ⟨_, hnone⟩ | ⟨hidle, _⟩
    · exact hnone
    · cases hactive.symm.trans hidle
  have hnext : s.next (p.number, (.exited status signal : Seen δ)) = _ :=
    Schedule.advance_eq hcurrent (if_pos (hchild.exit.trans hnone))
  rw [Manager.onUvProcessClosed, hp]
  refine ⟨_, rfl, _, schedule_append hseen hnext, hagrees.made,
    hagrees.jobs.set hp rfl fun hne => absurd rfl hne,
    .child _ _ (hagrees.jobs.valid _ p hp) (m.set_self _ _) rfl
      ⟨rfl, .inr ⟨rfl, nofun⟩, hchild.inPipe, hchild.pipe⟩ ?_⟩
  show Calls _ m.running
  rw [hframes]
  exact .loop caller

/-- A stream is not read any more. -/
theorem Child.stopReading {p : UVProcess δ} {progress : Progress} (h : Child p progress)
    {stream : Stream} {eof : Bool} {pipe : Pipe} (hactive : p.pipe stream = .active)
    (hpipe : PipeAgrees .idle eof pipe) :
    Child (p.stopReading stream eof) (progress.close stream pipe) := by
  have hnot := (h.pipe stream).not_eof hactive
  cases stream with
  | out =>
      have heof : (p.outPipeEof || eof) = eof := by
        rw [show p.outPipeEof = false from hnot, Bool.false_or]
      refine ⟨h.exit, h.process, h.inPipe, fun stream => ?_⟩
      cases stream with
      | out =>
          show PipeAgrees .idle (p.outPipeEof || eof) pipe
          rw [heof]
          exact hpipe
      | err => exact h.pipe .err
  | err =>
      have heof : (p.errPipeEof || eof) = eof := by
        rw [show p.errPipeEof = false from hnot, Bool.false_or]
      refine ⟨h.exit, h.process, h.inPipe, fun stream => ?_⟩
      cases stream with
      | out => exact h.pipe .out
      | err =>
          show PipeAgrees .idle (p.errPipeEof || eof) pipe
          rw [heof]
          exact hpipe

theorem UVProcess.stopReading_number (p : UVProcess δ) (stream : Stream) (eof : Bool) :
    (p.stopReading stream eof).number = p.number := by
  cases stream with
  | out => rfl
  | err => rfl

theorem Scheduled.stopReading {m : Manager δ} {s : Schedule} {p : UVProcess δ}
    {progress : Progress} {caller : Caller} (hseen : schedule m.seen = some s)
    (hagrees : Agrees s m) (hp : m.processes m.currentHandle = some p)
    (hchild : Child p progress) (hframes : m.running = [.loop caller]) {stream : Stream}
    {eof : Bool} {pipe : Pipe} (hactive : p.pipe stream = .active)
    (hpipe : PipeAgrees .idle eof pipe) {entry : Seen δ}
    (hnext : s.next (p.number, entry) =
      some { s with current := some (p.number, .child (progress.close stream pipe)) }) :
    Scheduled ((m.set m.currentHandle (p.stopReading stream eof)).record p.number entry) := by
  have hnumber := p.stopReading_number stream eof
  refine ⟨_, schedule_append hseen hnext, hagrees.made,
    hagrees.jobs.set hp hnumber fun hne => absurd rfl hne,
    .child _ _ (hagrees.jobs.valid _ p hp) (m.set_self _ _) (by rw [hnumber])
      (hchild.stopReading hactive hpipe) ?_⟩
  show Calls _ m.running
  rw [hframes]
  exact .loop caller

theorem Scheduled.onRead {m : Manager δ} (h : Scheduled m) (hloop : m.Looping)
    {handle : UInt32} {p : UVProcess δ} {stream : Stream} (hp : m.processes handle = some p)
    (hactive : p.pipe stream = .active) (input : Input) :
    ∃ t, m.onRead handle stream input = some t ∧ Scheduled t := by
  obtain ⟨s, hseen, hagrees⟩ := h
  obtain ⟨rfl, progress, caller, hcurrent, hchild, hframes⟩ :=
    hagrees.callback hloop hp fun hquiet => hquiet.pipe stream hactive
  have hreading := (hchild.pipe stream).reading_iff.mp hactive
  rw [Manager.onRead, hp]
  cases input with
  | eof =>
      exact ⟨_, rfl, Scheduled.stopReading hseen hagrees hp hchild hframes hactive .ended
        (Schedule.advance_eq hcurrent (if_pos hreading))⟩
  | error code =>
      exact ⟨_, rfl, Scheduled.stopReading hseen hagrees hp hchild hframes hactive .broken
        (Schedule.advance_eq hcurrent (if_pos hreading))⟩
  | bytes bytes =>
      have hnext : s.next (p.number, .onRead p.onReadDelegate stream bytes) = _ :=
        Schedule.advance_eq hcurrent (if_pos hreading)
      have hsame : ({ s with current := some (p.number, .child progress) } : Schedule) = s := by
        rw [← hcurrent]
      rw [hsame] at hnext
      have hseen' := schedule_append hseen hnext
      have hvalid := hagrees.jobs.valid _ p hp
      by_cases hdelegate : p.onReadDelegate.isSome
      · refine ⟨_, congrArg some (if_pos hdelegate), s, hseen', hagrees.made, hagrees.jobs,
          .child p progress hvalid hp hcurrent hchild ?_⟩
        show Calls p (.onRead :: m.running)
        rw [hframes]
        exact .onRead caller (hchild.not_finished hactive)
      · refine ⟨_, congrArg some (if_neg hdelegate), s, hseen', hagrees.made, hagrees.jobs,
          .child p progress hvalid hp hcurrent hchild ?_⟩
        show Calls p m.running
        rw [hframes]
        exact .loop caller

theorem Scheduled.delegateReturns {m : Manager δ} (h : Scheduled m) (hsome : m.running ≠ [])
    (hturn : m.UsersTurn) : ∃ t, m.delegateReturns = some t ∧ Scheduled t := by
  obtain ⟨s, hseen, hmade, hjobs, hstage⟩ := h
  cases hstage with
  | idle hhandle hcurrent hrunning =>
      rcases hrunning with hnone | ⟨caller, hloop⟩
      · exact absurd hnone hsome
      · exact absurd hloop hturn.head
  | child p progress hhandle hp hcurrent hchild hrunning =>
      generalize hframes : m.running = running at hrunning
      cases hrunning with
      | user => exact absurd hframes hsome
      | loop caller => exact absurd hframes hturn.head
      | onRead caller hfinished =>
          rw [Manager.delegateReturns, hframes]
          exact ⟨_, rfl, s, hseen, hmade, hjobs,
            .child p progress hhandle hp hcurrent hchild (.loop caller)⟩
  | reported p hhandle hp hcurrent hclosable hquiet hrunning =>
      generalize hframes : m.running = running at hrunning
      cases hrunning with
      | user caller =>
          rw [Manager.delegateReturns, hframes]
          show ∃ t, (m.processes m.currentHandle).bind _ = some t ∧ _
          rw [hp]
          show ∃ t, (if p.number = p.number then _ else none) = some t ∧ _
          rw [if_pos rfl]
          exact Scheduled.clear (m := { m with running := [] }) hseen hmade hjobs hcurrent hp
            hclosable rfl caller
      | loop inner caller hfinished => exact absurd hframes hturn.head

/-- One event. -/
theorem managerStep_scheduled {m : Manager δ} {event : Event δ} (h : Scheduled m)
    (hok : m.Possible event ∧ m.Polite event) :
    ∃ t, managerStep m event = some t ∧ Scheduled t := by
  obtain ⟨hpossible, hpolite⟩ := hok
  cases event with
  | spawnProcess data => exact ⟨_, rfl, h.spawnProcess data⟩
  | registerOnRead handle delegate =>
      refine ⟨_, rfl, ?_⟩
      rw [Manager.registerOnRead]
      split
      · exact h
      · rename_i p hp
        exact h.register hp delegate p.onExitDelegate
  | registerOnExit handle delegate =>
      refine ⟨_, rfl, ?_⟩
      rw [Manager.registerOnExit]
      split
      · exact h
      · rename_i p hp
        exact h.register hp p.onReadDelegate delegate
  | tick first result => exact h.tick hpossible.1 hpossible.2 hpolite.1 hpolite.2
  | run => exact h.run hpossible hpolite
  | loopReturns first result => exact h.loopReturns hpossible.1 hpossible.2 hpolite
  | exited handle status signal =>
      obtain ⟨hloop, p, hp, hactive⟩ := hpossible
      exact h.onUvProcessClosed hloop hp hactive status signal
  | read handle stream input =>
      obtain ⟨hloop, p, hp, hactive⟩ := hpossible
      exact h.onRead hloop hp hactive input
  | delegateReturns => exact h.delegateReturns hpossible.1 hpossible.2

theorem scheduled_initially : Scheduled ({} : Manager δ) := by
  have hnone : ∀ p : UVProcess δ, none ≠ some p := fun p => by nofun
  exact ⟨{}, rfl, rfl,
    ⟨fun _ p h => absurd h (hnone p), fun _ p h => absurd h (hnone p),
      fun _ _ p _ h => absurd h (hnone p), fun _ p h => absurd h (hnone p),
      fun _ hsome => absurd rfl hsome⟩,
    .idle rfl rfl (.inl rfl)⟩

/-- What is recorded of a run in which the delegates are polite follows the schedule. -/
theorem run_follows_schedule (events : List (Event δ))
    (hpossible : Guarded managerStep Manager.Possible {} events)
    (hpolite : Guarded managerStep Manager.Polite {} events) :
    ∃ m, exec managerStep {} events = some m ∧ ∃ s, schedule m.seen = some s ∧ Agrees s m :=
  exec_defined (fun _ _ h hok => managerStep_scheduled h hok) scheduled_initially
    (hpossible.and hpolite)

end Utilpp.Process

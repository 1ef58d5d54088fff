import Utilpp.Lib.Transition
import Mathlib.Data.Int.Notation

/-!
# Delays

`FDelayRecorder` counts the milliseconds of its ticks in `DelayCount` and calls a delegate when they
reach `Delay`. A `Timer` says what it is for: the delegate of the last `SetDelay` is called at the
first tick with which the delay has passed. `delays_iff` says when a run of the recorder does that.
`SetDelay` leaves the milliseconds of the delay before in `DelayCount`, and every tick goes through
seconds in a `float`.
-/

namespace Utilpp.Time

open Lib

/-! ## The recorder -/

/-- Milliseconds divided by `1000.0f`. -/
def seconds (ms : Nat) : Float32 := (UInt64.ofNat ms).toFloat32 / 1000

/-- A `float` as an `int`, which is undefined when it does not fit. -/
def toInt (x : Float32) : Option Int :=
  if -2147483648 ≤ x ∧ x < 2147483648 then
    some (if x < 0 then -((-x).toUInt32.toNat : Int) else x.toUInt32.toNat)
  else none

/-- `int(delta * 1000)` -/
def milliseconds (delta : Float32) : Option Int := toInt (delta * 1000)

/-- `FDelayRecorder`. A delegate is a number, and `LastTickTime` counts milliseconds as well. -/
structure DelayRecorder where
  delayEndDelegate : Option Nat := none
  delay : Int := 0
  delayCount : Int := 0
  lastTickTime : Nat := 0
  deriving DecidableEq, Repr

namespace DelayRecorder

variable (r : DelayRecorder)

/-- `Tick(float)`, up to the call of the delegate, and the delegate that is called. -/
def tickDelta (delta : Float32) : Option (DelayRecorder × Option Nat) :=
  if r.delay ≤ r.delayCount then some (r, none)
  else
    (milliseconds delta).map fun ms =>
      let r := { r with delayCount := r.delayCount + ms }
      (r, if r.delay ≤ r.delayCount then r.delayEndDelegate else none)

/-- The end of `Tick()`. -/
def finishTick (now : Nat) : DelayRecorder := { r with lastTickTime := now }

/-- `Tick()`, up to the call of the delegate, or to its end when none is called. -/
def tick (now : Nat) : Option (DelayRecorder × Option Nat) :=
  if r.delay ≤ r.delayCount then some (r, none)
  else
    (r.tickDelta (seconds (now - r.lastTickTime))).map fun result =>
      match result.2 with
      | none => (result.1.finishTick now, none)
      | some delegate => (result.1, some delegate)

/-- `SetDelay` -/
def setDelay (duration : Int) (delegate : Option Nat) (now : Nat) : DelayRecorder :=
  { r with delayEndDelegate := delegate, delay := duration, lastTickTime := now }

/-- `GetDelay` -/
def getDelay : Int := r.delay - r.delayCount

/-- `GetDelayConfig` -/
def getDelayConfig : Int := r.delay

/-- `Clear` -/
def clear : DelayRecorder := { r with delayEndDelegate := none, delay := 0, delayCount := 0 }

end DelayRecorder

/-! ## What it is for -/

/-- The delay that has been set and not passed yet, with its delegate, the milliseconds that have
passed since then, the time of the last tick or `SetDelay`, and the delegates that were called. -/
structure Timer where
  pending : Option (Int × Option Nat) := none
  passed : Int := 0
  mark : Nat := 0
  calls : List Nat := []
  deriving DecidableEq, Repr

namespace Timer

variable (t : Timer)

/-- A tick of some milliseconds. When the delay has passed with them, its delegate is called. -/
def pass (ms : Nat) : Timer :=
  match t.pending with
  | none => t
  | some (duration, delegate) =>
      if duration ≤ t.passed + ms then
        { t with pending := none, passed := t.passed + ms, calls := t.calls ++ delegate.toList }
      else { t with passed := t.passed + ms }

/-- A tick at a time of the clock. -/
def tick (now : Nat) : Timer := { t.pass (now - t.mark) with mark := now }

/-- A new delay takes the place of the one before. -/
def setDelay (duration : Int) (delegate : Option Nat) (now : Nat) : Timer :=
  { t with pending := some (duration, delegate), passed := 0, mark := now }

def clear : Timer := { t with pending := none }

variable {t} {duration : Int} {delegate : Option Nat} {ms : Nat}

theorem pass_idle (h : t.pending = none) : t.pass ms = t := by
  rw [pass, h]

theorem pass_reaches (h : t.pending = some (duration, delegate))
    (hreach : duration ≤ t.passed + ms) :
    t.pass ms =
      { t with pending := none, passed := t.passed + ms, calls := t.calls ++ delegate.toList } := by
  rw [pass, h]
  exact if_pos hreach

theorem pass_waits (h : t.pending = some (duration, delegate))
    (hwait : ¬ duration ≤ t.passed + ms) : t.pass ms = { t with passed := t.passed + ms } := by
  rw [pass, h]
  exact if_neg hwait

end Timer

/-! ## Runs -/

namespace Delay

/-- Time passes, the recorder is called, or the delegate that was called last returns. -/
inductive Label where
  | elapse (ms : Nat)
  | tick
  | tickDelta (ms : Nat)
  | setDelay (duration : Int) (delegate : Option Nat)
  | clear
  | ret
  deriving DecidableEq, Repr

/-- The recorder and the clock, the calls of delegates that have not returned, with the `now` of the
`Tick()` that they came from, the delegates that were called, and the timer. -/
structure Run where
  recorder : DelayRecorder := {}
  clock : Nat
  frames : List (Option Nat) := []
  calls : List Nat := []
  timer : Timer := {}
  deriving DecidableEq, Repr

/-- A tick that came from `frame`. -/
def Run.ticked (s : Run) (frame : Option Nat) (result : DelayRecorder × Option Nat) : Run :=
  match result.2 with
  | none => { s with recorder := result.1 }
  | some delegate =>
      { s with
        recorder := result.1
        frames := frame :: s.frames
        calls := s.calls ++ [delegate] }

/-- The delegate that was called last returns, to the end of `Tick()` if it came from there. -/
def Run.ret (s : Run) : Run :=
  match s.frames with
  | [] => s
  | none :: frames => { s with frames := frames }
  | some now :: frames => { s with recorder := s.recorder.finishTick now, frames := frames }

def step (s : Run) : Label → Option Run
  | .elapse ms => some { s with clock := s.clock + ms }
  | .tick =>
      (s.recorder.tick s.clock).map fun result =>
        { s.ticked (some s.clock) result with timer := s.timer.tick s.clock }
  | .tickDelta ms =>
      (s.recorder.tickDelta (seconds ms)).map fun result =>
        { s.ticked none result with timer := s.timer.pass ms }
  | .setDelay duration delegate =>
      some { s with
        recorder := s.recorder.setDelay duration delegate s.clock
        timer := s.timer.setDelay duration delegate s.clock }
  | .clear => some { s with recorder := s.recorder.clear, timer := s.timer.clear }
  | .ret => some s.ret

/-- The delegates were called when the timer calls them, and `GetDelay` is the time that is still
missing. -/
structure Run.Keeps (s : Run) : Prop where
  calls : s.calls = s.timer.calls
  missing : ∀ duration delegate, s.timer.pending = some (duration, delegate) →
    s.recorder.getDelay = duration - s.timer.passed
  ended : s.timer.pending = none → s.recorder.getDelay ≤ 0

/-- A tick counts the milliseconds that have passed, or both are enough for the delay that runs. No
delegate waits for a delay that does not run. -/
def Run.Counts (s : Run) (ms : Nat) (delta : Float32) : Prop :=
  if s.recorder.getDelay ≤ 0 then ∀ duration delegate,
    s.timer.pending = some (duration, delegate) → delegate = none
  else ∃ counted, milliseconds delta = some counted ∧
    (counted = ms ∨ s.recorder.getDelay ≤ counted ∧ s.recorder.getDelay ≤ ms)

/-- `SetDelay` finds nothing counted, and the ticks count what has passed. -/
def Fine (s : Run) : Label → Prop
  | .setDelay _ _ => s.recorder.delayCount = 0
  | .tick => s.Counts (s.clock - s.timer.mark) (seconds (s.clock - s.recorder.lastTickTime))
  | .tickDelta ms => s.Counts ms (seconds ms)
  | _ => True

end Delay

/-! ## One tick -/

namespace DelayRecorder

/-- What a tick of `delta` seconds does to the recorder, with the delegate that is called. -/
inductive Ticked (r : DelayRecorder) (delta : Float32) (result : DelayRecorder × Option Nat) :
    Prop where
  | ended (h : r.getDelay ≤ 0) (hresult : result = (r, none))
  | runs (counted : Int) (h : 0 < r.getDelay) (hcounted : milliseconds delta = some counted)
      (hdelay : result.1.getDelay = r.getDelay - counted)
      (hdelegate : result.1.delayEndDelegate = r.delayEndDelegate)
      (hcalled : result.2 = if r.getDelay ≤ counted then r.delayEndDelegate else none)

variable {r : DelayRecorder} {delta : Float32} {result : DelayRecorder × Option Nat}

theorem ended_iff : r.delay ≤ r.delayCount ↔ r.getDelay ≤ 0 := by
  unfold getDelay
  omega

theorem ticked_of_tickDelta (h : r.tickDelta delta = some result) : r.Ticked delta result := by
  unfold tickDelta at h
  split at h
  · rename_i hended
    cases h
    exact .ended (ended_iff.mp hended) rfl
  · rename_i hruns
    obtain ⟨counted, hcounted, rfl⟩ := Option.map_eq_some_iff.mp h
    have hdelay : r.delay - (r.delayCount + counted) = r.getDelay - counted := by
      unfold getDelay
      omega
    have hiff : r.delay ≤ r.delayCount + counted ↔ r.getDelay ≤ counted := by
      unfold getDelay
      omega
    refine .runs counted (Int.not_le.mp fun h => hruns (ended_iff.mpr h)) hcounted hdelay rfl ?_
    show (if r.delay ≤ r.delayCount + counted then _ else _) = _
    simp only [hiff]

theorem ticked_of_tick {now : Nat} (h : r.tick now = some result) :
    r.Ticked (seconds (now - r.lastTickTime)) result := by
  unfold tick at h
  split at h
  · rename_i hended
    cases h
    exact .ended (ended_iff.mp hended) rfl
  · rename_i hruns
    obtain ⟨⟨r', called⟩, hticked, rfl⟩ := Option.map_eq_some_iff.mp h
    have hticked := ticked_of_tickDelta hticked
    cases called with
    | some delegate => exact hticked
    | none =>
        cases hticked with
        | ended hended _ => exact absurd (ended_iff.mpr hended) hruns
        | runs counted h hcounted hdelay hdelegate hcalled =>
            exact .runs counted h hcounted hdelay hdelegate hcalled

/-- A tick is defined when no delay runs, or when what it counts is an `int`. -/
theorem tickDelta_defined (h : 0 < r.getDelay → ∃ counted, milliseconds delta = some counted) :
    ∃ result, r.tickDelta delta = some result := by
  unfold tickDelta
  split
  · exact ⟨_, rfl⟩
  · rename_i hruns
    obtain ⟨counted, hcounted⟩ := h (Int.not_le.mp fun h => hruns (ended_iff.mpr h))
    rw [hcounted]
    exact ⟨_, rfl⟩

theorem tick_defined {now : Nat}
    (h : 0 < r.getDelay → ∃ counted,
      milliseconds (seconds (now - r.lastTickTime)) = some counted) :
    ∃ result, r.tick now = some result := by
  unfold tick
  split
  · exact ⟨_, rfl⟩
  · obtain ⟨result, hresult⟩ := tickDelta_defined h
    rw [hresult]
    exact ⟨_, rfl⟩

end DelayRecorder

/-! ## The invariant -/

namespace Delay

/-- The timer is kept, and the recorder has the delegate that waits. -/
structure Run.Inv (s : Run) : Prop extends s.Keeps where
  delegate : ∀ duration delegate, s.timer.pending = some (duration, delegate) →
    s.recorder.delayEndDelegate = delegate

variable {s t : Run} {ms : Nat} {delta : Float32} {result : DelayRecorder × Option Nat}

@[simp] theorem ticked_recorder (frame : Option Nat) :
    (s.ticked frame result).recorder = result.1 := by
  unfold Run.ticked
  cases result.2 <;> rfl

@[simp] theorem ticked_calls (frame : Option Nat) :
    (s.ticked frame result).calls = s.calls ++ result.2.toList := by
  unfold Run.ticked
  cases result.2 with
  | none => exact (List.append_nil s.calls).symm
  | some delegate => rfl

/-- The milliseconds of a tick that counts are an `int`. -/
theorem Run.Counts.defined (h : s.Counts ms delta) (hruns : 0 < s.recorder.getDelay) :
    ∃ counted, milliseconds delta = some counted := by
  rw [Run.Counts, if_neg (Int.not_le.mpr hruns)] at h
  obtain ⟨counted, hcounted, -⟩ := h
  exact ⟨counted, hcounted⟩

/-- The delay that runs is the one that waits. -/
theorem Run.Keeps.pending (h : s.Keeps) (hruns : 0 < s.recorder.getDelay) :
    ∃ duration delegate, s.timer.pending = some (duration, delegate) := by
  cases hpending : s.timer.pending with
  | none => exact absurd (h.ended hpending) (Int.not_le.mpr hruns)
  | some waiting => exact ⟨waiting.1, waiting.2, rfl⟩

/-- A tick that counts what has passed keeps the timer. -/
theorem Run.Inv.ticked (h : s.Inv) (hcounts : s.Counts ms delta)
    (hticked : s.recorder.Ticked delta result) (frame : Option Nat) (mark : Nat) :
    Run.Inv { s.ticked frame result with timer := { s.timer.pass ms with mark := mark } } := by
  cases hticked with
  | ended hended hresult =>
      subst hresult
      rw [Run.Counts, if_pos hended] at hcounts
      cases hpending : s.timer.pending with
      | none =>
          rw [Timer.pass_idle hpending]
          have hnone : ∀ {d f}, s.timer.pending ≠ some (d, f) :=
            fun hsome => nomatch hpending.symm.trans hsome
          exact ⟨⟨by simp [h.calls], fun d f hsome => absurd hsome hnone,
            fun _ => by simpa using hended⟩, fun d f hsome => absurd hsome hnone⟩
      | some waiting =>
          obtain ⟨duration, delegate⟩ := waiting
          obtain rfl := hcounts duration delegate hpending
          have hmissing := h.missing duration none hpending
          rw [Timer.pass_reaches hpending (by omega)]
          exact ⟨⟨by simp [h.calls], nofun, fun _ => by simpa using hended⟩, nofun⟩
  | runs counted hruns hcounted hdelay hdelegate hcalled =>
      rw [Run.Counts, if_neg (Int.not_le.mpr hruns)] at hcounts
      obtain ⟨counted', hcounted', hagree⟩ := hcounts
      cases hcounted.symm.trans hcounted'
      obtain ⟨duration, delegate, hpending⟩ := h.toKeeps.pending hruns
      have hmissing := h.missing duration delegate hpending
      have hsame := h.delegate duration delegate hpending
      by_cases hreach : duration ≤ s.timer.passed + ms
      · rw [Timer.pass_reaches hpending hreach]
        rw [if_pos (by omega), hsame] at hcalled
        refine ⟨⟨?_, nofun, fun _ => ?_⟩, nofun⟩
        · simp [hcalled, h.calls]
        · simp only [ticked_recorder, hdelay]
          omega
      · rw [Timer.pass_waits hpending hreach]
        rw [if_neg (by omega)] at hcalled
        refine ⟨⟨?_, fun d f hsome => ?_, fun hnone => ?_⟩,
          fun d f hsome => ?_⟩
        · simp [hcalled, h.calls]
        · cases hpending.symm.trans hsome
          simp only [ticked_recorder, hdelay]
          omega
        · cases hpending.symm.trans hnone
        · cases hpending.symm.trans hsome
          simp only [ticked_recorder, hdelegate, hsame]

/-- The timer is not kept by another tick. -/
theorem Run.Inv.ticked_not_keeps (h : s.Inv) (hcounts : ¬ s.Counts ms delta)
    (hticked : s.recorder.Ticked delta result) (frame : Option Nat) (mark : Nat) :
    ¬ Run.Keeps { s.ticked frame result with timer := { s.timer.pass ms with mark := mark } } := by
  intro hkeeps
  cases hticked with
  | ended hended hresult =>
      -- the delegate of a delay that does not run is not called
      subst hresult
      refine hcounts ?_
      rw [Run.Counts, if_pos hended]
      intro duration delegate hpending
      have hmissing := h.missing duration delegate hpending
      have hcalls := hkeeps.calls
      rw [Timer.pass_reaches hpending (by omega)] at hcalls
      simp only [ticked_calls, h.calls, Option.toList_none, List.append_nil] at hcalls
      exact Option.toList_eq_nil_iff.mp (List.self_eq_append_right.mp hcalls)
  | runs counted hruns hcounted hdelay hdelegate hcalled =>
      obtain ⟨duration, delegate, hpending⟩ := h.toKeeps.pending hruns
      have hmissing := h.missing duration delegate hpending
      refine hcounts ?_
      rw [Run.Counts, if_neg (Int.not_le.mpr hruns)]
      refine ⟨counted, hcounted, ?_⟩
      by_cases hreach : duration ≤ s.timer.passed + ms
      · have hended := hkeeps.ended
        rw [Timer.pass_reaches hpending hreach] at hended
        have hended := hended rfl
        simp only [ticked_recorder, hdelay] at hended
        omega
      · have hwaits := hkeeps.missing duration delegate
        rw [Timer.pass_waits hpending hreach] at hwaits
        have hwaits := hwaits hpending
        simp only [ticked_recorder, hdelay] at hwaits
        omega

/-- The end of a tick changes neither the delay nor what was counted. -/
theorem Run.Inv.ret (h : s.Inv) : s.ret.Inv := by
  unfold Run.ret
  split
  · exact h
  · exact ⟨⟨h.calls, h.missing, h.ended⟩, h.delegate⟩
  · exact ⟨⟨h.calls, h.missing, h.ended⟩, h.delegate⟩

theorem inv_start (now : Nat) : Run.Inv { clock := now } :=
  ⟨⟨rfl, nofun, fun _ => Int.le_refl 0⟩, nofun⟩

theorem step_inv (s : Run) (label : Label) (h : s.Inv) (hfine : Fine s label) :
    ∃ t, step s label = some t ∧ t.Inv := by
  cases label with
  | elapse ms => exact ⟨_, rfl, ⟨h.calls, h.missing, h.ended⟩, h.delegate⟩
  | tick =>
      have hfine : s.Counts _ _ := hfine
      obtain ⟨result, hresult⟩ := DelayRecorder.tick_defined hfine.defined
      exact ⟨_, Option.map_eq_some_iff.mpr ⟨result, hresult, rfl⟩,
        h.ticked hfine (DelayRecorder.ticked_of_tick hresult) (some s.clock) s.clock⟩
  | tickDelta ms =>
      have hfine : s.Counts _ _ := hfine
      obtain ⟨result, hresult⟩ := DelayRecorder.tickDelta_defined hfine.defined
      exact ⟨_, Option.map_eq_some_iff.mpr ⟨result, hresult, rfl⟩,
        h.ticked hfine (DelayRecorder.ticked_of_tickDelta hresult) none (s.timer.pass ms).mark⟩
  | setDelay duration delegate =>
      have hfine : s.recorder.delayCount = 0 := hfine
      refine ⟨_, rfl, ⟨h.calls, fun d f hsome => ?_, nofun⟩, fun d f hsome => ?_⟩
      · cases hsome
        show duration - s.recorder.delayCount = duration - 0
        rw [hfine]
      · cases hsome
        rfl
  | clear => exact ⟨_, rfl, ⟨h.calls, nofun, fun _ => Int.le_refl 0⟩, nofun⟩
  | ret => exact ⟨_, rfl, h.ret⟩

theorem step_not_keeps (s : Run) (label : Label) (t : Run) (h : s.Inv) (hfine : ¬ Fine s label)
    (hstep : step s label = some t) : ¬ t.Keeps := by
  cases label with
  | elapse ms => exact absurd trivial hfine
  | tick =>
      obtain ⟨result, hresult, rfl⟩ := Option.map_eq_some_iff.mp hstep
      exact h.ticked_not_keeps hfine (DelayRecorder.ticked_of_tick hresult) (some s.clock) s.clock
  | tickDelta ms =>
      obtain ⟨result, hresult, rfl⟩ := Option.map_eq_some_iff.mp hstep
      exact h.ticked_not_keeps hfine (DelayRecorder.ticked_of_tickDelta hresult) none
        (s.timer.pass ms).mark
  | setDelay duration delegate =>
      cases hstep
      intro hkeeps
      have hmissing : duration - s.recorder.delayCount = duration - 0 :=
        hkeeps.missing duration delegate rfl
      refine hfine (show s.recorder.delayCount = 0 from ?_)
      omega
  | clear => exact absurd trivial hfine
  | ret => exact absurd trivial hfine

/-- In every state of a run the delegates were called as the timer calls them and `GetDelay` is the
time that is still missing, exactly when every `SetDelay` finds `DelayCount` at 0 and the ticks
count what has passed. -/
theorem delays_iff (now : Nat) (labels : List Label) :
    (∀ first, first <+: labels →
      ∃ s, exec step { clock := now } first = some s ∧ s.Keeps) ↔
    Guarded step Fine { clock := now } labels :=
  @exec_defined_iff _ _ _ Fine Run.Inv Run.Keeps (fun _ _ => True) (fun _ h => h.toKeeps)
    (fun s label h hok => step_inv s label h hok.2)
    (fun s label t h _ hfine hstep => step_not_keeps s label t h hfine hstep) _ _
    (inv_start now) (guarded_true _ labels)

/-- A delay of 50 ms after one of 100 ms is over before it begins, and its delegate is not called. A
tick of 251 ms counts 250. -/
theorem not_delays :
    (∃ s, exec step { clock := 0 }
        [.setDelay 100 (some 0), .elapse 100, .tick, .ret, .setDelay 50 (some 1), .elapse 50,
          .tick] = some s ∧
      s.calls = [0] ∧ s.timer.calls = [0, 1] ∧ s.recorder.getDelay = -50) ∧
    ∃ s, exec step { clock := 0 } [.setDelay 251 (some 0), .elapse 251, .tick] = some s ∧
      s.calls = [] ∧ s.timer.calls = [0] ∧ s.recorder.getDelay = 1 := by
  refine ⟨⟨⟨⟨some 1, 50, 100, 100⟩, 150, [], [0], ⟨none, 50, 150, [0, 1]⟩⟩, ?_, rfl, rfl, rfl⟩,
    ⟨⟨⟨some 0, 251, 250, 251⟩, 251, [], [], ⟨none, 251, 251, [0]⟩⟩, ?_, rfl, rfl, rfl⟩⟩
  · decide
  · decide

end Delay

end Utilpp.Time

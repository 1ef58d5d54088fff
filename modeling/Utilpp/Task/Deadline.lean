import Utilpp.Task.Firings

/-!
# The first firing of a timer

A workflow measures the time of a timer from its own last clock reading before it has taken the
timer over. `never_early` shows that the timer does not fire before its timeout has passed since
`AddTimer`, when that reading is not older than the call. It is older whenever the workflow does
not tick between the call and the hand-over, and then the timer may fire early (`early_firing`).
-/

namespace Utilpp.Task

open Lib

/-- The clock reading that is taken in a step. -/
def Label.reading : Label → Option Int
  | .newWorkflow now | .run _ now => some now
  | _ => none

/-- The clock does not go back, and `a` is its value between the two parts of the run. -/
def ClockAt (a : Int) (before after : List Label) : Prop :=
  (before.filterMap Label.reading ++ a :: after.filterMap Label.reading).Pairwise (· ≤ ·)

/-- The first firing is not before the timeout has passed since `a`. -/
def NeverEarly (a : Int) (timeout : UInt64) (readings : List Int) : Prop :=
  ∀ first ∈ readings.head?, a + timeout.toNat ≤ first

/-- When a workflow takes the timer over, its last clock reading is not before `a`. -/
def StartsAt (a : Int) (task : Nat) (s : Manager) : Label → Prop
  | .addLoop o => ∀ w ∈ s.objects[o]?, (∃ e ∈ w.appendingAdd, e.data.task = task) → a ≤ w.curTick
  | _ => True

instance (a : Int) (task : Nat) (s : Manager) : (label : Label) → Decidable (StartsAt a task s label)
  | .addLoop _ => inferInstanceAs (Decidable (∀ w ∈ _, _))
  | .newWorkflow _ | .releaseWorkflow _ | .add _ | .removeTask _ | .shuffle _ | .tick | .launch _
  | .delLoop _ | .run _ _ => inferInstanceAs (Decidable True)

/-- A first firing not before the deadline. -/
def Schedule.notBefore (deadline repeatTime timeout : Int) : Schedule where
  repeatTime := repeatTime
  timeout := timeout
  allowed := fun seen now => seen = [] → deadline ≤ now
  kept := fun seen => ∀ first ∈ seen.head?, deadline ≤ first
  mono := fun _ _ _ hle hallowed hnil => (hallowed hnil).trans hle
  again := fun seen now hnil => absurd hnil (List.concat_ne_nil now seen)
  extend := by
    intro seen now hkept hallowed first hfirst
    cases seen with
    | nil =>
        rw [List.nil_append, List.head?_cons, Option.mem_some] at hfirst
        exact hfirst ▸ hallowed rfl
    | cons earlier rest => exact hkept first hfirst

theorem notBefore_repeatTime (deadline repeatTime timeout : Int) :
    (Schedule.notBefore deadline repeatTime timeout).repeatTime = repeatTime := rfl

variable {s t : Manager}

/-- When no workflow starts the time of the timer at a reading before the call of `AddTimer`, the
timer does not fire before its timeout has passed since the call. -/
theorem never_early (before after : List Label) (workflow : UInt32) (repeatTime timeout : UInt64)
    (a : Int) (hbefore : exec step .init before = some s)
    (hafter : exec step (s.add (.addTimer workflow repeatTime timeout)) after = some t)
    (htimeout : timeout.toNat < 2 ^ 63)
    (hok : Guarded step (StartsAt a s.tasks) (s.add (.addTimer workflow repeatTime timeout))
      after) :
    NeverEarly a timeout
      (firings s.tasks .init (before ++ .add (.addTimer workflow repeatTime timeout) :: after)) := by
  rw [firings_added hbefore]
  have hnew : s.tasks < (s.add (.addTimer workflow repeatTime timeout)).tasks :=
    Nat.lt_succ_self _
  let p := Schedule.notBefore (a + timeout.toNat) (nanoseconds repeatTime) timeout.toNat
  have hscheduled : Scheduled p s.tasks [] (s.add (.addTimer workflow repeatTime timeout)) :=
    scheduled_add (known_run hbefore) (notBefore_repeatTime _ _ _) (nanoseconds_eq htimeout).symm
      fun first hfirst => nomatch hfirst
  refine hscheduled.run hnew ?_ hafter
  refine hok.mono fun u label hlabel => ?_
  cases label with
  | addLoop o =>
      intro w hw he _
      have hle := hlabel w hw he
      show a + timeout.toNat ≤ timeout.toNat + w.curTick
      omega
  | _ => trivial

/-- A tick of the main thread's workflow. -/
def mainTick (now : Int) : List Label := [.launch 1, .addLoop 1, .delLoop 1, .run 1 now]

/-- `AddTimer` is called at 15 with the timeout 10, and the main thread has ticked once more at 15
when the `Tick` hands the timer over: it fires at 25. -/
theorem never_early_main :
    ClockAt 15 (mainTick 0) (mainTick 15 ++ .tick :: (mainTick 20 ++ mainTick 25)) ∧
    firings 0 .init (mainTick 0 ++ .add (.addTimer 0 0 10) ::
      (mainTick 15 ++ .tick :: (mainTick 20 ++ mainTick 25))) = [25] ∧
    NeverEarly 15 10 (firings 0 .init (mainTick 0 ++ .add (.addTimer 0 0 10) ::
      (mainTick 15 ++ .tick :: (mainTick 20 ++ mainTick 25)))) := by
  have hbefore : ∃ s, exec step .init (mainTick 0) = some s ∧ s.tasks = 0 ∧
      Guarded step (StartsAt 15 0) (s.add (.addTimer 0 0 10))
        (mainTick 15 ++ .tick :: (mainTick 20 ++ mainTick 25)) ∧
      (exec step (s.add (.addTimer 0 0 10))
        (mainTick 15 ++ .tick :: (mainTick 20 ++ mainTick 25))).isSome := by
    refine ⟨_, rfl, rfl, ?_, ?_⟩ <;> decide
  obtain ⟨s, hs, htasks, hok, hrun⟩ := hbefore
  obtain ⟨t, ht⟩ := Option.isSome_iff_exists.mp hrun
  have hearly := never_early (mainTick 0) _ 0 0 10 15 hs ht (by decide) (htasks ▸ hok)
  rw [htasks] at hearly
  exact ⟨by unfold ClockAt; decide, by decide, hearly⟩

/-- `AddTimer` is called at 15 with the timeout 10, and the main thread has last ticked at 0 when
the `Tick` hands the timer over: it fires in the tick at 16. -/
theorem early_firing :
    ClockAt 15 (mainTick 0) (.tick :: mainTick 16) ∧
    firings 0 .init (mainTick 0 ++ .add (.addTimer 0 0 10) :: .tick :: mainTick 16) = [16] ∧
    ¬ NeverEarly 15 10
      (firings 0 .init (mainTick 0 ++ .add (.addTimer 0 0 10) :: .tick :: mainTick 16)) := by
  have hreadings : firings 0 .init
      (mainTick 0 ++ .add (.addTimer 0 0 10) :: .tick :: mainTick 16) = [16] := by
    decide
  refine ⟨by unfold ClockAt; decide, hreadings, ?_⟩
  rw [hreadings]
  unfold NeverEarly
  decide

end Utilpp.Task

import Utilpp.Lib.Ownership
import Utilpp.Lib.Transition
import Mathlib.Data.Fintype.Basic

/-!
# The value storage

`SimpleValueStorage` with one registered value: `n` threads call `SetValue` and `GetValue` and one
more thread calls `Tick`. A state holds the two atomic cells, the buffers in memory and the program
point of every call that is under way with its local variables. One step is one atomic load, one
compare-exchange, one construction, one call of the delegate or one deconstruction.

Pointers are natural numbers and the null pointer is zero. `malloc` may return the address of a
buffer that was deconstructed before. The fields `serial`, `stamp`, `allocated`, `sets`, `newest`
and `log` record what happened; no decision of the program reads them.
-/

namespace Utilpp.Storage

open Lib

/-- A buffer: how many were allocated before it, the value constructed in it, when it was set
(counted from one, zero before it is) and whether it is not deconstructed yet. -/
structure Buffer (α : Type*) where
  serial : Nat
  value : Option α
  stamp : Nat
  live : Bool
  deriving DecidableEq, Repr

/-- The program point of a thread, with the live local variables. -/
inductive Thread (α : Type*) where
  | idle
  /-- `SetValue` behind `malloc`. -/
  | constructing (buf : Nat) (value : α)
  /-- `SetValue` before it loads `LastestValue`. -/
  | loading (buf : Nat)
  /-- `SetValue` in its loop. -/
  | exchanging (buf previousNew : Nat)
  /-- `SetValue` behind the loop. -/
  | discarding (previousNew : Nat)
  /-- `GetValue` behind the load of `Value`. -/
  | taking (previousValue : Nat)
  /-- `GetValue` when it has taken the pointer out. -/
  | copying (previousValue : Nat)
  /-- `GetValue` behind the copy; `stamp` tells which value was copied. -/
  | puttingBack (previousValue stamp : Nat)
  /-- `GetValue` when `Value` was not empty any more. -/
  | dropping (previousValue stamp : Nat)
  deriving DecidableEq, Repr

/-- The program point of the thread that calls `Tick`. -/
inductive Ticker where
  | idle
  | loaded (previousValue : Nat)
  /-- Both cells are loaded and there is something to publish. -/
  | taking (previousValue previousLastestValue : Nat)
  /-- `LastestValue` is taken out. -/
  | publishing (previousValue previousLastestValue : Nat)
  /-- `Value` has changed in between. -/
  | puttingBack (previousLastestValue : Nat)
  | dropping (previousLastestValue : Nat)
  /-- The value is published and the delegate is to be called. -/
  | notifying (previousLastestValue previousValue : Nat)
  | discarding (previousValue : Nat)
  deriving DecidableEq, Repr

/-- What happens to buffers, by their serial, and what `GetValue` and `Tick` give out, by its
stamp. -/
inductive Event where
  | deconstructed (serial : Nat)
  | read (serial : Nat)
  | published (stamp : Nat)
  | returned (thread stamp : Nat)
  deriving DecidableEq, Repr

/-- `StorageValueInfo_t`, the memory, and the threads. -/
structure State (n : Nat) (α : Type*) where
  value : Nat
  lastest : Nat
  heap : Nat → Option (Buffer α)
  threads : Fin n → Thread α
  ticker : Ticker
  allocated : Nat
  sets : Nat
  /-- The pointer that `Tick` published last. -/
  newest : Nat
  log : List Event

variable {n : Nat} {α : Type*}

namespace State

/-- A registered value that was not set yet. -/
def init (n : Nat) (α : Type*) : State n α where
  value := 0
  lastest := 0
  heap := fun _ => none
  threads := fun _ => .idle
  ticker := .idle
  allocated := 0
  sets := 0
  newest := 0
  log := []

/-- The pointer is to a buffer that is not deconstructed. -/
def live (s : State n α) (p : Nat) : Bool := (s.heap p).elim false Buffer.live

/-- When the buffer was set. -/
def stampAt (s : State n α) (p : Nat) : Nat := (s.heap p).elim 0 Buffer.stamp

/-- Thread `t` goes on at another point. -/
def goTo (s : State n α) (t : Fin n) (point : Thread α) : State n α :=
  { s with threads := Function.update s.threads t point }

def record (s : State n α) (events : List Event) : State n α :=
  { s with log := s.log ++ events }

/-- `malloc`. -/
def malloc (s : State n α) (buf : Nat) : State n α :=
  { s with
    heap := Function.update s.heap buf (some ⟨s.allocated, none, 0, true⟩)
    allocated := s.allocated + 1 }

/-- `LConstructFn` or `RConstructFn` of `SetValue`. -/
def construct (s : State n α) (buf : Nat) (value : α) : State n α :=
  { s with
    heap :=
      Function.update s.heap buf ((s.heap buf).map fun b => { b with value := some value }) }

/-- The exchange that makes `buf` the value set last. -/
def exchange (s : State n α) (buf : Nat) : State n α :=
  { s with
    lastest := buf
    heap :=
      Function.update s.heap buf ((s.heap buf).map fun b => { b with stamp := s.sets + 1 })
    sets := s.sets + 1 }

/-- The serial of the buffer behind a pointer. -/
def serials (s : State n α) (p : Nat) : List Nat := ((s.heap p).map Buffer.serial).toList

/-- `DeconstructFn`. -/
def deconstruct (s : State n α) (p : Nat) : State n α :=
  { s with
    heap := Function.update s.heap p ((s.heap p).map fun b => { b with live := false })
    log := s.log ++ (s.serials p).map .deconstructed }

/-- A read of the buffer by `LConstructFn` of `GetValue` or by the delegate. -/
def read (s : State n α) (p : Nat) : State n α := s.record ((s.serials p).map .read)

end State

/-- What happens next. `weak` is false when a weak compare-exchange fails spuriously. -/
inductive Label (n : Nat) (α : Type*) where
  /-- A thread calls `SetValue` and `malloc` returns `buf`. -/
  | setValue (t : Fin n) (value : α) (buf : Nat)
  /-- A thread calls `GetValue`, which loads `Value`. -/
  | getValue (t : Fin n)
  | thread (t : Fin n) (weak : Bool)
  /-- `Tick` comes to the value and loads `Value`. -/
  | tick
  | ticker (weak : Bool)
  deriving DecidableEq, Repr

namespace State

/-- The next atomic step of the call that thread `t` is in. -/
def threadStep (s : State n α) (t : Fin n) (weak : Bool) : Option (State n α) :=
  match s.threads t with
  | .idle => none
  | .constructing buf value => some ((s.construct buf value).goTo t (.loading buf))
  | .loading buf => some (s.goTo t (.exchanging buf s.lastest))
  | .exchanging buf previousNew =>
      if s.lastest = previousNew ∧ weak then some ((s.exchange buf).goTo t (.discarding previousNew))
      -- a failed exchange loads the cell again
      else some (s.goTo t (.exchanging buf s.lastest))
  | .discarding previousNew =>
      if previousNew ≠ 0 then some ((s.deconstruct previousNew).goTo t .idle)
      else some (s.goTo t .idle)
  | .taking previousValue =>
      if s.value = previousValue ∧ weak then
        some ({ s with value := 0 }.goTo t (.copying previousValue))
      -- `GetValue` gives up and returns false
      else some (s.goTo t .idle)
  | .copying previousValue =>
      some ((s.read previousValue).goTo t (.puttingBack previousValue (s.stampAt previousValue)))
  | .puttingBack previousValue stamp =>
      if s.value = 0 then
        some (({ s with value := previousValue }.goTo t .idle).record [.returned t stamp])
      else some (s.goTo t (.dropping previousValue stamp))
  | .dropping previousValue stamp =>
      some (((s.deconstruct previousValue).goTo t .idle).record [.returned t stamp])

/-- The next atomic step of `Tick`. -/
def tickerStep (s : State n α) (weak : Bool) : Option (State n α) :=
  match s.ticker with
  | .idle => none
  | .loaded previousValue =>
      if s.lastest = 0 ∨ s.lastest = previousValue then some { s with ticker := .idle }
      else some { s with ticker := .taking previousValue s.lastest }
  | .taking previousValue previousLastestValue =>
      if s.lastest = previousLastestValue ∧ weak then
        some { s with lastest := 0, ticker := .publishing previousValue previousLastestValue }
      else some { s with ticker := .idle }
  | .publishing previousValue previousLastestValue =>
      if s.value = previousValue ∧ weak then
        some ({ s with
          value := previousLastestValue
          newest := previousLastestValue
          ticker := .notifying previousLastestValue previousValue }.record
            [.published (s.stampAt previousLastestValue)])
      -- `Value` is not what it was any more, or the weak exchange failed
      else some { s with ticker := .puttingBack previousLastestValue }
  | .puttingBack previousLastestValue =>
      if s.lastest = 0 then some { s with lastest := previousLastestValue, ticker := .idle }
      else some { s with ticker := .dropping previousLastestValue }
  | .dropping previousLastestValue =>
      some { s.deconstruct previousLastestValue with ticker := .idle }
  | .notifying previousLastestValue previousValue =>
      some { (s.read previousLastestValue).read previousValue with
        ticker := .discarding previousValue }
  | .discarding previousValue =>
      if previousValue ≠ 0 then some { s.deconstruct previousValue with ticker := .idle }
      else some { s with ticker := .idle }

/-- One step of the system. -/
def step (s : State n α) : Label n α → Option (State n α)
  | .setValue t value buf =>
      match s.threads t with
      | .idle =>
          if buf = 0 then some s
          else if s.live buf then none
          else some ((s.malloc buf).goTo t (.constructing buf value))
      | _ => none
  | .getValue t =>
      match s.threads t with
      | .idle => some (if s.value = 0 then s else s.goTo t (.taking s.value))
      | _ => none
  | .thread t weak => s.threadStep t weak
  | .tick =>
      match s.ticker with
      | .idle => some { s with ticker := .loaded s.value }
      | _ => none
  | .ticker weak => s.tickerStep weak

end State

end Utilpp.Storage

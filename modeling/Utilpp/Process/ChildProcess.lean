import Utilpp.Handle
import Utilpp.Lib.Transition
import Mathlib.Logic.Function.Basic

/-!
# The child process manager

`FChildProcessManager` keeps the programs that it was asked to run and runs one at a time on its own
libuv loop. `Tick` and `Run` pick the next one, pass on what the child writes, and report its end
when it has exited and both its pipes are at their end. libuv calls back only from inside the loop,
and the delegates of the user run inside `Tick` and `Run`. What is running is a stack of frames.

A process is known by the number of its allocation. `none` is a result that is not defined: a
libuv handle that is closed twice or was never initialised, a process that was freed, or the loop
entered from one of its own callbacks. Memory is never exhausted.
-/

namespace Utilpp.Process

open Lib

/-- `SpawnData_t` -/
structure SpawnData where
  cwd : List UInt8 := []
  filepath : List UInt8
  argvs : List (List UInt8) := []
  hideWindow : Bool := false
  deriving DecidableEq

/-- A copy with a null byte behind it, read as a C string. -/
def cString (text : List UInt8) : List UInt8 := text.takeWhile fun byte => byte ≠ 0

/-- `uv_process_options_t`, as `uv_spawn` reads it. -/
structure ProcessOptions where
  file : List UInt8
  args : List (List UInt8)
  cwd : Option (List UInt8)
  hideWindow : Bool
  deriving DecidableEq

/-- A libuv handle: `active` while callbacks of it may come. -/
inductive UVHandle where
  | fresh
  | idle
  | active
  | closed
  deriving DecidableEq

/-- `uv_close` takes a handle that is initialised and was not closed. -/
def UVHandle.close : UVHandle → Option UVHandle
  | .idle => some .closed
  | .active => some .closed
  | _ => none

/-- Handles that `uv_close` takes. -/
def UVHandle.Open (handle : UVHandle) : Prop := handle = .idle ∨ handle = .active

/-- The two pipes that are read. -/
inductive Stream where
  | out
  | err
  deriving DecidableEq

/-- What `on_read` is called with. -/
inductive Input where
  | bytes (bytes : List UInt8)
  | eof
  | error (code : Int)
  deriving DecidableEq

/-- What `uv_spawn` and the two `uv_read_start` answer. -/
inductive SpawnResult where
  | started
  | notSpawned
  | outNotRead
  | errNotRead
  deriving DecidableEq

/-- `UVProcess_t`; `exit` is the status and the signal when `bExit` is set. -/
structure UVProcess (δ : Type) where
  number : Nat
  handle : UInt32
  args : List (List UInt8)
  cwd : Option (List UInt8)
  hideWindow : Bool
  process : UVHandle := .fresh
  inPipe : UVHandle := .fresh
  outPipe : UVHandle := .fresh
  errPipe : UVHandle := .fresh
  onReadDelegate : Option δ := none
  onExitDelegate : Option δ := none
  exit : Option (Int × Int) := none
  outPipeEof : Bool := false
  errPipeEof : Bool := false

/-- Who waits for the loop to return. -/
inductive Caller where
  | tick
  | run
  deriving DecidableEq

/-- A call that has not returned: the loop, or a delegate. -/
inductive Frame where
  | loop (caller : Caller)
  | onRead
  | onExit (handle : UInt32) (number : Nat) (caller : Caller)
  deriving DecidableEq

/-- What is recorded of a process: that it was accepted, what the system did with it, and the calls
of its delegates with the delegate that is set. -/
inductive Seen (δ : Type) where
  | accepted (data : SpawnData)
  | started (options : ProcessOptions)
  | notStarted (options : ProcessOptions)
  | exited (status signal : Int)
  | eof (stream : Stream)
  | error (stream : Stream)
  | onRead (delegate : Option δ) (stream : Stream) (bytes : List UInt8)
  | onExit (delegate : Option δ) (status signal : Int)

variable {δ : Type}

namespace UVProcess

/-- The process that `SpawnProcess` makes of its argument. -/
def new (number : Nat) (handle : UInt32) (data : SpawnData) : UVProcess δ where
  number := number
  handle := handle
  args := data.filepath :: data.argvs
  cwd := if data.cwd = [] then none else some data.cwd
  hideWindow := data.hideWindow

/-- The options that `InternalSpawnProcess` fills in. -/
def options (p : UVProcess δ) : ProcessOptions where
  file := cString (p.args.headD [])
  args := p.args.map cString
  cwd := p.cwd.map cString
  hideWindow := p.hideWindow

/-- The pipe of a stream. -/
def pipe (p : UVProcess δ) : Stream → UVHandle
  | .out => p.outPipe
  | .err => p.errPipe

/-- Whether the end of a stream was seen. -/
def pipeEof (p : UVProcess δ) : Stream → Bool
  | .out => p.outPipeEof
  | .err => p.errPipeEof

/-- libuv stops reading at the end of a stream and at an error; only the end is noted. -/
def stopReading (p : UVProcess δ) (stream : Stream) (eof : Bool) : UVProcess δ :=
  match stream with
  | .out => { p with outPipe := .idle, outPipeEof := p.outPipeEof || eof }
  | .err => { p with errPipe := .idle, errPipeEof := p.errPipeEof || eof }

/-- `InternalSpawnProcess` -/
def internalSpawnProcess (p : UVProcess δ) (result : SpawnResult) : UVProcess δ × Bool :=
  let p := { p with inPipe := .idle, outPipe := .idle, errPipe := .idle }
  match result with
  | .started => ({ p with process := .active, outPipe := .active, errPipe := .active }, true)
  | .notSpawned => ({ p with process := .idle }, false)
  -- the process is closed here, and again by `ClearProcessData`
  | .outNotRead => ({ p with process := .closed }, false)
  | .errNotRead => ({ p with process := .closed, outPipe := .active }, false)

/-- The test of `Tick` and `Run`: the process exited and both pipes are at their end. -/
def finished (p : UVProcess δ) : Option (Int × Int) :=
  if p.errPipeEof ∧ p.outPipeEof then p.exit else none

end UVProcess

/-- `FChildProcessManager`, with the frames that are running and what was recorded. -/
structure Manager (δ : Type) where
  processCount : UInt32 := 0
  currentHandle : UInt32 := nullCommonHandleID
  processes : UInt32 → Option (UVProcess δ) := fun _ => none
  made : Nat := 0
  running : List Frame := []
  seen : List (Nat × Seen δ) := []

namespace Manager

/-- The process changes. -/
def set (m : Manager δ) (handle : UInt32) (p : UVProcess δ) : Manager δ :=
  { m with processes := Function.update m.processes handle (some p) }

@[simp] theorem set_self (m : Manager δ) (handle : UInt32) (p : UVProcess δ) :
    (m.set handle p).processes handle = some p := Function.update_self handle _ _

theorem set_other (m : Manager δ) {handle other : UInt32} (h : other ≠ handle)
    (p : UVProcess δ) : (m.set handle p).processes other = m.processes other :=
  Function.update_of_ne h _ _

/-- Something is recorded. -/
def record (m : Manager δ) (number : Nat) (entry : Seen δ) : Manager δ :=
  { m with seen := m.seen ++ [(number, entry)] }

/-- `SpawnProcess`, with the handle that it returns. -/
def spawnProcess (m : Manager δ) (data : SpawnData) : UInt32 × Manager δ :=
  if data.filepath = [] then (nullCommonHandleID, m)
  else
    let (handle, processCount) := drawID m.processCount
    let m := { m with processCount }
    match m.processes handle with
    | some _ => (nullCommonHandleID, m)
    | none =>
        (handle, ({ m with made := m.made + 1 }.set handle (.new m.made handle data)).record m.made
          (.accepted data))

/-- `RegisterOnRead` -/
def registerOnRead (m : Manager δ) (handle : UInt32) (delegate : Option δ) : Manager δ :=
  match m.processes handle with
  | none => m
  | some p => m.set handle { p with onReadDelegate := delegate }

/-- `RegisterOnExit` -/
def registerOnExit (m : Manager δ) (handle : UInt32) (delegate : Option δ) : Manager δ :=
  match m.processes handle with
  | none => m
  | some p => m.set handle { p with onExitDelegate := delegate }

/-- `CheckIsFinished` -/
def checkIsFinished (m : Manager δ) (handle : UInt32) : Bool := (m.processes handle).isNone

/-- Whether a callback of the loop is running. -/
def inCallback (m : Manager δ) : Prop := .onRead ∈ m.running

instance (m : Manager δ) : Decidable m.inCallback := inferInstanceAs (Decidable (_ ∈ _))

/-- `uv_run`, which a callback must not call. -/
def uvRun (m : Manager δ) (caller : Caller) : Option (Manager δ) :=
  if m.inCallback then none else some { m with running := .loop caller :: m.running }

/-- `ClearProcessData`: the loop only closes the handles. -/
def clearProcessData (m : Manager δ) (handle : UInt32) : Option (Manager δ) :=
  match m.processes handle with
  | none => some m
  | some p => do
      let _ ← p.process.close
      let _ ← p.inPipe.close
      let _ ← p.outPipe.close
      let _ ← p.errPipe.close
      if m.inCallback then none
      else
        some { m with
          processes := Function.update m.processes handle none
          currentHandle := nullCommonHandleID }

/-- The end of a process is reported, then its data is cleared and the loop runs. -/
def report (m : Manager δ) (handle : UInt32) (p : UVProcess δ) (status signal : Int)
    (caller : Caller) : Option (Manager δ) :=
  let m := m.record p.number (.onExit p.onExitDelegate status signal)
  if p.onExitDelegate.isSome then
    some { m with running := .onExit handle p.number caller :: m.running }
  else (m.clearProcessData handle).bind fun m => m.uvRun caller

/-- The part of `Tick` and `Run` that starts the process it has picked. -/
def start (m : Manager δ) (handle : UInt32) (result : SpawnResult) (caller : Caller) :
    Option (Manager δ) :=
  (m.processes handle).bind fun p =>
    let (q, spawned) := p.internalSpawnProcess result
    let m := { m with currentHandle := handle }.set handle q
    if spawned then (m.record p.number (.started p.options)).uvRun caller
    else (m.record p.number (.notStarted p.options)).report handle q (-1) 0 caller

/-- The part of `Tick` and `Run` that looks after the process that was started. -/
def finish (m : Manager δ) (caller : Caller) : Option (Manager δ) :=
  (m.processes m.currentHandle).bind fun p =>
    match p.finished with
    | some (status, signal) => m.report m.currentHandle p status signal caller
    | none => m.uvRun caller

/-- `Tick`; `first` is `processes.begin()`. -/
def tick (m : Manager δ) (first : Option UInt32) (result : SpawnResult) : Option (Manager δ) :=
  if m.currentHandle = nullCommonHandleID then
    match first with
    | none => some m
    | some handle => m.start handle result .tick
  else m.finish .tick

/-- The loop of `Run` behind `uv_run`. When nothing is left after it, the condition of the loop
ends `Run`, which this leaves to the next round. -/
def round (m : Manager δ) (first : Option UInt32) (result : SpawnResult) : Option (Manager δ) :=
  match first with
  | none => some m
  | some handle =>
      if m.currentHandle = nullCommonHandleID then m.start handle result .run
      else m.finish .run

/-- `uv_run` returns. -/
def loopReturns (m : Manager δ) (first : Option UInt32) (result : SpawnResult) :
    Option (Manager δ) :=
  match m.running with
  | .loop .tick :: running => some { m with running }
  | .loop .run :: running => { m with running }.round first result
  | _ => none

/-- `OnUvProcessClosed` -/
def onUvProcessClosed (m : Manager δ) (handle : UInt32) (status signal : Int) :
    Option (Manager δ) :=
  (m.processes handle).map fun p =>
    (m.set handle { p with process := .idle, exit := some (status, signal) }).record p.number
      (.exited status signal)

/-- `on_read` -/
def onRead (m : Manager δ) (handle : UInt32) (stream : Stream) (input : Input) :
    Option (Manager δ) :=
  (m.processes handle).map fun p =>
    match input with
    | .eof => (m.set handle (p.stopReading stream true)).record p.number (.eof stream)
    | .error _ => (m.set handle (p.stopReading stream false)).record p.number (.error stream)
    | .bytes bytes =>
        let m := m.record p.number (.onRead p.onReadDelegate stream bytes)
        if p.onReadDelegate.isSome then { m with running := .onRead :: m.running } else m

/-- The last delegate returns. -/
def delegateReturns (m : Manager δ) : Option (Manager δ) :=
  match m.running with
  | .onRead :: running => some { m with running }
  | .onExit handle number caller :: running =>
      let m := { m with running }
      (m.processes handle).bind fun p =>
        -- the reference of the caller is to the process for which the delegate was called
        if p.number = number then (m.clearProcessData handle).bind fun m => m.uvRun caller
        else none
  | _ => none

end Manager

/-! ## Events -/

/-- An event: a call of the user, a callback of libuv, or the return of the loop or of a
delegate. -/
inductive Event (δ : Type) where
  | spawnProcess (data : SpawnData)
  | registerOnRead (handle : UInt32) (delegate : Option δ)
  | registerOnExit (handle : UInt32) (delegate : Option δ)
  | tick (first : Option UInt32) (result : SpawnResult)
  | run
  | loopReturns (first : Option UInt32) (result : SpawnResult)
  | exited (handle : UInt32) (status signal : Int)
  | read (handle : UInt32) (stream : Stream) (input : Input)
  | delegateReturns

/-- One event. -/
def managerStep (m : Manager δ) : Event δ → Option (Manager δ)
  | .spawnProcess data => some (m.spawnProcess data).2
  | .registerOnRead handle delegate => some (m.registerOnRead handle delegate)
  | .registerOnExit handle delegate => some (m.registerOnExit handle delegate)
  | .tick first result => m.tick first result
  | .run => m.uvRun .run
  | .loopReturns first result => m.loopReturns first result
  | .exited handle status signal => m.onUvProcessClosed handle status signal
  | .read handle stream input => m.onRead handle stream input
  | .delegateReturns => m.delegateReturns

/-- Whether the code of the user is running: outside, or in a delegate. -/
def Manager.UsersTurn (m : Manager δ) : Prop := ∀ caller, m.running.head? ≠ some (.loop caller)

/-- Whether libuv may call back. -/
def Manager.Looping (m : Manager δ) : Prop := ∃ caller, m.running.head? = some (.loop caller)

/-- Whether `first` may be `processes.begin()`. -/
def Manager.Begins (m : Manager δ) (first : Option UInt32) : Prop :=
  match first with
  | none => ∀ handle, m.processes handle = none
  | some handle => m.processes handle ≠ none

/-- When an event can happen: the user acts in his turn, and libuv calls back for handles that are
active. -/
def Manager.Possible (m : Manager δ) : Event δ → Prop
  | .spawnProcess _ => m.UsersTurn
  | .registerOnRead _ _ => m.UsersTurn
  | .registerOnExit _ _ => m.UsersTurn
  | .tick first _ => m.UsersTurn ∧ m.Begins first
  | .run => m.UsersTurn
  | .loopReturns first _ => m.Looping ∧ m.Begins first
  | .exited handle _ _ => m.Looping ∧ ∃ p, m.processes handle = some p ∧ p.process = .active
  | .read handle stream _ => m.Looping ∧ ∃ p, m.processes handle = some p ∧ p.pipe stream = .active
  | .delegateReturns => m.running ≠ [] ∧ m.UsersTurn

end Utilpp.Process

import Utilpp.Lib.Transition
import Mathlib.Logic.Function.Basic

/-!
# Task chains

`FTaskChainManager` and `FTaskChainNode` for the chain under one handle: the entry of `TaskChains`
under this handle, the nodes, the tasks that `AddTask` was given for them, and what the thread of
every workflow does for the chain. The task manager runs each task once on its workflow, a thread
runs one task at a time, and everything else that the program does only delays these steps. The
main thread is the thread of the workflow `main`.

Results are values of arbitrary types. A function that is called returns any value of its result
type, or throws.
-/

namespace Utilpp.Chain

open Lib

/-- The contents of a `std::any`. A value that was moved out of it leaves its type behind. -/
inductive AnyValue {Ty : Type} (Val : Ty → Type) where
  | empty
  | moved (type : Ty)
  | holds (value : Sigma Val)

/-- The static part of an `FTaskChainNode`: `none` is `void`. -/
structure Node (W Ty : Type) where
  workflow : W
  prevR : Option Ty
  r : Option Ty
  deriving DecidableEq

/-- `TaskChain_t`. The queue holds the numbers of the nodes. The future and the task handle, which
are only written, are left out. -/
structure TaskChain {Ty : Type} (Val : Ty → Type) where
  taskChainNodes : List Nat
  dataContext : AnyValue Val

/-- A task of the chain that the task manager has not started. -/
inductive Task where
  /-- The lambda that `Post` adds. -/
  | node (i : Nat)
  /-- The lambda that calls `OnComplete` on the main thread. -/
  | complete
  deriving DecidableEq, Repr

/-- Where a thread is in the code of the chain. -/
inductive Point where
  | idle
  /-- In the function of node `i`. -/
  | running (i : Nat)
  /-- Before `ExtractResultToContext`. -/
  | returned (i : Nat)
  /-- Behind it, before `OnComplete` is called or added as a task. -/
  | extracted (i : Nat)
  /-- At the call of `PostChainNode`. -/
  | completing
  /-- In `PostChainNode`, when `AddTask` has returned in `Post` of node `i`. -/
  | posted (i : Nat)
  deriving DecidableEq, Repr

/-- What is observed of a run. -/
inductive Event {Ty : Type} (Val : Ty → Type) where
  /-- The function of node `i` is called, with the input if it has one. -/
  | started (i : Nat) (input : Option (AnyValue Val))
  | returned (i : Nat) (result : Option (Sigma Val))
  | threw
  | cancelled
  /-- The chain object is accessed after it was destroyed. -/
  | dangling

variable {W Ty : Type} {Val : Ty → Type}

/-- The chain and the threads. `input` and `ret` are the `Input` and `Ret` members of the nodes. -/
structure State (W : Type) {Ty : Type} (Val : Ty → Type) where
  nodes : List (Node W Ty)
  entry : Option (TaskChain Val)
  input : Nat → AnyValue Val
  ret : Nat → Option (Sigma Val)
  pending : List (W × Task)
  threads : W → Point
  log : List (Event Val)

/-- `NewTaskChain`. -/
def newTaskChain (W : Type) {Ty : Type} (Val : Ty → Type) : State W Val where
  nodes := []
  entry := some ⟨[], .empty⟩
  input := fun _ => .empty
  ret := fun _ => none
  pending := []
  threads := fun _ => .idle
  log := []

/-- `InjectInputFromContext`: the new `Input`, if there is one, and the context that is left;
`none` when `any_cast` throws. -/
def injectInputFromContext [DecidableEq Ty] (prevR : Ty) :
    AnyValue Val → Option (Option (AnyValue Val) × AnyValue Val)
  | .empty => some (none, .empty)
  -- a value that was moved out can be cast and moved again
  | .moved type => if type = prevR then some (some (.moved type), .moved type) else none
  | .holds value => if value.1 = prevR then some (some (.holds value), .moved value.1) else none

namespace State

variable [DecidableEq W] [DecidableEq Ty]

/-- The thread of `w` goes on at another point. -/
def goTo (s : State W Val) (w : W) (point : Point) : State W Val :=
  { s with threads := Function.update s.threads w point }

def record (s : State W Val) (event : Event Val) : State W Val :=
  { s with log := s.log ++ [event] }

/-- `AddTask`. -/
def addTask (s : State W Val) (w : W) (task : Task) : State W Val :=
  { s with pending := s.pending ++ [(w, task)] }

/-- `ChainTask`. -/
def chainTask (s : State W Val) (node : Node W Ty) : State W Val :=
  match s.entry with
  | none => s
  | some chain =>
      { s with
        nodes := s.nodes ++ [node]
        entry := some
          { chain with taskChainNodes := chain.taskChainNodes ++ [s.nodes.length] } }

/-- `SealChain`, up to the call of `PostChainNode`. -/
def sealChain (s : State W Val) (main : W) : State W Val :=
  match s.entry with
  | none => s
  | some chain => if chain.taskChainNodes = [] then s else s.goTo main .completing

/-- The input part of `Post` of node `i`; `none` when it throws. -/
def inject (s : State W Val) (chain : TaskChain Val) (i : Nat) (node : Node W Ty) :
    Option (State W Val) :=
  match node.prevR with
  | none => some s
  | some type =>
      match injectInputFromContext type chain.dataContext with
      | none => none
      | some (input, context) =>
          some { s with
            entry := some { chain with dataContext := context }
            input := input.elim s.input (Function.update s.input i) }

/-- `PostChainNode`, in `Post` up to the return of `AddTask`. An exception leaves the function. -/
def postChainNode (s : State W Val) (main : W) : Option (State W Val) :=
  match s.entry with
  | none => some (s.goTo main .idle)
  | some chain =>
      match chain.taskChainNodes with
      -- behind the last node the chain is erased
      | [] => some ({ s with entry := none }.goTo main .idle)
      | i :: _ =>
          match s.nodes[i]? with
          | none => none
          | some node =>
              match s.inject chain i node with
              | none => some ((s.goTo main .idle).record .threw)
              | some s => some ((s.addTask node.workflow (.node i)).goTo main (.posted i))

/-- The rest of `Post`, which writes two members of the chain, and the `pop` behind it. -/
def popChainNode (s : State W Val) (main : W) : State W Val :=
  match s.entry with
  -- the chain was cancelled while `AddTask` ran
  | none => (s.record .dangling).goTo main .idle
  | some chain =>
      { s with entry := some { chain with taskChainNodes := chain.taskChainNodes.tail } }.goTo
        main .idle

/-- `ExtractResultToContext(Owner->DataContext)`; a node without a result leaves the context. -/
def extractResultToContext (s : State W Val) (i : Nat) : State W Val :=
  match s.entry with
  | none => s.record .dangling
  | some chain =>
      match s.ret i with
      | none => s
      | some value => { s with entry := some { chain with dataContext := .holds value } }

/-- The argument of the function of node `i`; `none` when there is no `Input` to take it from. -/
def argument (s : State W Val) (i : Nat) (node : Node W Ty) : Option (Option (AnyValue Val)) :=
  match node.prevR with
  | none => some none
  | some _ =>
      match s.input i with
      | .empty => none
      | value => some (some value)

/-- `Cancel`. -/
def cancel (s : State W Val) : State W Val := { s with entry := none }.record .cancelled

end State

/-- What happens next. -/
inductive Label (W : Type) {Ty : Type} (Val : Ty → Type) where
  | chainTask (node : Node W Ty)
  | sealChain
  | cancel
  /-- The task manager starts the pending task number `k`. -/
  | start (k : Nat)
  /-- The function that runs on `w` returns. -/
  | returns (w : W) (result : Option (Sigma Val))
  | throws (w : W)
  /-- The next step of the thread of `w` outside of the nodes' functions. -/
  | go (w : W)

/-- A step that the task manager or a function of a node takes, with no exception from one. -/
def Label.scheduled : Label W Val → Bool
  | .start _ | .returns _ _ | .go _ => true
  | .chainTask _ | .sealChain | .cancel | .throws _ => false

namespace State

variable [DecidableEq W] [DecidableEq Ty]

/-- The thread of the workflow takes the task; the function of a node is called. -/
def start (s : State W Val) (w : W) : Task → Option (State W Val)
  | .complete => some (s.goTo w .completing)
  | .node i =>
      match s.nodes[i]? with
      | none => none
      | some node =>
          match s.argument i node with
          | none => none
          | some input => some ((s.goTo w (.running i)).record (.started i input))

/-- The next step of the thread of `w` outside of the nodes' functions. -/
def go (s : State W Val) (main w : W) : Option (State W Val) :=
  match s.threads w with
  | .idle | .running _ => none
  | .returned i => some ((s.extractResultToContext i).goTo w (.extracted i))
  | .extracted _ =>
      if w = main then some (s.goTo w .completing)
      else some ((s.addTask main .complete).goTo w .idle)
  | .completing => s.postChainNode w
  | .posted _ => some (s.popChainNode w)

/-- One step. The main thread calls the functions of the manager when it does not run code of the
chain; `Cancel` may also be called by the function of a node on the main thread. -/
def step (main : W) (s : State W Val) : Label W Val → Option (State W Val)
  | .chainTask node => if s.threads main = .idle then some (s.chainTask node) else none
  | .sealChain => if s.threads main = .idle then some (s.sealChain main) else none
  | .cancel =>
      match s.threads main with
      | .idle | .running _ => some s.cancel
      | _ => none
  | .start k =>
      match s.pending[k]? with
      | none => none
      | some (w, task) =>
          if s.threads w = .idle then
            { s with pending := s.pending.eraseIdx k }.start w task
          else none
  | .returns w result =>
      match s.threads w with
      | .running i =>
          match s.nodes[i]? with
          | none => none
          | some node =>
              if result.map Sigma.fst = node.r then
                some (({ s with ret := Function.update s.ret i result }.goTo w
                  (.returned i)).record (.returned i result))
              else none
      | _ => none
  | .throws w =>
      match s.threads w with
      | .running _ => some ((s.goTo w .idle).record .threw)
      | _ => none
  | .go w => s.go main w

end State

end Utilpp.Chain

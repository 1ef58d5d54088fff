import Utilpp.Chain.TaskChain

/-!
# The token of a chain

At any time a sealed chain has at most one piece of work under way: a node's task that is pending
or running, a pending call of `OnComplete`, or a call of `PostChainNode`. A `Token` says which one
it is, and whether the main thread is still in the `PostChainNode` call that posted it. `At`
relates it to the pending tasks and to the points of all threads, `Move` lists what a step can do
to it, and `At.step` shows that no step leaves this picture.
-/

namespace Utilpp.Chain

open Lib

/-- How far the current node of the chain is. -/
inductive Stage where
  /-- Its task is pending. -/
  | waiting
  | running
  | returned
  | extracted
  /-- The task that calls `OnComplete` is pending. -/
  | finished
  /-- The main thread is at `PostChainNode`. -/
  | completing
  /-- Nothing is under way. -/
  | stopped
  deriving DecidableEq, Repr

/-- The stages in which the thread of the node's workflow is in the node's task. -/
def Stage.active : Stage → Bool
  | .running | .returned | .extracted => true
  | .waiting | .finished | .completing | .stopped => false

def Stage.point (k : Nat) : Stage → Point
  | .running => .running k
  | .returned => .returned k
  | .extracted => .extracted k
  | .waiting | .finished | .completing | .stopped => .idle

namespace Stage

@[simp] theorem active_waiting : waiting.active = false := rfl

@[simp] theorem active_running : running.active = true := rfl

@[simp] theorem active_returned : returned.active = true := rfl

@[simp] theorem active_extracted : extracted.active = true := rfl

@[simp] theorem active_finished : finished.active = false := rfl

@[simp] theorem active_completing : completing.active = false := rfl

@[simp] theorem active_stopped : stopped.active = false := rfl

variable {stage : Stage} {k i : Nat}

@[simp] theorem point_waiting : waiting.point k = .idle := rfl

@[simp] theorem point_running : running.point k = .running k := rfl

@[simp] theorem point_returned : returned.point k = .returned k := rfl

@[simp] theorem point_extracted : extracted.point k = .extracted k := rfl

@[simp] theorem point_finished : finished.point k = .idle := rfl

@[simp] theorem point_completing : completing.point k = .idle := rfl

@[simp] theorem point_stopped : stopped.point k = .idle := rfl

theorem point_eq_running : stage.point k = .running i ↔ stage = .running ∧ k = i := by
  cases stage <;> simp

theorem point_eq_returned : stage.point k = .returned i ↔ stage = .returned ∧ k = i := by
  cases stage <;> simp

theorem point_eq_extracted : stage.point k = .extracted i ↔ stage = .extracted ∧ k = i := by
  cases stage <;> simp

end Stage

/-- The current node, its workflow and its stage; `popping` while the main thread has not popped it
from the queue. -/
structure Token (W : Type) where
  k : Nat
  home : W
  stage : Stage
  popping : Bool

variable {W Ty : Type} {Val : Ty → Type}

namespace State

theorem threads_extractResultToContext (s : State W Val) (i : Nat) :
    (s.extractResultToContext i).threads = s.threads := by
  unfold extractResultToContext
  split
  · rfl
  · split <;> rfl

theorem pending_extractResultToContext (s : State W Val) (i : Nat) :
    (s.extractResultToContext i).pending = s.pending := by
  unfold extractResultToContext
  split
  · rfl
  · split <;> rfl

theorem pending_popChainNode [DecidableEq W] (s : State W Val) (main : W) :
    (s.popChainNode main).pending = s.pending := by
  unfold popChainNode
  split <;> rfl

/-- The input part of `Post` leaves the chain in its place and records nothing. -/
theorem inject_entry [DecidableEq W] [DecidableEq Ty] {s t : State W Val} {chain : TaskChain Val}
    {i : Nat} {node : Node W Ty} (h : s.inject chain i node = some t)
    (hentry : s.entry = some chain) : t.entry ≠ none ∧ t.log = s.log := by
  unfold inject at h
  split at h
  · cases h
    simp [hentry]
  · split at h
    · cases h
    · cases h
      simp

/-- The input part of `Post` touches no thread and no task. -/
theorem inject_frame [DecidableEq W] [DecidableEq Ty] {s t : State W Val} {chain : TaskChain Val}
    {i : Nat} {node : Node W Ty} (h : s.inject chain i node = some t) :
    t.threads = s.threads ∧ t.pending = s.pending := by
  unfold inject at h
  split at h
  · cases h
    exact ⟨rfl, rfl⟩
  · split at h
    · cases h
    · cases h
      exact ⟨rfl, rfl⟩

end State

variable [DecidableEq W]

namespace Token

/-- The point of the main thread outside of the tasks of nodes. -/
def mainPoint (τ : Token W) : Point :=
  if τ.popping then .posted τ.k else if τ.stage = .completing then .completing else .idle

/-- The points of all threads. -/
def threads (τ : Token W) (main w : W) : Point :=
  if w = τ.home ∧ τ.stage.active then τ.stage.point τ.k
  else if w = main then τ.mainPoint
  else .idle

/-- The pending tasks. -/
def pending (τ : Token W) (main : W) : List (W × Task) :=
  match τ.stage with
  | .waiting => [(τ.home, .node τ.k)]
  | .finished => [(main, .complete)]
  | .running | .returned | .extracted | .completing | .stopped => []

/-- While the main thread is in `PostChainNode` it runs no task. -/
def Apart (τ : Token W) (main : W) : Prop :=
  τ.popping = true → τ.stage ≠ .completing ∧ (τ.stage.active = true → τ.home ≠ main)

end Token

/-- The state has exactly the work under way that the token says. -/
structure At (main : W) (s : State W Val) (τ : Token W) : Prop where
  threads : s.threads = τ.threads main
  pending : s.pending = τ.pending main
  apart : τ.Apart main

section Threads

variable {main : W} {τ : Token W}

theorem threads_home (h : τ.stage.active = true) : τ.threads main τ.home = τ.stage.point τ.k :=
  if_pos ⟨rfl, h⟩

/-- A thread in the task of a node is the thread of the current node's workflow. -/
theorem threads_eq_point {w : W} {point : Point} (h : τ.threads main w = point)
    (hidle : point ≠ .idle) (hposted : ∀ i, point ≠ .posted i) (hcompleting : point ≠ .completing) :
    w = τ.home ∧ τ.stage.active = true ∧ τ.stage.point τ.k = point := by
  unfold Token.threads Token.mainPoint at h
  split at h
  · rename_i hhome
    exact ⟨hhome.1, hhome.2, h⟩
  · split at h
    · split at h
      · exact absurd h.symm (hposted τ.k)
      · split at h
        · exact absurd h.symm hcompleting
        · exact absurd h.symm hidle
    · exact absurd h.symm hidle

theorem threads_eq_completing {w : W} (h : τ.threads main w = .completing) :
    w = main ∧ τ.stage = .completing ∧ τ.popping = false := by
  unfold Token.threads Token.mainPoint at h
  split at h
  · cases hstage : τ.stage <;> simp [hstage] at h
  · split at h
    · rename_i hw
      split at h
      · cases h
      · rename_i hpopping
        split at h
        · rename_i hstage
          exact ⟨hw, hstage, by simpa using hpopping⟩
        · cases h
    · cases h

theorem threads_eq_posted {w : W} {i : Nat} (h : τ.threads main w = .posted i) :
    w = main ∧ τ.popping = true ∧ i = τ.k := by
  unfold Token.threads Token.mainPoint at h
  split at h
  · cases hstage : τ.stage <;> simp [hstage] at h
  · split at h
    · rename_i hw
      split at h
      · rename_i hpopping
        cases h
        exact ⟨hw, hpopping, rfl⟩
      · split at h <;> cases h
    · cases h

/-- One thread went on, and the new token says so. -/
theorem update_threads {τ' : Token W} {x : W} {point : Point} (hself : τ'.threads main x = point)
    (hother : ∀ w, w ≠ x → τ'.threads main w = τ.threads main w) :
    Function.update (τ.threads main) x point = τ'.threads main := by
  funext w
  by_cases hw : w = x
  · rw [hw, Function.update_self, hself]
  · rw [Function.update_of_ne hw, hother w hw]

/-- The points of the threads other than that of the current node. -/
theorem threads_other {w : W} (hw : w ≠ τ.home) :
    τ.threads main w = if w = main then τ.mainPoint else .idle := by
  simp [Token.threads, hw]

end Threads

namespace At

variable {main : W} {s s' : State W Val} {τ : Token W}

theorem threads_eq (h : At main s τ) (w : W) : s.threads w = τ.threads main w := by
  rw [h.threads]

theorem of_move {τ' : Token W} (h : At main s τ) {x : W} {point : Point}
    (hthreads : s'.threads = Function.update s.threads x point)
    (hself : τ'.threads main x = point)
    (hother : ∀ w, w ≠ x → τ'.threads main w = τ.threads main w)
    (hpending : s'.pending = τ'.pending main) (hapart : τ'.Apart main) : At main s' τ' := by
  refine ⟨?_, hpending, hapart⟩
  rw [hthreads, h.threads]
  exact update_threads hself hother

/-- The thread of the current node goes on, and the main thread is not concerned. -/
theorem of_home {stage : Stage} (h : At main s τ) {point : Point}
    (hthreads : s'.threads = Function.update s.threads τ.home point)
    (hpoint : ({ τ with stage := stage } : Token W).threads main τ.home = point)
    (hstage : τ.stage ≠ .completing) (hstage' : stage ≠ .completing)
    (hpending : s'.pending = ({ τ with stage := stage } : Token W).pending main)
    (hapart : τ.popping = true → stage.active = true → τ.home ≠ main) :
    At main s' { τ with stage := stage } := by
  refine h.of_move hthreads hpoint ?_ hpending fun hpopping => ⟨hstage', hapart hpopping⟩
  intro w hw
  rw [threads_other hw, @threads_other _ _ main { τ with stage := stage } w hw]
  simp [Token.mainPoint, hstage, hstage']

/-- The main thread goes on outside of the tasks of nodes. -/
theorem of_main {stage : Stage} {popping : Bool} (h : At main s τ) {point : Point}
    (hthreads : s'.threads = Function.update s.threads main point)
    (hactive : τ.stage.active = true ∧ τ.home ≠ main ∧ stage = τ.stage ∨
      τ.stage.active = false ∧ stage.active = false)
    (hpoint : ({ τ with stage := stage, popping := popping } : Token W).mainPoint = point)
    (hpending : s'.pending = ({ τ with stage := stage } : Token W).pending main)
    (hpopping : popping = false) :
    At main s' { τ with stage := stage, popping := popping } := by
  refine h.of_move hthreads ?_ ?_ hpending fun hpop => absurd hpop (by simp [hpopping])
  · rcases hactive with ⟨-, hhome, -⟩ | ⟨-, hstage⟩
    · rw [@threads_other _ _ main { τ with stage := stage, popping := popping } main hhome.symm,
        if_pos rfl, hpoint]
    · simp [Token.threads, hstage, hpoint]
  · intro w hw
    rcases hactive with ⟨-, -, hsame⟩ | ⟨hidle, hstage⟩
    · simp [Token.threads, hw, hsame]
    · simp [Token.threads, hw, hidle, hstage]

/-- The main thread when a function of the manager is called. -/
theorem main_idle (h : At main s τ) (hidle : s.threads main = .idle) :
    τ.popping = false ∧ τ.stage ≠ .completing ∧
      (τ.home = main → τ.stage.active = true → τ.stage = .running) := by
  rw [h.threads_eq] at hidle
  unfold Token.threads Token.mainPoint at hidle
  split at hidle
  · cases hstage : τ.stage <;> simp_all
  · rename_i hhome
    simp only [↓reduceIte] at hidle
    split at hidle
    · cases hidle
    · rename_i hpopping
      split at hidle
      · cases hidle
      · rename_i hstage
        exact ⟨by simpa using hpopping, hstage, fun heq hactive => absurd ⟨heq.symm, hactive⟩ hhome⟩

/-- A thread that runs a node is the one where the chain is. -/
theorem at_running (h : At main s τ) {w : W} {i : Nat} (hrunning : s.threads w = .running i) :
    w = τ.home ∧ τ.stage.active = true ∧ τ.stage = .running ∧ τ.k = i := by
  have hthreads := (h.threads_eq w).symm.trans hrunning
  obtain ⟨hhome, hactive, hat⟩ := threads_eq_point hthreads (by simp) (by simp) (by simp)
  exact ⟨hhome, hactive, Stage.point_eq_running.mp hat⟩

theorem main_running (h : At main s τ) {i : Nat} (hrunning : s.threads main = .running i) :
    τ.popping = false ∧ τ.stage ≠ .completing ∧
      (τ.home = main → τ.stage.active = true → τ.stage = .running) := by
  obtain ⟨hhome, hactive, hstage, -⟩ := h.at_running hrunning
  refine ⟨?_, by simp [hstage], fun _ _ => hstage⟩
  by_contra hpopping
  exact (h.apart (by simpa using hpopping)).2 hactive hhome.symm

end At

variable [DecidableEq Ty]

open State in
/-- What a step of a sealed chain can do. -/
inductive Move (main : W) (s : State W Val) (τ : Token W) :
    Label W Val → State W Val → Token W → Prop where
  | start (node : Node W Ty) (input : Option (AnyValue Val)) (hstage : τ.stage = .waiting)
      (hmain : τ.popping = true → τ.home ≠ main) (hnode : s.nodes[τ.k]? = some node)
      (hinput : s.argument τ.k node = some input) :
      Move main s τ (.start 0) (({ s with pending := [] }.goTo τ.home (.running τ.k)).record
        (.started τ.k input)) { τ with stage := .running }
  | returns (node : Node W Ty) (result : Option (Sigma Val)) (hstage : τ.stage = .running)
      (hnode : s.nodes[τ.k]? = some node) (hresult : result.map Sigma.fst = node.r) :
      Move main s τ (.returns τ.home result)
        (({ s with ret := Function.update s.ret τ.k result }.goTo τ.home
          (.returned τ.k)).record (.returned τ.k result)) { τ with stage := .returned }
  | throws (hstage : τ.stage = .running) :
      Move main s τ (.throws τ.home) ((s.goTo τ.home .idle).record .threw)
        { τ with stage := .stopped }
  | extract (hstage : τ.stage = .returned) :
      Move main s τ (.go τ.home) ((s.extractResultToContext τ.k).goTo τ.home (.extracted τ.k))
        { τ with stage := .extracted }
  | call (hstage : τ.stage = .extracted) (hmain : τ.home = main) (hpopping : τ.popping = false) :
      Move main s τ (.go main) (s.goTo main .completing) { τ with stage := .completing }
  | add (hstage : τ.stage = .extracted) (hmain : τ.home ≠ main) :
      Move main s τ (.go τ.home) ((s.addTask main .complete).goTo τ.home .idle)
        { τ with stage := .finished }
  | complete (hstage : τ.stage = .finished) (hpopping : τ.popping = false) :
      Move main s τ (.start 0) ({ s with pending := [] }.goTo main .completing)
        { τ with stage := .completing }
  | vanish (hstage : τ.stage = .completing) (hpopping : τ.popping = false)
      (hentry : s.entry = none) :
      Move main s τ (.go main) (s.goTo main .idle) { τ with stage := .stopped }
  | erase (chain : TaskChain Val) (hstage : τ.stage = .completing) (hpopping : τ.popping = false)
      (hentry : s.entry = some chain) (hqueue : chain.taskChainNodes = []) :
      Move main s τ (.go main) ({ s with entry := none }.goTo main .idle)
        { τ with stage := .stopped }
  | refuse (chain : TaskChain Val) (i : Nat) (rest : List Nat) (node : Node W Ty)
      (hstage : τ.stage = .completing) (hpopping : τ.popping = false)
      (hentry : s.entry = some chain) (hqueue : chain.taskChainNodes = i :: rest)
      (hnode : s.nodes[i]? = some node) (hinject : s.inject chain i node = none) :
      Move main s τ (.go main) ((s.goTo main .idle).record .threw) { τ with stage := .stopped }
  | post (chain : TaskChain Val) (i : Nat) (rest : List Nat) (node : Node W Ty)
      (injected : State W Val) (hstage : τ.stage = .completing) (hpopping : τ.popping = false)
      (hentry : s.entry = some chain) (hqueue : chain.taskChainNodes = i :: rest)
      (hnode : s.nodes[i]? = some node) (hinject : s.inject chain i node = some injected) :
      Move main s τ (.go main) ((injected.addTask node.workflow (.node i)).goTo main (.posted i))
        ⟨i, node.workflow, .waiting, true⟩
  | pop (hpopping : τ.popping = true) :
      Move main s τ (.go main) (s.popChainNode main) { τ with popping := false }
  | cancel (hpopping : τ.popping = false) (hstage : τ.stage ≠ .completing)
      (hmain : τ.home = main → τ.stage.active = true → τ.stage = .running) :
      Move main s τ .cancel s.cancel τ

/-- A step of a chain that is not built or sealed any more. -/
def Label.running : Label W Val → Bool
  | .chainTask _ | .sealChain => false
  | .cancel | .start _ | .returns _ _ | .throws _ | .go _ => true

namespace At

variable {main : W} {s s' : State W Val} {τ : Token W}

theorem go_returned (h : At main s τ) {w : W} {i : Nat} (hpoint : s.threads w = .returned i)
    (hstep : s.go main w = some s') :
    ∃ τ', Move main s τ (.go w) s' τ' ∧ At main s' τ' := by
  have hthreads := h.threads_eq w
  have hpending := h.pending
  unfold State.go at hstep
  simp only [hpoint, Option.some.injEq] at hstep
  rw [hpoint] at hthreads
  obtain ⟨rfl, hactive, hat⟩ := threads_eq_point hthreads.symm (by simp) (by simp) (by simp)
  obtain ⟨hstage, rfl⟩ := Stage.point_eq_returned.mp hat
  subst hstep
  refine ⟨_, .extract hstage, @of_home _ _ _ _ main s _ τ .extracted h (.extracted τ.k) ?_ ?_
    (by simp [hstage]) (by simp) ?_ ?_⟩
  · rw [State.goTo, State.threads_extractResultToContext]
  · exact threads_home rfl
  · show (s.extractResultToContext τ.k).pending = _
    rw [State.pending_extractResultToContext, hpending]
    simp [Token.pending, hstage]
  · exact fun hpopping _ => (h.apart hpopping).2 hactive

/-- On the main thread the chain goes on at once, and elsewhere as a new task. -/
theorem go_extracted (h : At main s τ) {w : W} {i : Nat} (hpoint : s.threads w = .extracted i)
    (hstep : s.go main w = some s') :
    ∃ τ', Move main s τ (.go w) s' τ' ∧ At main s' τ' := by
  have hthreads := h.threads_eq w
  have hpending := h.pending
  unfold State.go at hstep
  simp only [hpoint] at hstep
  rw [hpoint] at hthreads
  obtain ⟨rfl, hactive, hat⟩ := threads_eq_point hthreads.symm (by simp) (by simp) (by simp)
  obtain ⟨hstage, rfl⟩ := Stage.point_eq_extracted.mp hat
  split at hstep
  · rename_i hmain
    have hpopping : τ.popping = false := by
      by_contra hpopping
      exact (h.apart (by simpa using hpopping)).2 hactive hmain
    cases hstep
    rw [hmain]
    refine ⟨_, .call hstage hmain hpopping, ?_⟩
    refine @of_move _ _ _ _ main s _ τ _ h main .completing rfl ?_ ?_ ?_ ?_
    · simp [Token.threads, Token.mainPoint, hpopping]
    · intro w hw
      rw [← hmain] at hw
      rw [threads_other hw, @threads_other _ _ main { τ with stage := .completing } w hw,
        if_neg (hmain ▸ hw), if_neg (hmain ▸ hw)]
    · show s.pending = []
      rw [hpending]
      simp [Token.pending, hstage]
    · exact fun hpop => absurd hpop (by simp [hpopping])
  · rename_i hmain
    cases hstep
    refine ⟨_, .add hstage hmain, @of_home _ _ _ _ main s _ τ .finished h .idle rfl ?_
      (by simp [hstage]) (by simp) ?_ ?_⟩
    · simp [Token.threads, hmain]
    · show s.pending ++ _ = _
      rw [hpending]
      simp [Token.pending, hstage]
    · exact fun _ hactive => absurd hactive (by simp)

theorem go_completing (h : At main s τ) {w : W} (hpoint : s.threads w = .completing)
    (hstep : s.go main w = some s') :
    ∃ τ', Move main s τ (.go w) s' τ' ∧ At main s' τ' := by
  have hthreads := h.threads_eq w
  have hpending := h.pending
  unfold State.go at hstep
  simp only [hpoint] at hstep
  rw [hpoint] at hthreads
  obtain ⟨rfl, hstage, hpopping⟩ := threads_eq_completing hthreads.symm
  -- the main thread goes idle and nothing is under way any more
  have hstopped : ∀ {t : State W Val}, t.threads = Function.update s.threads w .idle →
      t.pending = s.pending → At w t { τ with stage := .stopped } := by
    intro t ht ht'
    have hmain := @of_main _ _ _ _ w s t τ .stopped τ.popping h .idle ht
      (.inr ⟨by simp [hstage], rfl⟩) (by simp [Token.mainPoint, hpopping])
      (by rw [ht', hpending]; simp [Token.pending, hstage]) hpopping
    exact hmain
  unfold State.postChainNode at hstep
  split at hstep
  · rename_i hentry
    cases hstep
    exact ⟨_, .vanish hstage hpopping hentry, hstopped rfl rfl⟩
  · rename_i chain hentry
    split at hstep
    · rename_i hqueue
      cases hstep
      exact ⟨_, .erase chain hstage hpopping hentry hqueue, hstopped rfl rfl⟩
    · rename_i i rest hqueue
      split at hstep
      · cases hstep
      · rename_i node hnode
        split at hstep
        · rename_i hinject
          cases hstep
          exact ⟨_, .refuse chain i rest node hstage hpopping hentry hqueue hnode hinject,
            hstopped rfl rfl⟩
        · rename_i injected hinject
          cases hstep
          refine ⟨_, .post chain i rest node injected hstage hpopping hentry hqueue hnode
            hinject, ?_⟩
          obtain ⟨hthreads', hpending'⟩ := State.inject_frame hinject
          refine @of_move _ _ _ _ w s _ τ _ h w (.posted i) ?_ ?_ ?_ ?_ ?_
          · show Function.update injected.threads w _ = _
            rw [hthreads']
          · simp [Token.threads, Token.mainPoint]
          · intro x hx
            simp [Token.threads, hx, hstage]
          · show injected.pending ++ _ = _
            rw [hpending', hpending]
            simp [Token.pending, hstage]
          · exact fun _ => ⟨by simp, fun hactive => absurd hactive (by simp)⟩

theorem go_posted (h : At main s τ) {w : W} {i : Nat} (hpoint : s.threads w = .posted i)
    (hstep : s.go main w = some s') :
    ∃ τ', Move main s τ (.go w) s' τ' ∧ At main s' τ' := by
  have hthreads := h.threads_eq w
  have hpending := h.pending
  unfold State.go at hstep
  simp only [hpoint, Option.some.injEq] at hstep
  rw [hpoint] at hthreads
  obtain ⟨rfl, hpopping, rfl⟩ := threads_eq_posted hthreads.symm
  subst hstep
  obtain ⟨hstage, hhome⟩ := h.apart hpopping
  refine ⟨_, .pop hpopping, @of_main _ _ _ _ w s _ τ τ.stage false h .idle ?_ ?_ ?_ ?_ rfl⟩
  · unfold State.popChainNode
    split <;> rfl
  · cases hactive : τ.stage.active with
    | true => exact .inl ⟨rfl, hhome hactive, rfl⟩
    | false => exact .inr ⟨rfl, rfl⟩
  · simp [Token.mainPoint, hstage]
  · rw [State.pending_popChainNode, hpending]

/-- A step of the thread of `w` finds the chain where the token says. -/
theorem go (h : At main s τ) {w : W} (hstep : s.go main w = some s') :
    ∃ τ', Move main s τ (.go w) s' τ' ∧ At main s' τ' := by
  cases hpoint : s.threads w with
  | idle | running i =>
      unfold State.go at hstep
      simp [hpoint] at hstep
  | returned i => exact h.go_returned hpoint hstep
  | extracted i => exact h.go_extracted hpoint hstep
  | completing => exact h.go_completing hpoint hstep
  | posted i => exact h.go_posted hpoint hstep

/-- A task that is started is the one that the token says is pending. -/
theorem start (h : At main s τ) {k : Nat} (hstep : s.step main (.start k) = some s') :
    ∃ τ', Move main s τ (.start k) s' τ' ∧ At main s' τ' := by
  have hpending := h.pending
  simp only [State.step] at hstep
  split at hstep
  · cases hstep
  · rename_i w task htask
    split at hstep
    · rename_i hidle
      rw [hpending] at htask
      rw [h.threads_eq] at hidle
      -- there is at most one pending task
      have hcases : k = 0 ∧ (τ.stage = .waiting ∧ w = τ.home ∧ task = .node τ.k ∨
          τ.stage = .finished ∧ w = main ∧ task = .complete) := by
        cases hstage : τ.stage <;> simp only [Token.pending, hstage] at htask <;>
          cases k <;> simp_all
      obtain ⟨rfl, ⟨hstage, rfl, rfl⟩ | ⟨hstage, rfl, rfl⟩⟩ := hcases
      · have hempty : s.pending.eraseIdx 0 = [] := by
          rw [hpending]
          simp [Token.pending, hstage]
        rw [hempty] at hstep
        have hmain : τ.popping = true → τ.home ≠ main := by
          intro hpopping heq
          simp [Token.threads, Token.mainPoint, hpopping, heq, hstage] at hidle
        simp only [State.start] at hstep
        split at hstep
        · cases hstep
        · rename_i node hnode
          split at hstep
          · cases hstep
          · rename_i input hinput
            cases hstep
            refine ⟨_, .start node input hstage hmain hnode hinput,
              @of_home _ _ _ _ main s _ τ .running h (.running τ.k) rfl ?_ (by simp [hstage])
                (by simp) rfl (fun hpopping _ => hmain hpopping)⟩
            exact threads_home rfl
      · have hempty : s.pending.eraseIdx 0 = [] := by
          rw [hpending]
          simp [Token.pending, hstage]
        rw [hempty] at hstep
        have hpopping : τ.popping = false := by
          by_contra hpopping
          simp [Token.threads, Token.mainPoint, hpopping, hstage] at hidle
        cases hstep
        refine ⟨_, .complete hstage hpopping, ?_⟩
        have hmain := @of_main _ _ _ _ w s ({ s with pending := [] }.goTo w .completing) τ
          .completing τ.popping h .completing rfl (.inr ⟨by simp [hstage], rfl⟩)
          (by simp [Token.mainPoint, hpopping]) rfl hpopping
        exact hmain
    · cases hstep

/-- Every step of a sealed chain is one of the moves and leaves the chain with one token. -/
theorem step {l : Label W Val} (h : At main s τ) (hl : l.running = true)
    (hstep : s.step main l = some s') : ∃ τ', Move main s τ l s' τ' ∧ At main s' τ' := by
  cases l with
  | chainTask node | sealChain => simp [Label.running] at hl
  | cancel =>
      simp only [State.step] at hstep
      split at hstep
      · rename_i hidle
        obtain ⟨hpopping, hstage, hmain⟩ := h.main_idle hidle
        cases hstep
        exact ⟨τ, .cancel hpopping hstage hmain, h.threads, h.pending, h.apart⟩
      · rename_i i hrunning
        obtain ⟨hpopping, hstage, hmain⟩ := h.main_running hrunning
        cases hstep
        exact ⟨τ, .cancel hpopping hstage hmain, h.threads, h.pending, h.apart⟩
      · cases hstep
  | start k => exact h.start hstep
  | returns w result =>
      simp only [State.step] at hstep
      split at hstep
      · rename_i i hrunning
        obtain ⟨rfl, hactive, hstage, rfl⟩ := h.at_running hrunning
        split at hstep
        · cases hstep
        · rename_i node hnode
          split at hstep
          · rename_i hresult
            cases hstep
            refine ⟨_, .returns node result hstage hnode hresult,
              @of_home _ _ _ _ main s _ τ .returned h (.returned τ.k) rfl ?_ (by simp [hstage])
                (by simp) ?_ (fun hpopping _ => (h.apart hpopping).2 hactive)⟩
            · exact threads_home rfl
            · show s.pending = _
              rw [h.pending]
              simp [Token.pending, hstage]
          · cases hstep
      · cases hstep
  | throws w =>
      simp only [State.step] at hstep
      split at hstep
      · rename_i i hrunning
        obtain ⟨rfl, hactive, hstage, rfl⟩ := h.at_running hrunning
        cases hstep
        refine ⟨_, .throws hstage, @of_home _ _ _ _ main s _ τ .stopped h .idle rfl ?_
          (by simp [hstage]) (by simp) ?_
          (fun _ hactive => absurd hactive (by simp))⟩
        · by_cases hpopping : τ.popping = true
          · simp [Token.threads, (h.apart hpopping).2 hactive]
          · simp [Token.threads, Token.mainPoint, hpopping]
        · show s.pending = _
          rw [h.pending]
          simp [Token.pending, hstage]
      · cases hstep
  | go w => exact h.go hstep

end At

/-! ## Building a chain -/

/-- The labels that build a chain of these nodes and seal it. -/
def buildAndSeal (nodes : List (Node W Ty)) : List (Label W Val) :=
  nodes.map .chainTask ++ [.sealChain]

/-- The chain with these nodes before it is sealed. -/
def builtChain (Val : Ty → Type) (nodes : List (Node W Ty)) : State W Val :=
  { newTaskChain W Val with nodes := nodes, entry := some ⟨List.range nodes.length, .empty⟩ }

/-- The chain with these nodes after it was sealed. -/
def sealedChain (Val : Ty → Type) (main : W) (nodes : List (Node W Ty)) : State W Val :=
  (builtChain Val nodes).sealChain main

theorem exec_chainTask (main : W) (nodes more : List (Node W Ty)) :
    exec (State.step main) (builtChain Val nodes) (more.map .chainTask) =
      some (builtChain Val (nodes ++ more)) := by
  induction more generalizing nodes with
  | nil => simp
  | cons node more ih =>
      have hstep : State.step main (builtChain Val nodes) (.chainTask node) =
          some (builtChain Val (nodes ++ [node])) := by
        simp [State.step, State.chainTask, builtChain, newTaskChain, List.range_succ]
      rw [List.map_cons, exec, hstep]
      show exec _ (builtChain Val (nodes ++ [node])) _ = _
      rw [ih, List.append_assoc, List.singleton_append]

/-- Building and sealing a chain, from `NewTaskChain` on. -/
theorem exec_buildAndSeal (main : W) (nodes : List (Node W Ty)) :
    exec (State.step main) (newTaskChain W Val) (buildAndSeal nodes) =
      some (sealedChain Val main nodes) := by
  refine exec_append_eq_some.mpr ⟨builtChain Val nodes, exec_chainTask main [] nodes, ?_⟩
  rfl

omit [DecidableEq Ty] in
/-- A sealed chain has its first node to post, if it has nodes. -/
theorem at_sealedChain (main : W) (nodes : List (Node W Ty)) :
    At main (sealedChain Val main nodes)
      ⟨0, main, if nodes = [] then .stopped else .completing, false⟩ := by
  have hidle : At main (builtChain Val nodes) ⟨0, main, .stopped, false⟩ := by
    refine ⟨?_, rfl, by simp [Token.Apart]⟩
    funext w
    simp [Token.threads, Token.mainPoint, builtChain, newTaskChain]
  by_cases hnodes : nodes = []
  · rw [if_pos hnodes]
    subst hnodes
    exact hidle
  · rw [if_neg hnodes]
    have hsealed : sealedChain Val main nodes = (builtChain Val nodes).goTo main .completing := by
      simp [sealedChain, State.sealChain, builtChain, hnodes]
    rw [hsealed]
    exact @At.of_main _ _ _ _ main _ _ _ .completing false hidle .completing rfl (.inr ⟨rfl, rfl⟩)
      rfl rfl rfl

end Utilpp.Chain

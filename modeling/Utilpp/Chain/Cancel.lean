import Utilpp.Chain.Token
import Mathlib.Data.Fintype.Basic

/-!
# Cancelling a chain

`Cancel` destroys the chain object while a node's task may still be pending or in its function; the
task then runs and writes its result into the destroyed object. `cancel_safe` shows that a run in
which `Cancel` is called only while no node's task is before its `ExtractResultToContext` is safe,
for chains of any length on any workflows, with functions that return or throw.
-/

namespace Utilpp.Chain

open Lib

variable {W Ty : Type} {Val : Ty → Type}

/-- No function is called after `Cancel`, and a destroyed chain object is never accessed. -/
def CancelSafe (log : List (Event Val)) : Prop :=
  (log.Pairwise fun e f => e = .cancelled → ∀ i input, f ≠ .started i input) ∧ .dangling ∉ log

/-- The thread is in the function of a node or about to put its result into the chain. -/
def Point.unextracted : Point → Bool
  | .running _ | .returned _ => true
  | .idle | .extracted _ | .completing | .posted _ => false

/-- `Cancel` is called while no task of a node is pending, running, or about to put its result into
the chain. -/
def CancelsBetween (s : State W Val) : Label W Val → Prop
  | .cancel =>
      (∀ task ∈ s.pending, task.2 = .complete) ∧ ∀ w, (s.threads w).unextracted = false
  | _ => True

instance [Fintype W] (s : State W Val) (l : Label W Val) : Decidable (CancelsBetween s l) :=
  match l with
  | .cancel => inferInstanceAs (Decidable (_ ∧ _))
  | .chainTask _ | .sealChain | .start _ | .returns _ _ | .throws _ | .go _ => .isTrue trivial

/-- The stages in which nothing of the chain object is needed any more. -/
def Token.Quiet (τ : Token W) : Prop :=
  τ.popping = false ∧ τ.stage ≠ .waiting ∧ τ.stage ≠ .running ∧ τ.stage ≠ .returned

/-- A destroyed chain has a quiet token, and nothing wrong has been recorded. -/
structure Unharmed (s : State W Val) (τ : Token W) : Prop where
  quiet : s.entry = none → τ.Quiet
  cancelled : .cancelled ∈ s.log → s.entry = none
  safe : CancelSafe s.log

/-- Recording an event that is neither an access to a destroyed chain nor the start of a function
of a cancelled one. -/
theorem CancelSafe.append {log : List (Event Val)} (h : CancelSafe log) {event : Event Val}
    (hdangling : event ≠ .dangling)
    (hstarted : .cancelled ∈ log → ∀ i input, event ≠ .started i input) :
    CancelSafe (log ++ [event]) := by
  refine ⟨List.pairwise_append.mpr ⟨h.1, List.pairwise_singleton _ _, ?_⟩, ?_⟩
  · intro e he f hf hcancelled
    rw [List.mem_singleton.mp hf]
    exact hstarted (hcancelled ▸ he)
  · rw [List.mem_append, List.mem_singleton]
    rintro (hmem | heq)
    · exact h.2 hmem
    · exact hdangling heq.symm

namespace Unharmed

variable {s s' : State W Val} {τ τ' : Token W} {main : W}

/-- A step that changes neither the entry nor the record. -/
theorem of_same (h : Unharmed s τ) (hentry : s'.entry = s.entry) (hlog : s'.log = s.log)
    (hquiet : τ.Quiet → τ'.Quiet) : Unharmed s' τ' where
  quiet hnone := hquiet (h.quiet (hentry ▸ hnone))
  cancelled hmem := hentry ▸ h.cancelled (hlog ▸ hmem)
  safe := hlog ▸ h.safe

/-- A step of a chain that is not destroyed, which records one event. -/
theorem of_alive (h : Unharmed s τ) (halive : s.entry ≠ none) {event : Event Val}
    (hentry : s'.entry ≠ none) (hlog : s'.log = s.log ++ [event]) (hdangling : event ≠ .dangling)
    (hcancelled : event ≠ .cancelled) : Unharmed s' τ' where
  quiet hnone := absurd hnone hentry
  cancelled hmem := by
    rw [hlog, List.mem_append, List.mem_singleton] at hmem
    exact absurd (h.cancelled (hmem.resolve_right hcancelled.symm)) halive
  safe := hlog ▸ h.safe.append hdangling fun hmem => absurd (h.cancelled hmem) halive

variable [DecidableEq W] [DecidableEq Ty]

/-- One move of a chain that is cancelled only between nodes. -/
theorem move {l : Label W Val} (h : Unharmed s τ) (hat : At main s τ)
    (hmove : Move main s τ l s' τ') (hok : CancelsBetween s l) : Unharmed s' τ' := by
  have halive : ¬ τ.Quiet → s.entry ≠ none := fun hnot hnone => hnot (h.quiet hnone)
  cases hmove with
  | start node input hstage _ _ _ =>
      have hentry := halive fun hquiet => hquiet.2.1 hstage
      exact h.of_alive hentry hentry rfl (by simp) (by simp)
  | returns node result hstage _ _ =>
      have hentry := halive fun hquiet => hquiet.2.2.1 hstage
      exact h.of_alive hentry hentry rfl (by simp) (by simp)
  | throws hstage =>
      have hentry := halive fun hquiet => hquiet.2.2.1 hstage
      exact h.of_alive hentry hentry rfl (by simp) (by simp)
  | extract hstage =>
      have hentry := halive fun hquiet => hquiet.2.2.2 hstage
      obtain ⟨chain, hchain⟩ := Option.ne_none_iff_exists'.mp hentry
      have hextract : (s.extractResultToContext τ.k).entry ≠ none ∧
          (s.extractResultToContext τ.k).log = s.log := by
        unfold State.extractResultToContext
        rw [hchain]
        dsimp only
        split
        · exact ⟨hentry, rfl⟩
        · exact ⟨by simp, rfl⟩
      refine ⟨fun hnone => absurd hnone hextract.1, fun hmem => ?_, ?_⟩
      · exact absurd (h.cancelled (hextract.2 ▸ hmem)) hentry
      · show CancelSafe (s.extractResultToContext τ.k).log
        rw [hextract.2]
        exact h.safe
  | call hstage hmain hpopping =>
      exact h.of_same rfl rfl fun hquiet => ⟨hquiet.1, by simp, by simp, by simp⟩
  | add hstage hmain =>
      exact h.of_same rfl rfl fun hquiet => ⟨hquiet.1, by simp, by simp, by simp⟩
  | complete hstage hpopping =>
      exact h.of_same rfl rfl fun hquiet => ⟨hquiet.1, by simp, by simp, by simp⟩
  | vanish hstage hpopping _ =>
      exact h.of_same rfl rfl fun hquiet => ⟨hquiet.1, by simp, by simp, by simp⟩
  | erase chain hstage hpopping hentry hqueue =>
      exact ⟨fun _ => ⟨hpopping, by simp, by simp, by simp⟩, fun _ => rfl, h.safe⟩
  | refuse chain i rest node hstage hpopping hentry _ _ _ =>
      have halive : s.entry ≠ none := by simp [hentry]
      exact h.of_alive halive halive rfl (by simp) (by simp)
  | post chain i rest node injected hstage hpopping hentry hqueue hnode hinject =>
      have halive : s.entry ≠ none := by simp [hentry]
      obtain ⟨halive', hlog⟩ := State.inject_entry hinject hentry
      refine ⟨fun hnone => absurd hnone halive', fun hmem => ?_, ?_⟩
      · exact absurd (h.cancelled (hlog ▸ hmem)) halive
      · show CancelSafe injected.log
        rw [hlog]
        exact h.safe
  | pop hpopping =>
      have hentry := halive fun hquiet => by simp [hquiet.1] at hpopping
      obtain ⟨chain, hchain⟩ := Option.ne_none_iff_exists'.mp hentry
      have hpop : (s.popChainNode main).entry ≠ none ∧ (s.popChainNode main).log = s.log := by
        simp [State.popChainNode, hchain, State.goTo]
      refine ⟨fun hnone => absurd hnone hpop.1, fun hmem => ?_, hpop.2 ▸ h.safe⟩
      exact absurd (h.cancelled (hpop.2 ▸ hmem)) hentry
  | cancel hpopping hstage hmain =>
      obtain ⟨hpending, hthreads⟩ := hok
      refine ⟨fun _ => ⟨hpopping, ?_, ?_, ?_⟩, fun _ => rfl, h.safe.append (by simp) (by simp)⟩
      · intro hwaiting
        have := hpending (τ.home, .node τ.k) (by rw [hat.pending]; simp [Token.pending, hwaiting])
        cases this
      · intro hrunning
        have hpoint := hthreads τ.home
        rw [hat.threads_eq, threads_home (by simp [hrunning]), hrunning] at hpoint
        cases hpoint
      · intro hreturned
        have hpoint := hthreads τ.home
        rw [hat.threads_eq, threads_home (by simp [hreturned]), hreturned] at hpoint
        cases hpoint

omit [DecidableEq Ty] in
/-- A chain that was just sealed. -/
theorem sealedChain (main : W) (nodes : List (Node W Ty)) (τ : Token W) :
    Unharmed (sealedChain Val main nodes) τ := by
  have hsealed : (Chain.sealedChain Val main nodes).entry ≠ none ∧
      (Chain.sealedChain Val main nodes).log = [] := by
    unfold Chain.sealedChain State.sealChain builtChain
    dsimp only
    split <;> simp [State.goTo, newTaskChain]
  refine ⟨fun hnone => absurd hnone hsealed.1, fun hmem => ?_, ?_⟩
  · rw [hsealed.2] at hmem
    cases hmem
  · rw [hsealed.2]
    exact ⟨List.Pairwise.nil, by simp⟩

end Unharmed

/-- The labels of a run after the chain was sealed. -/
def Sealed (ls : List (Label W Val)) : Prop := ∀ l ∈ ls, l.running = true

instance (ls : List (Label W Val)) : Decidable (Sealed ls) :=
  inferInstanceAs (Decidable (∀ l ∈ ls, _))

variable [DecidableEq W] [DecidableEq Ty]

/-- In every run of a chain that was built and sealed, in which `Cancel` is called only while no
task of a node is pending, running or about to put its result into the chain, no function of the
chain starts after `Cancel` and the destroyed chain object is never accessed. -/
theorem cancel_safe {main : W} {nodes : List (Node W Ty)} {ls : List (Label W Val)}
    {s : State W Val} (hls : Sealed ls)
    (hrun : exec (State.step main) (newTaskChain W Val) (buildAndSeal nodes ++ ls) = some s)
    (hok : Guarded (State.step main) CancelsBetween (newTaskChain W Val)
      (buildAndSeal nodes ++ ls)) : CancelSafe s.log := by
  obtain ⟨t, ht, hrun'⟩ := exec_append_eq_some.mp hrun
  have hok' := (hok.of_append ht).2
  rw [exec_buildAndSeal, Option.some.injEq] at ht
  subst ht
  have hguard := hok'.and (guarded_of_mem hls _)
  have hinv : ∃ τ, At main s τ ∧ Unharmed s τ := by
    refine @exec_invariant _ _ _ _ (fun s => ∃ τ, At main s τ ∧ Unharmed s τ) ?_ _ _ _
      ⟨_, at_sealedChain main nodes, Unharmed.sealedChain main nodes _⟩ hguard hrun'
    intro s l s' ⟨τ, hat, hunharmed⟩ ⟨hbetween, hrunning⟩ hstep
    obtain ⟨τ', hmove, hat'⟩ := hat.step hrunning hstep
    exact ⟨τ', hat', hunharmed.move hat hmove hbetween⟩
  obtain ⟨τ, -, hunharmed⟩ := hinv
  exact hunharmed.safe

/-- A node on a worker whose function returns a number; the main thread is `false`. -/
def workerNode : Node Bool Unit := ⟨true, none, some ()⟩

/-- The node is posted, runs on the worker and returns; `Cancel` comes when `OnComplete` is
pending. -/
theorem cancel_safe_finished :
    let ls : List (Label Bool (fun _ : Unit => Nat)) := [.go false, .go false, .start 0,
      .returns true (some ⟨(), 7⟩), .go true, .go true, .cancel, .start 0, .go false]
    Sealed ls ∧ ∃ s, exec (State.step false) (newTaskChain Bool _)
      (buildAndSeal [workerNode] ++ ls) = some s ∧ CancelSafe s.log := by
  intro ls
  have hls : Sealed ls := by decide
  have hok : Guarded (State.step false) CancelsBetween (newTaskChain Bool (fun _ : Unit => Nat))
      (buildAndSeal [workerNode] ++ ls) := by decide
  exact ⟨hls, _, rfl, cancel_safe hls rfl hok⟩

/-- `Cancel` comes when the node's task is pending: its function is called nevertheless, and its
result goes into the chain object that was destroyed. -/
theorem cancelled_node_runs :
    let ls : List (Label Bool (fun _ : Unit => Nat)) := [.go false, .go false, .cancel, .start 0,
      .returns true (some ⟨(), 7⟩), .go true]
    Sealed ls ∧ ∃ s, exec (State.step false) (newTaskChain Bool _)
      (buildAndSeal [workerNode] ++ ls) = some s ∧ .dangling ∈ s.log ∧
      ¬ s.log.Pairwise fun e f => e = .cancelled → ∀ i input, f ≠ .started i input := by
  intro ls
  refine ⟨by decide, _, rfl, ?_, fun hlog => ?_⟩
  · exact .tail _ (.tail _ (.tail _ (.head _)))
  · exact (List.pairwise_cons.mp hlog).1 (.started 0 none) (.head _) rfl 0 none rfl

end Utilpp.Chain

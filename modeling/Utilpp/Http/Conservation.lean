import Utilpp.Http.CurlManager
import Mathlib.Data.List.Perm.Basic
import Mathlib.Data.List.Nodup

/-!
# No request is lost

A request that `ProcessRequest` accepted is in exactly one of `RunningRequests`,
`HandlesToRequests` and `FinishedRequests` until its delegate is called, and its delegate is called
once. The manager keeps this law as long as `curl_multi_add_handle` succeeds: `HttpThreadAddTask`
drops a request that it cannot add.
-/

namespace Utilpp.Http

open Lib

namespace CurlHttpManager

/-- The delegates that were called, the last one first. -/
def called (manager : CurlHttpManager) : List Nat := manager.calls.map DelegateCall.delegate

/-- How often the request of a submission occurs in the queues and the map. -/
def occurrences (manager : CurlHttpManager) (submission : Nat) : Nat :=
  manager.places.countP fun req => (manager.objects req).delegate = some submission

/-- The request of every accepted submission is in one place, or its delegate was called once. -/
def Conserved (manager : CurlHttpManager) : Prop :=
  ∀ req submission, (req, submission) ∈ manager.accepted →
    manager.occurrences submission + manager.called.count submission = 1

/-! ## The invariant -/

/-- A request in one of the places waits for the delegate of its latest submission, and an accepted
submission whose delegate was not called has its request in one of the places. -/
structure Sound (manager : CurlHttpManager) : Prop where
  nodup : manager.places.Nodup
  known : ∀ req ∈ manager.places, req < manager.created
  heldKnown : ∀ req ∈ manager.held, req < manager.created
  freeKnown : ∀ req ∈ manager.freeToUseRequests, req < manager.created
  waitKnown : ∀ req ∈ manager.waitToFree, req < manager.created
  owned : ∀ req ∈ manager.places, ∃ submission,
    (manager.objects req).delegate = some submission ∧ (req, submission) ∈ manager.accepted ∧
      submission ∉ manager.called
  settled : ∀ req submission, (req, submission) ∈ manager.accepted →
    submission ∉ manager.called →
      req ∈ manager.places ∧ (manager.objects req).delegate = some submission
  unique : ∀ req req' submission, (req, submission) ∈ manager.accepted →
    (req', submission) ∈ manager.accepted → req = req'
  numbered : ∀ req submission, (req, submission) ∈ manager.accepted →
    submission < manager.submissions
  once : manager.called.Nodup
  calledNumbered : ∀ submission ∈ manager.called, submission < manager.submissions
  handles : ∀ req ∈ manager.places, ∀ req' ∈ manager.places, ∀ handle,
    (manager.objects req).easyHandle = some handle →
      (manager.objects req').easyHandle = some handle → req = req'
  handleNumbered : ∀ req handle, (manager.objects req).easyHandle = some handle →
    handle < manager.nextHandle
  mapped : ∀ entry ∈ manager.handlesToRequests,
    (manager.objects entry.2).easyHandle = some entry.1
  responses : ∀ req, (manager.objects req).response ≠ none

theorem Sound.conserved {manager : CurlHttpManager} (h : manager.Sound) : manager.Conserved := by
  intro req submission haccepted
  by_cases hcalled : submission ∈ manager.called
  · have hnone : manager.occurrences submission = 0 := by
      refine List.countP_eq_zero.mpr fun other hother hdelegate => ?_
      obtain ⟨submission', hdelegate', -, hnot⟩ := h.owned other hother
      rw [hdelegate', decide_eq_true_eq, Option.some.injEq] at hdelegate
      exact hnot (hdelegate ▸ hcalled)
    rw [hnone, List.count_eq_one_of_mem h.once hcalled]
  · obtain ⟨hplace, hdelegate⟩ := h.settled req submission haccepted hcalled
    have hone : manager.occurrences submission = manager.places.count req := by
      refine List.countP_congr fun other hother => ?_
      rw [decide_eq_true_eq, beq_iff_eq]
      constructor
      · intro hother'
        obtain ⟨submission', hdelegate', haccepted', -⟩ := h.owned other hother
        obtain rfl : submission' = submission :=
          Option.some.inj (hdelegate'.symm.trans hother')
        exact h.unique other req _ haccepted' haccepted
      · intro heq
        exact heq ▸ hdelegate
    rw [hone, List.count_eq_one_of_mem h.nodup hplace, List.count_eq_zero_of_not_mem hcalled]

theorem sound_init : init.Sound where
  nodup := List.nodup_nil
  known := nofun
  heldKnown := nofun
  freeKnown := nofun
  waitKnown := nofun
  owned := nofun
  settled := nofun
  unique := nofun
  numbered := nofun
  once := List.nodup_nil
  calledNumbered := nofun
  handles := nofun
  handleNumbered := nofun
  mapped := nofun
  responses := nofun

/-! ## Moving a request on -/

/-- Handing requests on between the places, without touching what the invariant knows of them. -/
theorem Sound.move {manager : CurlHttpManager} {objects : Nat → CurlHttpRequest}
    {running : List Nat} {handles : List (Nat × Nat)} {finished : List Nat} (h : manager.Sound)
    (hplaces : (running ++ handles.map Prod.snd ++ finished).Perm manager.places)
    (hdelegate : ∀ req, (objects req).delegate = (manager.objects req).delegate)
    (hhandle : ∀ req, (objects req).easyHandle = (manager.objects req).easyHandle)
    (hresponse : ∀ req, (objects req).response = (manager.objects req).response)
    (hmapped : ∀ entry ∈ handles, (manager.objects entry.2).easyHandle = some entry.1) :
    { manager with
      objects := objects, runningRequests := running, handlesToRequests := handles
      finishedRequests := finished }.Sound := by
  have hmem : ∀ req, req ∈ running ++ handles.map Prod.snd ++ finished ↔ req ∈ manager.places :=
    fun req => hplaces.mem_iff
  constructor
  case nodup => exact hplaces.nodup_iff.mpr h.nodup
  case known => exact fun req hreq => h.known req ((hmem req).mp hreq)
  case heldKnown => exact h.heldKnown
  case freeKnown => exact h.freeKnown
  case waitKnown => exact h.waitKnown
  case owned =>
    intro req hreq
    obtain ⟨submission, hsubmission, hrest⟩ := h.owned req ((hmem req).mp hreq)
    exact ⟨submission, (hdelegate req).trans hsubmission, hrest⟩
  case settled =>
    intro req submission haccepted hcalled
    obtain ⟨hplace, hsubmission⟩ := h.settled req submission haccepted hcalled
    exact ⟨(hmem req).mpr hplace, (hdelegate req).trans hsubmission⟩
  case unique => exact h.unique
  case numbered => exact h.numbered
  case once => exact h.once
  case calledNumbered => exact h.calledNumbered
  case handles =>
    intro req hreq req' hreq' handle hhandle₁ hhandle₂
    exact h.handles req ((hmem req).mp hreq) req' ((hmem req').mp hreq') handle
      ((hhandle req).symm.trans hhandle₁) ((hhandle req').symm.trans hhandle₂)
  case handleNumbered =>
    exact fun req handle hreq => h.handleNumbered req handle ((hhandle req).symm.trans hreq)
  case mapped => exact fun entry hentry => (hhandle entry.2).trans (hmapped entry hentry)
  case responses => exact fun req => (hresponse req).symm ▸ h.responses req

/-- A field that a change of one object keeps is kept for all objects. -/
theorem update_field {α : Type} {objects : Nat → CurlHttpRequest} {req : Nat}
    {creq : CurlHttpRequest} (field : CurlHttpRequest → α)
    (hfield : field creq = field (objects req)) (other : Nat) :
    field (Function.update objects req creq other) = field (objects other) := by
  by_cases heq : other = req
  · rw [heq, Function.update_self, hfield]
  · rw [Function.update_of_ne heq]

theorem mem_places_of_running {manager : CurlHttpManager} {req : Nat}
    (h : req ∈ manager.runningRequests) : req ∈ manager.places :=
  List.mem_append_left _ (List.mem_append_left _ h)

theorem mem_places_of_mapped {manager : CurlHttpManager} {entry : Nat × Nat}
    (h : entry ∈ manager.handlesToRequests) : entry.2 ∈ manager.places :=
  List.mem_append_left _ (List.mem_append_right _ (List.mem_map_of_mem h))

theorem mem_places_of_finished {manager : CurlHttpManager} {req : Nat}
    (h : req ∈ manager.finishedRequests) : req ∈ manager.places :=
  List.mem_append_right _ h

theorem perm_shift (first second third : List Nat) (req : Nat) :
    (first ++ (second ++ [req]) ++ third).Perm (req :: first ++ second ++ third) := by
  rw [List.perm_iff_count]
  intro other
  simp only [List.count_append, List.count_cons, List.count_nil]
  omega

/-- The condition under which `HttpThreadAddTask` keeps the request it takes from the queue. -/
def Adds (manager : CurlHttpManager) (addResult : CURLMcode) : Prop :=
  ∀ req ∈ manager.runningRequests.head?,
    (manager.objects req).easyHandle ≠ none ∧ addResult = .ok

/-- A request that is added to the multi handle moves from the queue to the map, under a key that
is not in use. -/
theorem Sound.addTask {manager : CurlHttpManager} {addResult : CURLMcode} (h : manager.Sound)
    (hadds : manager.Adds addResult) : (manager.addTask addResult).Sound := by
  simp only [CurlHttpManager.addTask]
  split
  · exact h
  · next req running hrunning =>
    obtain ⟨hhandle, rfl⟩ := hadds req (by rw [hrunning]; rfl)
    split
    · next hnone => exact absurd hnone hhandle
    · next handle hsome =>
      rw [if_pos rfl]
      have hnew : ∀ entry ∈ manager.handlesToRequests, entry.1 ≠ handle := by
        intro entry hentry heq
        have hsame : req = entry.2 :=
          h.handles req (mem_places_of_running (by rw [hrunning]; exact List.mem_cons_self))
            entry.2 (mem_places_of_mapped hentry) handle hsome (heq ▸ h.mapped entry hentry)
        have hnodup := h.nodup
        rw [places, hrunning, List.cons_append, List.cons_append, List.nodup_cons] at hnodup
        refine hnodup.1 (List.mem_append_left _ (List.mem_append_right _ ?_))
        exact hsame ▸ List.mem_map_of_mem hentry
      have hfilter : (manager.handlesToRequests.filter fun entry => entry.1 ≠ handle) =
          manager.handlesToRequests :=
        List.filter_eq_self.mpr fun entry hentry => decide_eq_true (hnew entry hentry)
      refine h.move ?_ (update_field CurlHttpRequest.delegate rfl)
        (update_field CurlHttpRequest.easyHandle rfl) (update_field CurlHttpRequest.response rfl) ?_
      · show (running ++ (List.filter _ manager.handlesToRequests ++ [_]).map Prod.snd ++ _).Perm _
        rw [hfilter, places, hrunning, List.map_append]
        exact perm_shift running _ _ req
      · show ∀ entry ∈ List.filter _ manager.handlesToRequests ++ [_], _
        rw [hfilter]
        intro entry hentry
        cases List.mem_append.mp hentry with
        | inl hold => exact h.mapped entry hold
        | inr hadded =>
            rw [List.mem_singleton.mp hadded]
            exact hsome

/-- The entries of the map but one. -/
theorem Sound.filter_perm {manager : CurlHttpManager} (h : manager.Sound) {entry : Nat × Nat}
    (hentry : entry ∈ manager.handlesToRequests) :
    manager.handlesToRequests.Perm
      (entry :: manager.handlesToRequests.filter fun other => other.1 ≠ entry.1) := by
  have hnodup : (manager.handlesToRequests.map Prod.snd).Nodup :=
    (List.nodup_append.mp (List.nodup_append.mp h.nodup).1).2.1
  have hfilter : (manager.handlesToRequests.filter fun other => other.1 ≠ entry.1) =
      manager.handlesToRequests.erase entry := by
    rw [(hnodup.of_map _).erase_eq_filter]
    refine List.filter_congr fun other hother => ?_
    have hiff : other.1 = entry.1 ↔ other = entry := by
      refine ⟨fun heq => ?_, fun heq => heq ▸ rfl⟩
      have hreq : other.2 = entry.2 :=
        h.handles other.2 (mem_places_of_mapped hother) entry.2 (mem_places_of_mapped hentry)
          entry.1 (heq ▸ h.mapped other hother) (h.mapped entry hentry)
      exact Prod.ext heq hreq
    by_cases heq : other = entry
    · simp [heq]
    · simp [heq, hiff]
  rw [hfilter]
  exact List.perm_cons_erase hentry

/-- A message moves at most one request from the map to the queue of finished requests. -/
theorem Sound.readMessage {manager : CurlHttpManager} (h : manager.Sound) (message : CURLMsg) :
    ∃ manager', manager.readMessage message = some manager' ∧ manager'.Sound := by
  simp only [CurlHttpManager.readMessage]
  split
  · split
    · exact ⟨manager, rfl, h⟩
    · next handle req hfind =>
      have hentry := List.mem_of_find?_eq_some hfind
      refine ⟨_, if_neg (h.responses req), ?_⟩
      refine h.move ?_ (update_field CurlHttpRequest.delegate rfl)
        (update_field CurlHttpRequest.easyHandle rfl) (update_field CurlHttpRequest.response rfl)
        fun entry hmem => h.mapped entry (List.mem_of_mem_filter hmem)
      have hperm := (h.filter_perm hentry).map Prod.snd
      rw [List.perm_iff_count]
      intro other
      have hcount := hperm.count_eq other
      simp only [places, modify, List.map_cons, List.count_append, List.count_cons,
        List.count_nil] at hcount ⊢
      omega
  · exact ⟨manager, rfl, h⟩

/-! ## Finishing and reusing a request -/

/-- Changing objects of requests that are in none of the places. -/
theorem Sound.outside {manager : CurlHttpManager} {objects : Nat → CurlHttpRequest}
    (h : manager.Sound)
    (hsame : ∀ req ∈ manager.places, objects req = manager.objects req)
    (hhandle : ∀ req handle, (objects req).easyHandle = some handle → handle < manager.nextHandle)
    (hresponse : ∀ req, (objects req).response ≠ none) :
    { manager with objects := objects }.Sound := by
  constructor
  case nodup => exact h.nodup
  case known => exact h.known
  case heldKnown => exact h.heldKnown
  case freeKnown => exact h.freeKnown
  case waitKnown => exact h.waitKnown
  case owned =>
    intro req hreq
    obtain ⟨submission, hdelegate, hrest⟩ := h.owned req hreq
    exact ⟨submission, (congrArg CurlHttpRequest.delegate (hsame req hreq)).trans hdelegate, hrest⟩
  case settled =>
    intro req submission haccepted hcalled
    obtain ⟨hplace, hdelegate⟩ := h.settled req submission haccepted hcalled
    exact ⟨hplace, (congrArg CurlHttpRequest.delegate (hsame req hplace)).trans hdelegate⟩
  case unique => exact h.unique
  case numbered => exact h.numbered
  case once => exact h.once
  case calledNumbered => exact h.calledNumbered
  case handles =>
    intro req hreq req' hreq' handle hhandle₁ hhandle₂
    have hreq₁ := congrArg CurlHttpRequest.easyHandle (hsame req hreq)
    have hreq₂ := congrArg CurlHttpRequest.easyHandle (hsame req' hreq')
    exact h.handles req hreq req' hreq' handle (hreq₁.symm.trans hhandle₁)
      (hreq₂.symm.trans hhandle₂)
  case handleNumbered => exact hhandle
  case mapped =>
    intro entry hentry
    have hreq := congrArg CurlHttpRequest.easyHandle (hsame entry.2 (mem_places_of_mapped hentry))
    exact hreq.trans (h.mapped entry hentry)
  case responses => exact hresponse

/-- Changing the object of one request that is in none of the places. -/
theorem Sound.update {manager : CurlHttpManager} {req : Nat} {creq : CurlHttpRequest}
    (h : manager.Sound) (hreq : req ∉ manager.places)
    (hhandle : ∀ handle, creq.easyHandle = some handle → handle < manager.nextHandle)
    (hresponse : creq.response ≠ none) :
    { manager with objects := Function.update manager.objects req creq }.Sound := by
  refine h.outside (fun other hother => ?_) (fun other => ?_) (fun other => ?_)
  · have hne : other ≠ req := fun heq => hreq (heq ▸ hother)
    rw [Function.update_of_ne hne]
  · by_cases heq : other = req
    · rw [heq, Function.update_self]
      exact hhandle
    · rw [Function.update_of_ne heq]
      exact h.handleNumbered other
  · by_cases heq : other = req
    · rw [heq, Function.update_self]
      exact hresponse
    · rw [Function.update_of_ne heq]
      exact h.responses other

theorem Sound.modify {manager : CurlHttpManager} {req : Nat} (h : manager.Sound)
    (hreq : req ∉ manager.places) (f : CurlHttpRequest → CurlHttpRequest)
    (hhandle : ∀ handle, (f (manager.objects req)).easyHandle = some handle →
      handle < manager.nextHandle)
    (hresponse : (f (manager.objects req)).response ≠ none) : (manager.modify req f).Sound :=
  h.update hreq hhandle hresponse

/-- The places without the request that is taken from the queue of finished requests. -/
theorem places_dequeue {manager : CurlHttpManager} {req : Nat} {finished : List Nat}
    (hfinished : manager.finishedRequests = req :: finished) :
    manager.places.Perm (req :: { manager with finishedRequests := finished }.places) := by
  rw [places, hfinished]
  exact List.perm_middle

/-- A finished request leaves the queue, and its delegate is called for the first time. -/
theorem Sound.dequeue {manager : CurlHttpManager} {req : Nat} {finished : List Nat}
    {submission : Nat} {succeeded : Bool} (h : manager.Sound)
    (hfinished : manager.finishedRequests = req :: finished)
    (hdelegate : (manager.objects req).delegate = some submission) :
    { manager with
      finishedRequests := finished, calls := ⟨submission, succeeded⟩ :: manager.calls }.Sound := by
  have hperm := places_dequeue hfinished
  have hplace : req ∈ manager.places := hperm.mem_iff.mpr List.mem_cons_self
  have hsub : ∀ other ∈ { manager with finishedRequests := finished }.places,
      other ∈ manager.places :=
    fun other hother => hperm.mem_iff.mpr (List.mem_cons_of_mem _ hother)
  obtain ⟨submission', hdelegate', haccepted, hnot⟩ := h.owned req hplace
  obtain rfl : submission = submission' := Option.some.inj (hdelegate.symm.trans hdelegate')
  have hnodup := List.nodup_cons.mp (hperm.nodup_iff.mp h.nodup)
  constructor
  case nodup => exact hnodup.2
  case known => exact fun other hother => h.known other (hsub other hother)
  case heldKnown => exact h.heldKnown
  case freeKnown => exact h.freeKnown
  case waitKnown => exact h.waitKnown
  case owned =>
    intro other hother
    obtain ⟨submission', hother', haccepted', hnot'⟩ := h.owned other (hsub other hother)
    refine ⟨submission', hother', haccepted', List.not_mem_cons_of_ne_of_not_mem ?_ hnot'⟩
    -- the delegate of another request belongs to another submission
    intro heq
    subst heq
    exact hnodup.1 (h.unique other req _ haccepted' haccepted ▸ hother)
  case settled =>
    intro other submission' haccepted' hcalled
    obtain ⟨hne, hcalled⟩ := List.ne_and_not_mem_of_not_mem_cons hcalled
    obtain ⟨hother, hdelegate'⟩ := h.settled other submission' haccepted' hcalled
    refine ⟨(List.mem_cons.mp (hperm.mem_iff.mp hother)).resolve_left fun heq => hne ?_, hdelegate'⟩
    exact Option.some.inj ((hdelegate'.symm.trans (heq ▸ rfl)).trans hdelegate)
  case unique => exact h.unique
  case numbered => exact h.numbered
  case once => exact List.nodup_cons.mpr ⟨hnot, h.once⟩
  case calledNumbered =>
    exact List.forall_mem_cons.mpr ⟨h.numbered req submission haccepted, h.calledNumbered⟩
  case handles =>
    exact fun other hother other' hother' =>
      h.handles other (hsub other hother) other' (hsub other' hother')
  case handleNumbered => exact h.handleNumbered
  case mapped => exact h.mapped
  case responses => exact h.responses

theorem outcome_response {creq : CurlHttpRequest} (h : creq.response ≠ none) :
    creq.outcome.1 ≠ none := by
  cases hresponse : creq.response with
  | none => exact absurd hresponse h
  | some response =>
      simp only [CurlHttpRequest.outcome, hresponse]
      generalize (if creq.completed = true then _ else response.succeeded) = succeeded
      cases succeeded with
      | true => exact Option.some_ne_none _
      | false => exact Option.some_ne_none _

theorem clear_response {creq : CurlHttpRequest} (h : creq.response ≠ none) :
    creq.clear.response ≠ none := by
  cases hresponse : creq.response with
  | none => exact absurd hresponse h
  | some response =>
      rw [CurlHttpRequest.clear, hresponse]
      exact Option.some_ne_none _

/-- `FinishRequest` for a request with a delegate. -/
theorem finishRequest_eq {manager : CurlHttpManager} {req submission : Nat}
    (hdelegate : (manager.objects req).delegate = some submission) :
    manager.finishRequest req =
      { manager with
        calls := ⟨submission, (manager.objects req).outcome.2.2⟩ :: manager.calls
        objects := Function.update manager.objects req
          { manager.objects req with
            response := (manager.objects req).outcome.1
            completionStatus := (manager.objects req).outcome.2.1
            easyHandle := none, delegate := none } } := by
  simp only [finishRequest, hdelegate]
  rfl

theorem Sound.finishNext {manager : CurlHttpManager} (h : manager.Sound) :
    manager.finishNext.Sound := by
  simp only [CurlHttpManager.finishNext]
  split
  · exact h
  · next req finished hfinished =>
    have hplace : req ∈ manager.places :=
      mem_places_of_finished (by rw [hfinished]; exact List.mem_cons_self)
    obtain ⟨submission, hdelegate, -⟩ := h.owned req hplace
    have hout : req ∉ { manager with finishedRequests := finished }.places :=
      (List.nodup_cons.mp ((places_dequeue hfinished).nodup_iff.mp h.nodup)).1
    have hdone : ({ manager with finishedRequests := finished }.finishRequest req).Sound := by
      have heq : { manager with finishedRequests := finished }.finishRequest req = _ :=
        finishRequest_eq hdelegate
      rw [heq]
      exact (h.dequeue hfinished hdelegate).update hout nofun (outcome_response (h.responses req))
    refine { hdone with waitKnown := ?_ }
    intro other hother
    cases List.mem_insert_iff.mp hother with
    | inl heq => exact heq ▸ h.known req hplace
    | inr hwait => exact h.waitKnown other hwait

theorem Sound.recycle {manager : CurlHttpManager} (h : manager.Sound) (req : Nat) :
    (manager.recycle req).Sound := by
  rw [CurlHttpManager.recycle]
  split
  · next hreq =>
    obtain ⟨hwait, -, hplace⟩ := hreq
    have hcleared : (manager.modify req CurlHttpRequest.clear).Sound :=
      h.modify hplace _ (h.handleNumbered req) (clear_response (h.responses req))
    refine { hcleared with freeKnown := ?_, waitKnown := ?_ }
    · intro other hother
      cases List.mem_append.mp hother with
      | inl hfree => exact h.freeKnown other hfree
      | inr hsingle => exact List.mem_singleton.mp hsingle ▸ h.waitKnown req hwait
    · exact fun other hother => h.waitKnown other (List.mem_of_mem_erase hother)
  · exact h

/-! ## Submitting a request -/

/-- Every earlier submission of the request object has had its delegate called. -/
def Reusable (manager : CurlHttpManager) (req : Nat) : Prop :=
  req ∈ manager.held ∧
    ∀ submission, (req, submission) ∈ manager.accepted → submission ∈ manager.called

theorem Sound.not_place {manager : CurlHttpManager} (h : manager.Sound) {req : Nat}
    (hreq : manager.Reusable req) : req ∉ manager.places := by
  intro hplace
  obtain ⟨submission, -, haccepted, hnot⟩ := h.owned req hplace
  exact hnot (hreq.2 submission haccepted)

/-- Numbers that were given out stay below the counters when these grow. -/
theorem Sound.count {manager : CurlHttpManager} (h : manager.Sound) {submissions nextHandle : Nat}
    (hsubmissions : manager.submissions ≤ submissions) (hnext : manager.nextHandle ≤ nextHandle) :
    { manager with submissions := submissions, nextHandle := nextHandle }.Sound :=
  { h with
    numbered := fun req submission haccepted =>
      Nat.lt_of_lt_of_le (h.numbered req submission haccepted) hsubmissions
    calledNumbered := fun submission hcalled =>
      Nat.lt_of_lt_of_le (h.calledNumbered submission hcalled) hsubmissions
    handleNumbered := fun req handle hhandle =>
      Nat.lt_of_lt_of_le (h.handleNumbered req handle hhandle) hnext }

/-- Where a request is that enters the queue. -/
theorem places_enqueue (manager : CurlHttpManager) (req : Nat) (accepted : List (Nat × Nat)) :
    { manager with
      runningRequests := manager.runningRequests ++ [req]
      accepted := accepted }.places.Perm (req :: manager.places) := by
  rw [List.perm_iff_count]
  intro other
  simp only [places, List.count_append, List.count_cons, List.count_nil]
  omega

/-- A request with a new submission number and a new handle enters the queue. -/
theorem Sound.enqueue {manager : CurlHttpManager} {req submission : Nat} (h : manager.Sound)
    (hreq : req ∉ manager.places) (hknown : req < manager.created)
    (hdelegate : (manager.objects req).delegate = some submission)
    (hsubmission : submission < manager.submissions)
    (hnew : ∀ other, (other, submission) ∉ manager.accepted) (hcalled : submission ∉ manager.called)
    (hhandle : ∀ other ∈ manager.places, ∀ handle,
      (manager.objects req).easyHandle = some handle →
        (manager.objects other).easyHandle ≠ some handle) :
    { manager with
      runningRequests := manager.runningRequests ++ [req]
      accepted := (req, submission) :: manager.accepted }.Sound := by
  have hperm := places_enqueue manager req ((req, submission) :: manager.accepted)
  -- what holds of the request and of those that are there
  have hall : ∀ {p : Nat → Prop}, p req → (∀ other ∈ manager.places, p other) →
      ∀ other ∈ { manager with
        runningRequests := manager.runningRequests ++ [req]
        accepted := (req, submission) :: manager.accepted }.places, p other :=
    fun hhead htail other hother =>
      List.forall_mem_cons.mpr ⟨hhead, htail⟩ other (hperm.mem_iff.mp hother)
  constructor
  case nodup => exact hperm.nodup_iff.mpr (List.nodup_cons.mpr ⟨hreq, h.nodup⟩)
  case known => exact hall hknown h.known
  case heldKnown => exact h.heldKnown
  case freeKnown => exact h.freeKnown
  case waitKnown => exact h.waitKnown
  case owned =>
    refine hall ⟨submission, hdelegate, List.mem_cons_self, hcalled⟩ fun other hother => ?_
    obtain ⟨submission', hdelegate', haccepted, hnot⟩ := h.owned other hother
    exact ⟨submission', hdelegate', List.mem_cons_of_mem _ haccepted, hnot⟩
  case settled =>
    intro other submission' haccepted hnot
    cases List.mem_cons.mp haccepted with
    | inl heq =>
        cases heq
        exact ⟨hperm.mem_iff.mpr List.mem_cons_self, hdelegate⟩
    | inr hold =>
        obtain ⟨hplace, hdelegate'⟩ := h.settled other submission' hold hnot
        exact ⟨hperm.mem_iff.mpr (List.mem_cons_of_mem _ hplace), hdelegate'⟩
  case unique =>
    intro other other' submission' hother hother'
    cases List.mem_cons.mp hother with
    | inl heq =>
        cases heq
        cases List.mem_cons.mp hother' with
        | inl heq' => exact (Prod.mk.inj heq').1.symm
        | inr hold' => exact absurd hold' (hnew other')
    | inr hold =>
        cases List.mem_cons.mp hother' with
        | inl heq' =>
            cases heq'
            exact absurd hold (hnew other)
        | inr hold' => exact h.unique other other' submission' hold hold'
  case numbered =>
    intro other submission' haccepted
    cases List.mem_cons.mp haccepted with
    | inl heq =>
        cases heq
        exact hsubmission
    | inr hold => exact h.numbered other submission' hold
  case once => exact h.once
  case calledNumbered => exact h.calledNumbered
  case handles =>
    refine hall (hall (fun _ _ _ => rfl) fun other hother handle hhandle₁ hhandle₂ => ?_)
      fun other hother => hall (fun handle hhandle₁ hhandle₂ => ?_) (h.handles other hother)
    · exact absurd hhandle₂ (hhandle other hother handle hhandle₁)
    · exact absurd hhandle₁ (hhandle other hother handle hhandle₂)
  case handleNumbered => exact h.handleNumbered
  case mapped => exact h.mapped
  case responses => exact h.responses

theorem Sound.newRequest {manager : CurlHttpManager} (h : manager.Sound) :
    manager.newRequest.Sound := by
  rw [CurlHttpManager.newRequest]
  split
  · next req free hfree =>
    refine { h with heldKnown := ?_, freeKnown := ?_ }
    · refine List.forall_mem_cons.mpr ⟨?_, h.heldKnown⟩
      exact h.freeKnown req (by rw [hfree]; exact List.mem_cons_self)
    · exact fun other hother =>
        h.freeKnown other (by rw [hfree]; exact List.mem_cons_of_mem _ hother)
  · have hout : manager.created ∉ manager.places :=
      fun hplace => Nat.lt_irrefl _ (h.known _ hplace)
    have hcreated : (manager.modify manager.created fun _ => .new).Sound :=
      h.modify hout _ nofun (Option.some_ne_none _)
    refine { hcreated with known := ?_, heldKnown := ?_, freeKnown := ?_, waitKnown := ?_ }
    · exact fun req hreq => Nat.lt_succ_of_lt (h.known req hreq)
    · exact List.forall_mem_cons.mpr
        ⟨Nat.lt_succ_self _, fun req hreq => Nat.lt_succ_of_lt (h.heldKnown req hreq)⟩
    · exact fun req hreq => Nat.lt_succ_of_lt (h.freeKnown req hreq)
    · exact fun req hreq => Nat.lt_succ_of_lt (h.waitKnown req hreq)

/-- A request that passes `SetupLocalRequest` has a URL, as `curl_url_get` makes no empty one. -/
theorem setupLocalRequest_nonempty {url url' : String} {needURLEncode : Bool}
    {generated : Option String} (hgenerated : generated ≠ some "")
    (h : setupLocalRequest url needURLEncode generated = some url') : url' ≠ "" := by
  rw [setupLocalRequest] at h
  split at h
  · exact fun hempty => hgenerated (hempty ▸ h)
  · next hurl =>
    cases h
    exact fun hempty => hurl (Or.inl hempty)

theorem Sound.beginRequest {manager : CurlHttpManager} {req : Nat} (h : manager.Sound)
    (hreq : req ∉ manager.places) (url : String) : (manager.beginRequest req url).Sound := by
  have hmodified := h.modify hreq (fun creq => { creq with
    url := url, completionStatus := .processing, delegate := some manager.submissions })
    (h.handleNumbered req) (h.responses req)
  exact hmodified.count (Nat.le_succ _) (Nat.le_refl _)

theorem Sound.initRequest {manager : CurlHttpManager} {req : Nat} (h : manager.Sound)
    (hreq : req ∉ manager.places) (url : String) (easyInit : Bool) :
    (manager.initRequest req url easyInit).Sound := by
  have hcounted := h.count (Nat.le_refl manager.submissions) (Nat.le_succ manager.nextHandle)
  refine hcounted.modify hreq (fun creq => { creq with
    url := url, easyHandle := if easyInit then some manager.nextHandle else none })
    (fun handle hhandle => ?_) (h.responses req)
  cases easyInit with
  | true =>
      cases hhandle
      exact Nat.lt_succ_self _
  | false => exact nomatch hhandle

theorem Sound.processRequest {manager : CurlHttpManager} {req : Nat} {url : String}
    {needURLEncode : Bool} {generated : Option String} {easyInit : Bool} (h : manager.Sound)
    (hreq : manager.Reusable req) (hgenerated : generated ≠ some "") :
    (manager.processRequest req url needURLEncode generated easyInit).1.Sound := by
  have hout := h.not_place hreq
  have hbegun := h.beginRequest hout url
  simp only [CurlHttpManager.processRequest]
  split
  · exact hbegun
  · next url' hsetup =>
    rw [if_neg (setupLocalRequest_nonempty hgenerated hsetup)]
    refine (hbegun.initRequest hout url' easyInit).enqueue hout (h.heldKnown req hreq.1) ?_
      (Nat.lt_succ_self _) (fun other haccepted => ?_) (fun hcalled => ?_) ?_
    · simp [CurlHttpManager.initRequest, CurlHttpManager.beginRequest, CurlHttpManager.modify]
    · exact Nat.lt_irrefl _ (h.numbered other _ haccepted)
    · exact Nat.lt_irrefl _ (h.calledNumbered _ hcalled)
    · intro other hother handle hnew hold
      have hne : other ≠ req := fun heq => hout (heq ▸ hother)
      simp only [CurlHttpManager.initRequest, CurlHttpManager.beginRequest,
        CurlHttpManager.modify, Function.update_self, Function.update_of_ne hne] at hnew hold
      cases easyInit with
      | true =>
          cases hnew
          exact Nat.lt_irrefl _ (h.handleNumbered other _ hold)
      | false => exact nomatch hnew

end CurlHttpManager

/-! ## Runs -/

open CurlHttpManager

/-- `TickNetwork` is a run of iterations. -/
theorem tickNetwork_eq_exec (manager : CurlHttpManager) (addResult : Nat → CURLMcode)
    (runningRequestNum : Int) (messages : List CURLMsg) :
    ∃ read : List CURLMsg, (read = messages ∨ read = []) ∧
      manager.tickNetwork addResult runningRequestNum messages =
        exec step manager
          ((manager.runningRequests.map fun req => .addTask (addResult req)) ++
            read.map .readMessage) := by
  have hstep : ∀ (manager : CurlHttpManager) req,
      step manager (.addTask (addResult req)) = some (manager.addTask (addResult req)) :=
    fun _ _ => rfl
  have hadd := exec_map_of_total hstep manager manager.runningRequests
  by_cases hread : (manager.httpThreadAddTask addResult).handlesToRequests.length > 0 ∧
      (runningRequestNum = 0 ∨
        runningRequestNum ≠ (manager.httpThreadAddTask addResult).handlesToRequests.length)
  · refine ⟨messages, Or.inl rfl, ?_⟩
    rw [exec_append, hadd, Option.bind_some, exec_map]
    exact if_pos hread
  · refine ⟨[], Or.inr rfl, ?_⟩
    rw [exec_append, hadd]
    exact if_neg hread

/-- `Tick` is a run of iterations. -/
theorem tick_eq_exec (manager : CurlHttpManager) :
    ∃ waiting : List Nat,
      some manager.tick = exec step manager
        ((manager.finishedRequests.map fun _ => .finishNext) ++ waiting.map .recycle) := by
  have hfinish : ∀ (manager : CurlHttpManager) (_ : Nat),
      step manager .finishNext = some manager.finishNext := fun _ _ => rfl
  have hrecycle : ∀ (manager : CurlHttpManager) req,
      step manager (.recycle req) = some (manager.recycle req) := fun _ _ => rfl
  have hfinished := exec_map_of_total hfinish manager manager.finishedRequests
  refine ⟨(manager.finishedRequests.foldl (fun m _ => m.finishNext) manager).waitToFree, ?_⟩
  rw [exec_append, hfinished, Option.bind_some, exec_map_of_total hrecycle]
  rfl

/-- What the manager may rely on: only a request object that the user holds and that is not being
processed is submitted, and `curl_url_get` makes no empty URL. -/
def Event.Proper (manager : CurlHttpManager) : Event → Prop
  | .processRequest req _ _ generated _ => manager.Reusable req ∧ generated ≠ some ""
  | _ => True

/-- libcurl takes every request that is handed to it. -/
def Event.Adds (manager : CurlHttpManager) : Event → Prop
  | .addTask addResult => manager.Adds addResult
  | _ => True

/-- The step lemma: no event loses a request. -/
theorem step_sound (manager : CurlHttpManager) (event : Event) (h : manager.Sound)
    (hevent : event.Proper manager ∧ event.Adds manager) :
    ∃ manager', step manager event = some manager' ∧ manager'.Sound := by
  cases event with
  | newRequest => exact ⟨_, rfl, h.newRequest⟩
  | release req =>
      refine ⟨_, rfl, { h with heldKnown := ?_ }⟩
      exact fun other hother => h.heldKnown other (List.mem_of_mem_erase hother)
  | processRequest req url needURLEncode generated easyInit =>
      exact ⟨_, rfl, h.processRequest hevent.1.1 hevent.1.2⟩
  | addTask addResult => exact ⟨_, rfl, h.addTask hevent.2⟩
  | readMessage message => exact h.readMessage message
  | finishNext => exact ⟨_, rfl, h.finishNext⟩
  | recycle req => exact ⟨_, rfl, h.recycle req⟩

/-- In every run in which `curl_multi_add_handle` succeeds, every event is defined and every
accepted request is in exactly one place or its delegate was called exactly once. -/
theorem requests_conserved {events : List Event}
    (hproper : Guarded step (fun manager event => event.Proper manager) init events)
    (hadds : Guarded step (fun manager event => event.Adds manager) init events) :
    ∃ manager, exec step init events = some manager ∧ manager.Conserved := by
  obtain ⟨manager, hrun, hsound⟩ := exec_defined step_sound sound_init (hproper.and hadds)
  exact ⟨manager, hrun, hsound.conserved⟩

instance (manager : CurlHttpManager) (req : Nat) : Decidable (manager.Reusable req) :=
  decidable_of_iff (req ∈ manager.held ∧
    ∀ entry ∈ manager.accepted, entry.1 = req → entry.2 ∈ manager.called)
    ⟨fun h => ⟨h.1, fun submission hmem => h.2 (req, submission) hmem rfl⟩,
      fun h => ⟨h.1, fun entry hmem heq => h.2 entry.2 (heq ▸ hmem)⟩⟩

instance (manager : CurlHttpManager) : (event : Event) → Decidable (event.Proper manager)
  | .processRequest req _ _ generated _ =>
      inferInstanceAs (Decidable (manager.Reusable req ∧ generated ≠ some ""))
  | .newRequest => .isTrue trivial
  | .release _ => .isTrue trivial
  | .addTask _ => .isTrue trivial
  | .readMessage _ => .isTrue trivial
  | .finishNext => .isTrue trivial
  | .recycle _ => .isTrue trivial

instance (manager : CurlHttpManager) : (event : Event) → Decidable (event.Adds manager)
  | .addTask addResult =>
      inferInstanceAs (Decidable (∀ req ∈ manager.runningRequests.head?,
        (manager.objects req).easyHandle ≠ none ∧ addResult = .ok))
  | .newRequest => .isTrue trivial
  | .release _ => .isTrue trivial
  | .processRequest _ _ _ _ _ => .isTrue trivial
  | .readMessage _ => .isTrue trivial
  | .finishNext => .isTrue trivial
  | .recycle _ => .isTrue trivial

/-- A request that is submitted, fails to connect, and is submitted again after its delegate ran. -/
theorem request_submitted_twice :
    let events : List Event :=
      [.newRequest, .processRequest 0 "http://a" false none true, .addTask .ok,
        .readMessage ⟨true, 0, .couldntConnect⟩, .finishNext,
        .processRequest 0 "http://a" false none true]
    Guarded step (fun manager event => event.Proper manager) init events ∧
      Guarded step (fun manager event => event.Adds manager) init events ∧
      ∃ manager, exec step init events = some manager ∧ manager.Conserved ∧
        manager.accepted = [(0, 1), (0, 0)] ∧ manager.calls = [⟨0, false⟩] ∧
        manager.runningRequests = [0] := by
  intro events
  have hproper : Guarded step (fun manager event => event.Proper manager) init events := by
    decide
  have hadds : Guarded step (fun manager event => event.Adds manager) init events := by
    decide
  obtain ⟨manager, hrun, hconserved⟩ := requests_conserved hproper hadds
  cases hrun
  exact ⟨hproper, hadds, _, rfl, hconserved, by decide, by decide,
    by decide⟩

/-- A request that `curl_multi_add_handle` refuses is in none of the places, and its delegate was
not called. -/
theorem refused_request_lost :
    let events : List Event :=
      [.newRequest, .processRequest 0 "http://a" false none true, .addTask (.other 4)]
    Guarded step (fun manager event => event.Proper manager) init events ∧
      ∃ manager, exec step init events = some manager ∧ manager.accepted = [(0, 0)] ∧
        manager.places = [] ∧ manager.calls = [] ∧ ¬ manager.Conserved := by
  refine ⟨by decide, _, rfl, by decide, by decide, by decide,
    fun hconserved => ?_⟩
  exact absurd (hconserved 0 0 (by decide)) (by decide)

end Utilpp.Http

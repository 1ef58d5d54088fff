import Utilpp.Rpc.Processer

/-!
# Matching responses to requests

The purpose of `requestMap` is stated by a ledger that follows the events alone: which requests
were handed to the transport and what has become of each. `responses_matched` compares the
processer with it: in a run without early responses, every first response to a sent request is
given to its group with that request, no request is answered twice, and a response that no
request waits for changes nothing. `SendRequest` enters the request in `requestMap` only behind
the call of the delegate, so that a response that comes earlier is refused and the request stays
pending (`early_response_not_matched`).
-/

namespace Utilpp.Rpc

open Lib

/-! ## The ledger -/

/-- What has become of a request: its bytes were handed over, `SendRequest` has returned, the
delegate failed, its first response has come, it was cancelled. -/
inductive Stage where
  | handed
  | sent
  | refused
  | answered
  | cancelled
  deriving DecidableEq, Repr

/-- A request in the ledger. -/
structure Entry where
  id : UInt32
  stage : Stage
  deriving DecidableEq, Repr

/-- A request waits for its response from the moment its bytes are handed over. -/
def Entry.Waits (entry : Entry) : Prop := entry.stage = .handed ∨ entry.stage = .sent

instance (entry : Entry) : Decidable entry.Waits := inferInstanceAs (Decidable (_ ∨ _))

/-- The requests of a run by their numbers. -/
structure Ledger where
  counter : UInt32 := 0
  sends : Nat := 0
  entry : Nat → Option Entry := fun _ => none

/-- The return of the delegate. -/
def Entry.returned (ok : Bool) (entry : Entry) : Entry :=
  if entry.stage = .handed then { entry with stage := if ok then .sent else .refused } else entry

/-- The arrival of a response. -/
def Entry.respond (id : Option UInt32) (entry : Entry) : Entry :=
  if id = some entry.id ∧ entry.Waits then { entry with stage := .answered } else entry

/-- A request can be cancelled when `SendRequest` has returned its handle. -/
def Entry.cancel (id : UInt32) (entry : Entry) : Entry :=
  if id = entry.id ∧ entry.stage = .sent then { entry with stage := .cancelled } else entry

/-- The ledger behind an event. -/
def Ledger.next (ledger : Ledger) : Event → Ledger
  | .sendRequest _ =>
      let handle := drawID ledger.counter
      { counter := handle.2
        sends := ledger.sends + 1
        entry := Function.update ledger.entry ledger.sends (some ⟨handle.1, .handed⟩) }
  | .sendReturned call ok =>
      { ledger with
        entry := Function.update ledger.entry call ((ledger.entry call).map (Entry.returned ok)) }
  | .cancelRequest id =>
      { ledger with entry := fun call => (ledger.entry call).map (Entry.cancel id) }
  | .recevRPC (.response response) _ =>
      { ledger with entry := fun call => (ledger.entry call).map (Entry.respond response.id) }
  | _ => ledger

/-- The ledger of a run. -/
def ledger (events : List Event) : Ledger := events.foldl Ledger.next {}

/-- The purpose of the processer, for a run that has reached `s`. -/
structure Matched (infos : RPCInfos) (events : List Event) (s : Processer) : Prop where
  /-- The first response to a request whose delegate call succeeds, before or after the response,
  is dispatched with that request. -/
  first : ∀ before response handled after call entry,
    events = before ++ .recevRPC (.response response) handled :: after →
    (ledger before).entry call = some entry → response.id = some entry.id →
    entry.stage = .sent ∨ entry.stage = .handed ∧ Event.sendReturned call true ∈ after →
    (call, response) ∈ s.dispatched
  /-- No request is dispatched to twice. -/
  once : (s.dispatched.map Prod.fst).Nodup
  /-- A response that no request waits for leaves `requestMap` as it is. -/
  idle : ∀ before response handled after t u,
    events = before ++ .recevRPC (.response response) handled :: after →
    exec (step infos) {} before = some t →
    step infos t (.recevRPC (.response response) handled) = some u →
    (∀ call entry, (ledger before).entry call = some entry → response.id = some entry.id →
      ¬ entry.Waits) →
    u.requestMap = t.requestMap

/-- What an event must not do for the matching to work. A request is sent by a group of the
processer, and its number is not that of a request under way. No response comes for a request
before the delegate has returned. -/
def Orderly (infos : RPCInfos) (s : Processer) : Event → Prop
  | .sendRequest request =>
      (s.getInterfaceByMethodName infos request.method).isFound ∧
        s.requestMap (drawID s.counter).1 = none ∧
        ∀ call < s.requests.length, s.sending call ≠ some (drawID s.counter).1
  | .recevRPC (.response response) _ =>
      ∀ call < s.requests.length, (s.sending call).isSome → response.id ≠ s.sending call
  | _ => True

instance (infos : RPCInfos) (s : Processer) : (event : Event) → Decidable (Orderly infos s event)
  | .sendRequest _ => inferInstanceAs (Decidable (_ ∧ _ ∧ _))
  | .recevRPC (.response _) _ => inferInstanceAs (Decidable (∀ call < _, _))
  | .recevRPC (.request _) _ | .recevRPC (.error _) _ | .addGroupRPC _ | .sendReturned _ _
  | .sendEvent _ | .sendResponse _ _ | .cancelRequest _ => inferInstanceAs (Decidable True)

/-! ## The processer follows the ledger -/

variable {infos : RPCInfos}

/-- The processer agrees with the ledger: the calls of the delegate are the requests that are
handed over, `requestMap` holds those that are sent, and what was dispatched is answered. -/
structure Tracks (infos : RPCInfos) (l : Ledger) (s : Processer) : Prop where
  counter : l.counter = s.counter
  sends : l.sends = s.requests.length
  fresh : ∀ call, l.sends ≤ call → l.entry call = none
  sending : ∀ call id, s.sending call = some id ↔ l.entry call = some ⟨id, .handed⟩
  pending : ∀ id call, s.requestMap id = some call ↔ l.entry call = some ⟨id, .sent⟩
  distinct : ∀ call other id stage, l.entry call = some ⟨id, .handed⟩ →
    l.entry other = some ⟨id, stage⟩ → stage = .handed ∨ stage = .sent → call = other
  dispatched : ∀ call response, (call, response) ∈ s.dispatched →
    ∃ id, l.entry call = some ⟨id, .answered⟩
  once : (s.dispatched.map Prod.fst).Nodup
  known : ∀ request ∈ s.requests, (s.getInterfaceByMethodName infos request.method).isFound

theorem Interface.isFound_iff {interface : Interface} :
    interface.isFound ↔ ∃ group, interface = .found group := by
  cases interface <;> simp [Interface.isFound]

/-- A group that is found stays found when groups are added. -/
theorem getInterfaceByMethodName_add {s : Processer} {name : List Char}
    (h : (s.getInterfaceByMethodName infos name).isFound) (added : List Char) :
    ((s.addGroupRPC infos added).1.getInterfaceByMethodName infos name).isFound := by
  unfold Processer.addGroupRPC
  split
  · exact h
  · split
    · unfold Processer.getInterfaceByMethodName at h ⊢
      split at h
      · cases h
      · rename_i hempty
        rw [if_neg hempty]
        split at h
        · cases h
        · split at h
          · rename_i hmem
            simp [hmem, Interface.isFound]
          · cases h
    · exact h

/-- Adding a group changes nothing else. -/
theorem addGroupRPC_eq (infos : RPCInfos) (s : Processer) (added : List Char) :
    ∃ interfaces, (s.addGroupRPC infos added).1 = { s with interfaces := interfaces } := by
  unfold Processer.addGroupRPC
  split
  · exact ⟨_, rfl⟩
  · split
    · exact ⟨_, rfl⟩
    · exact ⟨_, rfl⟩

variable {l : Ledger} {s t : Processer}

/-- The requests of the ledger have been sent. -/
theorem Tracks.lt (h : Tracks infos l s) {call : Nat} {entry : Entry}
    (hentry : l.entry call = some entry) : call < s.requests.length := by
  rw [← h.sends]
  by_contra hle
  rw [h.fresh call (by omega)] at hentry
  cases hentry

/-- An orderly response is not for a request that is being sent. -/
theorem Tracks.not_early (h : Tracks infos l s) {response : RPCResponse} {handled : Bool}
    (hok : Orderly infos s (.recevRPC (.response response) handled)) {call : Nat} {id : UInt32}
    (hentry : l.entry call = some ⟨id, .handed⟩) : response.id ≠ some id := by
  have hsending := (h.sending call id).mpr hentry
  have hne := hok call (h.lt hentry)
  rw [hsending] at hne
  exact hne rfl

/-- Events that leave the requests, the table and the record of answers alone keep the
agreement. -/
theorem Tracks.frame (h : Tracks infos l s) (hcounter : t.counter = s.counter)
    (hrequests : t.requests = s.requests) (hsending : t.sending = s.sending)
    (hmap : t.requestMap = s.requestMap) (hdispatched : t.dispatched = s.dispatched)
    (hgroups : ∀ name, (s.getInterfaceByMethodName infos name).isFound →
      (t.getInterfaceByMethodName infos name).isFound) :
    Tracks infos l t where
  counter := by rw [hcounter, h.counter]
  sends := by rw [hrequests, h.sends]
  fresh := h.fresh
  sending := by rw [hsending]; exact h.sending
  pending := by rw [hmap]; exact h.pending
  distinct := h.distinct
  dispatched := by rw [hdispatched]; exact h.dispatched
  once := by rw [hdispatched]; exact h.once
  known := by
    rw [hrequests]
    intro request hmem
    exact hgroups _ (h.known request hmem)

/-- A request that is being sent. -/
theorem Tracks.sendRequest (h : Tracks infos l s) {request : RPCRequest}
    (hok : Orderly infos s (.sendRequest request)) :
    Tracks infos (l.next (.sendRequest request)) (s.sendRequest request) := by
  obtain ⟨hgroup, hfree, hidle⟩ := hok
  have hnone := h.fresh l.sends (Nat.le_refl _)
  have hcounter := h.counter
  have hsends := h.sends
  have hunused : ∀ call stage, stage = .handed ∨ stage = .sent →
      l.entry call ≠ some ⟨(drawID s.counter).1, stage⟩ := by
    intro call stage hstage hentry
    rcases hstage with rfl | rfl
    · exact hidle call (h.lt hentry) ((h.sending call _).mpr hentry)
    · rw [(h.pending _ call).mpr hentry] at hfree
      cases hfree
  constructor
  · show (drawID l.counter).2 = (drawID s.counter).2
    rw [hcounter]
  · show l.sends + 1 = (s.requests ++ [_]).length
    simp [hsends]
  · intro call hcall
    have hcall : l.sends + 1 ≤ call := hcall
    show Function.update l.entry l.sends _ call = none
    rw [Function.update_of_ne (by omega)]
    exact h.fresh call (by omega)
  · intro call id
    show Function.update s.sending s.requests.length _ call = some id ↔
      Function.update l.entry l.sends _ call = some ⟨id, .handed⟩
    rw [← hsends, hcounter]
    by_cases hcall : call = l.sends
    · subst hcall
      simp
    · rw [Function.update_of_ne hcall, Function.update_of_ne hcall]
      exact h.sending call id
  · intro id call
    show s.requestMap id = some call ↔ Function.update l.entry l.sends _ call = some ⟨id, .sent⟩
    rw [h.pending]
    by_cases hcall : call = l.sends
    · subst hcall
      simp [hnone]
    · rw [Function.update_of_ne hcall]
  · intro call other id stage hcall hother hstage
    simp only [Ledger.next, hcounter] at hcall hother
    by_cases hlast : call = l.sends <;> by_cases hlast' : other = l.sends
    · rw [hlast, hlast']
    · subst hlast
      rw [Function.update_self, Option.some.injEq, Entry.mk.injEq] at hcall
      rw [Function.update_of_ne hlast', ← hcall.1] at hother
      exact absurd hother (hunused other stage hstage)
    · subst hlast'
      rw [Function.update_self, Option.some.injEq, Entry.mk.injEq] at hother
      rw [Function.update_of_ne hlast, ← hother.1] at hcall
      exact absurd hcall (hunused call .handed (.inl rfl))
    · rw [Function.update_of_ne hlast] at hcall
      rw [Function.update_of_ne hlast'] at hother
      exact h.distinct call other id stage hcall hother hstage
  · intro call response hmem
    obtain ⟨id, hentry⟩ := h.dispatched call response hmem
    refine ⟨id, ?_⟩
    show Function.update l.entry l.sends _ call = _
    rw [Function.update_of_ne, hentry]
    rintro rfl
    rw [hnone] at hentry
    cases hentry
  · exact h.once
  · intro request' hmem
    have hmem : request' ∈ s.requests ++ [{ request with id := some (drawID s.counter).1 }] := hmem
    rw [List.mem_append, List.mem_singleton] at hmem
    rcases hmem with hmem | rfl
    · exact h.known request' hmem
    · exact hgroup

/-- A request that is handed over moves on to another stage. -/
theorem Tracks.distinct_update (h : Tracks infos l s) {call : Nat} {id : UInt32} {stage : Stage}
    (hcall : l.entry call = some ⟨id, .handed⟩ ∨ l.entry call = some ⟨id, .sent⟩)
    (hstage : stage ≠ .handed) :
    ∀ first second other stage', Function.update l.entry call (some ⟨id, stage⟩) first =
      some ⟨other, .handed⟩ → Function.update l.entry call (some ⟨id, stage⟩) second =
      some ⟨other, stage'⟩ → stage' = .handed ∨ stage' = .sent → first = second := by
  intro first second other stage' hfirst hsecond hwaits
  have hne : first ≠ call := by
    rintro rfl
    rw [Function.update_self, Option.some.injEq, Entry.mk.injEq] at hfirst
    exact hstage hfirst.2
  rw [Function.update_of_ne hne] at hfirst
  by_cases hsame : second = call
  · subst hsame
    rw [Function.update_self, Option.some.injEq, Entry.mk.injEq] at hsecond
    obtain ⟨rfl, -⟩ := hsecond
    rcases hcall with hcall | hcall
    · exact h.distinct first second id .handed hfirst hcall (.inl rfl)
    · exact h.distinct first second id .sent hfirst hcall (.inr rfl)
  · rw [Function.update_of_ne hsame] at hsecond
    exact h.distinct first second other stage' hfirst hsecond hwaits

/-- A number that has not been sent has no entry, whatever happens to the entry of another. -/
theorem Tracks.fresh_update (h : Tracks infos l s) {call : Nat} {old : Entry}
    (hcall : l.entry call = some old) (entry : Option Entry) :
    ∀ other, l.sends ≤ other → Function.update l.entry call entry other = none := by
  intro other hother
  rw [Function.update_of_ne]
  · exact h.fresh other hother
  · rintro rfl
    rw [h.fresh other hother] at hcall
    cases hcall

/-- What was dispatched is not touched when a waiting request moves on. -/
theorem Tracks.dispatched_update (h : Tracks infos l s) {call : Nat} {id : UInt32}
    (entry : Option Entry)
    (hcall : l.entry call = some ⟨id, .handed⟩ ∨ l.entry call = some ⟨id, .sent⟩)
    {other : Nat} {response : RPCResponse} (hmem : (other, response) ∈ s.dispatched) :
    other ≠ call ∧ ∃ id, Function.update l.entry call entry other = some ⟨id, .answered⟩ := by
  obtain ⟨id', hentry⟩ := h.dispatched other response hmem
  have hne : other ≠ call := by
    rintro rfl
    rw [hentry] at hcall
    simp at hcall
  exact ⟨hne, id', by rw [Function.update_of_ne hne, hentry]⟩

/-- The delegate returns. -/
theorem Tracks.sendReturned (h : Tracks infos l s) {call : Nat} {id : UInt32} {ok : Bool}
    (hsending : s.sending call = some id) :
    Tracks infos (l.next (.sendReturned call ok)) (s.sendReturned call id ok).1 := by
  have hentry := (h.sending call id).mp hsending
  have hnext : l.next (.sendReturned call ok) = { l with
      entry := Function.update l.entry call
        (some ⟨id, if ok then .sent else .refused⟩) } := by
    simp [Ledger.next, hentry, Entry.returned]
  have hfree : s.requestMap id = none := by
    rw [Option.eq_none_iff_forall_not_mem]
    intro other hother
    have hother := (h.pending id other).mp hother
    have hsame := h.distinct call other id .sent hentry hother (.inr rfl)
    rw [← hsame, hentry] at hother
    cases hother
  have hsending' : ∀ stage, stage ≠ .handed → ∀ other id',
      Function.update s.sending call none other = some id' ↔
        Function.update l.entry call (some ⟨id, stage⟩) other = some ⟨id', .handed⟩ := by
    intro stage hstage other id'
    by_cases hother : other = call
    · subst hother
      simp [hstage]
    · rw [Function.update_of_ne hother, Function.update_of_ne hother]
      exact h.sending other id'
  rw [hnext]
  cases ok with
  | false =>
      refine ⟨h.counter, h.sends, h.fresh_update hentry _, hsending' _ (by simp), ?_, ?_, ?_,
        h.once, h.known⟩
      · intro id' other
        show s.requestMap id' = some other ↔ Function.update l.entry call _ other = _
        rw [h.pending]
        by_cases hother : other = call
        · subst hother
          simp [hentry]
        · rw [Function.update_of_ne hother]
      · exact h.distinct_update (.inl hentry) (by simp)
      · intro other response hmem
        exact (h.dispatched_update _ (.inl hentry) hmem).2
  | true =>
      have hreturn : (s.sendReturned call id true).1 = { s with
          sending := Function.update s.sending call none
          requestMap := Function.update s.requestMap id (some call) } := by
        simp [Processer.sendReturned, hfree]
      rw [hreturn]
      refine ⟨h.counter, h.sends, h.fresh_update hentry _, hsending' _ (by simp), ?_, ?_, ?_,
        h.once, h.known⟩
      · intro id' other
        show Function.update s.requestMap id (some call) id' = some other ↔
          Function.update l.entry call _ other = _
        by_cases hid : id' = id <;> by_cases hother : other = call
        · subst hid hother
          simp
        · subst hid
          rw [Function.update_self, Function.update_of_ne hother, ← h.pending, hfree]
          simp [Ne.symm hother]
        · subst hother
          rw [Function.update_of_ne hid, Function.update_self, h.pending, hentry]
          simp [Ne.symm hid]
        · rw [Function.update_of_ne hid, Function.update_of_ne hother, h.pending]
      · exact h.distinct_update (.inl hentry) (by simp)
      · intro other response hmem
        exact (h.dispatched_update _ (.inl hentry) hmem).2

/-- A sent request leaves `requestMap` for good. -/
theorem Tracks.close (h : Tracks infos l s) {call : Nat} {id : UInt32} (stage : Stage)
    (hpending : s.requestMap id = some call) (hhanded : stage ≠ .handed) (hsent : stage ≠ .sent) :
    Tracks infos { l with entry := Function.update l.entry call (some ⟨id, stage⟩) }
      { s with requestMap := Function.update s.requestMap id none } := by
  have hentry := (h.pending id call).mp hpending
  refine ⟨h.counter, h.sends, h.fresh_update hentry _, ?_, ?_, ?_, ?_, h.once, h.known⟩
  · intro other id'
    show s.sending other = some id' ↔ Function.update l.entry call _ other = _
    rw [h.sending]
    by_cases hother : other = call
    · subst hother
      simp [hentry, hhanded]
    · rw [Function.update_of_ne hother]
  · intro id' other
    show Function.update s.requestMap id none id' = some other ↔
      Function.update l.entry call _ other = _
    by_cases hother : other = call
    · subst hother
      by_cases hid : id' = id
      · subst hid
        simp [hsent]
      · rw [Function.update_of_ne hid, Function.update_self, h.pending, hentry]
        simp [hsent, Ne.symm hid]
    · rw [Function.update_of_ne hother]
      by_cases hid : id' = id
      · subst hid
        rw [Function.update_self, ← h.pending, hpending]
        simp [Ne.symm hother]
      · rw [Function.update_of_ne hid, h.pending]
  · exact h.distinct_update (.inr hentry) hhanded
  · intro other response hmem
    exact (h.dispatched_update _ (.inr hentry) hmem).2

/-- An event that closes the sent request of a number closes the one in `requestMap`. -/
theorem Tracks.map_entry (h : Tracks infos l s) (f : Entry → Entry) (id : UInt32) (stage : Stage)
    (hclose : f ⟨id, .sent⟩ = ⟨id, stage⟩)
    (hkeep : ∀ call entry, l.entry call = some entry → entry ≠ ⟨id, .sent⟩ → f entry = entry) :
    (fun call => (l.entry call).map f) =
      match s.requestMap id with
      | none => l.entry
      | some call => Function.update l.entry call (some ⟨id, stage⟩) := by
  have hother : ∀ call, s.requestMap id ≠ some call → (l.entry call).map f = l.entry call := by
    intro call hcall
    cases hentry : l.entry call with
    | none => rfl
    | some entry =>
        rw [Option.map_some, hkeep call entry hentry]
        rintro rfl
        exact hcall ((h.pending id call).mpr hentry)
  funext call
  cases hmap : s.requestMap id with
  | none => exact hother call (by rw [hmap]; simp)
  | some found =>
      by_cases hcall : call = found
      · subst hcall
        rw [(h.pending id call).mp hmap]
        simp [hclose]
      · rw [hother call (by rw [hmap]; simpa using Ne.symm hcall)]
        exact (Function.update_of_ne hcall _ _).symm

/-- A request is cancelled. -/
theorem Tracks.cancelRequest (h : Tracks infos l s) (id : UInt32) :
    Tracks infos (l.next (.cancelRequest id)) (s.cancelRequest id).1 := by
  have hmap := h.map_entry (Entry.cancel id) id .cancelled
    (by simp [Entry.cancel]) (by
      intro call entry hentry hne
      unfold Entry.cancel
      rw [if_neg]
      rintro ⟨rfl, hsent⟩
      exact hne (by rw [← hsent]))
  unfold Ledger.next Processer.cancelRequest
  simp only [hmap]
  cases hpending : s.requestMap id with
  | none => exact h
  | some call => exact h.close _ hpending (by simp) (by simp)

/-- The request that waits for a response is found with its group, and the response is
dispatched. -/
theorem Tracks.onRecevRPC_response (h : Tracks infos l s) {response : RPCResponse} {id : UInt32}
    {call : Nat} (hid : response.id = some id) (hpending : s.requestMap id = some call)
    (handled : Bool) :
    ∃ ec, s.onRecevRPC infos (.response response) handled = .done ({ s with
      requestMap := Function.update s.requestMap id none
      dispatched := s.dispatched ++ [(call, response)] }, ec) := by
  have hentry := (h.pending id call).mp hpending
  have hcall : call < s.requests.length := h.lt hentry
  have hknown := h.known s.requests[call] (List.getElem_mem hcall)
  obtain ⟨group, hgroup⟩ := Interface.isFound_iff.mp hknown
  have hfound : Processer.getInterfaceByMethodName infos
      { s with requestMap := Function.update s.requestMap id none } s.requests[call].method =
        .found group := hgroup
  refine ⟨if handled then .none else .invalidArgument, ?_⟩
  simp [Processer.onRecevRPC, hid, hpending, Processer.recevResp, hcall, hfound]

/-- A response for which no request is in `requestMap` is refused. -/
theorem onRecevRPC_unexpected {response : RPCResponse} (handled : Bool)
    (h : ∀ id, response.id = some id → s.requestMap id = none) :
    s.onRecevRPC infos (.response response) handled = .done (s, .invalidArgument) := by
  cases hid : response.id with
  | none => simp [Processer.onRecevRPC, hid]
  | some id => simp [Processer.onRecevRPC, hid, h id hid]

/-- A response arrives. -/
theorem Tracks.recevResponse (h : Tracks infos l s) {response : RPCResponse} {handled : Bool}
    (hok : Orderly infos s (.recevRPC (.response response) handled))
    (hstep : step infos s (.recevRPC (.response response) handled) = some t) :
    Tracks infos (l.next (.recevRPC (.response response) handled)) t := by
  have hearly : ∀ call entry, l.entry call = some entry → entry.stage = .handed →
      response.id ≠ some entry.id := by
    rintro call ⟨id, stage⟩ hentry rfl
    exact h.not_early hok hentry
  have hkeep : ∀ id, response.id = some id → ∀ call entry, l.entry call = some entry →
      entry ≠ ⟨id, .sent⟩ → Entry.respond response.id entry = entry := by
    intro id hid call entry hentry hne
    unfold Entry.respond
    rw [if_neg]
    rintro ⟨hsame, hwaits | hwaits⟩
    · exact hearly call entry hentry hwaits hsame
    · rw [hid, Option.some.injEq] at hsame
      exact hne (by rw [hsame, ← hwaits])
  have hstep : (s.onRecevRPC infos (.response response) handled).result.map Prod.fst = some t :=
    hstep
  cases hid : response.id with
  | none =>
      rw [onRecevRPC_unexpected handled (by simp [hid])] at hstep
      cases hstep
      have hsame : ∀ entry, Entry.respond none entry = entry := by
        intro entry
        simp [Entry.respond]
      unfold Ledger.next
      simpa only [hid, funext hsame, Option.map_id'] using h
  | some id =>
      have hmap := h.map_entry (Entry.respond response.id) id .answered
        (by simp [Entry.respond, hid, Entry.Waits]) (hkeep id hid)
      unfold Ledger.next
      simp only [hmap]
      cases hpending : s.requestMap id with
      | none =>
          rw [onRecevRPC_unexpected handled (by simp [hid, hpending])] at hstep
          cases hstep
          exact h
      | some call =>
          obtain ⟨ec, hdone⟩ := h.onRecevRPC_response hid hpending handled
          rw [hdone] at hstep
          cases hstep
          have hclosed := h.close .answered hpending (by simp) (by simp)
          have hentry := (h.pending id call).mp hpending
          refine { hclosed with dispatched := ?_, once := ?_ }
          · intro other response' hmem
            rw [List.mem_append, List.mem_singleton, Prod.mk.injEq] at hmem
            rcases hmem with hmem | ⟨rfl, -⟩
            · exact hclosed.dispatched other response' hmem
            · exact ⟨id, Function.update_self ..⟩
          · show ((s.dispatched ++ [(call, response)]).map Prod.fst).Nodup
            rw [List.map_append, List.nodup_append]
            refine ⟨h.once, by simp, ?_⟩
            intro first hfirst second hsecond
            obtain ⟨⟨other, response'⟩, hmem, rfl⟩ := List.mem_map.mp hfirst
            have hsecond : second = call := by simpa using hsecond
            rw [hsecond]
            exact (h.dispatched_update none (.inr hentry) hmem).1

/-- `OnRecevRPC` on a request or on an error leaves the requests of the processer alone. -/
theorem onRecevRPC_frame {result : ParseResult} {handled : Bool} {ec : ErrorCode}
    (hresult : ∀ response, result ≠ .response response)
    (h : s.onRecevRPC infos result handled = .done (t, ec)) :
    ∃ contents received, t = { s with handed := contents, received := received } := by
  cases result with
  | response response => exact absurd rfl (hresult response)
  | error error =>
      cases h
      exact ⟨_, _, rfl⟩
  | request request =>
      have h : s.recevReq infos request handled = .done (t, ec) := h
      unfold Processer.recevReq at h
      split at h
      · cases h
      · cases h
        exact ⟨_, _, rfl⟩
      · split at h
        · cases h
        · cases h
          exact ⟨_, _, rfl⟩

/-- Every orderly event keeps the agreement. -/
theorem Tracks.step (h : Tracks infos l s) {event : Event} (hok : Orderly infos s event)
    (hstep : step infos s event = some t) : Tracks infos (l.next event) t := by
  cases event with
  | addGroupRPC groupName =>
      cases hstep
      obtain ⟨interfaces, hadd⟩ := addGroupRPC_eq infos s groupName
      have hgroups : ∀ name, (s.getInterfaceByMethodName infos name).isFound →
          ((s.addGroupRPC infos groupName).1.getInterfaceByMethodName infos name).isFound :=
        fun name hname => getInterfaceByMethodName_add hname groupName
      rw [hadd] at hgroups ⊢
      exact h.frame rfl rfl rfl rfl rfl hgroups
  | sendRequest request =>
      cases hstep
      exact h.sendRequest hok
  | sendReturned call ok =>
      have hstep : (s.sending call).map (fun id => (s.sendReturned call id ok).1) = some t := hstep
      obtain ⟨id, hsending, rfl⟩ := Option.map_eq_some_iff.mp hstep
      exact h.sendReturned hsending
  | sendEvent request =>
      cases hstep
      exact h.frame rfl rfl rfl rfl rfl fun _ hgroup => hgroup
  | sendResponse id response =>
      cases hstep
      exact h.frame rfl rfl rfl rfl rfl fun _ hgroup => hgroup
  | cancelRequest id =>
      cases hstep
      exact h.cancelRequest id
  | recevRPC result handled =>
      by_cases hresult : ∃ response, result = .response response
      · obtain ⟨response, rfl⟩ := hresult
        exact h.recevResponse hok hstep
      · have hresult : ∀ response, result ≠ .response response := not_exists.mp hresult
        have hstep : (s.onRecevRPC infos result handled).result.map Prod.fst = some t := hstep
        obtain ⟨⟨u, ec⟩, hdone, rfl⟩ := Option.map_eq_some_iff.mp hstep
        have hnext : l.next (.recevRPC result handled) = l := by
          cases result with
          | response response => exact absurd rfl (hresult response)
          | error | request => rfl
        cases hout : s.onRecevRPC infos result handled with
        | thrown | undefined =>
            rw [hout] at hdone
            cases hdone
        | done pair =>
            rw [hout] at hdone
            cases hdone
            obtain ⟨contents, received, hu⟩ := onRecevRPC_frame hresult hout
            rw [hnext]
            subst hu
            exact h.frame rfl rfl rfl rfl rfl fun _ hgroup => hgroup

/-- A new processer agrees with the empty ledger. -/
theorem tracks_init : Tracks infos {} {} := by
  constructor <;> simp

/-- The processer agrees with the ledger behind every orderly run. -/
theorem tracks_run {events : List Event}
    (hok : Guarded (Rpc.step infos) (Orderly infos) {} events)
    (hrun : exec (Rpc.step infos) {} events = some s) : Tracks infos (ledger events) s :=
  exec_simulates (fun _ _ _ _ h hok hstep => h.step hok hstep) tracks_init hok hrun

/-- `OnRecevRPC` only adds to what was dispatched. -/
theorem onRecevRPC_dispatched {result : ParseResult} {handled : Bool} {ec : ErrorCode}
    (h : s.onRecevRPC infos result handled = .done (t, ec)) : s.dispatched ⊆ t.dispatched := by
  cases result with
  | error | request =>
      obtain ⟨contents, received, rfl⟩ := onRecevRPC_frame (by simp) h
      exact List.Subset.refl _
  | response response =>
      unfold Processer.onRecevRPC Processer.recevResp at h
      simp only at h
      split at h
      · cases h
        exact List.Subset.refl _
      · split at h
        · cases h
          exact List.Subset.refl _
        · split at h
          · cases h
          · split at h
            · cases h
            · cases h
              exact List.Subset.refl _
            · cases h
              exact List.subset_append_left _ _

/-- What was dispatched stays in the record. -/
theorem dispatched_subset {event : Event} (hstep : Rpc.step infos s event = some t) :
    s.dispatched ⊆ t.dispatched := by
  cases event with
  | addGroupRPC groupName =>
      cases hstep
      obtain ⟨interfaces, hadd⟩ := addGroupRPC_eq infos s groupName
      rw [hadd]
      exact List.Subset.refl _
  | sendRequest | sendEvent | sendResponse =>
      cases hstep
      exact List.Subset.refl _
  | sendReturned call ok =>
      have hstep : (s.sending call).map (fun id => (s.sendReturned call id ok).1) = some t := hstep
      obtain ⟨id, -, rfl⟩ := Option.map_eq_some_iff.mp hstep
      unfold Processer.sendReturned
      simp only
      split
      · exact List.Subset.refl _
      · split <;> exact List.Subset.refl _
  | cancelRequest id =>
      cases hstep
      unfold Processer.cancelRequest
      split <;> exact List.Subset.refl _
  | recevRPC result handled =>
      have hstep : (s.onRecevRPC infos result handled).result.map Prod.fst = some t := hstep
      obtain ⟨⟨u, ec⟩, hdone, rfl⟩ := Option.map_eq_some_iff.mp hstep
      cases hout : s.onRecevRPC infos result handled with
      | thrown | undefined =>
          rw [hout] at hdone
          cases hdone
      | done pair =>
          rw [hout] at hdone
          cases hdone
          exact onRecevRPC_dispatched hout

/-- What was dispatched stays in the record of every later state. -/
theorem dispatched_subset_run {events : List Event}
    (hrun : exec (Rpc.step infos) s events = some t) : s.dispatched ⊆ t.dispatched := by
  induction events generalizing s with
  | nil =>
      cases hrun
      exact List.Subset.refl _
  | cons event events ih =>
      obtain ⟨u, hu, hrest⟩ := exec_cons_eq_some.mp hrun
      exact List.Subset.trans (dispatched_subset hu) (ih hrest)

/-- Matching of responses to requests, over every orderly run. -/
theorem responses_matched {events : List Event}
    (hok : Guarded (Rpc.step infos) (Orderly infos) {} events)
    (hrun : exec (Rpc.step infos) {} events = some s) : Matched infos events s := by
  refine ⟨?_, (tracks_run hok hrun).once, ?_⟩
  · rintro before response handled after call ⟨id, stage⟩ rfl hentry hid hstage
    obtain ⟨t, hbefore, hrest⟩ := exec_append_eq_some.mp hrun
    obtain ⟨u, hstep, hafter⟩ := exec_cons_eq_some.mp hrest
    obtain ⟨hleft, hright⟩ := hok.of_append hbefore
    have htracks := tracks_run hleft hbefore
    rcases hstage with hsent | ⟨hhanded, -⟩
    · have hsent : stage = .sent := hsent
      subst hsent
      obtain ⟨ec, hdone⟩ := htracks.onRecevRPC_response hid
        ((htracks.pending id call).mpr hentry) handled
      have hstep : (t.onRecevRPC infos (.response response) handled).result.map Prod.fst =
          some u := hstep
      rw [hdone] at hstep
      cases hstep
      apply dispatched_subset_run hafter
      simp
    · -- The request is still being sent, so that its response is an early one.
      have hhanded : stage = .handed := hhanded
      subst hhanded
      exact absurd hid (htracks.not_early hright.1 hentry)
  · rintro before response handled after t u rfl hbefore hstep hidle
    have htracks := tracks_run (hok.of_append hbefore).1 hbefore
    have hnone : ∀ id, response.id = some id → t.requestMap id = none := by
      intro id hid
      rw [Option.eq_none_iff_forall_not_mem]
      intro call hcall
      exact hidle call _ ((htracks.pending id call).mp hcall) hid (.inr rfl)
    have hstep : (t.onRecevRPC infos (.response response) handled).result.map Prod.fst =
        some u := hstep
    rw [onRecevRPC_unexpected handled hnone] at hstep
    cases hstep
    rfl

/-! ## A group with one method -/

/-- One registered group, with the method `HeartBeat`. -/
def heartBeatInfos : RPCInfos := [("JRPCCommand".toList, ["HeartBeat".toList])]

/-- A request of the group. -/
def heartBeat : RPCRequest := { id := none, method := "HeartBeat".toList, params := [] }

/-- A response to the request with a number. -/
def heartBeatResponse (id : UInt32) : RPCResponse := { id := some id, result := "1".toList }

/-- One request is answered twice, another one is cancelled and answered. -/
def heartBeatEvents : List Event :=
  [.addGroupRPC "JRPCCommand".toList, .sendRequest heartBeat, .sendReturned 0 true,
    .recevRPC (.response (heartBeatResponse 0)) true,
    .recevRPC (.response (heartBeatResponse 0)) true, .sendRequest heartBeat,
    .sendReturned 1 true, .cancelRequest 1, .recevRPC (.response (heartBeatResponse 1)) true]

/-- The first request is dispatched to once, the cancelled one never. -/
theorem heartBeatEvents_matched :
    ∃ s, exec (step heartBeatInfos) {} heartBeatEvents = some s ∧
      s.dispatched = [(0, heartBeatResponse 0)] ∧ Matched heartBeatInfos heartBeatEvents s := by
  have hok : Guarded (step heartBeatInfos) (Orderly heartBeatInfos) {} heartBeatEvents := by
    decide
  exact ⟨_, rfl, rfl, responses_matched hok rfl⟩

/-- The response to a request comes before the delegate has returned. -/
def earlyEvents : List Event :=
  [.addGroupRPC "JRPCCommand".toList, .sendRequest heartBeat,
    .recevRPC (.response (heartBeatResponse 0)) true, .sendReturned 0 true]

/-- The early response to the request is refused, and the request stays in `requestMap`. -/
theorem early_response_not_matched :
    ∃ s, exec (step heartBeatInfos) {} earlyEvents = some s ∧ s.dispatched = [] ∧
      s.requestMap 0 = some 0 ∧ ¬ Matched heartBeatInfos earlyEvents s := by
  refine ⟨_, rfl, rfl, rfl, fun h => ?_⟩
  have hfirst := h.first [.addGroupRPC "JRPCCommand".toList, .sendRequest heartBeat]
    (heartBeatResponse 0) true [.sendReturned 0 true] 0 ⟨0, .handed⟩ rfl rfl rfl
    (.inr ⟨rfl, List.mem_singleton.mpr rfl⟩)
  exact List.not_mem_nil hfirst

end Utilpp.Rpc

import Utilpp.Handle
import Utilpp.Lib.Transition

/-!
# Events and their delegates

`DEFINE_EVENT` defines a table of delegates with `Add`, `Clear` and `Trigger`. A call of `Trigger`
goes through the handles that the table has when it starts, and calls what is then registered under
them. A delegate that runs may change the table and trigger the event again, so that the calls form
a stack. `trigger_reentrant` says which delegates a call calls and that it ends when they do. An
entry that is added during the call is called only when its handle was drawn before (`reused`).
-/

namespace Utilpp.Delegate

open Lib

/-- An entry of the table. A delegate has the number of the draw of its handle. -/
structure Entry where
  handle : UInt32
  delegate : Nat
  deriving DecidableEq, Repr

/-- A call of `Trigger`: the handles that are left, and the entry whose delegate is running. It
also has the table and the number of draws when it started, the handles that had their turn with
the table at that time, and the delegates that it called. -/
structure Call where
  keys : List UInt32
  running : Option Entry := none
  started : List Entry
  first : Nat
  turns : List (UInt32 × List Entry) := []
  called : List Nat := []
  deriving DecidableEq, Repr

/-- The counter of handles, the table of the event and the calls of `Trigger`, the last one
first. -/
structure Events where
  counter : UInt32 := nullCommonHandleID
  drawn : Nat := 0
  delegates : List Entry := []
  stack : List Call := []
  deriving DecidableEq, Repr

/-- `operator==` of the keys. -/
def lookup (delegates : List Entry) (key : UInt32) : Option Entry :=
  delegates.find? fun e => e.handle = key

/-- `find` of the next handle, and the call of the delegate that is found. -/
def Call.turn (call : Call) (delegates : List Entry) (key : UInt32) (keys : List UInt32) : Call :=
  { call with
    keys := keys
    running := lookup delegates key
    turns := call.turns ++ [(key, delegates)]
    called := call.called ++ ((lookup delegates key).map Entry.delegate).toList }

namespace Events

variable (s : Events)

/-- Code other than `Trigger` runs: a delegate, or no call has begun. -/
def free : Bool :=
  match s.stack with
  | [] => true
  | call :: _ => call.running.isSome

/-- A handle is drawn. -/
def draw : UInt32 × Events :=
  ((drawID s.counter).1, { s with counter := (drawID s.counter).2, drawn := s.drawn + 1 })

/-- `Add`; `emplace` keeps an entry that is there, and then the handle that is returned is null. -/
def add : UInt32 × Events :=
  let (handle, t) := s.draw
  if handle ∈ s.delegates.map Entry.handle then (nullCommonHandleID, t)
  else (handle, { t with delegates := s.delegates ++ [⟨handle, s.drawn⟩] })

/-- `Clear` of one delegate -/
def clear (handle : UInt32) : Events :=
  { s with delegates := s.delegates.filter fun e => e.handle ≠ handle }

/-- `Clear` of all delegates -/
def clearAll : Events := { s with delegates := [] }

/-- `Trigger`, up to the first handle. -/
def trigger (keys : List UInt32) : Events :=
  { s with stack := { keys := keys, started := s.delegates, first := s.drawn } :: s.stack }

/-- The next step of the call that was begun last, when it does not wait for a delegate. -/
def turn : Option Events :=
  match s.stack with
  | [] => none
  | call :: calls =>
      match call.running, call.keys with
      | some _, _ => none
      | none, [] => some { s with stack := calls }
      | none, key :: keys => some { s with stack := call.turn s.delegates key keys :: calls }

/-- The delegate that was called last returns. -/
def ret : Option Events :=
  match s.stack with
  | [] => none
  | call :: calls =>
      match call.running with
      | none => none
      | some _ => some { s with stack := { call with running := none } :: calls }

end Events

/-- What delegates and the program do, and the steps of `Trigger`. The table is gone through in an
order that is not specified. Others draw handles as well; no step of `Trigger` looks at the
counter. -/
inductive Label where
  | draw
  | add
  | clear (handle : UInt32)
  | clearAll
  | trigger (keys : List UInt32)
  | turn
  | ret
  deriving DecidableEq, Repr

def step (s : Events) : Label → Option Events
  | .draw => if s.free then some s.draw.2 else none
  | .add => if s.free then some s.add.2 else none
  | .clear handle => if s.free then some (s.clear handle) else none
  | .clearAll => if s.free then some s.clearAll else none
  | .trigger keys =>
      if s.free ∧ keys.Perm (s.delegates.map Entry.handle) then some (s.trigger keys) else none
  | .turn => s.turn
  | .ret => s.ret

/-! ## What a call does -/

/-- The entry had its turn while the table had it, or while it had not. -/
def Call.TurnOf (call : Call) (e : Entry) (registered : Prop) : Prop :=
  ∃ delegates, (e.handle, delegates) ∈ call.turns ∧ (e ∈ delegates ↔ registered)

/-- What is promised of a call. -/
structure Call.Sound (call : Call) : Prop where
  /-- each handle has one turn -/
  turns : (call.turns.map Prod.fst ++ call.keys).Perm (call.started.map Entry.handle)
  nodup : (call.turns.map Prod.fst ++ call.keys).Nodup
  /-- an entry that is registered at its turn is called once -/
  once : ∀ e ∈ call.started, call.TurnOf e True → call.called.count e.delegate = 1
  /-- one that is not registered at its turn is not called -/
  cleared : ∀ e ∈ call.started, call.TurnOf e False → e.delegate ∉ call.called
  /-- an entry that was added has the handle of one that was cleared before its turn -/
  reused : ∀ d ∈ call.called, (∃ e ∈ call.started, e.delegate = d) ∨
    call.first ≤ d ∧ ∃ e ∈ call.started, call.TurnOf e False ∧ handleAt d = e.handle ∧
      e.delegate + 4294967295 ≤ d
  /-- what is called is in the table at that time -/
  found : call.called = call.turns.filterMap fun turn =>
    (lookup turn.2 turn.1).map Entry.delegate
  running : ∀ e, call.running = some e →
    ∃ delegates, call.turns.getLast? = some (e.handle, delegates) ∧ e ∈ delegates

/-! ## Tables -/

/-- The entries have the handles that they drew, all different. -/
structure Table (delegates : List Entry) : Prop where
  drawn : ∀ e ∈ delegates, e.handle = handleAt e.delegate
  handles : (delegates.map Entry.handle).Nodup

theorem Table.sublist {delegates kept : List Entry} (h : Table delegates)
    (hkept : kept.Sublist delegates) : Table kept :=
  ⟨fun e he => h.drawn e (hkept.subset he), h.handles.sublist (hkept.map _)⟩

theorem Table.unique {delegates : List Entry} (h : Table delegates) {e other : Entry}
    (he : e ∈ delegates) (hother : other ∈ delegates) (heq : e.handle = other.handle) :
    e = other :=
  List.inj_on_of_nodup_map h.handles he hother heq

theorem lookup_eq_some {delegates : List Entry} {key : UInt32} {e : Entry}
    (h : lookup delegates key = some e) : e ∈ delegates ∧ e.handle = key := by
  have hkey := List.find?_some h
  exact ⟨List.mem_of_find?_eq_some h, of_decide_eq_true hkey⟩

theorem Table.lookup_handle {delegates : List Entry} (h : Table delegates) {e : Entry}
    (he : e ∈ delegates) : lookup delegates e.handle = some e := by
  cases hfound : lookup delegates e.handle with
  | none =>
      rw [lookup, List.find?_eq_none] at hfound
      exact absurd (decide_eq_true rfl) (hfound e he)
  | some other =>
      obtain ⟨hother, heq⟩ := lookup_eq_some hfound
      rw [h.unique hother he heq]

/-! ## The invariant -/

/-- Of the entries of the table, those that are older than the call were there when it started. -/
structure Call.Fits (call : Call) (delegates : List Entry) : Prop where
  table : Table delegates
  older : ∀ e ∈ delegates, e.delegate < call.first → e ∈ call.started

/-- What a call has recorded. -/
structure Call.Inv (call : Call) : Prop where
  started : Table call.started
  before : ∀ e ∈ call.started, e.delegate < call.first
  turns : (call.turns.map Prod.fst ++ call.keys).Perm (call.started.map Entry.handle)
  tables : ∀ turn ∈ call.turns, call.Fits turn.2
  found : call.called = call.turns.filterMap fun turn =>
    (lookup turn.2 turn.1).map Entry.delegate
  running : ∀ e, call.running = some e →
    ∃ delegates, call.turns.getLast? = some (e.handle, delegates) ∧ e ∈ delegates

structure Events.Inv (s : Events) : Prop where
  counter : s.counter = counterAt s.drawn
  table : Table s.delegates
  drawn : ∀ e ∈ s.delegates, e.delegate < s.drawn
  calls : ∀ call ∈ s.stack, call.Inv ∧ call.Fits s.delegates ∧ call.first ≤ s.drawn
  /-- only the last call does not wait for a delegate -/
  waiting : ∀ call ∈ s.stack.tail, call.running.isSome

/-- A delegate that a call called, with the turn and the entry that was found. -/
theorem Call.Inv.of_called {call : Call} (h : call.Inv) {d : Nat} (hd : d ∈ call.called) :
    ∃ turn ∈ call.turns, ∃ e ∈ turn.2, e.delegate = d ∧ e.handle = turn.1 ∧
      handleAt d = turn.1 := by
  rw [h.found, List.mem_filterMap] at hd
  obtain ⟨turn, hturn, hcalled⟩ := hd
  obtain ⟨e, hfound, rfl⟩ := Option.map_eq_some_iff.mp hcalled
  obtain ⟨he, hkey⟩ := lookup_eq_some hfound
  exact ⟨turn, hturn, e, he, rfl, hkey, ((h.tables turn hturn).table.drawn e he).symm.trans hkey⟩

theorem Call.Inv.nodup {call : Call} (h : call.Inv) :
    (call.turns.map Prod.fst ++ call.keys).Nodup :=
  h.turns.nodup_iff.mpr h.started.handles

/-- Two turns of one handle are the same turn. -/
theorem Call.Inv.turn_unique {call : Call} (h : call.Inv) {turn other : UInt32 × List Entry}
    (hturn : turn ∈ call.turns) (hother : other ∈ call.turns) (heq : turn.1 = other.1) :
    turn = other :=
  List.inj_on_of_nodup_map h.nodup.of_append_left hturn hother heq

/-- No delegate is called twice. -/
theorem Call.Inv.called_nodup {call : Call} (h : call.Inv) : call.called.Nodup := by
  have hturns : call.turns.Pairwise fun turn other => turn.1 ≠ other.1 :=
    List.pairwise_map.mp h.nodup.of_append_left
  rw [h.found]
  refine List.Pairwise.filterMap _ ?_ (hturns.imp_of_mem fun hturn hother hne =>
    And.intro (And.intro hturn hother) hne)
  rintro turn other ⟨⟨hturn, hother⟩, hne⟩ d hd d' hd' rfl
  obtain ⟨e, hfound, rfl⟩ := Option.map_eq_some_iff.mp hd
  obtain ⟨e', hfound', heq⟩ := Option.map_eq_some_iff.mp hd'
  obtain ⟨he, hkey⟩ := lookup_eq_some hfound
  obtain ⟨he', hkey'⟩ := lookup_eq_some hfound'
  refine hne ?_
  rw [← hkey, ← hkey', (h.tables turn hturn).table.drawn e he,
    (h.tables other hother).table.drawn e' he', heq]

/-- An entry that is registered at its turn is called once. -/
theorem Call.Inv.once {call : Call} (h : call.Inv) {e : Entry} (hturn : call.TurnOf e True) :
    call.called.count e.delegate = 1 := by
  obtain ⟨delegates, hturn, hregistered⟩ := hturn
  have he : e ∈ delegates := hregistered.mpr trivial
  refine List.count_eq_one_of_mem h.called_nodup ?_
  rw [h.found, List.mem_filterMap]
  refine ⟨(e.handle, delegates), hturn, ?_⟩
  rw [(h.tables _ hturn).table.lookup_handle he]
  rfl

/-- An entry that is not registered at its turn is not called. -/
theorem Call.Inv.cleared {call : Call} (h : call.Inv) {e : Entry} (he : e ∈ call.started)
    (hturn : call.TurnOf e False) : e.delegate ∉ call.called := by
  intro hcalled
  obtain ⟨delegates, hturn, hregistered⟩ := hturn
  obtain ⟨turn, hfound, e', he', hdelegate, hhandle, hkey⟩ := h.of_called hcalled
  rw [← h.started.drawn e he] at hkey
  have hsame : turn = (e.handle, delegates) := h.turn_unique hfound hturn hkey.symm
  subst hsame
  refine hregistered.mp ?_
  obtain ⟨handle, delegate⟩ := e
  obtain ⟨handle', delegate'⟩ := e'
  cases hdelegate
  cases hhandle
  exact he'

/-- A delegate that is called is as old as the call, or has the handle of one that was cleared. -/
theorem Call.Inv.reused {call : Call} (h : call.Inv) {d : Nat} (hd : d ∈ call.called) :
    (∃ e ∈ call.started, e.delegate = d) ∨
      call.first ≤ d ∧ ∃ e ∈ call.started, call.TurnOf e False ∧ handleAt d = e.handle ∧
        e.delegate + 4294967295 ≤ d := by
  obtain ⟨turn, hturn, found, hfound, rfl, hhandle, hkey⟩ := h.of_called hd
  have hfits := h.tables turn hturn
  by_cases hfirst : found.delegate < call.first
  · exact Or.inl ⟨found, hfits.older found hfound hfirst, rfl⟩
  · -- the handle is one of those at the start
    have hmem : turn.1 ∈ call.started.map Entry.handle :=
      h.turns.subset (List.mem_append_left _ (List.mem_map_of_mem hturn))
    obtain ⟨e, he, heq⟩ := List.mem_map.mp hmem
    have hbefore := h.before e he
    have hcleared : e ∉ turn.2 := fun hin => by
      rw [hfits.table.unique hin hfound (heq.trans hhandle.symm)] at hbefore
      exact hfirst hbefore
    refine Or.inr ⟨by omega, e, he, ⟨turn.2, ?_, iff_false_intro hcleared⟩, hkey.trans heq.symm, ?_⟩
    · rw [heq]
      exact hturn
    · refine handleAt_eq ?_ (by omega)
      rw [← h.started.drawn e he, heq, hkey]

theorem Call.Inv.sound {call : Call} (h : call.Inv) : call.Sound where
  turns := h.turns
  nodup := h.nodup
  once _ _ hturn := h.once hturn
  cleared _ he hturn := h.cleared he hturn
  reused _ hd := h.reused hd
  found := h.found
  running := h.running

/-! ## Steps -/

theorem inv_init : Events.Inv {} where
  counter := rfl
  table := ⟨fun _ he => absurd he List.not_mem_nil, List.nodup_nil⟩
  drawn _ he := absurd he List.not_mem_nil
  calls _ hcall := absurd hcall List.not_mem_nil
  waiting _ hcall := absurd hcall List.not_mem_nil

theorem Events.add_eq (s : Events) :
    s.add = if s.draw.1 ∈ s.delegates.map Entry.handle then (nullCommonHandleID, s.draw.2)
      else (s.draw.1,
        { s.draw.2 with delegates := s.delegates ++ [⟨s.draw.1, s.drawn⟩] }) := rfl

namespace Events.Inv

variable {s t : Events}

/-- The table may lose entries, and get some that are newer than every call. -/
theorem change (h : s.Inv) (hcounter : t.counter = counterAt t.drawn) (hdrawn : s.drawn ≤ t.drawn)
    (hstack : t.stack = s.stack) (htable : Table t.delegates)
    (hentries : ∀ e ∈ t.delegates,
      e.delegate < t.drawn ∧ (e ∈ s.delegates ∨ s.drawn ≤ e.delegate)) : t.Inv where
  counter := hcounter
  table := htable
  drawn e he := (hentries e he).1
  calls call hcall := by
    rw [hstack] at hcall
    obtain ⟨hinv, hfits, hfirst⟩ := h.calls call hcall
    refine ⟨hinv, ⟨htable, fun e he holder => ?_⟩, hfirst.trans hdrawn⟩
    rcases (hentries e he).2 with hin | hnew
    · exact hfits.older e hin holder
    · omega
  waiting := by
    rw [hstack]
    exact h.waiting

theorem draw (h : s.Inv) : s.draw.2.Inv := by
  refine h.change ?_ (Nat.le_succ _) rfl h.table fun e he => ?_
  · rw [Events.draw, h.counter, drawID_counterAt]
  · exact ⟨Nat.lt_succ_of_lt (h.drawn e he), Or.inl he⟩

theorem add (h : s.Inv) : s.add.2.Inv := by
  have hhandle : s.draw.1 = handleAt s.drawn := by
    rw [Events.draw, h.counter, drawID_counterAt]
  rw [add_eq, hhandle]
  split
  · exact h.draw
  · rename_i hnew
    refine h.change h.draw.counter (Nat.le_succ _) rfl ⟨fun e he => ?_, ?_⟩ fun e he => ?_
    · rcases List.mem_append.mp he with hold | hadded
      · exact h.table.drawn e hold
      · cases List.mem_singleton.mp hadded
        rfl
    · show ((s.delegates ++ _).map Entry.handle).Nodup
      rw [List.map_append, List.map_singleton, ← List.concat_eq_append]
      exact h.table.handles.concat hnew
    · rcases List.mem_append.mp he with hold | hadded
      · exact ⟨Nat.lt_succ_of_lt (h.drawn e hold), Or.inl hold⟩
      · cases List.mem_singleton.mp hadded
        exact ⟨Nat.lt_succ_self _, Or.inr (Nat.le_refl _)⟩

/-- Entries are erased. -/
theorem erase (h : s.Inv) {kept : List Entry} (hkept : kept.Sublist s.delegates) :
    ({ s with delegates := kept } : Events).Inv := by
  refine h.change h.counter (Nat.le_refl _) rfl (h.table.sublist hkept) fun e he => ?_
  exact ⟨h.drawn e (hkept.subset he), Or.inl (hkept.subset he)⟩

/-- The call that was begun last changes. -/
theorem top (h : s.Inv) {call call' : Call} {calls : List Call} (hstack : s.stack = call :: calls)
    (hinv : call'.Inv) (hfirst : call'.first = call.first)
    (hstarted : call'.started = call.started) :
    ({ s with stack := call' :: calls } : Events).Inv where
  counter := h.counter
  table := h.table
  drawn := h.drawn
  calls := by
    obtain ⟨⟨-, hfits, hdrawn⟩, hcalls⟩ := List.forall_mem_cons.mp (hstack ▸ h.calls)
    refine List.forall_mem_cons.mpr ⟨⟨hinv, ⟨hfits.table, ?_⟩, hfirst ▸ hdrawn⟩, hcalls⟩
    rw [hfirst, hstarted]
    exact hfits.older
  waiting := by
    have hwaiting := h.waiting
    rw [hstack] at hwaiting
    exact hwaiting

theorem trigger (h : s.Inv) (hfree : s.free) {keys : List UInt32}
    (hkeys : keys.Perm (s.delegates.map Entry.handle)) : (s.trigger keys).Inv where
  counter := h.counter
  table := h.table
  drawn := h.drawn
  calls := by
    refine List.forall_mem_cons.mpr ⟨⟨⟨h.table, h.drawn, hkeys, ?_, rfl, ?_⟩,
      ⟨h.table, fun _ he _ => he⟩, Nat.le_refl _⟩, h.calls⟩
    · exact fun _ hturn => absurd hturn List.not_mem_nil
    · exact fun _ hrunning => nomatch hrunning
  waiting := by
    have hwaiting := h.waiting
    show ∀ call ∈ s.stack, call.running.isSome
    rw [free] at hfree
    cases hstack : s.stack with
    | nil => exact fun _ hcall => absurd hcall List.not_mem_nil
    | cons call calls =>
        rw [hstack] at hfree hwaiting
        exact List.forall_mem_cons.mpr ⟨hfree, hwaiting⟩

end Events.Inv

/-- A turn of a call records the table that it found. -/
theorem Call.Inv.turn {call : Call} (h : call.Inv) {delegates : List Entry}
    (hfits : call.Fits delegates) {key : UInt32} {keys : List UInt32}
    (hkeys : call.keys = key :: keys) : (call.turn delegates key keys).Inv where
  started := h.started
  before := h.before
  turns := by
    have hturns := h.turns
    rw [hkeys] at hturns
    show ((call.turns ++ [(key, delegates)]).map Prod.fst ++ keys).Perm _
    rw [List.map_append, List.append_assoc]
    exact hturns
  tables turn hturn := by
    rcases List.mem_append.mp hturn with hold | hnew
    · exact ⟨(h.tables turn hold).table, (h.tables turn hold).older⟩
    · cases List.mem_singleton.mp hnew
      exact ⟨hfits.table, hfits.older⟩
  found := by
    show call.called ++ _ = (call.turns ++ [(key, delegates)]).filterMap _
    rw [List.filterMap_append, h.found]
    cases hfound : lookup delegates key <;> simp [hfound]
  running e hrunning := by
    obtain ⟨he, rfl⟩ := lookup_eq_some hrunning
    exact ⟨delegates, List.getLast?_concat, he⟩

/-- When a delegate has returned, the rest of the record is the same. -/
theorem Call.Inv.ret {call : Call} (h : call.Inv) : ({ call with running := none } : Call).Inv where
  started := h.started
  before := h.before
  turns := h.turns
  tables turn hturn := ⟨(h.tables turn hturn).table, (h.tables turn hturn).older⟩
  found := h.found
  running _ hrunning := nomatch hrunning

/-- What one step can do. -/
inductive Moves (s : Events) : Events → Prop
  | draw (hfree : s.free) : Moves s s.draw.2
  | add (hfree : s.free) : Moves s s.add.2
  | erase {kept : List Entry} (hfree : s.free) (hkept : kept.Sublist s.delegates) :
      Moves s { s with delegates := kept }
  | trigger {keys : List UInt32} (hfree : s.free)
      (hkeys : keys.Perm (s.delegates.map Entry.handle)) : Moves s (s.trigger keys)
  | finish {call : Call} {calls : List Call} (hstack : s.stack = call :: calls)
      (hrunning : call.running = none) (hkeys : call.keys = []) : Moves s { s with stack := calls }
  | turn {call : Call} {calls : List Call} {key : UInt32} {keys : List UInt32}
      (hstack : s.stack = call :: calls) (hrunning : call.running = none)
      (hkeys : call.keys = key :: keys) :
      Moves s { s with stack := call.turn s.delegates key keys :: calls }
  | ret {call : Call} {calls : List Call} (hstack : s.stack = call :: calls)
      (hrunning : call.running.isSome) :
      Moves s { s with stack := { call with running := none } :: calls }

theorem turn_moves {s t : Events} (h : s.turn = some t) : Moves s t := by
  rw [Events.turn] at h
  cases hstack : s.stack with
  | nil =>
      rw [hstack] at h
      cases h
  | cons call calls =>
      rw [hstack] at h
      cases hrunning : call.running with
      | some e =>
          simp only [hrunning] at h
          cases h
      | none =>
          cases hkeys : call.keys with
          | nil =>
              simp only [hrunning, hkeys] at h
              cases h
              exact .finish hstack hrunning hkeys
          | cons key keys =>
              simp only [hrunning, hkeys] at h
              cases h
              exact .turn hstack hrunning hkeys

theorem ret_moves {s t : Events} (h : s.ret = some t) : Moves s t := by
  rw [Events.ret] at h
  cases hstack : s.stack with
  | nil =>
      rw [hstack] at h
      cases h
  | cons call calls =>
      rw [hstack] at h
      cases hrunning : call.running with
      | none =>
          simp only [hrunning] at h
          cases h
      | some e =>
          simp only [hrunning] at h
          cases h
          exact .ret hstack (Option.isSome_iff_exists.mpr ⟨e, hrunning⟩)

theorem step_moves {s t : Events} {l : Label} (h : step s l = some t) : Moves s t := by
  cases l with
  | draw =>
      obtain ⟨hfree, ht⟩ := Option.ite_none_right_eq_some.mp h
      cases ht
      exact .draw hfree
  | add =>
      obtain ⟨hfree, ht⟩ := Option.ite_none_right_eq_some.mp h
      cases ht
      exact .add hfree
  | clear handle =>
      obtain ⟨hfree, ht⟩ := Option.ite_none_right_eq_some.mp h
      cases ht
      exact .erase hfree List.filter_sublist
  | clearAll =>
      obtain ⟨hfree, ht⟩ := Option.ite_none_right_eq_some.mp h
      cases ht
      exact .erase hfree (List.nil_sublist _)
  | trigger keys =>
      obtain ⟨⟨hfree, hkeys⟩, ht⟩ := Option.ite_none_right_eq_some.mp h
      cases ht
      exact .trigger hfree hkeys
  | turn => exact turn_moves h
  | ret => exact ret_moves h

theorem Moves.inv {s t : Events} (hstep : Moves s t) (h : s.Inv) : t.Inv := by
  cases hstep with
  | draw => exact h.draw
  | add => exact h.add
  | erase _ hkept => exact h.erase hkept
  | trigger hfree hkeys => exact h.trigger hfree hkeys
  | finish hstack =>
      have hcalls := h.calls
      have hwaiting := h.waiting
      rw [hstack] at hcalls hwaiting
      exact ⟨h.counter, h.table, h.drawn, (List.forall_mem_cons.mp hcalls).2,
        fun c hc => hwaiting c (List.mem_of_mem_tail hc)⟩
  | turn hstack _ hkeys =>
      obtain ⟨hinv, hfits, -⟩ := h.calls _ (hstack ▸ List.mem_cons_self)
      exact h.top hstack (hinv.turn hfits hkeys) rfl rfl
  | ret hstack =>
      obtain ⟨hinv, -, -⟩ := h.calls _ (hstack ▸ List.mem_cons_self)
      exact h.top hstack hinv.ret rfl rfl

theorem inv_of_exec {labels : List Label} {s : Events} (h : exec step {} labels = some s) :
    s.Inv := by
  have hkeep : ∀ (s : Events) (l : Label) (t : Events), s.Inv → True → step s l = some t → t.Inv :=
    fun _ _ _ hinv _ hstep => (step_moves hstep).inv hinv
  exact exec_invariant hkeep inv_init (guarded_true _ _) h

/-! ## The end of a call -/

/-- What is left for a call to do: two steps for each handle, and the return of the delegate that
is running. -/
def Call.left (call : Call) : Nat := 2 * call.keys.length + if call.running.isSome then 1 else 0

theorem Call.left_turn {call : Call} {key : UInt32} {keys : List UInt32}
    (hkeys : call.keys = key :: keys) (delegates : List Entry) :
    (call.turn delegates key keys).left < call.left := by
  rw [Call.left, Call.left, hkeys, List.length_cons]
  show 2 * keys.length + _ < _
  split <;> omega

theorem Call.left_ret {call : Call} (hrunning : call.running.isSome) :
    ({ call with running := none } : Call).left < call.left := by
  rw [Call.left, Call.left, if_pos hrunning]
  exact Nat.lt_succ_self _

/-- What a step does to the calls: a call that is not the last stays as it is, and the last has
less left to do when it changes. -/
theorem Moves.stack {s t : Events} (h : Moves s t) :
    t.stack = s.stack ∨ (∃ call, t.stack = call :: s.stack) ∨
      (∃ call, s.stack = call :: t.stack) ∨
      ∃ call call' calls, s.stack = call :: calls ∧ t.stack = call' :: calls ∧
        call'.left < call.left := by
  cases h with
  | draw => exact Or.inl rfl
  | add =>
      refine Or.inl ?_
      rw [Events.add_eq]
      split <;> rfl
  | erase => exact Or.inl rfl
  | trigger => exact Or.inr (Or.inl ⟨_, rfl⟩)
  | finish hstack => exact Or.inr (Or.inr (Or.inl ⟨_, hstack⟩))
  | turn hstack _ hkeys =>
      exact Or.inr (Or.inr (Or.inr ⟨_, _, _, hstack, rfl, Call.left_turn hkeys _⟩))
  | ret hstack hrunning =>
      exact Or.inr (Or.inr (Or.inr ⟨_, _, _, hstack, rfl, Call.left_ret hrunning⟩))

/-- There is one call right above the others. -/
theorem above_unique {front front' rest : List Call} {call call' : Call}
    (h : front ++ call :: rest = front' ++ call' :: rest) : call = call' :=
  (List.cons.inj (List.append_inj_right' h rfl)).1

/-- The call above the same calls stays as it is or has less left to do. -/
theorem Moves.call {s t : Events} (h : Moves s t) {inner inner' rest : List Call}
    {call call' : Call} (hs : s.stack = inner ++ call :: rest)
    (ht : t.stack = inner' ++ call' :: rest) : call' = call ∨ call'.left < call.left := by
  rcases h.stack with hsame | ⟨c, hpush⟩ | ⟨c, hpop⟩ | ⟨c, c', calls, hcalls, hcalls', hless⟩
  · rw [hs, ht] at hsame
    exact Or.inl (above_unique hsame)
  · rw [hs, ht, ← List.cons_append] at hpush
    exact Or.inl (above_unique hpush)
  · rw [hs, ht, ← List.cons_append] at hpop
    exact Or.inl (above_unique hpop.symm)
  · rw [hs] at hcalls
    rw [ht] at hcalls'
    cases inner with
    | nil =>
        -- the call is the last one
        obtain ⟨rfl, rfl⟩ := List.cons.inj hcalls
        have hlast : call' = c' := above_unique (hcalls'.trans (List.nil_append _).symm)
        exact Or.inr (hlast ▸ hless)
    | cons d inner =>
        have hbelow : inner ++ call :: rest = calls := (List.cons.inj hcalls).2
        rw [← hbelow, ← List.cons_append] at hcalls'
        exact Or.inl (above_unique hcalls')

/-- A call that does not wait for a delegate ends or has less left to do after the next step. -/
theorem Moves.not_running {s t : Events} (h : Moves s t) {call : Call} {rest : List Call}
    (hs : s.stack = call :: rest) (hrunning : call.running = none) :
    t.stack = rest ∨ ∃ call', t.stack = call' :: rest ∧ call'.left < call.left := by
  have hnot : ¬ s.free := by
    simp [Events.free, hs, hrunning]
  cases h with
  | draw hfree | add hfree | erase hfree | trigger hfree => exact absurd hfree hnot
  | finish hstack =>
      obtain ⟨-, rfl⟩ := List.cons.inj (hs.symm.trans hstack)
      exact Or.inl rfl
  | turn hstack _ hkeys =>
      obtain ⟨rfl, rfl⟩ := List.cons.inj (hs.symm.trans hstack)
      exact Or.inr ⟨_, rfl, Call.left_turn hkeys _⟩
  | ret hstack hsome =>
      obtain ⟨rfl, rfl⟩ := List.cons.inj (hs.symm.trans hstack)
      rw [hrunning] at hsome
      cases hsome

/-- A call that never ends waits for one delegate that never returns. -/
theorem Events.Inv.waits {run : Nat → Events} {next : Nat → Label} (h : (run 0).Inv)
    (hrun : ∀ n, step (run n) (next n) = some (run (n + 1))) {rest : List Call}
    (hcall : ∀ n, ∃ inner call, (run n).stack = inner ++ call :: rest) :
    ∃ last call e, call.running = some e ∧
      ∀ n, last ≤ n → ∃ inner, (run n).stack = inner ++ call :: rest := by
  have hinv : ∀ n, (run n).Inv :=
    endless_invariant (fun s l t hs (hstep : step s l = some t) => (step_moves hstep).inv hs) h hrun
  choose inner call hstack using hcall
  obtain ⟨last, hlast⟩ := eventually_constant Call.left fun n =>
    (step_moves (hrun n)).call (hstack n) (hstack (n + 1))
  have hrunning : (call last).running.isSome := by
    cases hinner : inner last with
    | nil =>
        by_contra hnot
        rw [Option.not_isSome_iff_eq_none] at hnot
        have hs := hstack last
        rw [hinner, List.nil_append] at hs
        rcases (step_moves (hrun last)).not_running hs hnot with hend | ⟨c, hc, hless⟩
        · have hlength := congrArg List.length (hend.symm.trans (hstack (last + 1)))
          rw [List.length_append, List.length_cons] at hlength
          omega
        · have hnext := (hstack (last + 1)).symm.trans hc
          have hsame : call (last + 1) = c :=
            above_unique (hnext.trans (List.nil_append (c :: rest)).symm)
          rw [← hsame, hlast (last + 1) (Nat.le_succ _)] at hless
          exact absurd hless (Nat.lt_irrefl _)
    | cons c inner' =>
        refine (hinv last).waiting (call last) ?_
        rw [hstack last, hinner]
        exact List.mem_append_right _ List.mem_cons_self
  obtain ⟨e, he⟩ := Option.isSome_iff_exists.mp hrunning
  exact ⟨last, call last, e, he, fun n hn => ⟨inner n, hlast n hn ▸ hstack n⟩⟩

/-- In every state that can be reached the calls are sound, a call that does not wait for a delegate
can go on, and a call that never ends waits for one delegate that never returns. -/
theorem trigger_reentrant {labels : List Label} {s : Events} (h : exec step {} labels = some s) :
    (∀ call ∈ s.stack, call.Sound) ∧
    (∀ call rest, s.stack = call :: rest → call.running = none → ∃ t, step s .turn = some t) ∧
    ∀ (run : Nat → Events) (next : Nat → Label), run 0 = s →
      (∀ n, step (run n) (next n) = some (run (n + 1))) →
      ∀ rest, (∀ n, ∃ inner call, (run n).stack = inner ++ call :: rest) →
        ∃ last call e, call.running = some e ∧
          ∀ n, last ≤ n → ∃ inner, (run n).stack = inner ++ call :: rest := by
  have hinv := inv_of_exec h
  refine ⟨fun call hcall => (hinv.calls call hcall).1.sound, fun call rest hstack hrunning => ?_,
    fun run next hstart hrun rest hcall => Events.Inv.waits (hstart ▸ hinv) hrun hcall⟩
  show ∃ t, s.turn = some t
  simp only [Events.turn, hstack, hrunning]
  cases call.keys with
  | nil => exact ⟨_, rfl⟩
  | cons key keys => exact ⟨_, rfl⟩

/-- Two delegates are added; the first clears the second. -/
def clearing : List Label := [.add, .add, .trigger [0, 1], .turn, .clear 1]

def afterClearing (counter : UInt32) (drawn : Nat) : Events where
  counter := counter
  drawn := drawn
  delegates := [⟨0, 0⟩]
  stack := [{ keys := [1], running := some ⟨0, 0⟩, started := [⟨0, 0⟩, ⟨1, 1⟩], first := 2,
              turns := [(0, [⟨0, 0⟩, ⟨1, 1⟩])], called := [0] }]

theorem exec_clearing : exec step {} clearing = some (afterClearing 2 2) := by decide

/-- The call is over after the turn of the delegate that was cleared, and has called the other. -/
theorem trigger_reentrant_clearing : ∃ call : Call, call.Sound ∧ call.keys = [] ∧
    call.turns.map Prod.fst = [0, 1] ∧ call.called = [0] := by
  have hrun : exec step {} (clearing ++ [.ret, .turn]) = some
      { counter := 2, drawn := 2, delegates := [⟨0, 0⟩]
        stack := [{ keys := [], started := [⟨0, 0⟩, ⟨1, 1⟩], first := 2,
                    turns := [(0, [⟨0, 0⟩, ⟨1, 1⟩]), (1, [⟨0, 0⟩])], called := [0] }] } := by
    decide
  exact ⟨_, (trigger_reentrant hrun).1 _ List.mem_cons_self, rfl, rfl, rfl⟩

theorem exec_draws {s : Events} (hfree : s.free) (hcounter : s.counter = counterAt s.drawn)
    (n : Nat) : exec step s (List.replicate n .draw) =
      some { s with counter := counterAt (s.drawn + n), drawn := s.drawn + n } := by
  induction n generalizing s with
  | zero =>
      rw [Nat.add_zero, ← hcounter]
      rfl
  | succ n ih =>
      have hdraw : step s .draw =
          some { s with counter := counterAt (s.drawn + 1), drawn := s.drawn + 1 } := by
        rw [step, if_pos hfree, Events.draw, hcounter, drawID_counterAt]
      rw [List.replicate_succ, exec_cons, hdraw, Option.bind_some, Nat.add_comm n 1,
        ← Nat.add_assoc]
      exact ih hfree rfl

/-- All the other handles were drawn, and one more delegate was added. -/
def afterAdding : Events where
  counter := 2
  drawn := 4294967297
  delegates := [⟨0, 0⟩, ⟨1, 4294967296⟩]
  stack := [{ keys := [], running := some ⟨1, 4294967296⟩, started := [⟨0, 0⟩, ⟨1, 1⟩], first := 2,
              turns := [(0, [⟨0, 0⟩, ⟨1, 1⟩]), (1, [⟨0, 0⟩, ⟨1, 4294967296⟩])],
              called := [0, 4294967296] }]

/-- A delegate is called that was added during the call. -/
theorem trigger_calls_added :
    exec step {} (clearing ++ List.replicate 4294967294 .draw ++ [.add, .ret, .turn]) =
        some afterAdding ∧
      ∃ call ∈ afterAdding.stack, ∃ d ∈ call.called, call.first ≤ d := by
  have hdraws := @exec_draws (afterClearing 2 2) rfl (by decide) 4294967294
  have hlast : exec step (afterClearing (counterAt 4294967296) 4294967296) [.add, .ret, .turn] =
      some afterAdding := by decide
  refine ⟨?_, _, List.mem_cons_self, 4294967296, ?_, ?_⟩
  · rw [exec_append, exec_append, exec_clearing, Option.bind_some, hdraws, Option.bind_some]
    exact hlast
  · exact List.mem_cons_of_mem _ List.mem_cons_self
  · decide

end Utilpp.Delegate

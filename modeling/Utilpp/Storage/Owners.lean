import Utilpp.Storage.ValueStorage

/-!
# Ownership of buffers

Every buffer that is not deconstructed belongs to one of the two cells, to one call that is under
way or to `Tick`. `Effect` lists what a step can do; each effect moves a buffer from one owner to
another, takes a fresh one or deconstructs one, and `Owned.effect` shows that the owners stay
apart. This holds in every interleaving.
-/

namespace Utilpp.Storage

open Lib

variable {n : Nat} {α : Type*}

/-! ## Who owns which buffer -/

/-- The buffer that the call alone may deconstruct or hand over. -/
def Thread.owned : Thread α → Nat
  | .constructing buf _ | .loading buf | .exchanging buf _ => buf
  | .discarding previousNew => previousNew
  | .copying p | .puttingBack p _ | .dropping p _ => p
  | .idle | .taking _ => 0

/-- The buffer that `GetValue` holds between taking it out and putting it back. -/
def Thread.held : Thread α → Nat
  | .copying p | .puttingBack p _ => p
  | _ => 0

/-- The buffer that `GetValue` took out and still has to put back or deconstruct. -/
def Thread.taken : Thread α → Nat
  | .copying p | .puttingBack p _ | .dropping p _ => p
  | _ => 0

/-- The buffer that `Tick` alone may deconstruct or hand over. -/
def Ticker.owned : Ticker → Nat
  | .publishing _ l | .puttingBack l | .dropping l => l
  | .notifying _ p | .discarding p => p
  | .idle | .loaded _ | .taking _ _ => 0

/-- The buffer that `Tick` took out of `LastestValue` and may still publish. -/
def Ticker.pending : Ticker → Nat
  | .publishing _ l | .puttingBack l => l
  | _ => 0

/-- The buffer that the delegate is called with. -/
def Ticker.notified : Ticker → Option Nat
  | .notifying l _ => some l
  | _ => none

/-- The pointers of the call that came from `malloc` or from a cell found not to be empty. -/
def Thread.Valid : Thread α → Prop
  | .constructing buf _ | .loading buf | .exchanging buf _ => buf ≠ 0
  | .taking p | .copying p | .puttingBack p _ | .dropping p _ => p ≠ 0
  | .idle | .discarding _ => True

/-- The pointer that `Tick` found in `LastestValue`. -/
def Ticker.Valid : Ticker → Prop
  | .taking _ l | .publishing _ l | .puttingBack l | .dropping l | .notifying l _ => l ≠ 0
  | .idle | .loaded _ | .discarding _ => True

/-- The two cells, the threads and `Tick`. -/
inductive Owner (n : Nat) where
  | value
  | lastest
  | thread (t : Fin n)
  | ticker
  deriving DecidableEq

theorem Thread.held_owned (point : Thread α) : point.held = 0 ∨ point.held = point.owned := by
  cases point <;> simp [Thread.held, Thread.owned]

theorem Thread.held_of_taken {point : Thread α} (h : point.taken = 0) : point.held = 0 := by
  cases point <;> simp_all [Thread.held, Thread.taken]

theorem Ticker.pending_owned (point : Ticker) :
    point.pending = 0 ∨ point.pending = point.owned := by
  cases point <;> simp [Ticker.pending, Ticker.owned]

namespace State

/-- What the owner owns; zero for nothing. -/
def owns (s : State n α) : Owner n → Nat
  | .value => s.value
  | .lastest => s.lastest
  | .thread t => (s.threads t).owned
  | .ticker => s.ticker.owned

/-- Every buffer has one owner, and what is owned is not deconstructed. -/
structure Owned (s : State n α) : Prop where
  exclusive : Exclusive s.owns
  live : ∀ o, s.owns o ≠ 0 → s.live (s.owns o) = true

/-! ## What a step can do -/

/-- The put-back of a `GetValue` call that finds `Value` empty happens when no other `GetValue`
call holds a buffer that was set later. -/
def PutsBackNewest (s : State n α) : Label n α → Prop
  | .thread t _ =>
      match s.threads t with
      | .puttingBack p _ => s.value = 0 → ∀ u, s.stampAt (s.threads u).held ≤ s.stampAt p
      | _ => True
  | _ => True

instance (s : State n α) (l : Label n α) : Decidable (s.PutsBackNewest l) :=
  match l with
  | .thread t _ =>
      match h : s.threads t with
      | .puttingBack p _ =>
          decidable_of_iff (s.value = 0 → ∀ u, s.stampAt (s.threads u).held ≤ s.stampAt p)
            (by simp only [PutsBackNewest, h])
      | .idle | .constructing _ _ | .loading _ | .exchanging _ _ | .discarding _ | .taking _
      | .copying _ | .dropping _ _ => .isTrue (by simp only [PutsBackNewest, h])
  | .setValue _ _ _ | .getValue _ | .tick | .ticker _ => .isTrue trivial

/-- The effects of one step, with the program point that each is taken from. -/
inductive Effect (s : State n α) : State n α → Prop where
  | stay : Effect s s
  /-- The point changes and nothing that matters to others. -/
  | quiet (t : Fin n) (point : Thread α) (howned : point.owned = (s.threads t).owned)
      (htaken : point.taken = 0 ∧ (s.threads t).taken = 0)
      (hvalid : (s.threads t).Valid → point.Valid) : Effect s (s.goTo t point)
  | allocate (t : Fin n) (value : α) (buf : Nat) (ht : s.threads t = .idle) (hbuf : buf ≠ 0)
      (hfree : s.live buf = false) : Effect s ((s.malloc buf).goTo t (.constructing buf value))
  | construct (t : Fin n) (value : α) (buf : Nat) (ht : s.threads t = .constructing buf value) :
      Effect s ((s.construct buf value).goTo t (.loading buf))
  | exchange (t : Fin n) (buf : Nat) (ht : s.threads t = .exchanging buf s.lastest) :
      Effect s ((s.exchange buf).goTo t (.discarding s.lastest))
  | discard (t : Fin n) (p : Nat) (ht : s.threads t = .discarding p) (hp : p ≠ 0) :
      Effect s ((s.deconstruct p).goTo t .idle)
  | take (t : Fin n) (ht : s.threads t = .taking s.value) :
      Effect s ({ s with value := 0 }.goTo t (.copying s.value))
  | copy (t : Fin n) (p : Nat) (ht : s.threads t = .copying p) :
      Effect s ((s.read p).goTo t (.puttingBack p (s.stampAt p)))
  | putBack (t : Fin n) (p stamp : Nat) (ht : s.threads t = .puttingBack p stamp)
      (hempty : s.value = 0) (hnewest : ∀ u, s.stampAt (s.threads u).held ≤ s.stampAt p) :
      Effect s (({ s with value := p }.goTo t .idle).record [.returned t stamp])
  | refuse (t : Fin n) (p stamp : Nat) (ht : s.threads t = .puttingBack p stamp)
      (hfull : s.value ≠ 0) : Effect s (s.goTo t (.dropping p stamp))
  | drop (t : Fin n) (p stamp : Nat) (ht : s.threads t = .dropping p stamp) :
      Effect s (((s.deconstruct p).goTo t .idle).record [.returned t stamp])
  | tickQuiet (point : Ticker) (howned : point.owned = s.ticker.owned)
      (hpending : point.pending = 0 ∨ point.pending = s.ticker.pending)
      (hnotified : point.notified = none) (hvalid : s.ticker.Valid → point.Valid) :
      Effect s { s with ticker := point }
  | tickTake (v : Nat) (ht : s.ticker = .taking v s.lastest) :
      Effect s { s with lastest := 0, ticker := .publishing v s.lastest }
  | publish (l : Nat) (ht : s.ticker = .publishing s.value l) :
      Effect s ({ s with value := l, newest := l, ticker := .notifying l s.value }.record
        [.published (s.stampAt l)])
  | tickPutBack (l : Nat) (ht : s.ticker = .puttingBack l) (hempty : s.lastest = 0) :
      Effect s { s with lastest := l, ticker := .idle }
  | notify (l p : Nat) (ht : s.ticker = .notifying l p) :
      Effect s { (s.read l).read p with ticker := .discarding p }
  | tickDrop (l : Nat) (ht : s.ticker = .dropping l) :
      Effect s { s.deconstruct l with ticker := .idle }
  | tickDiscard (p : Nat) (ht : s.ticker = .discarding p) (hp : p ≠ 0) :
      Effect s { s.deconstruct p with ticker := .idle }

theorem threadStep_effect {s s' : State n α} {t : Fin n} {weak : Bool}
    (hstep : s.threadStep t weak = some s') (hok : s.PutsBackNewest (.thread t weak)) :
    Effect s s' := by
  unfold threadStep at hstep
  unfold PutsBackNewest at hok
  cases ht : s.threads t with
  | idle => simp [ht] at hstep
  | constructing buf value =>
      simp only [ht, Option.some.injEq] at hstep
      exact hstep ▸ .construct t value buf ht
  | loading buf =>
      simp only [ht, Option.some.injEq] at hstep
      exact hstep ▸ .quiet t _ (by simp [ht, Thread.owned]) (by simp [ht, Thread.taken])
          (by simp [ht, Thread.Valid])
  | exchanging buf previousNew =>
      simp only [ht] at hstep
      split at hstep
      · rename_i hcas
        cases hcas.1
        cases hstep
        exact .exchange t buf ht
      · cases hstep
        exact .quiet t _ (by simp [ht, Thread.owned]) (by simp [ht, Thread.taken])
          (by simp [ht, Thread.Valid])
  | discarding previousNew =>
      simp only [ht] at hstep
      split at hstep
      · rename_i hne
        cases hstep
        exact .discard t previousNew ht hne
      · rename_i hzero
        cases hstep
        exact .quiet t _ (by simp_all [Thread.owned]) (by simp [ht, Thread.taken])
          (fun _ => trivial)
  | taking previousValue =>
      simp only [ht] at hstep
      split at hstep
      · rename_i hcas
        cases hcas.1
        cases hstep
        exact .take t ht
      · cases hstep
        exact .quiet t _ (by simp [ht, Thread.owned]) (by simp [ht, Thread.taken])
          (by simp [ht, Thread.Valid])
  | copying previousValue =>
      simp only [ht, Option.some.injEq] at hstep
      exact hstep ▸ .copy t previousValue ht
  | puttingBack previousValue stamp =>
      simp only [ht] at hstep hok
      split at hstep
      · rename_i hempty
        cases hstep
        exact .putBack t previousValue stamp ht hempty (hok hempty)
      · rename_i hfull
        cases hstep
        exact .refuse t previousValue stamp ht hfull
  | dropping previousValue stamp =>
      simp only [ht, Option.some.injEq] at hstep
      exact hstep ▸ .drop t previousValue stamp ht

theorem tickerStep_effect {s s' : State n α} {weak : Bool}
    (hstep : s.tickerStep weak = some s') : Effect s s' := by
  unfold tickerStep at hstep
  cases ht : s.ticker with
  | idle => simp [ht] at hstep
  | loaded previousValue =>
      simp only [ht] at hstep
      split at hstep
      · cases hstep
        exact .tickQuiet .idle (by simp [ht, Ticker.owned]) (.inl rfl) rfl
          (by simp [ht, Ticker.Valid])
      · rename_i hne
        cases hstep
        exact .tickQuiet _ (by simp [ht, Ticker.owned]) (.inl rfl) rfl
          (fun _ hzero => hne (.inl hzero))
  | taking previousValue previousLastestValue =>
      simp only [ht] at hstep
      split at hstep
      · rename_i hcas
        cases hcas.1
        cases hstep
        exact .tickTake previousValue ht
      · cases hstep
        exact .tickQuiet .idle (by simp [ht, Ticker.owned]) (.inl rfl) rfl
          (by simp [ht, Ticker.Valid])
  | publishing previousValue previousLastestValue =>
      simp only [ht] at hstep
      split at hstep
      · rename_i hcas
        cases hcas.1
        cases hstep
        exact .publish previousLastestValue ht
      · cases hstep
        exact .tickQuiet _ (by simp [ht, Ticker.owned]) (.inr (by simp [ht, Ticker.pending])) rfl
          (by simp [ht, Ticker.Valid])
  | puttingBack previousLastestValue =>
      simp only [ht] at hstep
      split at hstep
      · rename_i hempty
        cases hstep
        exact .tickPutBack previousLastestValue ht hempty
      · cases hstep
        exact .tickQuiet _ (by simp [ht, Ticker.owned]) (.inl rfl) rfl
          (by simp [ht, Ticker.Valid])
  | dropping previousLastestValue =>
      simp only [ht, Option.some.injEq] at hstep
      exact hstep ▸ .tickDrop previousLastestValue ht
  | notifying previousLastestValue previousValue =>
      simp only [ht, Option.some.injEq] at hstep
      exact hstep ▸ .notify previousLastestValue previousValue ht
  | discarding previousValue =>
      simp only [ht] at hstep
      split at hstep
      · rename_i hne
        cases hstep
        exact .tickDiscard previousValue ht hne
      · rename_i hzero
        cases hstep
        exact .tickQuiet .idle (by simp_all [Ticker.owned]) (.inl rfl) rfl
          (by simp [ht, Ticker.Valid])

/-- Every step has one of the effects. -/
theorem step_effect {s s' : State n α} {l : Label n α} (hstep : s.step l = some s')
    (hok : s.PutsBackNewest l) : Effect s s' := by
  cases l with
  | setValue t value buf =>
      cases ht : s.threads t <;> simp only [step, ht, reduceCtorEq] at hstep
      split at hstep
      · cases hstep
        exact .stay
      · rename_i hbuf
        split at hstep
        · cases hstep
        · rename_i hfree
          cases hstep
          exact .allocate t value buf ht hbuf (by simpa using hfree)
  | getValue t =>
      cases ht : s.threads t <;> simp only [step, ht, reduceCtorEq, Option.some.injEq] at hstep
      split at hstep
      · cases hstep
        exact .stay
      · rename_i hvalue
        cases hstep
        exact .quiet t _ (by simp [ht, Thread.owned]) (by simp [ht, Thread.taken]) (fun _ => hvalue)
  | thread t weak => exact threadStep_effect hstep hok
  | tick =>
      cases ht : s.ticker <;> simp only [step, ht, reduceCtorEq, Option.some.injEq] at hstep
      cases hstep
      exact .tickQuiet _ (by simp [ht, Ticker.owned]) (.inl rfl) rfl
          (by simp [ht, Ticker.Valid])
  | ticker weak => exact tickerStep_effect hstep

theorem owns_goTo (s : State n α) (t : Fin n) (point : Thread α) (o : Owner n) :
    (s.goTo t point).owns o = if o = .thread t then point.owned else s.owns o := by
  cases o with
  | thread u =>
      by_cases hu : u = t
      · subst hu
        simp [owns, goTo]
      · simp [owns, goTo, hu]
  | value | lastest | ticker => simp [owns, goTo]

@[simp] theorem owns_record (s : State n α) (events : List Event) (o : Owner n) :
    (s.record events).owns o = s.owns o := by
  cases o <;> rfl

/-! ## Memory -/

section Memory

variable (s : State n α) (p q : Nat)

theorem live_malloc_of_live {q : Nat} (h : s.live q = true) (hfree : s.live p = false) :
    (s.malloc p).live q = true := by
  have hne : q ≠ p := fun hq => by simp [hq, hfree] at h
  simpa [live, malloc, hne] using h

theorem live_malloc_self : (s.malloc p).live p = true := by
  simp [live, malloc]

@[simp] theorem live_construct (value : α) : (s.construct p value).live q = s.live q := by
  by_cases hq : q = p
  · subst hq
    cases h : s.heap q <;> simp [live, construct, h]
  · simp [live, construct, hq]

@[simp] theorem live_exchange : (s.exchange p).live q = s.live q := by
  by_cases hq : q = p
  · subst hq
    cases h : s.heap q <;> simp [live, exchange, h]
  · simp [live, exchange, hq]

theorem live_deconstruct_of_ne {q : Nat} (hq : q ≠ p) : (s.deconstruct p).live q = s.live q := by
  simp [live, deconstruct, hq]

theorem stampAt_malloc_of_ne {q : Nat} (hq : q ≠ p) : (s.malloc p).stampAt q = s.stampAt q := by
  simp [stampAt, malloc, hq]

@[simp] theorem stampAt_construct (value : α) :
    (s.construct p value).stampAt q = s.stampAt q := by
  by_cases hq : q = p
  · subst hq
    cases h : s.heap q <;> simp [stampAt, construct, h]
  · simp [stampAt, construct, hq]

theorem stampAt_exchange_of_ne {q : Nat} (hq : q ≠ p) :
    (s.exchange p).stampAt q = s.stampAt q := by
  simp [stampAt, exchange, hq]

theorem stampAt_exchange_self {p : Nat} (h : s.live p = true) :
    (s.exchange p).stampAt p = s.sets + 1 := by
  cases hp : s.heap p with
  | none => simp [live, hp] at h
  | some b => simp [stampAt, exchange, hp]

@[simp] theorem stampAt_deconstruct : (s.deconstruct p).stampAt q = s.stampAt q := by
  by_cases hq : q = p
  · subst hq
    cases h : s.heap q <;> simp [stampAt, deconstruct, h]
  · simp [stampAt, deconstruct, hq]

end Memory

/-! ## Ownership -/

theorem Owned.of_exchange {s s' : State n α} (h : s.Owned) {a b : Owner n}
    (ha : s'.owns a = s.owns b) (hb : s'.owns b = s.owns a)
    (hother : ∀ o, o ≠ a → o ≠ b → s'.owns o = s.owns o)
    (hlive : ∀ p, p ≠ 0 → s.live p = true → s'.live p = true) : s'.Owned := by
  refine ⟨h.exclusive.exchange ha hb hother, fun o ho => ?_⟩
  have hsame : ∃ o', s'.owns o = s.owns o' := by
    by_cases hoa : o = a
    · exact ⟨b, hoa ▸ ha⟩
    · by_cases hob : o = b
      · exact ⟨a, hob ▸ hb⟩
      · exact ⟨o, hother o hoa hob⟩
  obtain ⟨o', ho'⟩ := hsame
  rw [ho'] at ho ⊢
  exact hlive _ ho (h.live o' ho)

theorem Owned.of_same {s s' : State n α} (h : s.Owned) (hsame : ∀ o, s'.owns o = s.owns o)
    (hlive : ∀ p, p ≠ 0 → s.live p = true → s'.live p = true) : s'.Owned :=
  h.of_exchange (hsame .value) (hsame .value) (fun o _ _ => hsame o) hlive

/-- Deconstructing what one owner owns and the owner forgetting it. -/
theorem Owned.of_deconstruct {s s' : State n α} (h : s.Owned) {a : Owner n} {p : Nat}
    (hp : s.owns a = p) (ha : s'.owns a = 0) (hother : ∀ o, o ≠ a → s'.owns o = s.owns o)
    (hlive : ∀ q, s'.live q = (s.deconstruct p).live q) : s'.Owned := by
  refine ⟨h.exclusive.release ha hother, fun o ho => ?_⟩
  have hne : o ≠ a := fun hoa => ho (hoa ▸ ha)
  rw [hother o hne] at ho ⊢
  have hother_p : s.owns o ≠ p := fun heq => hne (h.exclusive o a ho (heq.trans hp.symm))
  rw [hlive, live_deconstruct_of_ne s p hother_p]
  exact h.live o ho

/-- A call goes on with the buffer that it owns. -/
theorem Owned.goTo {s s' : State n α} (h : s.Owned) {t : Fin n} {point : Thread α}
    (hpoint : point.owned = (s.threads t).owned) (howns : ∀ o, s'.owns o = s.owns o)
    (hlive : ∀ p, s.live p = true → s'.live p = true) : (s'.goTo t point).Owned := by
  refine h.of_same (fun o => ?_) (fun p _ hp => hlive p hp)
  rw [owns_goTo]
  split
  · rename_i ho
    rw [ho, hpoint]
    rfl
  · exact howns o

/-- A call gets a fresh buffer. -/
theorem Owned.goTo_malloc {s : State n α} (h : s.Owned) {t : Fin n} {point : Thread α} {buf : Nat}
    (hpoint : point.owned = buf) (hbuf : buf ≠ 0) (hfree : s.live buf = false) :
    ((s.malloc buf).goTo t point).Owned := by
  have howns : ∀ o, ((s.malloc buf).goTo t point).owns o =
      if o = .thread t then buf else s.owns o := by
    intro o
    rw [owns_goTo, hpoint]
    rfl
  have hnew : ∀ o, s.owns o ≠ buf := by
    intro o ho
    have hlive := h.live o (ho ▸ hbuf)
    rw [ho, hfree] at hlive
    cases hlive
  refine ⟨?_, fun o ho => ?_⟩
  · refine @Exclusive.acquire _ _ _ s.owns _ h.exclusive (.thread t) ?_ ?_
    · intro o
      rw [howns, if_pos rfl]
      exact hnew o
    · intro o ho
      rw [howns, if_neg ho]
  · rw [howns] at ho ⊢
    show (s.malloc buf).live _ = true
    split
    · exact live_malloc_self s buf
    · rename_i hne
      rw [if_neg hne] at ho
      exact live_malloc_of_live s buf (h.live o ho) hfree

/-- A call exchanges its buffer for that of a cell. -/
theorem Owned.goTo_exchange {s s' : State n α} (h : s.Owned) {t : Fin n} {point : Thread α}
    {cell : Owner n} (hcell : cell ≠ .thread t) (hpoint : point.owned = s.owns cell)
    (hgiven : s'.owns cell = (s.threads t).owned)
    (hother : ∀ o, o ≠ .thread t → o ≠ cell → s'.owns o = s.owns o)
    (hlive : ∀ p, s.live p = true → s'.live p = true) : (s'.goTo t point).Owned := by
  refine @Owned.of_exchange _ _ s _ h (.thread t) cell ?_ ?_ ?_ (fun p _ hp => hlive p hp)
  · rw [owns_goTo, if_pos rfl, hpoint]
  · rw [owns_goTo, if_neg hcell, hgiven]
    rfl
  · intro o ho ho'
    rw [owns_goTo, if_neg ho]
    exact hother o ho ho'

/-- A call deconstructs its buffer and ends. -/
theorem Owned.goTo_deconstruct {s : State n α} (h : s.Owned) {t : Fin n} {p : Nat}
    (hp : (s.threads t).owned = p) : ((s.deconstruct p).goTo t .idle).Owned := by
  refine @Owned.of_deconstruct _ _ s _ h (.thread t) p hp ?_ ?_ (fun _ => rfl)
  · rw [owns_goTo, if_pos rfl]
    rfl
  · intro o ho
    rw [owns_goTo, if_neg ho]
    cases o <;> rfl

/-- `Tick` deconstructs its buffer and ends. -/
theorem Owned.ticker_deconstruct {s : State n α} (h : s.Owned) {p : Nat}
    (hp : s.ticker.owned = p) : Owned { s.deconstruct p with ticker := .idle } := by
  refine @Owned.of_deconstruct _ _ s _ h .ticker p hp rfl ?_ (fun _ => rfl)
  intro o ho
  cases o <;> simp_all [owns, deconstruct]

theorem Owned.record {s : State n α} (h : s.Owned) (events : List Event) :
    (s.record events).Owned :=
  h.of_same (owns_record s events) (fun _ _ hp => hp)

/-- One step keeps the owners apart. -/
theorem Owned.effect {s s' : State n α} (h : s.Owned) (heffect : Effect s s') : s'.Owned := by
  cases heffect with
  | stay => exact h
  | quiet t point howned _ _ => exact h.goTo howned (fun _ => rfl) (fun _ hp => hp)
  | allocate t value buf ht hbuf hfree => exact h.goTo_malloc rfl hbuf hfree
  | construct t value buf ht =>
      refine h.goTo (by rw [ht]; rfl) (fun o => ?_)
        (fun p hp => (live_construct s buf p value).trans hp)
      cases o <;> rfl
  | exchange t buf ht =>
      refine @Owned.goTo_exchange _ _ _ _ h _ _ .lastest (by simp) rfl (by rw [ht]; rfl) ?_
        (fun p hp => (live_exchange s buf p).trans hp)
      intro o _ ho
      cases o <;> simp_all [owns, State.exchange]
  | discard t p ht _ => exact h.goTo_deconstruct (by rw [ht]; rfl)
  | take t ht =>
      refine @Owned.goTo_exchange _ _ _ _ h _ _ .value (by simp) rfl (by rw [ht]; rfl) ?_
        (fun _ hp => hp)
      intro o _ ho
      cases o <;> simp_all [owns]
  | copy t p ht =>
      refine h.goTo (by rw [ht]; rfl) (fun o => ?_) (fun _ hp => hp)
      cases o <;> rfl
  | putBack t p stamp ht hempty _ =>
      have hidle : (Thread.idle : Thread α).owned = s.value := hempty.symm
      refine Owned.record (@Owned.goTo_exchange _ _ s { s with value := p } h t _ .value (by simp)
        hidle (by rw [ht]; rfl) ?_ (fun _ hp => hp)) _
      intro o _ ho
      cases o <;> simp_all [owns]
  | refuse t p stamp ht _ => exact h.goTo (by rw [ht]; rfl) (fun _ => rfl) (fun _ hp => hp)
  | drop t p stamp ht => exact (h.goTo_deconstruct (by rw [ht]; rfl)).record _
  | tickQuiet point howned _ _ _ =>
      refine h.of_same (fun o => ?_) (fun _ _ hp => hp)
      cases o <;> simp [owns, howned]
  | tickTake v ht =>
      refine @Owned.of_exchange _ _ s _ h .ticker .lastest rfl ?_ ?_ (fun _ _ hp => hp)
      · simp [owns, ht, Ticker.owned]
      · intro o ho ho'
        cases o <;> simp_all [owns]
  | publish l ht =>
      refine @Owned.of_exchange _ _ s _ h .ticker .value rfl ?_ ?_ (fun _ _ hp => hp)
      · simp [owns, ht, Ticker.owned, State.record]
      · intro o ho ho'
        cases o <;> simp_all [owns, State.record]
  | tickPutBack l ht hempty =>
      refine @Owned.of_exchange _ _ s _ h .ticker .lastest ?_ ?_ ?_ (fun _ _ hp => hp)
      · exact hempty.symm
      · simp [owns, ht, Ticker.owned]
      · intro o ho ho'
        cases o <;> simp_all [owns]
  | notify l p ht =>
      refine h.of_same (fun o => ?_) (fun _ _ hp => hp)
      cases o <;> simp [owns, ht, Ticker.owned, read, State.record]
  | tickDrop p ht => exact h.ticker_deconstruct (by rw [ht]; rfl)
  | tickDiscard p ht _ => exact h.ticker_deconstruct (by rw [ht]; rfl)

end State

end Utilpp.Storage

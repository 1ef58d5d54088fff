import Utilpp.Storage.Owners

/-!
# Publication of values

Which buffer `Value` may hold (`Published`), what happened to the buffers (`Recorded`) and what
`GetValue` returned (`Returned`), as invariants of every step but one: a `GetValue` call that puts
its buffer back into an empty `Value` while another call holds one that was set later.
`values_kept` is the result over whole runs; `older_value_put_back` is a run with that step.
-/

namespace Utilpp.Storage

open Lib

variable {n : Nat} {α : Type*}

namespace State

/-! ## The published value -/

/-- `Value` is empty or holds the buffer that was published last; while it is empty a `GetValue`
call holds that buffer, and all others that such calls hold were set earlier. What is still to be
published was set later. -/
structure Published (s : State n α) : Prop where
  value_newest : s.value = 0 ∨ s.value = s.newest
  newest_held : s.value = 0 → s.newest ≠ 0 → ∃ t, (s.threads t).held = s.newest
  held_older : ∀ t, (s.threads t).held = 0 ∨ (s.threads t).held = s.newest ∨
    s.stampAt (s.threads t).held < s.stampAt s.newest
  lastest_newer : s.lastest ≠ 0 → s.stampAt s.newest < s.stampAt s.lastest
  pending_newer : s.ticker.pending ≠ 0 → s.stampAt s.newest < s.stampAt s.ticker.pending ∧
    (s.lastest ≠ 0 → s.stampAt s.ticker.pending < s.stampAt s.lastest)
  stamp_le : ∀ p, s.stampAt p ≤ s.sets
  stamp_zero : s.stampAt 0 = 0
  notified_newest : ∀ l ∈ s.ticker.notified, l = s.newest
  thread_valid : ∀ t, (s.threads t).Valid
  ticker_valid : s.ticker.Valid

theorem threads_goTo (s : State n α) (t : Fin n) (point : Thread α) (u : Fin n) :
    (s.goTo t point).threads u = if u = t then point else s.threads u :=
  Function.update_apply _ _ _ _

/-- The buffer published last is owned by `Value` or by a `GetValue` call that holds it. -/
theorem Published.newest_owner {s : State n α} (h : s.Published) (hnewest : s.newest ≠ 0) :
    ∃ o, s.owns o = s.newest ∧
      (o = .value ∨ ∃ t, o = .thread t ∧ (s.threads t).held = s.newest) := by
  cases h.value_newest with
  | inr hvalue => exact ⟨.value, hvalue, .inl rfl⟩
  | inl hempty =>
      obtain ⟨t, ht⟩ := h.newest_held hempty hnewest
      refine ⟨.thread t, ?_, .inr ⟨t, rfl, ht⟩⟩
      cases (s.threads t).held_owned with
      | inl hzero => exact absurd (hzero ▸ ht).symm hnewest
      | inr howned => exact howned.symm.trans ht

/-- Whoever else owns something does not own the buffer published last. -/
theorem Published.owns_ne_newest {s : State n α} (h : s.Published) (howned : s.Owned) {o : Owner n}
    (ho : s.owns o ≠ 0) (hvalue : o ≠ .value)
    (hheld : ∀ t, o = .thread t → (s.threads t).held = 0) : s.owns o ≠ s.newest := by
  intro heq
  obtain ⟨o', ho', hcases⟩ := h.newest_owner (heq ▸ ho)
  have hsame : o = o' := howned.exclusive o o' ho (heq.trans ho'.symm)
  cases hcases with
  | inl hv => exact hvalue (hsame.trans hv)
  | inr ht =>
      obtain ⟨t, ht, hnewest⟩ := ht
      rw [hheld t (hsame.trans ht)] at hnewest
      exact ho (heq.trans hnewest.symm)

theorem Published.newest_live {s : State n α} (h : s.Published) (howned : s.Owned) :
    s.newest = 0 ∨ s.live s.newest = true := by
  by_cases hnewest : s.newest = 0
  · exact .inl hnewest
  · obtain ⟨o, ho, -⟩ := h.newest_owner hnewest
    exact .inr (ho ▸ howned.live o (ho ▸ hnewest))

theorem Owned.held_live {s : State n α} (howned : s.Owned) (t : Fin n) :
    (s.threads t).held = 0 ∨ s.live (s.threads t).held = true := by
  cases (s.threads t).held_owned with
  | inl hzero => exact .inl hzero
  | inr heq =>
      by_cases hzero : (s.threads t).held = 0
      · exact .inl hzero
      · rw [heq] at hzero ⊢
        exact .inr (howned.live (.thread t) hzero)

theorem Owned.pending_live {s : State n α} (howned : s.Owned) :
    s.ticker.pending = 0 ∨ s.live s.ticker.pending = true := by
  cases s.ticker.pending_owned with
  | inl hzero => exact .inl hzero
  | inr heq =>
      by_cases hzero : s.ticker.pending = 0
      · exact .inl hzero
      · rw [heq] at hzero ⊢
        exact .inr (howned.live .ticker hzero)

theorem Owned.lastest_live {s : State n α} (howned : s.Owned) :
    s.lastest = 0 ∨ s.live s.lastest = true := by
  by_cases hzero : s.lastest = 0
  · exact .inl hzero
  · exact .inr (howned.live .lastest hzero)

/-- A step that leaves the cells and the stamps of live buffers alone, and in which a call at most
gives up what it holds while `Value` is not empty. -/
theorem Published.of_same {s s' : State n α} (h : s.Published) (howned : s.Owned)
    (hvalue : s'.value = s.value) (hlastest : s'.lastest = s.lastest)
    (hnewest : s'.newest = s.newest)
    (hheld : ∀ u, (s'.threads u).held = (s.threads u).held ∨
      (s'.threads u).held = 0 ∧ s.value ≠ 0)
    (hpending : s'.ticker.pending = 0 ∨ s'.ticker.pending = s.ticker.pending)
    (hnotified : s'.ticker.notified = none ∨ s'.ticker.notified = s.ticker.notified)
    (hstamp : ∀ p, p = 0 ∨ s.live p = true → s'.stampAt p = s.stampAt p)
    (hle : ∀ p, s'.stampAt p ≤ s'.sets) (hthreads : ∀ u, (s'.threads u).Valid)
    (hticker : s'.ticker.Valid) : s'.Published := by
  have hstamp_newest := hstamp _ (h.newest_live howned)
  have hstamp_lastest := hstamp _ howned.lastest_live
  refine ⟨?_, ?_, ?_, ?_, ?_, hle, ?_, ?_, hthreads, hticker⟩
  · rw [hvalue, hnewest]
    exact h.value_newest
  · rw [hvalue, hnewest]
    intro hempty hne
    obtain ⟨t, ht⟩ := h.newest_held hempty hne
    cases hheld t with
    | inl hsame => exact ⟨t, hsame.trans ht⟩
    | inr hgone => exact absurd hempty hgone.2
  · intro u
    rw [hnewest, hstamp_newest]
    cases hheld u with
    | inl hsame =>
        rw [hsame, hstamp _ (howned.held_live u)]
        exact h.held_older u
    | inr hgone => exact .inl hgone.1
  · rw [hlastest, hnewest, hstamp_newest, hstamp_lastest]
    exact h.lastest_newer
  · cases hpending with
    | inl hzero => exact fun hne => absurd hzero hne
    | inr hsame =>
        rw [hsame, hlastest, hnewest, hstamp_newest, hstamp_lastest,
          hstamp _ howned.pending_live]
        exact h.pending_newer
  · rw [hstamp 0 (.inl rfl)]
    exact h.stamp_zero
  · rw [hnewest]
    cases hnotified with
    | inl hnone => simp [hnone]
    | inr hsame =>
        rw [hsame]
        exact h.notified_newest

/-- Nobody else owns the buffer that `SetValue` is about to exchange. -/
theorem Owned.exchanging_apart {s : State n α} (howned : s.Owned) {t : Fin n}
    {buf previousNew : Nat} (ht : s.threads t = .exchanging buf previousNew) (hbuf : buf ≠ 0)
    {o : Owner n} (ho : o ≠ .thread t) : s.owns o ≠ buf := by
  have hmine : s.owns (.thread t) = buf := by
    rw [owns, ht]
    rfl
  exact fun heq => ho (howned.exclusive o (.thread t) (heq ▸ hbuf) (heq.trans hmine.symm))

theorem Published.newest_ne_exchanging {s : State n α} (h : s.Published) (howned : s.Owned)
    {t : Fin n} {buf previousNew : Nat} (ht : s.threads t = .exchanging buf previousNew)
    (hbuf : buf ≠ 0) : s.newest ≠ buf := by
  have hmine : s.owns (.thread t) = buf := by
    rw [owns, ht]
    rfl
  refine fun heq => h.owns_ne_newest howned (hmine ▸ hbuf) (by simp) ?_ (hmine.trans heq.symm)
  intro u hu
  cases hu
  rw [ht]
  rfl

/-- The points of the threads after one of them went on. -/
theorem goTo_valid {s : State n α} (h : ∀ u, (s.threads u).Valid) {t : Fin n} {point : Thread α}
    (hpoint : point.Valid) (u : Fin n) : ((s.goTo t point).threads u).Valid := by
  rw [threads_goTo]
  split
  · exact hpoint
  · exact h u

theorem held_update {threads : Fin n → Thread α} {t : Fin n} {old : Thread α}
    (ht : threads t = old) (point : Thread α) (hpoint : point.held = old.held) (u : Fin n) :
    (Function.update threads t point u).held = (threads u).held := by
  by_cases hu : u = t
  · rw [hu, Function.update_self, ht, hpoint]
  · rw [Function.update_of_ne hu]

/-- `SetValue` puts its buffer into `LastestValue`. -/
theorem Published.exchange {s : State n α} (h : s.Published) (howned : s.Owned) {t : Fin n}
    {buf : Nat} (ht : s.threads t = .exchanging buf s.lastest) (hbuf : buf ≠ 0) :
    ((s.exchange buf).goTo t (.discarding s.lastest)).Published := by
  have hother := fun {o} ho => @Owned.exchanging_apart _ _ s howned t buf _ ht hbuf o ho
  have hnewest : s.newest ≠ buf := h.newest_ne_exchanging howned ht hbuf
  have hheld : ∀ u, (s.threads u).held ≠ buf := by
    intro u heq
    cases (s.threads u).held_owned with
    | inl hzero => exact hbuf (heq.symm.trans hzero)
    | inr howner =>
        have hu : u = t := by
          by_contra hne
          exact hother (o := .thread u) (by simpa using hne) (howner.symm.trans heq)
        rw [hu, ht] at heq
        exact hbuf heq.symm
  have hpending : s.ticker.pending ≠ buf := by
    intro heq
    cases s.ticker.pending_owned with
    | inl hzero => exact hbuf (heq.symm.trans hzero)
    | inr howner => exact hother (o := .ticker) (by simp) (howner.symm.trans heq)
  have hstamp : ∀ {p}, p ≠ buf → (s.exchange buf).stampAt p = s.stampAt p :=
    fun hp => stampAt_exchange_of_ne s buf hp
  have hself : (s.exchange buf).stampAt buf = s.sets + 1 := by
    have hlive := howned.live (.thread t) (by rw [owns, ht]; exact hbuf)
    rw [owns, ht] at hlive
    exact stampAt_exchange_self s hlive
  have hlt : ∀ p, s.stampAt p < s.sets + 1 := fun p => Nat.lt_succ_of_le (h.stamp_le p)
  have hsame := fun u => held_update ht (.discarding s.lastest) rfl u
  refine ⟨h.value_newest, ?_, ?_, ?_, ?_, ?_, ?_, h.notified_newest,
    goTo_valid h.thread_valid trivial, h.ticker_valid⟩
  · intro hempty hne
    obtain ⟨u, hu⟩ := h.newest_held hempty hne
    exact ⟨u, (hsame u).trans hu⟩
  · intro u
    show (Function.update s.threads t _ u).held = 0 ∨ (Function.update s.threads t _ u).held = _ ∨
      (s.exchange buf).stampAt (Function.update s.threads t _ u).held <
        (s.exchange buf).stampAt s.newest
    rw [hsame u, hstamp (hheld u), hstamp hnewest]
    exact h.held_older u
  · intro _
    show (s.exchange buf).stampAt s.newest < (s.exchange buf).stampAt buf
    rw [hstamp hnewest, hself]
    exact hlt _
  · intro hne
    show (s.exchange buf).stampAt s.newest < (s.exchange buf).stampAt s.ticker.pending ∧
      (_ → (s.exchange buf).stampAt s.ticker.pending < (s.exchange buf).stampAt buf)
    rw [hstamp hnewest, hstamp hpending, hself]
    exact ⟨(h.pending_newer hne).1, fun _ => hlt _⟩
  · intro p
    show (s.exchange buf).stampAt p ≤ s.sets + 1
    by_cases hp : p = buf
    · rw [hp, hself]
    · rw [hstamp hp]
      exact (hlt p).le
  · exact (hstamp hbuf.symm).trans h.stamp_zero

/-- `GetValue` takes the buffer out of `Value`. -/
theorem Published.take {s : State n α} (h : s.Published) (t : Fin n) (hvalue : s.value ≠ 0) :
    ({ s with value := 0 }.goTo t (.copying s.value)).Published := by
  have hnewest : s.value = s.newest := h.value_newest.resolve_left hvalue
  have hthreads : ∀ u, ({ s with value := 0 }.goTo t (.copying s.value)).threads u =
      if u = t then .copying s.value else s.threads u := fun u => threads_goTo _ t _ u
  refine ⟨.inl rfl, ?_, ?_, h.lastest_newer, h.pending_newer, h.stamp_le, h.stamp_zero,
    h.notified_newest, goTo_valid h.thread_valid hvalue, h.ticker_valid⟩
  · intro _ _
    refine ⟨t, ?_⟩
    rw [hthreads, if_pos rfl]
    exact hnewest
  · intro u
    rw [hthreads]
    split
    · exact .inr (.inl hnewest)
    · exact h.held_older u

/-- `GetValue` puts its buffer back into an empty `Value`, and no call holds one that was set
later. -/
theorem Published.putBack {s : State n α} (h : s.Published) {t : Fin n} {p stamp : Nat}
    (ht : s.threads t = .puttingBack p stamp) (hp : p ≠ 0) (hempty : s.value = 0)
    (hlatest : ∀ u, s.stampAt (s.threads u).held ≤ s.stampAt p) :
    (({ s with value := p }.goTo t .idle).record [.returned t stamp]).Published := by
  have hholds : (s.threads t).held = p := by
    rw [ht]
    rfl
  have holder := h.held_older t
  rw [hholds] at holder
  -- the holder of the newest buffer does not hold a later one than `p`, so that it is `p`
  have hnewest : p = s.newest := by
    have hlt : ¬ s.stampAt p < s.stampAt s.newest := by
      intro hlt
      by_cases hzero : s.newest = 0
      · rw [hzero, h.stamp_zero] at hlt
        exact Nat.not_lt_zero _ hlt
      · obtain ⟨u, hu⟩ := h.newest_held hempty hzero
        have hle := hlatest u
        rw [hu] at hle
        omega
    exact (holder.resolve_left hp).resolve_right hlt
  refine ⟨.inr hnewest, fun hzero => absurd hzero hp, ?_, h.lastest_newer, h.pending_newer,
    h.stamp_le, h.stamp_zero, h.notified_newest, goTo_valid h.thread_valid trivial, h.ticker_valid⟩
  intro u
  show ((goTo { s with value := p } t .idle).threads u).held = 0 ∨ _ ∨ _
  rw [threads_goTo]
  split
  · exact .inl rfl
  · rename_i hu
    have hother := h.held_older u
    simpa [record, goTo, hu, stampAt] using hother

/-- `Tick` publishes the buffer that it took from `LastestValue`. -/
theorem Published.publish {s : State n α} (h : s.Published) {l : Nat}
    (ht : s.ticker = .publishing s.value l) (hl : l ≠ 0) :
    ({ s with value := l, newest := l, ticker := .notifying l s.value }.record
      [.published (s.stampAt l)]).Published := by
  have hnewer := h.pending_newer (by rw [ht]; exact hl)
  rw [ht] at hnewer
  refine ⟨.inr rfl, fun hzero => absurd hzero hl, ?_, hnewer.2,
    fun hne => absurd rfl hne, h.stamp_le, h.stamp_zero, ?_, h.thread_valid, hl⟩
  · intro u
    show (s.threads u).held = 0 ∨ (s.threads u).held = l ∨
      s.stampAt (s.threads u).held < s.stampAt l
    have hlt : s.stampAt s.newest < s.stampAt l := hnewer.1
    rcases h.held_older u with hzero | hsame | holder
    · exact .inl hzero
    · exact .inr (.inr (hsame ▸ hlt))
    · exact .inr (.inr (holder.trans hlt))
  · intro k hk
    exact (Option.some.inj hk).symm

/-- One step keeps the published value up to date. -/
theorem Published.effect {s s' : State n α} (h : s.Published) (howned : s.Owned)
    (heffect : Effect s s') : s'.Published := by
  have hvalid := h.thread_valid
  have hpoint : ∀ {t point}, s.threads t = point → point.Valid := by
    intro t point ht
    exact ht ▸ hvalid t
  have hticker : ∀ {point}, s.ticker = point → point.Valid := by
    intro point ht
    exact ht ▸ h.ticker_valid
  cases heffect with
  | stay => exact h
  | quiet t point howned' htaken hpoint =>
      refine h.of_same howned rfl rfl rfl (fun u => .inl (held_update rfl point ?_ u)) (.inr rfl)
        (.inr rfl) (fun _ _ => rfl) h.stamp_le (goTo_valid hvalid (hpoint (hvalid t)))
        h.ticker_valid
      rw [Thread.held_of_taken htaken.1, Thread.held_of_taken htaken.2]
  | allocate t value buf ht hbuf hfree =>
      refine h.of_same howned rfl rfl rfl
        (fun u => .inl (held_update ht (.constructing buf value) rfl u)) (.inr rfl) (.inr rfl)
        ?_ ?_ (goTo_valid hvalid hbuf) h.ticker_valid
      · intro p hp
        refine stampAt_malloc_of_ne s buf ?_
        rintro rfl
        cases hp with
        | inl hzero => exact hbuf hzero
        | inr hlive => exact absurd hlive (by simp [hfree])
      · intro p
        by_cases hp : p = buf
        · subst hp
          simp [stampAt, malloc, goTo]
        · exact (stampAt_malloc_of_ne s buf hp).trans_le (h.stamp_le p)
  | construct t value buf ht =>
      have hbuf : buf ≠ 0 := hpoint ht
      exact h.of_same howned rfl rfl rfl (fun u => .inl (held_update ht (.loading buf) rfl u))
        (.inr rfl) (.inr rfl) (fun p _ => stampAt_construct s buf p value)
        (fun p => (stampAt_construct s buf p value).trans_le (h.stamp_le p))
        (goTo_valid hvalid hbuf) h.ticker_valid
  | exchange t buf ht => exact h.exchange howned ht (hpoint ht)
  | discard t p ht _ =>
      exact h.of_same howned rfl rfl rfl (fun u => .inl (held_update ht .idle rfl u)) (.inr rfl)
        (.inr rfl) (fun q _ => stampAt_deconstruct s p q)
        (fun q => (stampAt_deconstruct s p q).trans_le (h.stamp_le q))
        (goTo_valid hvalid trivial) h.ticker_valid
  | take t ht => exact h.take t (hpoint ht)
  | copy t p ht =>
      have hp : p ≠ 0 := hpoint ht
      exact h.of_same howned rfl rfl rfl (fun u => .inl (held_update ht (.puttingBack p _) rfl u))
        (.inr rfl) (.inr rfl) (fun _ _ => rfl) h.stamp_le (goTo_valid hvalid hp) h.ticker_valid
  | putBack t p stamp ht hempty hlatest => exact h.putBack ht (hpoint ht) hempty hlatest
  | refuse t p stamp ht hfull =>
      have hp : p ≠ 0 := hpoint ht
      refine h.of_same howned rfl rfl rfl (fun u => ?_) (.inr rfl)
        (.inr rfl) (fun _ _ => rfl) h.stamp_le (goTo_valid hvalid hp) h.ticker_valid
      rw [threads_goTo]
      split
      · exact .inr ⟨rfl, hfull⟩
      · exact .inl rfl
  | drop t p stamp ht =>
      exact h.of_same howned rfl rfl rfl (fun u => .inl (held_update ht .idle rfl u)) (.inr rfl)
        (.inr rfl) (fun q _ => stampAt_deconstruct s p q)
        (fun q => (stampAt_deconstruct s p q).trans_le (h.stamp_le q))
        (goTo_valid hvalid trivial) h.ticker_valid
  | tickQuiet point _ hpending hnotified hvalid' =>
      exact h.of_same howned rfl rfl rfl (fun _ => .inl rfl) hpending (.inl hnotified)
        (fun _ _ => rfl) h.stamp_le hvalid (hvalid' h.ticker_valid)
  | tickTake v ht =>
      have hlastest : s.lastest ≠ 0 := hticker ht
      exact ⟨h.value_newest, h.newest_held, h.held_older, fun hne => absurd rfl hne,
        fun _ => ⟨h.lastest_newer hlastest, fun hne => absurd rfl hne⟩, h.stamp_le, h.stamp_zero,
        by simp [Ticker.notified], hvalid, hlastest⟩
  | publish l ht => exact h.publish ht (hticker ht)
  | tickPutBack l ht hempty =>
      have hl : l ≠ 0 := hticker ht
      have hnewer := h.pending_newer (by rw [ht]; exact hl)
      rw [ht] at hnewer
      exact ⟨h.value_newest, h.newest_held, h.held_older, fun _ => hnewer.1,
        fun hne => absurd rfl hne, h.stamp_le, h.stamp_zero, by simp [Ticker.notified], hvalid,
        trivial⟩
  | notify l p ht =>
      exact h.of_same howned rfl rfl rfl (fun _ => .inl rfl) (.inl rfl) (.inl rfl)
        (fun _ _ => rfl) h.stamp_le hvalid trivial
  | tickDrop p ht | tickDiscard p ht _ =>
      exact h.of_same howned rfl rfl rfl (fun _ => .inl rfl) (.inl rfl) (.inl rfl)
        (fun q _ => stampAt_deconstruct s p q)
        (fun q => (stampAt_deconstruct s p q).trans_le (h.stamp_le q)) hvalid trivial

end State

/-! ## What was recorded -/

/-- A buffer that was deconstructed is neither deconstructed nor read later on. -/
def SafeLog (log : List Event) : Prop :=
  log.Pairwise fun e f => ∀ k, e = .deconstructed k → f ≠ .deconstructed k ∧ f ≠ .read k

namespace State

/-- Buffers are told apart by their serials, and what is not deconstructed was not recorded as
deconstructed. -/
structure Recorded (s : State n α) : Prop where
  heap_zero : s.heap 0 = none
  serial_lt : ∀ {p b}, s.heap p = some b → b.serial < s.allocated
  serial_inj : ∀ {p q b c}, s.heap p = some b → s.heap q = some c → b.serial = c.serial → p = q
  alive : ∀ {p b}, s.heap p = some b → b.live = true → .deconstructed b.serial ∉ s.log
  dead_lt : ∀ {k}, .deconstructed k ∈ s.log → k < s.allocated
  safe : SafeLog s.log

theorem exists_of_live {s : State n α} {p : Nat} (h : s.live p = true) :
    ∃ b, s.heap p = some b ∧ b.live = true := by
  cases hp : s.heap p with
  | none => simp [live, hp] at h
  | some b => exact ⟨b, rfl, by simpa [live, hp] using h⟩

/-- A step that deconstructs nothing, and reads only what was not deconstructed. -/
theorem Recorded.of_events {s s' : State n α} (h : s.Recorded) {events : List Event}
    (hheap : ∀ {p b'}, s'.heap p = some b' →
      ∃ b, s.heap p = some b ∧ b.serial = b'.serial ∧ b.live = b'.live)
    (hallocated : s'.allocated = s.allocated) (hlog : s'.log = s.log ++ events)
    (hdead : ∀ k, .deconstructed k ∉ events)
    (hread : ∀ k, .read k ∈ events → .deconstructed k ∉ s.log) : s'.Recorded := by
  have hmem : ∀ k, .deconstructed k ∈ s'.log ↔ .deconstructed k ∈ s.log := by
    intro k
    rw [hlog, List.mem_append]
    exact ⟨fun hk => hk.resolve_right (hdead k), .inl⟩
  refine ⟨?_, ?_, ?_, ?_, ?_, ?_⟩
  · cases hzero : s'.heap 0 with
    | none => rfl
    | some b' =>
        obtain ⟨b, hb, -⟩ := hheap hzero
        rw [h.heap_zero] at hb
        cases hb
  · intro p b' hb'
    obtain ⟨b, hb, hserial, -⟩ := hheap hb'
    rw [hallocated, ← hserial]
    exact h.serial_lt hb
  · intro p q b' c' hb' hc' heq
    obtain ⟨b, hb, hserial, -⟩ := hheap hb'
    obtain ⟨c, hc, hserial', -⟩ := hheap hc'
    exact h.serial_inj hb hc (by rw [hserial, hserial', heq])
  · intro p b' hb' hlive
    obtain ⟨b, hb, hserial, hlive'⟩ := hheap hb'
    rw [hmem, ← hserial]
    exact h.alive hb (hlive'.trans hlive)
  · intro k hk
    rw [hallocated]
    exact h.dead_lt ((hmem k).mp hk)
  · rw [hlog]
    refine List.pairwise_append.mpr ⟨h.safe, ?_, ?_⟩
    · refine List.pairwise_iff_forall_sublist.mpr ?_
      intro e f hef k hk
      exact absurd (hef.mem (by simp [hk])) (hdead k)
    · intro e he f hf k hk
      refine ⟨fun hf' => hdead k (hf' ▸ hf), fun hf' => ?_⟩
      exact hread k (hf' ▸ hf) (hk ▸ he)

/-- A step that records no read and leaves the memory alone. -/
theorem Recorded.of_quiet {s s' : State n α} (h : s.Recorded) {events : List Event}
    (hheap : s'.heap = s.heap) (hallocated : s'.allocated = s.allocated)
    (hlog : s'.log = s.log ++ events)
    (hevents : ∀ e ∈ events, ∀ k, e ≠ .deconstructed k ∧ e ≠ .read k) : s'.Recorded := by
  refine h.of_events (fun hb' => ⟨_, hheap ▸ hb', rfl, rfl⟩) hallocated hlog ?_ ?_
  · exact fun k hk => (hevents _ hk k).1 rfl
  · exact fun k hk => absurd rfl (hevents _ hk k).2

/-- A step in which the owner of `p` deconstructs it. -/
theorem Recorded.of_deconstruct {s s' : State n α} (h : s.Recorded) {p : Nat}
    {events : List Event} (hp : s.live p = true) (hheap : s'.heap = (s.deconstruct p).heap)
    (hallocated : s'.allocated = s.allocated) (hlog : s'.log = (s.deconstruct p).log ++ events)
    (hevents : ∀ e ∈ events, ∀ k, e ≠ .deconstructed k ∧ e ≠ .read k) : s'.Recorded := by
  obtain ⟨b, hb, hlive⟩ := exists_of_live hp
  suffices hmain : (s.deconstruct p).Recorded from
    hmain.of_quiet hheap hallocated hlog hevents
  have hlog' : (s.deconstruct p).log = s.log ++ [.deconstructed b.serial] := by
    simp [deconstruct, serials, hb]
  have hheap' : ∀ {q c'}, (s.deconstruct p).heap q = some c' →
      ∃ c, s.heap q = some c ∧ c.serial = c'.serial ∧
        (c'.live = true → c.live = true ∧ q ≠ p) := by
    intro q c' hc'
    by_cases hq : q = p
    · subst hq
      simp only [deconstruct, Function.update_self, hb, Option.map_some, Option.some.injEq] at hc'
      subst hc'
      exact ⟨b, hb, rfl, by simp⟩
    · simp only [deconstruct, Function.update_of_ne hq] at hc'
      exact ⟨c', hc', rfl, fun hlive => ⟨hlive, hq⟩⟩
  refine ⟨?_, ?_, ?_, ?_, ?_, ?_⟩
  · cases hzero : (s.deconstruct p).heap 0 with
    | none => rfl
    | some c' =>
        obtain ⟨c, hc, -⟩ := hheap' hzero
        rw [h.heap_zero] at hc
        cases hc
  · intro q c' hc'
    obtain ⟨c, hc, hserial, -⟩ := hheap' hc'
    exact hserial ▸ h.serial_lt hc
  · intro q r c' d' hc' hd' heq
    obtain ⟨c, hc, hserial, -⟩ := hheap' hc'
    obtain ⟨d, hd, hserial', -⟩ := hheap' hd'
    exact h.serial_inj hc hd (by rw [hserial, hserial', heq])
  · intro q c' hc' hlive'
    obtain ⟨c, hc, hserial, hother⟩ := hheap' hc'
    obtain ⟨hlive'', hne⟩ := hother hlive'
    rw [hlog', List.mem_append, List.mem_singleton, ← hserial]
    rintro (hk | hk)
    · exact h.alive hc hlive'' hk
    · exact hne (h.serial_inj hc hb (by simpa using hk))
  · intro k hk
    rw [hlog', List.mem_append, List.mem_singleton] at hk
    cases hk with
    | inl hk => exact h.dead_lt hk
    | inr hk =>
        cases hk
        exact h.serial_lt hb
  · rw [hlog']
    refine List.pairwise_append.mpr ⟨h.safe, List.pairwise_singleton _ _, ?_⟩
    intro e he f hf k hk
    cases List.mem_singleton.mp hf
    refine ⟨fun heq => ?_, by simp⟩
    cases heq
    exact h.alive hb hlive (hk ▸ he)

theorem Recorded.malloc {s : State n α} (h : s.Recorded) {buf : Nat} (hbuf : buf ≠ 0) :
    (s.malloc buf).Recorded := by
  have hheap : ∀ {p b}, (s.malloc buf).heap p = some b →
      (p = buf ∧ b.serial = s.allocated) ∨ (p ≠ buf ∧ s.heap p = some b) := by
    intro p b hb
    by_cases hp : p = buf
    · subst hp
      simp only [State.malloc, Function.update_self, Option.some.injEq] at hb
      exact .inl ⟨rfl, by rw [← hb]⟩
    · simp only [State.malloc, Function.update_of_ne hp] at hb
      exact .inr ⟨hp, hb⟩
  refine ⟨?_, ?_, ?_, ?_, ?_, h.safe⟩
  · simpa [State.malloc, Function.update_of_ne hbuf.symm] using h.heap_zero
  · intro p b hb
    show b.serial < s.allocated + 1
    rcases hheap hb with ⟨-, hserial⟩ | ⟨-, hb⟩
    · omega
    · exact Nat.lt_succ_of_lt (h.serial_lt hb)
  · intro p q b c hb hc heq
    rcases hheap hb with ⟨hp, hserial⟩ | ⟨hp, hb⟩ <;>
      rcases hheap hc with ⟨hq, hserial'⟩ | ⟨hq, hc⟩
    · rw [hp, hq]
    · have := h.serial_lt hc
      omega
    · have := h.serial_lt hb
      omega
    · exact h.serial_inj hb hc heq
  · intro p b hb hlive
    rcases hheap hb with ⟨-, hserial⟩ | ⟨-, hb⟩
    · intro hk
      have := h.dead_lt hk
      omega
    · exact h.alive hb hlive
  · intro k hk
    exact Nat.lt_succ_of_lt (h.dead_lt hk)

/-- A read of a buffer that is not deconstructed. -/
theorem Recorded.read {s : State n α} (h : s.Recorded) {p : Nat} (hp : p = 0 ∨ s.live p = true) :
    (s.read p).Recorded := by
  refine h.of_events (fun hb => ⟨_, hb, rfl, rfl⟩) rfl rfl (by simp) ?_
  intro k hk
  simp only [serials, List.mem_map, Event.read.injEq, Option.mem_toList,
    Option.map_eq_some_iff] at hk
  obtain ⟨serial, ⟨b, hb, rfl⟩, rfl⟩ := hk
  cases hp with
  | inl hzero =>
      rw [hzero, h.heap_zero] at hb
      cases hb
  | inr hlive =>
      obtain ⟨c, hc, hlive⟩ := exists_of_live hlive
      rw [hb] at hc
      cases hc
      exact h.alive hb hlive

/-- One step keeps the record of buffers. -/
theorem Recorded.effect {s s' : State n α} (h : s.Recorded) (howned : s.Owned)
    (hpub : s.Published) (heffect : Effect s s') : s'.Recorded := by
  have hlive : ∀ {t point}, s.threads t = point → point.owned ≠ 0 → s.live point.owned = true := by
    intro t point ht hne
    subst ht
    exact howned.live (.thread t) hne
  have htick : ∀ {point}, s.ticker = point → point.owned ≠ 0 → s.live point.owned = true := by
    intro point ht hne
    subst ht
    exact howned.live .ticker hne
  have hvalid : ∀ {t point}, s.threads t = point → point.Valid := by
    intro t point ht
    exact ht ▸ hpub.thread_valid t
  cases heffect with
  | stay => exact h
  | quiet t point _ _ _ => exact h.of_quiet rfl rfl (List.append_nil _).symm (by simp)
  | allocate t value buf ht hbuf hfree =>
      exact (h.malloc hbuf).of_quiet rfl rfl (List.append_nil _).symm (by simp)
  | construct t value buf ht =>
      refine h.of_events ?_ rfl (List.append_nil _).symm (by simp) (by simp)
      intro p b' hb'
      by_cases hp : p = buf
      · subst hp
        simp only [goTo, State.construct, Function.update_self, Option.map_eq_some_iff] at hb'
        obtain ⟨b, hb, rfl⟩ := hb'
        exact ⟨b, hb, rfl, rfl⟩
      · simp only [goTo, State.construct, Function.update_of_ne hp] at hb'
        exact ⟨b', hb', rfl, rfl⟩
  | exchange t buf ht =>
      refine h.of_events ?_ rfl (List.append_nil _).symm (by simp) (by simp)
      intro p b' hb'
      by_cases hp : p = buf
      · subst hp
        simp only [goTo, State.exchange, Function.update_self, Option.map_eq_some_iff] at hb'
        obtain ⟨b, hb, rfl⟩ := hb'
        exact ⟨b, hb, rfl, rfl⟩
      · simp only [goTo, State.exchange, Function.update_of_ne hp] at hb'
        exact ⟨b', hb', rfl, rfl⟩
  | discard t p ht hp =>
      exact h.of_deconstruct (hlive ht hp) rfl rfl (List.append_nil _).symm (by simp)
  | take t ht => exact h.of_quiet rfl rfl (List.append_nil _).symm (by simp)
  | copy t p ht =>
      have hp : p ≠ 0 := hvalid ht
      exact (h.read (.inr (hlive ht hp))).of_quiet rfl rfl (List.append_nil _).symm (by simp)
  | putBack t p stamp ht _ _ => exact h.of_quiet rfl rfl rfl (by simp)
  | refuse t p stamp ht _ => exact h.of_quiet rfl rfl (List.append_nil _).symm (by simp)
  | drop t p stamp ht =>
      have hp : p ≠ 0 := hvalid ht
      exact h.of_deconstruct (hlive ht hp) rfl rfl rfl (by simp)
  | tickQuiet point _ _ _ _ => exact h.of_quiet rfl rfl (List.append_nil _).symm (by simp)
  | tickTake v ht => exact h.of_quiet rfl rfl (List.append_nil _).symm (by simp)
  | publish l ht => exact h.of_quiet rfl rfl rfl (by simp)
  | tickPutBack l ht _ => exact h.of_quiet rfl rfl (List.append_nil _).symm (by simp)
  | notify l p ht =>
      have hl : l = s.newest := hpub.notified_newest l (by rw [ht]; rfl)
      have hread : (s.read l).Recorded := h.read (hl ▸ hpub.newest_live howned)
      have hread' : ((s.read l).read p).Recorded := by
        refine hread.read ?_
        by_cases hp : p = 0
        · exact .inl hp
        · exact .inr (htick ht hp)
      exact hread'.of_quiet rfl rfl (List.append_nil _).symm (by simp)
  | tickDrop l ht =>
      have hl : l ≠ 0 := by
        have := hpub.ticker_valid
        rw [ht] at this
        exact this
      exact h.of_deconstruct (htick ht hl) rfl rfl (List.append_nil _).symm (by simp)
  | tickDiscard p ht hp =>
      exact h.of_deconstruct (htick ht hp) rfl rfl (List.append_nil _).symm (by simp)

end State

/-! ## What was returned -/

/-- A call of `GetValue` does not return a value set earlier than one that an earlier call of the
same thread returned. -/
def NeverBack (log : List Event) : Prop :=
  log.Pairwise fun e f => ∀ t k m, e = .returned t k → f = .returned t m → k ≤ m

namespace State

/-- No value given out was set later than the one published last, and the value that a `GetValue`
call has taken out was not set before one that its thread returned. -/
structure Returned (s : State n α) : Prop where
  taken_le : ∀ t, s.stampAt (s.threads t).taken ≤ s.stampAt s.newest
  copied : ∀ {t p stamp}, s.threads t = .puttingBack p stamp ∨ s.threads t = .dropping p stamp →
    stamp = s.stampAt p
  returned_le : ∀ {t k}, .returned t k ∈ s.log → k ≤ s.stampAt s.newest
  returned_taken : ∀ {t : Fin n} {k}, .returned t k ∈ s.log → (s.threads t).taken ≠ 0 →
    k ≤ s.stampAt (s.threads t).taken
  published_le : ∀ {k}, .published k ∈ s.log → k ≤ s.stampAt s.newest
  back : NeverBack s.log

/-- A step that gives out nothing. -/
theorem Returned.of_same {s s' : State n α} (h : s.Returned) {events : List Event}
    (hzero : s'.stampAt 0 = 0) (hnewest : s'.stampAt s'.newest = s.stampAt s.newest)
    (htaken : ∀ u, (s'.threads u).taken = 0 ∨ (s'.threads u).taken = (s.threads u).taken ∧
      s'.stampAt (s.threads u).taken = s.stampAt (s.threads u).taken)
    (hcopied : ∀ {t p stamp}, s'.threads t = .puttingBack p stamp ∨
      s'.threads t = .dropping p stamp → stamp = s'.stampAt p)
    (hlog : s'.log = s.log ++ events)
    (hevents : ∀ e ∈ events, (∀ t k, e ≠ .returned t k) ∧ ∀ k, e ≠ .published k) :
    s'.Returned := by
  have hreturned : ∀ {t k}, .returned t k ∈ s'.log → .returned t k ∈ s.log := by
    intro t k hk
    rw [hlog, List.mem_append] at hk
    exact hk.resolve_right fun hk => (hevents _ hk).1 t k rfl
  refine ⟨?_, hcopied, ?_, ?_, ?_, ?_⟩
  · intro u
    rw [hnewest]
    rcases htaken u with hnone | ⟨hsame, hstamp⟩
    · rw [hnone, hzero]
      exact Nat.zero_le _
    · rw [hsame, hstamp]
      exact h.taken_le u
  · intro t k hk
    rw [hnewest]
    exact h.returned_le (hreturned hk)
  · intro t k hk hne
    rcases htaken t with hnone | ⟨hsame, hstamp⟩
    · exact absurd hnone hne
    · rw [hsame] at hne ⊢
      rw [hstamp]
      exact h.returned_taken (hreturned hk) hne
  · intro k hk
    rw [hlog, List.mem_append] at hk
    rw [hnewest]
    exact h.published_le (hk.resolve_right fun hk => (hevents _ hk).2 k rfl)
  · rw [hlog]
    refine List.pairwise_append.mpr ⟨h.back, ?_, ?_⟩
    · refine List.pairwise_iff_forall_sublist.mpr ?_
      intro e f hef t k m he hf
      exact absurd he ((hevents _ (hef.mem (by simp))).1 t k)
    · intro e _ f hf t k m he hf'
      exact absurd hf' ((hevents _ hf).1 t m)

/-- A step in which the `GetValue` call of thread `t` returns what it copied. -/
theorem Returned.returns {s s' : State n α} (h : s.Returned) {t : Fin n} {stamp : Nat}
    (hstamp : stamp = s.stampAt (s.threads t).taken) (htaken : (s.threads t).taken ≠ 0)
    (hzero : s'.stampAt 0 = 0) (hnewest : s'.newest = s.newest)
    (hstamps : ∀ p, s'.stampAt p = s.stampAt p)
    (hthreads : s'.threads = Function.update s.threads t .idle) {events : List Event}
    (hlog : s'.log = s.log ++ events ++ [.returned t stamp])
    (hevents : ∀ e ∈ events, (∀ t k, e ≠ .returned t k) ∧ ∀ k, e ≠ .published k) :
    s'.Returned := by
  have hmain : ({ s' with log := s.log ++ events } : State n α).Returned := by
    refine h.of_same hzero (by rw [hnewest]; exact hstamps _) ?_ ?_ rfl hevents
    · intro u
      show (s'.threads u).taken = 0 ∨ (s'.threads u).taken = _ ∧ _
      rw [hthreads]
      by_cases hu : u = t
      · rw [hu, Function.update_self]
        exact .inl rfl
      · rw [Function.update_of_ne hu]
        exact .inr ⟨rfl, hstamps _⟩
    · intro u p stamp' hu
      have hu' : s'.threads u = .puttingBack p stamp' ∨ s'.threads u = .dropping p stamp' := hu
      rw [hthreads] at hu'
      by_cases heq : u = t
      · rw [heq, Function.update_self] at hu'
        simp at hu'
      · rw [Function.update_of_ne heq] at hu'
        exact (h.copied hu').trans (hstamps p).symm
  have hle : stamp ≤ s'.stampAt s'.newest := by
    rw [hstamp, hnewest, hstamps]
    exact h.taken_le t
  refine ⟨hmain.taken_le, hmain.copied, ?_, ?_, ?_, ?_⟩
  · intro u k hk
    rw [hlog, List.mem_append, List.mem_singleton] at hk
    cases hk with
    | inl hk => exact hmain.returned_le hk
    | inr hk =>
        cases hk
        exact hle
  · intro u k hk hne
    rw [hlog, List.mem_append, List.mem_singleton] at hk
    cases hk with
    | inl hk => exact hmain.returned_taken hk hne
    | inr hk =>
        have hu : u = t := by
          injection hk with hu
          exact Fin.ext hu
        rw [hthreads, hu, Function.update_self] at hne
        exact absurd rfl hne
  · intro k hk
    rw [hlog, List.mem_append, List.mem_singleton] at hk
    exact hmain.published_le (hk.resolve_right (by simp))
  · rw [hlog]
    refine List.pairwise_append.mpr ⟨hmain.back, List.pairwise_singleton _ _, ?_⟩
    intro e he f hf u k m hek hfm
    rw [List.mem_singleton.mp hf] at hfm
    injection hfm with hu hm
    rw [List.mem_append] at he
    cases he with
    | inr he => exact absurd hek ((hevents _ he).1 u k)
    | inl he =>
        rw [← hm, hstamp]
        refine h.returned_taken ?_ htaken
        rw [hu, ← hek]
        exact he

theorem taken_owned (point : Thread α) : point.taken = 0 ∨ point.taken = point.owned := by
  cases point <;> simp [Thread.taken, Thread.owned]

theorem Owned.taken_live {s : State n α} (howned : s.Owned) (t : Fin n) :
    (s.threads t).taken = 0 ∨ s.live (s.threads t).taken = true := by
  cases taken_owned (s.threads t) with
  | inl hzero => exact .inl hzero
  | inr heq =>
      by_cases hzero : (s.threads t).taken = 0
      · exact .inl hzero
      · rw [heq] at hzero ⊢
        exact .inr (howned.live (.thread t) hzero)

/-- A step of thread `t` that gives out nothing, takes nothing and keeps the stamps. -/
theorem Returned.goTo {s s' : State n α} (h : s.Returned) {t : Fin n} {point : Thread α}
    {events : List Event} (hzero : s'.stampAt 0 = 0) (hnewest : s'.newest = s.newest)
    (hthreads : s'.threads = Function.update s.threads t point)
    (htaken : point.taken = 0 ∨ point.taken = (s.threads t).taken)
    (hcopied : ∀ {p stamp}, point = .puttingBack p stamp ∨ point = .dropping p stamp →
      stamp = s'.stampAt p)
    (hstamps : ∀ p, p = s.newest ∨ (∃ u, (s.threads u).taken = p) → s'.stampAt p = s.stampAt p)
    (hlog : s'.log = s.log ++ events)
    (hevents : ∀ e ∈ events, (∀ t k, e ≠ .returned t k) ∧ ∀ k, e ≠ .published k) :
    s'.Returned := by
  refine h.of_same hzero (by rw [hnewest]; exact hstamps _ (.inl rfl)) ?_ ?_ hlog hevents
  · intro u
    rw [hthreads]
    by_cases hu : u = t
    · rw [hu, Function.update_self]
      exact htaken.imp_right fun hsame => ⟨hsame, hstamps _ (.inr ⟨t, rfl⟩)⟩
    · rw [Function.update_of_ne hu]
      exact .inr ⟨rfl, hstamps _ (.inr ⟨u, rfl⟩)⟩
  · intro u p stamp hu
    rw [hthreads] at hu
    by_cases heq : u = t
    · rw [heq, Function.update_self] at hu
      exact hcopied hu
    · rw [Function.update_of_ne heq] at hu
      have hp : (s.threads u).taken = p := by
        rcases hu with hu | hu <;> rw [hu] <;> rfl
      rw [h.copied hu, hstamps p (.inr ⟨u, hp⟩)]

/-- A step of `Tick` that publishes nothing. -/
theorem Returned.tick {s s' : State n α} (h : s.Returned) {events : List Event}
    (hnewest : s'.newest = s.newest) (hthreads : s'.threads = s.threads)
    (hstamps : ∀ p, s'.stampAt p = s.stampAt p) (hzero : s.stampAt 0 = 0)
    (hlog : s'.log = s.log ++ events)
    (hevents : ∀ e ∈ events, (∀ t k, e ≠ .returned t k) ∧ ∀ k, e ≠ .published k) :
    s'.Returned := by
  refine h.of_same ((hstamps 0).trans hzero) (by rw [hnewest, hstamps]) ?_ ?_ hlog hevents
  · exact fun u => .inr ⟨by rw [hthreads], hstamps _⟩
  · intro u p stamp hu
    rw [hthreads] at hu
    exact (h.copied hu).trans (hstamps p).symm

/-- `GetValue` takes the newest buffer. -/
theorem Returned.take {s : State n α} (h : s.Returned) (hpub : s.Published) (t : Fin n)
    (hvalue : s.value ≠ 0) : ({ s with value := 0 }.goTo t (.copying s.value)).Returned := by
  have hnewest : s.value = s.newest := hpub.value_newest.resolve_left hvalue
  have hthreads : ∀ u, ({ s with value := 0 }.goTo t (.copying s.value)).threads u =
      if u = t then .copying s.value else s.threads u := fun u => threads_goTo _ t _ u
  refine ⟨?_, ?_, h.returned_le, ?_, h.published_le, h.back⟩
  · intro u
    rw [hthreads]
    split
    · exact (congrArg s.stampAt hnewest).le
    · exact h.taken_le u
  · intro u p stamp hu
    rw [hthreads] at hu
    split at hu
    · simp at hu
    · exact h.copied hu
  · intro u k hk hne
    rw [hthreads] at hne ⊢
    split at hne
    · rename_i heq
      rw [if_pos heq]
      show k ≤ s.stampAt s.value
      rw [hnewest]
      exact h.returned_le hk
    · rename_i heq
      rw [if_neg heq]
      exact h.returned_taken hk hne

/-- What `Tick` publishes was set later than everything that was returned. -/
theorem Returned.publish {s : State n α} (h : s.Returned) (hpub : s.Published) {l : Nat}
    (ht : s.ticker = .publishing s.value l) :
    ({ s with value := l, newest := l, ticker := .notifying l s.value }.record
      [.published (s.stampAt l)]).Returned := by
  have hl : l ≠ 0 := by
    have := hpub.ticker_valid
    rw [ht] at this
    exact this
  have hnewer : s.stampAt s.newest < s.stampAt l := by
    have := (hpub.pending_newer (by rw [ht]; exact hl)).1
    rw [ht] at this
    exact this
  refine ⟨fun u => (h.taken_le u).trans hnewer.le, h.copied, ?_, ?_, ?_, ?_⟩
  · intro u k hk
    have hk := List.mem_append.mp hk
    exact (h.returned_le (hk.resolve_right (by simp))).trans hnewer.le
  · intro u k hk hne
    have hk := List.mem_append.mp hk
    exact h.returned_taken (hk.resolve_right (by simp)) hne
  · intro k hk
    have hk := List.mem_append.mp hk
    cases hk with
    | inl hk => exact (h.published_le hk).trans hnewer.le
    | inr hk =>
        cases List.mem_singleton.mp hk
        exact Nat.le_refl _
  · refine List.pairwise_append.mpr ⟨h.back, List.pairwise_singleton _ _, ?_⟩
    intro e _ f hf u k m _ hfm
    cases List.mem_singleton.mp hf
    cases hfm

/-- One step keeps the record of values. -/
theorem Returned.effect {s s' : State n α} (h : s.Returned) (howned : s.Owned)
    (hpub : s.Published) (heffect : Effect s s') : s'.Returned := by
  have hzero := hpub.stamp_zero
  have hvalid : ∀ {t point}, s.threads t = point → point.Valid := by
    intro t point ht
    exact ht ▸ hpub.thread_valid t
  cases heffect with
  | stay => exact h
  | quiet t point _ htaken hpoint =>
      refine h.goTo hzero rfl rfl (.inl htaken.1) ?_ (fun _ _ => rfl) (List.append_nil _).symm
        (by simp)
      have hvalid' := hpoint (hpub.thread_valid t)
      rintro p stamp (rfl | rfl)
      · exact absurd htaken.1 hvalid'
      · exact absurd htaken.1 hvalid'
  | allocate t value buf ht hbuf hfree =>
      have hne : ∀ {p}, p = 0 ∨ s.live p = true → p ≠ buf := by
        rintro p (rfl | hlive) rfl
        · exact hbuf rfl
        · rw [hfree] at hlive
          cases hlive
      refine h.goTo ((stampAt_malloc_of_ne s buf hbuf.symm).trans hzero) rfl rfl (.inl rfl)
        (by simp) ?_ (List.append_nil _).symm (by simp)
      rintro p (rfl | ⟨u, rfl⟩)
      · exact stampAt_malloc_of_ne s buf (hne (hpub.newest_live howned))
      · exact stampAt_malloc_of_ne s buf (hne (howned.taken_live u))
  | construct t value buf ht =>
      refine h.goTo ((stampAt_construct s buf 0 value).trans hzero) rfl rfl (.inl rfl) (by simp)
        (fun p _ => stampAt_construct s buf p value) (List.append_nil _).symm (by simp)
  | exchange t buf ht =>
      have hbuf : buf ≠ 0 := hvalid ht
      refine h.goTo ((stampAt_exchange_of_ne s buf hbuf.symm).trans hzero) rfl rfl (.inl rfl)
        (by simp) ?_ (List.append_nil _).symm (by simp)
      rintro p (rfl | ⟨u, rfl⟩)
      · exact stampAt_exchange_of_ne s buf (hpub.newest_ne_exchanging howned ht hbuf)
      · refine stampAt_exchange_of_ne s buf fun heq => ?_
        by_cases hu : u = t
        · rw [hu, ht] at heq
          exact hbuf heq.symm
        · have howner := (taken_owned (s.threads u)).resolve_left (heq ▸ hbuf)
          exact @Owned.exchanging_apart _ _ s howned t buf _ ht hbuf (.thread u)
            (by simpa using hu) (howner.symm.trans heq)
  | discard t p ht hp =>
      refine h.goTo ((stampAt_deconstruct s p 0).trans hzero) rfl rfl (.inl rfl) (by simp)
        (fun q _ => stampAt_deconstruct s p q) rfl (by simp)
  | take t ht => exact h.take hpub t (hvalid ht)
  | copy t p ht =>
      refine h.goTo hzero rfl rfl (.inr ?_) ?_ (fun _ _ => rfl) rfl (by simp)
      · rw [ht]
        rfl
      · intro q stamp hq
        simp only [Thread.puttingBack.injEq, reduceCtorEq, or_false] at hq
        rw [← hq.1, ← hq.2]
        rfl
  | putBack t p stamp ht _ _ =>
      have hp : p ≠ 0 := hvalid ht
      have htaken : (s.threads t).taken = p := by
        rw [ht]
        rfl
      exact h.returns (htaken ▸ h.copied (.inl ht)) (htaken ▸ hp) hzero rfl (fun _ => rfl) rfl
        (show s.log ++ [.returned t stamp] = s.log ++ [] ++ [.returned t stamp] by simp) (by simp)
  | refuse t p stamp ht _ =>
      refine h.goTo hzero rfl rfl (.inr ?_) ?_ (fun _ _ => rfl) (List.append_nil _).symm (by simp)
      · rw [ht]
        rfl
      · intro q stamp' hq
        simp only [Thread.dropping.injEq, reduceCtorEq, false_or] at hq
        rw [← hq.1, ← hq.2]
        exact h.copied (.inl ht)
  | drop t p stamp ht =>
      have hp : p ≠ 0 := hvalid ht
      have htaken : (s.threads t).taken = p := by
        rw [ht]
        rfl
      exact h.returns (htaken ▸ h.copied (.inr ht)) (htaken ▸ hp)
        ((stampAt_deconstruct s p 0).trans hzero) rfl (fun q => stampAt_deconstruct s p q) rfl rfl
        (by simp)
  | tickQuiet point _ _ _ _ =>
      exact h.tick rfl rfl (fun _ => rfl) hzero (List.append_nil _).symm (by simp)
  | tickTake v ht => exact h.tick rfl rfl (fun _ => rfl) hzero (List.append_nil _).symm (by simp)
  | publish l ht => exact h.publish hpub ht
  | tickPutBack l ht _ =>
      exact h.tick rfl rfl (fun _ => rfl) hzero (List.append_nil _).symm (by simp)
  | notify l p ht =>
      refine h.tick rfl rfl (fun _ => rfl) hzero (List.append_assoc _ _ _) ?_
      intro e he
      rw [List.mem_append, List.mem_map, List.mem_map] at he
      rcases he with ⟨k, -, rfl⟩ | ⟨k, -, rfl⟩ <;> simp
  | tickDrop p ht | tickDiscard p ht _ =>
      exact h.tick rfl rfl (fun q => stampAt_deconstruct s p q) hzero rfl (by simp)

/-! ## Runs -/

/-- All invariants together. -/
structure Inv (s : State n α) : Prop where
  owned : s.Owned
  published : s.Published
  recorded : s.Recorded
  returned : s.Returned

theorem inv_init : (init n α).Inv where
  owned := by
    refine ⟨?_, ?_⟩
    · intro o o' ho
      cases o <;> exact absurd rfl ho
    · intro o ho
      cases o <;> exact absurd rfl ho
  published :=
    ⟨.inl rfl, fun _ hne => absurd rfl hne, fun _ => .inl rfl, fun hne => absurd rfl hne,
      fun hne => absurd rfl hne, fun _ => Nat.le_refl _, rfl, (fun _ hl => nomatch hl),
      fun _ => trivial, trivial⟩
  recorded :=
    ⟨rfl, (nomatch ·), (nomatch ·), (nomatch ·), (nomatch ·),
      List.Pairwise.nil⟩
  returned := by
    refine ⟨fun _ => Nat.le_refl _, ?_, (nomatch ·), (nomatch ·),
      (nomatch ·), List.Pairwise.nil⟩
    rintro t p stamp (h | h) <;> cases h

/-- One step that puts back the newest value keeps the invariants. -/
theorem Inv.step {s s' : State n α} {l : Label n α} (h : s.Inv) (hok : s.PutsBackNewest l)
    (hstep : s.step l = some s') : s'.Inv := by
  have heffect := step_effect hstep hok
  exact ⟨h.owned.effect heffect, h.published.effect h.owned heffect,
    h.recorded.effect h.owned h.published heffect, h.returned.effect h.owned h.published heffect⟩

/-- What is in `Value` was not set earlier than anything that `Tick` has published. -/
def Current (s : State n α) : Prop :=
  s.value ≠ 0 → ∀ k, .published k ∈ s.log → k ≤ s.stampAt s.value

/-- In every interleaving in which a `GetValue` call that finds `Value` empty puts its buffer back
only when no other `GetValue` call holds a buffer set later: no buffer is deconstructed twice or
read after it was deconstructed, what was published is not replaced by something set earlier, and
no thread gets a value set earlier than one it got before. -/
theorem values_kept {ls : List (Label n α)} {s : State n α}
    (hrun : exec State.step (init n α) ls = some s)
    (hok : Guarded State.step PutsBackNewest (init n α) ls) :
    SafeLog s.log ∧ s.Current ∧ NeverBack s.log := by
  have hinv : s.Inv := exec_invariant (fun _ _ _ h hok hstep => h.step hok hstep) inv_init hok hrun
  refine ⟨hinv.recorded.safe, fun hvalue k hk => ?_, hinv.returned.back⟩
  rw [hinv.published.value_newest.resolve_left hvalue]
  exact hinv.returned.published_le hk

/-- `SetValue` of one thread without an interruption. -/
def setValueSteps (t : Fin 2) (value buf : Nat) : List (Label 2 Nat) :=
  .setValue t value buf :: List.replicate 4 (.thread t true)

/-- Two `GetValue` calls hold a buffer at the same time, with `Tick` between them, and the one with
the newer buffer is first to put it back. -/
theorem values_kept_side_by_side :
    let ls := setValueSteps 0 10 1 ++ [.tick] ++ List.replicate 5 (.ticker true) ++
      [.getValue 0, .thread 0 true] ++ setValueSteps 1 20 2 ++ [.tick] ++
      List.replicate 3 (.ticker true) ++ ([.getValue 1, .thread 1 true, .thread 1 true,
        .thread 1 true, .thread 0 true, .thread 0 true, .ticker true, .thread 0 true] :
          List (Label 2 Nat))
    Guarded State.step PutsBackNewest (init 2 Nat) ls ∧
      ∃ s, exec State.step (init 2 Nat) ls = some s ∧
        SafeLog s.log ∧ s.Current ∧ NeverBack s.log := by
  intro ls
  have hok : Guarded State.step PutsBackNewest (init 2 Nat) ls := by decide
  have hsome : (exec State.step (init 2 Nat) ls).isSome := by decide
  obtain ⟨s, hs⟩ := Option.isSome_iff_exists.mp hsome
  exact ⟨hok, s, hs, values_kept hs hok⟩

/-- `GetValue` of thread 0 takes out the first value, `Tick` publishes the second one and thread 1
takes it out; thread 0 is first to put back. -/
def overtaken : List (Label 2 Nat) :=
  setValueSteps 0 10 1 ++ [.tick] ++ List.replicate 5 (.ticker true) ++
    [.getValue 0, .thread 0 true] ++ setValueSteps 1 20 2 ++ [.tick] ++
    List.replicate 3 (.ticker true) ++ ([.getValue 1, .thread 1 true, .thread 1 true,
      .thread 0 true, .thread 0 true, .thread 1 true, .thread 1 true, .ticker true,
      .getValue 1, .thread 1 true, .thread 1 true, .thread 1 true] : List (Label 2 Nat))

/-- The second value is deconstructed before the delegate reads it, the first one is back in
`Value`, and thread 1 gets the first value after the second one. -/
theorem older_value_put_back :
    ∃ s, exec State.step (init 2 Nat) overtaken = some s ∧
      ¬ SafeLog s.log ∧ ¬ s.Current ∧ ¬ NeverBack s.log := by
  have hrun : (exec State.step (init 2 Nat) overtaken).map
      (fun s => (s.log, s.value, s.stampAt s.value)) =
        some ([.published 1, .read 0, .published 2, .read 1, .read 0, .returned 0 1,
          .deconstructed 1, .returned 1 2, .read 1, .read 0, .returned 1 1], 1, 1) := by
    decide
  obtain ⟨s, hs, hfinal⟩ := Option.map_eq_some_iff.mp hrun
  obtain ⟨hlog, hvalue, hstamp⟩ : s.log = _ ∧ s.value = 1 ∧ s.stampAt s.value = 1 := by
    simpa using hfinal
  refine ⟨s, hs, fun hsafe => ?_, fun hcurrent => ?_, fun hback => ?_⟩
  · rw [hlog] at hsafe
    have hpair := List.pairwise_iff_forall_sublist.mp hsafe
      (show [Event.deconstructed 1, .read 1].Sublist _ by decide)
    exact (hpair 1 rfl).2 rfl
  · have hle := hcurrent (by rw [hvalue]; decide) 2 (by rw [hlog]; decide)
    rw [hstamp] at hle
    exact absurd hle (by decide)
  · rw [hlog] at hback
    have hpair := List.pairwise_iff_forall_sublist.mp hback
      (show [Event.returned 1 2, .returned 1 1].Sublist _ by decide)
    exact absurd (hpair 1 2 1 rfl rfl) (by decide)

end State

end Utilpp.Storage

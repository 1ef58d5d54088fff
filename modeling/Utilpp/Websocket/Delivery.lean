import Utilpp.Websocket.Endpoint

/-!
# What is sent is written

Every buffer is in at most one place: with a call of `SendData`, in the queue of a thread, with the
callback, or in the pool (`Owned`). So no step of a thread touches what another one has put into the
queue, and what is written of a thread is what it sent, in its order and each message once
(`Sound`).
-/

namespace Utilpp.Websocket

open Lib

variable {τ : Type} {lwsPre : Nat}

/-! ## Where a buffer is -/

/-- A place for a buffer. -/
inductive Place (τ : Type) where
  | sending (thread : τ)
  | queued (thread : τ)
  | writing
  | pooled

/-- The buffer that a call of `SendData` may touch. -/
def Sending.holds (call : Sending) (buf : Nat) : Prop := call.buf = buf ∧ call.phase ≠ .queued

/-- The buffer that the callback may touch. -/
def Writing.holds (writing : Writing τ) (buf : Nat) : Prop :=
  match writing with
  | .dequeued _ other => other = buf
  | .written other => other = buf
  | .checking => False

/-- A buffer is in a place. -/
def Endpoint.At (e : Endpoint τ) (buf : Nat) : Place τ → Prop
  | .sending thread => ∃ call, e.sending thread = some call ∧ call.holds buf
  | .queued thread => buf ∈ e.sendQueue thread
  | .writing => ∃ writing, e.writing = some writing ∧ writing.holds buf
  | .pooled => buf ∈ e.sendBufPool

/-- Every buffer is in at most one place, and there at most once. -/
structure Owned (e : Endpoint τ) : Prop where
  unique : ∀ buf p q, e.At buf p → e.At buf q → p = q
  made : ∀ buf p, e.At buf p → buf < e.made
  queue : ∀ thread, (e.sendQueue thread).Nodup
  pool : e.sendBufPool.Nodup

theorem Owned.ne {e : Endpoint τ} (h : Owned e) {buf other : Nat} {p q : Place τ}
    (hbuf : e.At buf p) (hother : e.At other q) (hne : p ≠ q) : buf ≠ other := by
  rintro rfl
  exact hne (h.unique buf p q hbuf hother)

/-- One buffer goes to a new place. -/
theorem Owned.move {e t : Endpoint τ} (h : Owned e) (buf : Nat) (place : Place τ)
    (hmove : ∀ other p, t.At other p → (other = buf ∧ p = place) ∨ (other ≠ buf ∧ e.At other p))
    (hmade : e.made ≤ t.made) (hbuf : buf < t.made)
    (hqueue : ∀ thread, (t.sendQueue thread).Nodup) (hpool : t.sendBufPool.Nodup) : Owned t := by
  refine ⟨fun other p q hp hq => ?_, fun other p hp => ?_, hqueue, hpool⟩
  · rcases hmove other p hp with ⟨heq, rfl⟩ | ⟨hne, hp⟩
    · rcases hmove other q hq with ⟨_, rfl⟩ | ⟨hne, _⟩
      · rfl
      · exact absurd heq hne
    · rcases hmove other q hq with ⟨heq, _⟩ | ⟨_, hq⟩
      · exact absurd heq hne
      · exact h.unique other p q hp hq
  · rcases hmove other p hp with ⟨rfl, _⟩ | ⟨_, hp⟩
    · exact hbuf
    · exact (h.made other p hp).trans_le hmade

/-- No buffer goes anywhere, but some may be let go. -/
theorem Owned.stay {e t : Endpoint τ} (h : Owned e)
    (hstay : ∀ other p, t.At other p → e.At other p) (hmade : t.made = e.made)
    (hqueue : t.sendQueue = e.sendQueue) (hpool : t.sendBufPool = e.sendBufPool) : Owned t := by
  refine ⟨fun other p q hp hq => ?_, fun other p hp => ?_, fun thread => ?_, ?_⟩
  · exact h.unique other p q (hstay other p hp) (hstay other q hq)
  · rw [hmade]
    exact h.made other p (hstay other p hp)
  · rw [hqueue]
    exact h.queue thread
  · rw [hpool]
    exact h.pool

/-! ## What a buffer holds -/

variable [DecidableEq τ]

/-- What the buffer of a call holds. -/
def Sending.Holds (lwsPre : Nat) (call : Sending) (bytes : List UInt8) : Prop :=
  match call.phase with
  | .taken => True
  | .cleared => bytes = []
  | .padded => bytes = List.replicate lwsPre 0
  | .filled => bytes = List.replicate lwsPre 0 ++ call.content
  | .queued => True

/-- The buffers are apart, they hold what was sent, and it is written in order. -/
structure Sound (lwsPre : Nat) (e : Endpoint τ) : Prop where
  owned : Owned e
  holds : ∀ thread call, e.sending thread = some call →
    call.Holds lwsPre (e.buffers call.buf)
  delivered : ∀ thread, messagesOf thread e.accepted =
    messagesOf thread e.wire ++ e.pending lwsPre thread

theorem messagesOf_append_self (thread : τ) (log : List (τ × List UInt8)) (bytes : List UInt8) :
    messagesOf thread (log ++ [(thread, bytes)]) = messagesOf thread log ++ [bytes] := by
  simp [messagesOf]

theorem messagesOf_append_other {thread other : τ} (h : other ≠ thread)
    (log : List (τ × List UInt8)) (bytes : List UInt8) :
    messagesOf thread (log ++ [(other, bytes)]) = messagesOf thread log := by
  simp [messagesOf, h]

/-- What is not written depends on the queue, on what the callback has taken, and on the buffers
that are there. -/
theorem Endpoint.pending_congr {e t : Endpoint τ} (hqueue : t.sendQueue = e.sendQueue)
    (hwriting : t.writing = e.writing)
    (hbuffers : ∀ buf, (∃ thread, buf ∈ e.sendQueue thread) ∨ e.At buf .writing →
      t.buffers buf = e.buffers buf) (thread : τ) :
    t.pending lwsPre thread = e.pending lwsPre thread := by
  have hsame : ∀ buf ∈ e.sendQueue thread, t.message lwsPre buf = e.message lwsPre buf :=
    fun buf hbuf => congrArg (List.drop lwsPre) (hbuffers buf (.inl ⟨thread, hbuf⟩))
  have hflight : t.inFlight lwsPre thread = e.inFlight lwsPre thread := by
    rw [inFlight, inFlight, hwriting]
    cases hw : e.writing with
    | none => rfl
    | some writing =>
        cases writing with
        | dequeued other buf =>
            have hbuf := hbuffers buf (.inr ⟨_, hw, rfl⟩)
            show (if other = thread then [t.message lwsPre buf] else []) =
              if other = thread then [e.message lwsPre buf] else []
            rw [message, message, hbuf]
        | written buf => rfl
        | checking => rfl
  rw [pending, pending, hflight, hqueue, List.map_congr_left hsame]

theorem Endpoint.setSending_at {e : Endpoint τ} {thread : τ} {call : Option Sending} {buf : Nat}
    {p : Place τ} (h : (e.setSending thread call).At buf p) :
    (p = .sending thread ∧ ∃ c, call = some c ∧ c.holds buf) ∨
      (p ≠ .sending thread ∧ e.At buf p) := by
  cases p with
  | sending other =>
      obtain ⟨c, hc, hholds⟩ := h
      by_cases heq : other = thread
      · subst heq
        replace hc : Function.update e.sending other call other = some c := hc
        rw [Function.update_self] at hc
        exact .inl ⟨rfl, c, hc, hholds⟩
      · replace hc : Function.update e.sending thread call other = some c := hc
        rw [Function.update_of_ne heq] at hc
        refine .inr ⟨fun hsame => heq ?_, c, hc, hholds⟩
        cases hsame
        rfl
  | queued other => exact .inr ⟨nofun, h⟩
  | writing => exact .inr ⟨nofun, h⟩
  | pooled => exact .inr ⟨nofun, h⟩

/-! ## The steps -/

theorem Sound.sendData {e t : Endpoint τ} (h : Sound lwsPre e) {thread : τ}
    {content : List UInt8} {pooled : Option Nat}
    (ht : e.sendData thread content pooled = some t) : Sound lwsPre t := by
  have hholds : ∀ (u : Endpoint τ) (call : Sending), u.sending = e.sending →
      u.buffers = e.buffers → call.phase = .taken → ∀ other c,
        (u.setSending thread (some call)).sending other = some c →
          c.Holds lwsPre (e.buffers c.buf) := by
    intro u call hsending hbuffers hphase other c hc
    replace hc : Function.update u.sending thread (some call) other = some c := hc
    by_cases heq : other = thread
    · subst heq
      rw [Function.update_self, Option.some.injEq] at hc
      rw [← hc, Sending.Holds, hphase]
      trivial
    · rw [Function.update_of_ne heq, hsending] at hc
      exact h.holds other c hc
  unfold Endpoint.sendData at ht
  split at ht
  · rename_i buf hidle
    split at ht
    · rename_i hbuf
      cases ht
      have hpooled : e.At buf .pooled := hbuf
      refine ⟨h.owned.move buf (.sending thread) ?_ le_rfl
        (h.owned.made buf .pooled hpooled) h.owned.queue (h.owned.pool.erase buf),
        hholds _ _ rfl rfl rfl, fun other => ?_⟩
      · intro other p hp
        rcases Endpoint.setSending_at hp with ⟨rfl, c, hc, hc'⟩ | ⟨_, hold⟩
        · cases hc
          exact .inl ⟨hc'.1.symm, rfl⟩
        · refine .inr ?_
          cases p with
          | pooled =>
              obtain ⟨hne, hmem⟩ := (h.owned.pool.mem_erase_iff).mp hold
              exact ⟨hne, hmem⟩
          | sending other' => exact ⟨h.owned.ne (p := .sending other') hold hpooled nofun, hold⟩
          | queued other' => exact ⟨h.owned.ne (p := .queued other') hold hpooled nofun, hold⟩
          | writing => exact ⟨h.owned.ne (p := .writing) hold hpooled nofun, hold⟩
      · rw [Endpoint.pending_congr rfl rfl (fun _ _ => rfl)]
        exact h.delivered other
    · cases ht
  · cases ht
    refine ⟨h.owned.move e.made (.sending thread) ?_ (Nat.le_succ _)
      (Nat.lt_succ_self _) h.owned.queue h.owned.pool, hholds _ _ rfl rfl rfl, fun other => ?_⟩
    · intro other p hp
      rcases Endpoint.setSending_at hp with ⟨rfl, c, hc, hc'⟩ | ⟨_, hold⟩
      · cases hc
        exact .inl ⟨hc'.1.symm, rfl⟩
      · replace hold : e.At other p := by
          cases p with
          | pooled => exact hold
          | sending other' => exact hold
          | queued other' => exact hold
          | writing => exact hold
        exact .inr ⟨(h.owned.made other p hold).ne, hold⟩
    · rw [Endpoint.pending_congr rfl rfl (fun _ _ => rfl)]
      exact h.delivered other
  · cases ht

/-- A call fills its own buffer. -/
theorem Sound.fill {e : Endpoint τ} (h : Sound lwsPre e) {thread : τ} {call : Sending}
    (next : Sending) (hcall : e.sending thread = some call) (hphase : call.phase ≠ .queued)
    (hbuf : next.buf = call.buf) {bytes : List UInt8} (hholds : next.Holds lwsPre bytes) :
    Sound lwsPre ((e.setBuffer call.buf bytes).setSending thread (some next)) := by
  have hat : e.At call.buf (.sending thread) := ⟨call, hcall, rfl, hphase⟩
  refine ⟨h.owned.stay ?_ rfl rfl rfl, fun other c hc => ?_, fun other => ?_⟩
  · intro other p hp
    rcases Endpoint.setSending_at hp with ⟨rfl, c, hc, hc'⟩ | ⟨_, hold⟩
    · cases hc
      have hsame : call.buf = other := hbuf.symm.trans hc'.1
      exact hsame ▸ hat
    · cases p with
      | pooled => exact hold
      | sending other' => exact hold
      | queued other' => exact hold
      | writing => exact hold
  · replace hc : Function.update e.sending thread (some next) other = some c := hc
    show c.Holds lwsPre (Function.update e.buffers call.buf bytes c.buf)
    by_cases heq : other = thread
    · subst heq
      rw [Function.update_self, Option.some.injEq] at hc
      rw [← hc, hbuf, Function.update_self]
      exact hholds
    · rw [Function.update_of_ne heq] at hc
      by_cases hqueued : c.phase = .queued
      · rw [Sending.Holds, hqueued]
        trivial
      · have hother : e.At c.buf (.sending other) := ⟨c, hc, rfl, hqueued⟩
        have hne : c.buf ≠ call.buf := h.owned.ne hother hat fun hsame => heq (by
          cases hsame
          rfl)
        rw [Function.update_of_ne hne]
        exact h.holds other c hc
  · have hpending : ((e.setBuffer call.buf bytes).setSending thread (some next)).pending lwsPre
        other = e.pending lwsPre other := by
      refine Endpoint.pending_congr ?_ ?_ (fun buf hused => ?_) other
      · rfl
      · rfl
      · show Function.update e.buffers call.buf bytes buf = e.buffers buf
        refine Function.update_of_ne ?_ _ _
        rcases hused with ⟨other', hmem⟩ | hwriting
        · exact h.owned.ne (p := .queued other') hmem hat nofun
        · exact h.owned.ne hwriting hat nofun
    rw [hpending]
    exact h.delivered other

/-- A call puts its buffer into the queue. -/
theorem Sound.enqueue {e : Endpoint τ} (h : Sound lwsPre e) {thread : τ} {call : Sending}
    (hcall : e.sending thread = some call) (hphase : call.phase = .filled) :
    Sound lwsPre
      ({ e with
        sendQueue := Function.update e.sendQueue thread (e.sendQueue thread ++ [call.buf])
        accepted := e.accepted ++ [(thread, call.content)] }.setSending thread
          (some { call with phase := .queued })) := by
  have hat : e.At call.buf (.sending thread) := by
    refine ⟨call, hcall, rfl, ?_⟩
    rw [hphase]
    nofun
  have hmessage : e.message lwsPre call.buf = call.content := by
    have hbytes := h.holds thread call hcall
    rw [Sending.Holds, hphase] at hbytes
    rw [Endpoint.message, hbytes, List.drop_left' List.length_replicate]
  refine ⟨h.owned.move call.buf (.queued thread) ?_ le_rfl
    (h.owned.made _ _ hat) (fun other => ?_) h.owned.pool, fun other c hc => ?_, fun other => ?_⟩
  · intro other p hp
    rcases Endpoint.setSending_at hp with ⟨rfl, c, hc, hc'⟩ | ⟨hne, hold⟩
    · cases hc
      exact absurd rfl hc'.2
    · cases p with
      | pooled => exact .inr ⟨h.owned.ne (p := .pooled) hold hat nofun, hold⟩
      | writing => exact .inr ⟨h.owned.ne (p := .writing) hold hat nofun, hold⟩
      | sending other' => exact .inr ⟨h.owned.ne (p := .sending other') hold hat hne, hold⟩
      | queued other' =>
          replace hold : other ∈ Function.update e.sendQueue thread
            (e.sendQueue thread ++ [call.buf]) other' := hold
          by_cases heq : other' = thread
          · subst heq
            rw [Function.update_self] at hold
            rcases List.mem_append.mp hold with hmem | hlast
            · exact .inr ⟨h.owned.ne (p := .queued other') hmem hat nofun, hmem⟩
            · exact .inl ⟨List.mem_singleton.mp hlast, rfl⟩
          · rw [Function.update_of_ne heq] at hold
            exact .inr ⟨h.owned.ne (p := .queued other') hold hat nofun, hold⟩
  · show (Function.update e.sendQueue thread (e.sendQueue thread ++ [call.buf]) other).Nodup
    by_cases heq : other = thread
    · subst heq
      rw [Function.update_self]
      refine List.nodup_append.mpr ⟨h.owned.queue other,
        List.nodup_cons.mpr ⟨List.not_mem_nil, List.nodup_nil⟩, fun buf hmem buf' hmem' => ?_⟩
      rw [List.mem_singleton.mp hmem']
      exact h.owned.ne (p := .queued other) hmem hat nofun
    · rw [Function.update_of_ne heq]
      exact h.owned.queue other
  · replace hc : Function.update e.sending thread (some { call with phase := .queued }) other =
      some c := hc
    by_cases heq : other = thread
    · subst heq
      rw [Function.update_self, Option.some.injEq] at hc
      rw [← hc]
      trivial
    · rw [Function.update_of_ne heq] at hc
      exact h.holds other c hc
  · show messagesOf other (e.accepted ++ [(thread, call.content)]) =
      messagesOf other e.wire ++ (e.inFlight lwsPre other ++
        (Function.update e.sendQueue thread (e.sendQueue thread ++ [call.buf]) other).map
          (e.message lwsPre))
    by_cases heq : other = thread
    · subst heq
      rw [messagesOf_append_self, h.delivered, Function.update_self, List.map_append,
        List.map_singleton, hmessage, Endpoint.pending, List.append_assoc, List.append_assoc]
    · rw [messagesOf_append_other (Ne.symm heq), h.delivered, Function.update_of_ne heq,
        Endpoint.pending]

theorem Sound.sendNext {e t : Endpoint τ} (h : Sound lwsPre e) {thread : τ}
    (ht : e.sendNext lwsPre thread = some t) : Sound lwsPre t := by
  obtain ⟨call, hcall, rfl⟩ := Option.map_eq_some_iff.mp ht
  have hholds := h.holds thread call hcall
  cases hphase : call.phase with
  | taken =>
      exact h.fill { call with phase := .cleared } hcall (by rw [hphase]; nofun)
        rfl rfl
  | cleared =>
      rw [Sending.Holds, hphase] at hholds
      refine h.fill { call with phase := .padded } hcall (by rw [hphase]; nofun)
        rfl ?_
      show List.replicate lwsPre 0 ++ e.buffers call.buf = List.replicate lwsPre 0
      rw [hholds, List.append_nil]
  | padded =>
      rw [Sending.Holds, hphase] at hholds
      refine h.fill { call with phase := .filled } hcall (by rw [hphase]; nofun)
        rfl ?_
      show e.buffers call.buf ++ call.content = List.replicate lwsPre 0 ++ call.content
      rw [hholds]
  | filled => exact h.enqueue hcall hphase
  | queued =>
      refine ⟨h.owned.stay (fun other p hp => ?_) rfl rfl rfl, fun other c hc => ?_,
        fun other => ?_⟩
      · rcases Endpoint.setSending_at hp with ⟨_, c, hc, _⟩ | ⟨_, hold⟩
        · cases hc
        · cases p with
          | pooled => exact hold
          | sending other' => exact hold
          | queued other' => exact hold
          | writing => exact hold
      · replace hc : Function.update e.sending thread none other = some c := hc
        by_cases heq : other = thread
        · subst heq
          rw [Function.update_self] at hc
          cases hc
        · rw [Function.update_of_ne heq] at hc
          exact h.holds other c hc
      · exact h.delivered other

/-- The callback begins. -/
theorem Sound.writeable {e t : Endpoint τ} (h : Sound lwsPre e) {thread : Option τ}
    (ht : e.writeable thread = some t) : Sound lwsPre t := by
  unfold Endpoint.writeable at ht
  split at ht
  · rename_i hready
    have hidle : e.writing = none := Option.isNone_iff_eq_none.mp hready.2.2
    have hflight : ∀ other, e.inFlight lwsPre other = [] := by
      intro other
      rw [Endpoint.inFlight, hidle]
    cases thread with
    | none =>
        cases ht
        refine ⟨h.owned.stay (fun other p hp => ?_) rfl rfl rfl, h.holds, fun other => ?_⟩
        · cases p with
          | pooled => exact hp
          | sending other' => exact hp
          | queued other' => exact hp
          | writing =>
              obtain ⟨writing, hw, hholds⟩ := hp
              cases hw
              exact absurd hholds id
        · rw [h.delivered, Endpoint.pending, Endpoint.pending, hflight]
          rfl
    | some thread =>
        dsimp only at ht
        split at ht
        · cases ht
        · rename_i buf queue hqueue
          cases ht
          have hat : e.At buf (.queued thread) := by
            show buf ∈ e.sendQueue thread
            rw [hqueue]
            exact List.mem_cons_self
          have hnodup := h.owned.queue thread
          rw [hqueue] at hnodup
          obtain ⟨hnot, hrest⟩ := List.nodup_cons.mp hnodup
          refine ⟨h.owned.move buf .writing ?_ le_rfl (h.owned.made _ _ hat)
            (fun other => ?_) h.owned.pool, h.holds, fun other => ?_⟩
          · intro other p hp
            cases p with
            | pooled => exact .inr ⟨h.owned.ne (p := .pooled) hp hat nofun, hp⟩
            | sending other' => exact .inr ⟨h.owned.ne (p := .sending other') hp hat nofun, hp⟩
            | writing =>
                obtain ⟨writing, hw, hholds⟩ := hp
                cases hw
                exact .inl ⟨Eq.symm hholds, rfl⟩
            | queued other' =>
                replace hp : other ∈ Function.update e.sendQueue thread queue other' := hp
                by_cases heq : other' = thread
                · subst heq
                  rw [Function.update_self] at hp
                  refine .inr ⟨fun hsame => hnot (hsame ▸ hp), ?_⟩
                  show other ∈ e.sendQueue other'
                  rw [hqueue]
                  exact List.mem_cons_of_mem _ hp
                · rw [Function.update_of_ne heq] at hp
                  refine .inr ⟨h.owned.ne (p := .queued other') hp hat fun hsame => heq ?_, hp⟩
                  cases hsame
                  rfl
          · show (Function.update e.sendQueue thread queue other).Nodup
            by_cases heq : other = thread
            · subst heq
              rw [Function.update_self]
              exact hrest
            · rw [Function.update_of_ne heq]
              exact h.owned.queue other
          · rw [h.delivered, Endpoint.pending, hflight, List.nil_append]
            show _ ++ _ = _ ++ ((if thread = other then [e.message lwsPre buf] else []) ++
              (Function.update e.sendQueue thread queue other).map (e.message lwsPre))
            by_cases heq : thread = other
            · subst heq
              rw [if_pos rfl, Function.update_self, hqueue]
              rfl
            · rw [if_neg heq, Function.update_of_ne (Ne.symm heq)]
              rfl
  · cases ht

/-- The callback hands its buffer to `lws_write`. -/
theorem Sound.written {e : Endpoint τ} (h : Sound lwsPre e) {thread : τ} {buf : Nat}
    (hwriting : e.writing = some (.dequeued thread buf)) (scribbled : List UInt8) :
    Sound lwsPre
      ({ e with
        wire := e.wire ++ [(thread, (e.buffers buf).drop lwsPre)]
        writing := some (.written buf) }.setBuffer buf scribbled) := by
  have hat : e.At buf .writing := ⟨_, hwriting, rfl⟩
  refine ⟨h.owned.stay (fun other p hp => ?_) rfl rfl rfl, fun other c hc => ?_, fun other => ?_⟩
  · cases p with
    | pooled => exact hp
    | sending other' => exact hp
    | queued other' => exact hp
    | writing =>
        obtain ⟨writing, hw, hholds⟩ := hp
        cases hw
        have hsame : buf = other := hholds
        exact hsame ▸ hat
  · by_cases hqueued : c.phase = .queued
    · rw [Sending.Holds, hqueued]
      trivial
    · have hne : c.buf ≠ buf := h.owned.ne (p := .sending other) ⟨c, hc, rfl, hqueued⟩ hat nofun
      show c.Holds lwsPre (Function.update e.buffers buf scribbled c.buf)
      rw [Function.update_of_ne hne]
      exact h.holds other c hc
  · have hqueue : ∀ other' ∈ e.sendQueue other,
        (Function.update e.buffers buf scribbled other').drop lwsPre =
          e.message lwsPre other' := by
      intro other' hmem
      rw [Function.update_of_ne (h.owned.ne (p := .queued other) hmem hat nofun)]
      rfl
    refine (h.delivered other).trans ?_
    rw [Endpoint.pending, Endpoint.inFlight, hwriting]
    show _ ++ ((if thread = other then [e.message lwsPre buf] else []) ++ _) =
      messagesOf other (e.wire ++ [(thread, (e.buffers buf).drop lwsPre)]) ++ ([] ++
        (e.sendQueue other).map fun buf' =>
          (Function.update e.buffers buf scribbled buf').drop lwsPre)
    rw [List.map_congr_left hqueue, List.nil_append]
    by_cases heq : thread = other
    · subst heq
      rw [if_pos rfl, messagesOf_append_self, List.append_assoc]
      rfl
    · rw [if_neg heq, messagesOf_append_other heq, List.nil_append]

/-- The callback gives its buffer back. -/
theorem Sound.recycled {e : Endpoint τ} (h : Sound lwsPre e) {buf : Nat}
    (hwriting : e.writing = some (.written buf)) (kept : Bool) :
    Sound lwsPre { e with
      sendBufPool := if kept then e.sendBufPool ++ [buf] else e.sendBufPool
      writing := some .checking } := by
  have hat : e.At buf .writing := ⟨_, hwriting, rfl⟩
  have hmem : ∀ other, (other ∈ if kept then e.sendBufPool ++ [buf] else e.sendBufPool) →
      other = buf ∨ (other ≠ buf ∧ other ∈ e.sendBufPool) := by
    intro other hother
    split at hother
    · rcases List.mem_append.mp hother with hold | hlast
      · exact .inr ⟨h.owned.ne (p := .pooled) hold hat nofun, hold⟩
      · exact .inl (List.mem_singleton.mp hlast)
    · exact .inr ⟨h.owned.ne (p := .pooled) hother hat nofun, hother⟩
  refine ⟨h.owned.move buf .pooled ?_ le_rfl (h.owned.made _ _ hat)
    h.owned.queue ?_, h.holds, fun other => ?_⟩
  · intro other p hp
    cases p with
    | pooled =>
        rcases hmem other hp with heq | hold
        · exact .inl ⟨heq, rfl⟩
        · exact .inr hold
    | sending other' => exact .inr ⟨h.owned.ne (p := .sending other') hp hat nofun, hp⟩
    | queued other' => exact .inr ⟨h.owned.ne (p := .queued other') hp hat nofun, hp⟩
    | writing =>
        obtain ⟨writing, hw, hholds⟩ := hp
        cases hw
        exact absurd hholds id
  · show (if kept then e.sendBufPool ++ [buf] else e.sendBufPool).Nodup
    split
    · refine List.nodup_append.mpr ⟨h.owned.pool,
        List.nodup_cons.mpr ⟨List.not_mem_nil, List.nodup_nil⟩, fun other hold buf' hlast => ?_⟩
      rw [List.mem_singleton.mp hlast]
      exact h.owned.ne (p := .pooled) hold hat nofun
    · exact h.owned.pool
  · rw [h.delivered, Endpoint.pending, Endpoint.inFlight, hwriting]
    rfl

theorem Sound.writeNext {e t : Endpoint τ} (h : Sound lwsPre e) {scribbled : List UInt8}
    {kept more : Bool} (ht : e.writeNext lwsPre scribbled kept more = some t) :
    Sound lwsPre t := by
  obtain ⟨writing, hwriting, rfl⟩ := Option.map_eq_some_iff.mp ht
  cases writing with
  | dequeued thread buf => exact h.written hwriting scribbled
  | written buf => exact h.recycled hwriting kept
  | checking =>
      refine ⟨h.owned.stay (fun other p hp => ?_) rfl rfl rfl, h.holds, fun other => ?_⟩
      · cases p with
        | pooled => exact hp
        | sending other' => exact hp
        | queued other' => exact hp
        | writing =>
            obtain ⟨_, hw, _⟩ := hp
            cases hw
      · rw [h.delivered, Endpoint.pending, Endpoint.inFlight, hwriting]
        rfl

/-- The state of the connection is of no concern to the buffers. -/
theorem Sound.connection {e : Endpoint τ} (h : Sound lwsPre e)
    (wsi established requested : Bool) :
    Sound lwsPre { e with wsi, established, requested } := by
  refine ⟨h.owned.stay (fun other p hp => ?_) rfl rfl rfl, h.holds, h.delivered⟩
  cases p with
  | pooled => exact hp
  | sending other' => exact hp
  | queued other' => exact hp
  | writing => exact hp

/-- One event. -/
theorem endpointStep_sound {e t : Endpoint τ} {event : Event τ} (h : Sound lwsPre e)
    (ht : endpointStep lwsPre e event = some t) : Sound lwsPre t := by
  cases event with
  | sendData thread content pooled => exact h.sendData ht
  | sendNext thread => exact h.sendNext ht
  | writeable thread => exact h.writeable ht
  | writeNext scribbled kept more => exact h.writeNext ht
  | connect =>
      replace ht : e.connect = some t := ht
      rw [Endpoint.connect] at ht
      split at ht
      · cases ht
      · cases ht
        exact h.connection true false false
  | establish =>
      replace ht : e.establish = some t := ht
      rw [Endpoint.establish] at ht
      split at ht
      · cases ht
        exact h.connection e.wsi true e.requested
      · cases ht
  | setError =>
      replace ht : e.setError = some t := ht
      rw [Endpoint.setError] at ht
      split at ht
      · cases ht
        exact h.connection false false false
      · cases ht

theorem sound_initially : Sound lwsPre ({} : Endpoint τ) := by
  have hnowhere : ∀ buf p, ¬ ({} : Endpoint τ).At buf p := by
    intro buf p hp
    cases p with
    | pooled => exact List.not_mem_nil hp
    | queued thread => exact List.not_mem_nil hp
    | sending thread =>
        obtain ⟨_, hcall, _⟩ := hp
        cases hcall
    | writing =>
        obtain ⟨_, hwriting, _⟩ := hp
        cases hwriting
  refine ⟨⟨fun buf p _ hp => absurd hp (hnowhere buf p), fun buf p hp => absurd hp (hnowhere buf p),
    fun _ => List.nodup_nil, List.nodup_nil⟩, fun _ call hcall => ?_, fun _ => rfl⟩
  cases hcall

/-! ## Runs -/

/-- The messages that a thread has given to `SendData`. -/
def sentBy (thread : τ) (events : List (Event τ)) : List (List UInt8) :=
  events.filterMap fun event =>
    match event with
    | .sendData other content _ => if other = thread then some content else none
    | _ => none

/-- The message of a call that has not put it into the queue. -/
def Endpoint.unfinished (e : Endpoint τ) (thread : τ) : List (List UInt8) :=
  match e.sending thread with
  | some call => if call.phase = .queued then [] else [call.content]
  | none => []

/-- What a thread has given so far. -/
def Endpoint.given (e : Endpoint τ) (thread : τ) : List (List UInt8) :=
  messagesOf thread e.accepted ++ e.unfinished thread

theorem Endpoint.given_setSending {e : Endpoint τ} {thread other : τ} (h : other ≠ thread)
    (call : Option Sending) : (e.setSending thread call).given other = e.given other := by
  have hsame : (e.setSending thread call).sending other = e.sending other :=
    Function.update_of_ne h _ _
  rw [given, given, unfinished, unfinished, hsame]
  rfl

theorem Endpoint.given_self {e : Endpoint τ} {thread : τ} (call : Option Sending) :
    (e.setSending thread call).given thread = messagesOf thread e.accepted ++
      match call with
      | some call => if call.phase = .queued then [] else [call.content]
      | none => [] := by
  have hself : (e.setSending thread call).sending thread = call := Function.update_self thread _ _
  rw [given, unfinished, hself]
  rfl

theorem Endpoint.sendData_cases {e t : Endpoint τ} {thread : τ} {content : List UInt8}
    {pooled : Option Nat} (ht : e.sendData thread content pooled = some t) :
    e.sending thread = none ∧ ∃ sendBufPool made buf,
      t = { e with sendBufPool, made }.setSending thread (some ⟨buf, content, .taken⟩) := by
  unfold sendData at ht
  split at ht
  · rename_i buf hidle
    split at ht
    · cases ht
      exact ⟨hidle, _, _, buf, rfl⟩
    · cases ht
  · rename_i hidle
    cases ht
    exact ⟨hidle, _, _, _, rfl⟩
  · cases ht

theorem Endpoint.writeable_cases {e t : Endpoint τ} {thread : Option τ}
    (ht : e.writeable thread = some t) :
    e.requested = true ∧ ∃ sendQueue writing,
      t = { e with requested := false, sendQueue, writing := some writing } := by
  unfold writeable at ht
  split at ht
  · rename_i hready
    refine ⟨hready.1, ?_⟩
    cases thread with
    | none =>
        cases ht
        exact ⟨e.sendQueue, .checking, rfl⟩
    | some thread =>
        dsimp only at ht
        split at ht
        · cases ht
        · cases ht
          exact ⟨_, _, rfl⟩
  · cases ht

theorem endpointStep_given {e t : Endpoint τ} {event : Event τ}
    (ht : endpointStep lwsPre e event = some t) (thread : τ) :
    t.given thread = e.given thread ++ sentBy thread [event] := by
  cases event with
  | sendData other content pooled =>
      obtain ⟨hidle, pool, made, buf, rfl⟩ := Endpoint.sendData_cases ht
      by_cases heq : other = thread
      · subst heq
        have hgiven : e.given other = messagesOf other e.accepted := by
          rw [Endpoint.given, Endpoint.unfinished, hidle]
          exact List.append_nil _
        rw [Endpoint.given_self, hgiven]
        simp [sentBy]
      · rw [Endpoint.given_setSending (Ne.symm heq)]
        have hnone : sentBy thread [.sendData other content pooled] = [] := by simp [sentBy, heq]
        rw [hnone]
        exact (List.append_nil _).symm
  | sendNext other =>
      obtain ⟨call, hcall, rfl⟩ := Option.map_eq_some_iff.mp ht
      show _ = e.given thread ++ []
      rw [List.append_nil]
      by_cases heq : thread = other
      · subst heq
        have hgiven : e.given thread = messagesOf thread e.accepted ++
            if call.phase = .queued then [] else [call.content] := by
          rw [Endpoint.given, Endpoint.unfinished, hcall]
        rw [hgiven]
        cases hphase : call.phase with
        | taken => exact Endpoint.given_self _
        | cleared => exact Endpoint.given_self _
        | padded => exact Endpoint.given_self _
        | filled =>
            refine (Endpoint.given_self _).trans ?_
            show messagesOf thread (e.accepted ++ [(thread, call.content)]) ++ [] = _
            rw [messagesOf_append_self, List.append_nil]
            rfl
        | queued => exact Endpoint.given_self none
      · cases call.phase with
        | taken => exact Endpoint.given_setSending heq _
        | cleared => exact Endpoint.given_setSending heq _
        | padded => exact Endpoint.given_setSending heq _
        | filled =>
            refine (Endpoint.given_setSending heq _).trans ?_
            show messagesOf thread (e.accepted ++ [(other, call.content)]) ++
              e.unfinished thread = _
            rw [messagesOf_append_other (Ne.symm heq)]
            rfl
        | queued => exact Endpoint.given_setSending heq none
  | writeable other =>
      obtain ⟨_, queue, writing, rfl⟩ := Endpoint.writeable_cases ht
      exact (List.append_nil _).symm
  | writeNext scribbled kept more =>
      obtain ⟨writing, hwriting, rfl⟩ := Option.map_eq_some_iff.mp ht
      show _ = e.given thread ++ []
      rw [List.append_nil]
      cases writing with
      | dequeued other buf => rfl
      | written buf => rfl
      | checking => rfl
  | connect =>
      replace ht : e.connect = some t := ht
      rw [Endpoint.connect] at ht
      split at ht
      · cases ht
      · cases ht
        exact (List.append_nil _).symm
  | establish =>
      replace ht : e.establish = some t := ht
      rw [Endpoint.establish] at ht
      split at ht
      · cases ht
        exact (List.append_nil _).symm
      · cases ht
  | setError =>
      replace ht : e.setError = some t := ht
      rw [Endpoint.setError] at ht
      split at ht
      · cases ht
        exact (List.append_nil _).symm
      · cases ht

theorem sentBy_append (thread : τ) (first second : List (Event τ)) :
    sentBy thread (first ++ second) = sentBy thread first ++ sentBy thread second :=
  List.filterMap_append

/-- A run adds to what a thread has given the messages that it sends. -/
theorem exec_given {events : List (Event τ)} {e t : Endpoint τ}
    (hrun : exec (endpointStep lwsPre) e events = some t) (thread : τ) :
    t.given thread = e.given thread ++ sentBy thread events := by
  induction events generalizing e with
  | nil =>
      cases hrun
      exact (List.append_nil _).symm
  | cons event events ih =>
      obtain ⟨u, hu, hrest⟩ := exec_cons_eq_some.mp hrun
      rw [ih hrest, endpointStep_given hu, List.append_assoc, ← sentBy_append]
      rfl

theorem exec_sound {events : List (Event τ)} {e : Endpoint τ}
    (hrun : exec (endpointStep lwsPre) {} events = some e) : Sound lwsPre e := by
  have hstep : ∀ (e : Endpoint τ) event t, Sound lwsPre e → True →
      endpointStep lwsPre e event = some t → Sound lwsPre t :=
    fun _ _ _ h _ ht => endpointStep_sound h ht
  exact exec_invariant hstep sound_initially (guarded_true _ events) hrun

/-- The messages that were written of a thread, those that wait and the one that is being put into
the queue are together what the thread has sent, in its order. -/
theorem messages_written_in_order {events : List (Event τ)} {e : Endpoint τ}
    (hrun : exec (endpointStep lwsPre) {} events = some e) (thread : τ) :
    sentBy thread events =
      messagesOf thread e.wire ++ e.pending lwsPre thread ++ e.unfinished thread := by
  have hgiven := exec_given hrun thread
  rw [Endpoint.given, (exec_sound hrun).delivered] at hgiven
  exact hgiven.symm

/-- Two threads send at a time, and the first buffer is used again. -/
theorem two_threads_written :
    ∃ e, exec (endpointStep 1) {} [.connect, .establish, .sendData true [1] none,
        .sendData false [2] none, .sendNext false, .sendNext true, .sendNext true, .sendNext true,
        .sendNext true, .sendNext true, .writeable (some true), .writeNext [9, 9] true true,
        .writeNext [] true true, .sendData true [3] (some 0)] = some e ∧
      [[1], [3]] = messagesOf true e.wire ++ e.pending 1 true ++ e.unfinished true := by
  obtain ⟨e, he⟩ : ∃ e, exec (endpointStep 1) {} [.connect, .establish, .sendData true [1] none,
        .sendData false [2] none, .sendNext false, .sendNext true, .sendNext true, .sendNext true,
        .sendNext true, .sendNext true, .writeable (some true), .writeNext [9, 9] true true,
        .writeNext [] true true, .sendData true [3] (some 0)] = some e := ⟨_, rfl⟩
  exact ⟨e, he, messages_written_in_order he true⟩

/-! ## Whether a message will be written -/

/-- The send queue is not empty. -/
def Endpoint.Waiting (e : Endpoint τ) : Prop := ∃ thread, e.sendQueue thread ≠ []

/-- A call that has put its buffer into the queue but has not asked for a callback. -/
def Endpoint.Asking (e : Endpoint τ) : Prop :=
  ∃ thread call, e.sending thread = some call ∧ call.phase = .queued

/-- What an event needs for the queue to be served: who asks for a callback finds the connection,
it is lost only when the queue is empty, and `size_approx` sees a queue that is not. -/
def Endpoint.Served (e : Endpoint τ) : Event τ → Prop
  | .sendNext thread => ∀ call, e.sending thread = some call → call.phase = .queued → e.wsi = true
  | .writeNext _ _ more => e.Waiting → more = true
  | .setError => ¬ e.Waiting
  | _ => True

/-- A callback is asked for and runs only over a connection. -/
structure Linked (e : Endpoint τ) : Prop where
  requested : e.requested = true → e.wsi = true
  writing : e.writing ≠ none → e.wsi = true

theorem endpointStep_linked {e t : Endpoint τ} {event : Event τ} (h : Linked e)
    (ht : endpointStep lwsPre e event = some t) : Linked t := by
  cases event with
  | sendData thread content pooled =>
      obtain ⟨_, pool, made, buf, rfl⟩ := Endpoint.sendData_cases ht
      exact ⟨h.requested, h.writing⟩
  | sendNext thread =>
      obtain ⟨call, hcall, rfl⟩ := Option.map_eq_some_iff.mp ht
      cases call.phase with
      | taken => exact ⟨h.requested, h.writing⟩
      | cleared => exact ⟨h.requested, h.writing⟩
      | padded => exact ⟨h.requested, h.writing⟩
      | filled => exact ⟨h.requested, h.writing⟩
      | queued =>
          refine ⟨fun hasked => ?_, h.writing⟩
          rcases (Bool.or_eq_true _ _).mp hasked with hold | hwsi
          · exact h.requested hold
          · exact hwsi
  | writeable thread =>
      obtain ⟨hrequested, queue, writing, rfl⟩ := Endpoint.writeable_cases ht
      exact ⟨nofun, fun _ => h.requested hrequested⟩
  | writeNext scribbled kept more =>
      obtain ⟨writing, hwriting, rfl⟩ := Option.map_eq_some_iff.mp ht
      have hwsi : e.wsi = true := h.writing (by rw [hwriting]; nofun)
      cases writing with
      | dequeued thread buf => exact ⟨fun _ => hwsi, fun _ => hwsi⟩
      | written buf => exact ⟨fun _ => hwsi, fun _ => hwsi⟩
      | checking => exact ⟨fun _ => hwsi, fun _ => hwsi⟩
  | connect =>
      replace ht : e.connect = some t := ht
      rw [Endpoint.connect] at ht
      split at ht
      · cases ht
      · cases ht
        exact ⟨fun _ => rfl, fun _ => rfl⟩
  | establish =>
      replace ht : e.establish = some t := ht
      rw [Endpoint.establish] at ht
      split at ht
      · cases ht
        exact ⟨h.requested, h.writing⟩
      · cases ht
  | setError =>
      replace ht : e.setError = some t := ht
      rw [Endpoint.setError] at ht
      split at ht
      · rename_i hidle
        cases ht
        refine ⟨nofun, fun hwriting => absurd ?_ hwriting⟩
        exact Option.isNone_iff_eq_none.mp hidle.2
      · cases ht

/-- As long as something waits, somebody will see to it. -/
def Awake (e : Endpoint τ) : Prop :=
  e.Waiting → e.requested = true ∨ e.writing ≠ none ∨ e.Asking

theorem Endpoint.Asking.setSending {e : Endpoint τ} (h : e.Asking) {thread : τ}
    (hnot : ∀ call, e.sending thread = some call → call.phase ≠ .queued) (call : Option Sending) :
    (e.setSending thread call).Asking := by
  obtain ⟨other, c, hc, hphase⟩ := h
  refine ⟨other, c, (Function.update_of_ne ?_ _ _).trans hc, hphase⟩
  rintro rfl
  exact hnot c hc hphase

theorem endpointStep_awake {e t : Endpoint τ} {event : Event τ} (h : Awake e) (hlinked : Linked e)
    (hserved : e.Served event) (ht : endpointStep lwsPre e event = some t) : Awake t := by
  cases event with
  | sendData thread content pooled =>
      obtain ⟨hidle, pool, made, buf, rfl⟩ := Endpoint.sendData_cases ht
      intro hwaiting
      refine (h hwaiting).imp_right (Or.imp_right fun hasking => ?_)
      refine Endpoint.Asking.setSending (e := { e with sendBufPool := pool, made := made }) hasking
        (fun call hcall => ?_) _
      cases hidle.symm.trans hcall
  | sendNext thread =>
      obtain ⟨call, hcall, rfl⟩ := Option.map_eq_some_iff.mp ht
      cases hphase : call.phase with
      | taken =>
          intro hwaiting
          refine (h hwaiting).imp_right (Or.imp_right fun hasking => ?_)
          refine Endpoint.Asking.setSending (e := e.setBuffer call.buf []) hasking
            (fun c hc => ?_) _
          cases hcall.symm.trans hc
          rw [hphase]
          nofun
      | cleared =>
          intro hwaiting
          refine (h hwaiting).imp_right (Or.imp_right fun hasking => ?_)
          refine Endpoint.Asking.setSending (e := e.setBuffer call.buf _) hasking (fun c hc => ?_) _
          cases hcall.symm.trans hc
          rw [hphase]
          nofun
      | padded =>
          intro hwaiting
          refine (h hwaiting).imp_right (Or.imp_right fun hasking => ?_)
          refine Endpoint.Asking.setSending (e := e.setBuffer call.buf _) hasking (fun c hc => ?_) _
          cases hcall.symm.trans hc
          rw [hphase]
          nofun
      | filled =>
          exact fun _ => .inr (.inr ⟨thread, _, Function.update_self thread _ _, rfl⟩)
      | queued =>
          intro _
          have hwsi := hserved call hcall hphase
          refine .inl ?_
          show (e.requested || e.wsi) = true
          rw [hwsi, Bool.or_true]
  | writeable thread =>
      obtain ⟨_, queue, writing, rfl⟩ := Endpoint.writeable_cases ht
      exact fun _ => .inr (.inl nofun)
  | writeNext scribbled kept more =>
      obtain ⟨writing, hwriting, rfl⟩ := Option.map_eq_some_iff.mp ht
      cases writing with
      | dequeued thread buf => exact fun _ => .inr (.inl nofun)
      | written buf => exact fun _ => .inr (.inl nofun)
      | checking =>
          intro hwaiting
          have hmore : more = true := hserved hwaiting
          refine .inl ?_
          show (e.requested || more) = true
          rw [hmore, Bool.or_true]
  | connect =>
      replace ht : e.connect = some t := ht
      rw [Endpoint.connect] at ht
      split at ht
      · cases ht
      · rename_i hwsi
        cases ht
        exact fun hwaiting =>
          .inr ((h hwaiting).resolve_left fun hasked => hwsi (hlinked.requested hasked))
  | establish =>
      replace ht : e.establish = some t := ht
      rw [Endpoint.establish] at ht
      split at ht
      · cases ht
        exact h
      · cases ht
  | setError =>
      replace ht : e.setError = some t := ht
      rw [Endpoint.setError] at ht
      split at ht
      · cases ht
        exact fun hwaiting => absurd hwaiting hserved
      · cases ht

omit [DecidableEq τ] in
theorem linked_initially : Linked ({} : Endpoint τ) := ⟨nofun, fun h => absurd rfl h⟩

/-- Nobody sends, and no callback is asked for. -/
structure Silent (wire : List (τ × List UInt8)) (queue : τ → List Nat) (e : Endpoint τ) : Prop where
  requested : e.requested = false
  writing : e.writing = none
  sending : ∀ thread, e.sending thread = none
  wire : e.wire = wire
  queue : e.sendQueue = queue

theorem endpointStep_silent {wire : List (τ × List UInt8)} {queue : τ → List Nat}
    {e t : Endpoint τ} {event : Event τ} (h : Silent wire queue e)
    (hnothing : ∀ thread content pooled, event ≠ .sendData thread content pooled)
    (ht : endpointStep lwsPre e event = some t) : Silent wire queue t := by
  cases event with
  | sendData thread content pooled => exact absurd rfl (hnothing thread content pooled)
  | sendNext thread =>
      obtain ⟨call, hcall, _⟩ := Option.map_eq_some_iff.mp ht
      cases hcall.symm.trans (h.sending thread)
  | writeable thread =>
      obtain ⟨hrequested, _⟩ := Endpoint.writeable_cases ht
      cases hrequested.symm.trans h.requested
  | writeNext scribbled kept more =>
      obtain ⟨writing, hwriting, _⟩ := Option.map_eq_some_iff.mp ht
      cases hwriting.symm.trans h.writing
  | connect =>
      replace ht : e.connect = some t := ht
      rw [Endpoint.connect] at ht
      split at ht
      · cases ht
      · cases ht
        exact ⟨rfl, h.writing, h.sending, h.wire, h.queue⟩
  | establish =>
      replace ht : e.establish = some t := ht
      rw [Endpoint.establish] at ht
      split at ht
      · cases ht
        exact ⟨h.requested, h.writing, h.sending, h.wire, h.queue⟩
      · cases ht
  | setError =>
      replace ht : e.setError = some t := ht
      rw [Endpoint.setError] at ht
      split at ht
      · cases ht
        exact ⟨rfl, h.writing, h.sending, h.wire, h.queue⟩
      · cases ht

end Utilpp.Websocket

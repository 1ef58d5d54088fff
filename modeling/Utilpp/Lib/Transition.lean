import Mathlib.Data.List.Basic
import Mathlib.Order.WellFounded

/-!
# Runs of a partial transition function

A system is a function `step : σ → ι → Option σ` from a state and a label to the next
state. `none` means that the step has no defined result. `exec` runs a list of labels,
`Guarded` says that every step of a run meets a condition on the state it starts from,
and `exec_invariant` is the induction over runs that every safety proof uses. An endless run is a
sequence of states. `trace` collects what is observed of the steps of a run.
-/

namespace Utilpp.Lib

variable {σ ι : Type*}

/-- Runs the labels from left to right and stops at the first undefined step. -/
def exec (step : σ → ι → Option σ) : σ → List ι → Option σ
  | s, [] => some s
  | s, l :: ls =>
      match step s l with
      | some t => exec step t ls
      | none => none

/-- Every step of the run from `s` meets `ok` in the state it is taken from. -/
def Guarded (step : σ → ι → Option σ) (ok : σ → ι → Prop) : σ → List ι → Prop
  | _, [] => True
  | s, l :: ls => ok s l ∧ ∀ t, step s l = some t → Guarded step ok t ls

variable {step : σ → ι → Option σ} {ok : σ → ι → Prop}

@[simp] theorem exec_nil (s : σ) : exec step s [] = some s := rfl

theorem exec_cons (s : σ) (l : ι) (ls : List ι) :
    exec step s (l :: ls) = (step s l).bind fun t => exec step t ls := by
  rw [exec]
  cases step s l <;> rfl

/-- A run of a nonempty label list is one step followed by a run of the rest. -/
theorem exec_cons_eq_some {s u : σ} {l : ι} {ls : List ι} :
    exec step s (l :: ls) = some u ↔ ∃ t, step s l = some t ∧ exec step t ls = some u := by
  rw [exec_cons, Option.bind_eq_some_iff]

/-- A run of an appended label list is a run of the second part after one of the first. -/
theorem exec_append (s : σ) (first second : List ι) :
    exec step s (first ++ second) = (exec step s first).bind fun t => exec step t second := by
  induction first generalizing s with
  | nil => rfl
  | cons l ls ih =>
      rw [List.cons_append, exec_cons, exec_cons, Option.bind_assoc]
      exact congrArg _ (funext ih)

/-- A run of an appended label list is two runs joined at an intermediate state. -/
theorem exec_append_eq_some {s u : σ} {first second : List ι} :
    exec step s (first ++ second) = some u ↔
      ∃ t, exec step s first = some t ∧ exec step t second = some u := by
  rw [exec_append, Option.bind_eq_some_iff]

/-- A loop that performs one step for each element of a list is a run. -/
theorem exec_map {α : Type*} (f : α → ι) (s : σ) (xs : List α) :
    exec step s (xs.map f) = xs.foldlM (fun s x => step s (f x)) s := by
  induction xs generalizing s with
  | nil => rfl
  | cons x xs ih =>
      rw [List.map_cons, List.foldlM_cons, exec_cons]
      exact congrArg _ (funext ih)

/-- A loop whose steps are all defined is a run as well. -/
theorem exec_map_of_total {α : Type*} {f : α → ι} {g : σ → α → σ}
    (h : ∀ s x, step s (f x) = some (g s x)) (s : σ) (xs : List α) :
    exec step s (xs.map f) = some (xs.foldl g s) := by
  induction xs generalizing s with
  | nil => rfl
  | cons x xs ih =>
      rw [List.map_cons, exec_cons, h, List.foldl_cons]
      exact ih (g s x)

/-- A run can be checked step by step when its condition can. -/
instance Guarded.decidable [∀ s l, Decidable (ok s l)] :
    (s : σ) → (ls : List ι) → Decidable (Guarded step ok s ls)
  | _, [] => .isTrue trivial
  | s, l :: ls =>
      match h : step s l with
      | none =>
          decidable_of_iff (ok s l)
            ⟨fun hok => ⟨hok, fun _ ht => nomatch h.symm.trans ht⟩, fun hok => hok.1⟩
      | some t =>
          have := Guarded.decidable t ls
          decidable_of_iff (ok s l ∧ Guarded step ok t ls)
            ⟨fun hok => ⟨hok.1, fun _ hu => Option.some.inj (h.symm.trans hu) ▸ hok.2⟩,
              fun hok => ⟨hok.1, hok.2 t h⟩⟩

/-- A condition that always holds guards every run. -/
theorem guarded_of_forall (h : ∀ s l, ok s l) (s : σ) (ls : List ι) : Guarded step ok s ls := by
  induction ls generalizing s with
  | nil => trivial
  | cons l ls ih => exact ⟨h s l, fun t _ => ih t⟩

/-- Every run is guarded by the condition that is always met. -/
theorem guarded_true (s : σ) (ls : List ι) : Guarded step (fun _ _ => True) s ls :=
  guarded_of_forall (fun _ _ => trivial) s ls

/-- Two conditions that guard a run guard it together. -/
theorem Guarded.and {ok' : σ → ι → Prop} {s : σ} {ls : List ι} (h : Guarded step ok s ls)
    (h' : Guarded step ok' s ls) : Guarded step (fun s l => ok s l ∧ ok' s l) s ls := by
  induction ls generalizing s with
  | nil => trivial
  | cons l ls ih => exact ⟨⟨h.1, h'.1⟩, fun t ht => ih (h.2 t ht) (h'.2 t ht)⟩

/-- A weaker condition guards a run as well. -/
theorem Guarded.mono {ok' : σ → ι → Prop} {s : σ} {ls : List ι} (h : Guarded step ok s ls)
    (hweaker : ∀ s l, ok s l → ok' s l) : Guarded step ok' s ls := by
  induction ls generalizing s with
  | nil => trivial
  | cons l ls ih => exact ⟨hweaker s l h.1, fun t ht => ih (h.2 t ht)⟩

/-- A condition on labels that all labels of a run meet guards the run. -/
theorem guarded_of_mem {q : ι → Prop} {ls : List ι} (h : ∀ l ∈ ls, q l) (s : σ) :
    Guarded step (fun _ l => q l) s ls := by
  induction ls generalizing s with
  | nil => trivial
  | cons l ls ih =>
      exact ⟨h l List.mem_cons_self, fun t _ => ih (fun l hl => h l (List.mem_cons_of_mem _ hl)) t⟩

/-- The first part of a guarded run is guarded. -/
theorem Guarded.left {s : σ} {first second : List ι}
    (h : Guarded step ok s (first ++ second)) : Guarded step ok s first := by
  induction first generalizing s with
  | nil => trivial
  | cons l ls ih => exact ⟨h.1, fun t ht => ih (h.2 t ht)⟩

/-- A guarded run splits into two guarded runs at every intermediate state. -/
theorem Guarded.of_append {s t : σ} {first second : List ι}
    (h : Guarded step ok s (first ++ second)) (ht : exec step s first = some t) :
    Guarded step ok s first ∧ Guarded step ok t second := by
  induction first generalizing s with
  | nil =>
      cases ht
      exact ⟨trivial, h⟩
  | cons l ls ih =>
      obtain ⟨v, hv, hrun⟩ := exec_cons_eq_some.mp ht
      obtain ⟨hl, hrest⟩ := ih (h.2 v hv) hrun
      refine ⟨⟨h.1, fun w hw => ?_⟩, hrest⟩
      rw [hv, Option.some.injEq] at hw
      exact hw ▸ hl

/-- A property that every permitted step preserves holds at the end of every guarded run. -/
theorem exec_invariant {inv : σ → Prop}
    (hstep : ∀ s l t, inv s → ok s l → step s l = some t → inv t)
    {s t : σ} {ls : List ι} (hs : inv s) (hok : Guarded step ok s ls)
    (hrun : exec step s ls = some t) : inv t := by
  induction ls generalizing s with
  | nil =>
      cases hrun
      exact hs
  | cons l ls ih =>
      obtain ⟨u, hu, hrest⟩ := exec_cons_eq_some.mp hrun
      exact ih (hstep s l u hs hok.1 hu) (hok.2 u hu) hrest

/-- A relation to an abstract state that follows the labels, when every permitted step keeps it,
holds at the end of every guarded run. -/
theorem exec_simulates {α : Type*} {next : α → ι → α} {rel : α → σ → Prop}
    (hstep : ∀ a s l t, rel a s → ok s l → step s l = some t → rel (next a l) t)
    {a : α} {s t : σ} {ls : List ι} (hs : rel a s) (hok : Guarded step ok s ls)
    (hrun : exec step s ls = some t) : rel (ls.foldl next a) t := by
  induction ls generalizing a s with
  | nil =>
      cases hrun
      exact hs
  | cons l ls ih =>
      obtain ⟨u, hu, hrest⟩ := exec_cons_eq_some.mp hrun
      exact ih (hstep a s l u hs hok.1 hu) (hok.2 u hu) hrest

/-- When permitted steps preserve the property and are never undefined, a guarded run reaches
a state. -/
theorem exec_defined {inv : σ → Prop}
    (hstep : ∀ s l, inv s → ok s l → ∃ t, step s l = some t ∧ inv t)
    {s : σ} {ls : List ι} (hs : inv s) (hok : Guarded step ok s ls) :
    ∃ t, exec step s ls = some t ∧ inv t := by
  induction ls generalizing s with
  | nil => exact ⟨s, rfl, hs⟩
  | cons l ls ih =>
      obtain ⟨u, hu, hinv⟩ := hstep s l hs hok.1
      obtain ⟨t, ht, hfinal⟩ := ih hinv (hok.2 u hu)
      exact ⟨t, exec_cons_eq_some.mpr ⟨u, hu, ht⟩, hfinal⟩

/-- The same when the abstract state follows the labels. -/
theorem exec_follows {α : Type*} {next : α → ι → α} (rel : α → σ → Prop)
    (hstep : ∀ a s l, rel a s → ok s l → ∃ t, step s l = some t ∧ rel (next a l) t)
    {a : α} {s : σ} {ls : List ι} (hs : rel a s) (hok : Guarded step ok s ls) :
    ∃ t, exec step s ls = some t ∧ rel (ls.foldl next a) t := by
  induction ls generalizing a s with
  | nil => exact ⟨s, rfl, hs⟩
  | cons l ls ih =>
      obtain ⟨u, hu, hrel⟩ := hstep a s l hs hok.1
      obtain ⟨t, ht, hfinal⟩ := ih hrel (hok.2 u hu)
      exact ⟨t, exec_cons_eq_some.mpr ⟨u, hu, ht⟩, hfinal⟩

/-- When a step that is not permitted spoils the state for good, a run that is not guarded ends in
a spoiled state. -/
theorem exec_spoiled {inv bad : σ → Prop}
    (hstep : ∀ s l, inv s → ok s l → ∃ t, step s l = some t ∧ inv t)
    (hfail : ∀ s l t, inv s → ¬ ok s l → step s l = some t → bad t)
    (hbad : ∀ s l t, bad s → step s l = some t → bad t)
    {s t : σ} {ls : List ι} (hs : inv s) (hok : ¬ Guarded step ok s ls)
    (hrun : exec step s ls = some t) : bad t := by
  induction ls generalizing s with
  | nil => exact absurd trivial hok
  | cons l ls ih =>
      obtain ⟨u, hu, hrest⟩ := exec_cons_eq_some.mp hrun
      by_cases hl : ok s l
      · obtain ⟨v, hv, hinv⟩ := hstep s l hs hl
        cases hu.symm.trans hv
        refine ih hinv (fun hguard => hok ⟨hl, fun w hw => ?_⟩) hrest
        cases hu.symm.trans hw
        exact hguard
      · have hkeep : ∀ s l t, bad s → True → step s l = some t → bad t :=
          fun s l t h _ => hbad s l t h
        exact exec_invariant hkeep (hfail s l u hs hl hu) (guarded_true u ls) hrest

/-- The same for runs whose steps all meet a condition. -/
theorem exec_spoiled_of {inv bad : σ → Prop} {pre : σ → ι → Prop}
    (hstep : ∀ s l, inv s → pre s l → ok s l → ∃ t, step s l = some t ∧ inv t)
    (hfail : ∀ s l t, inv s → pre s l → ¬ ok s l → step s l = some t → bad t)
    (hbad : ∀ s l t, bad s → pre s l → step s l = some t → bad t)
    {s t : σ} {ls : List ι} (hs : inv s) (hpre : Guarded step pre s ls)
    (hok : ¬ Guarded step ok s ls) (hrun : exec step s ls = some t) : bad t := by
  induction ls generalizing s with
  | nil => exact absurd trivial hok
  | cons l ls ih =>
      obtain ⟨u, hu, hrest⟩ := exec_cons_eq_some.mp hrun
      by_cases hl : ok s l
      · obtain ⟨v, hv, hinv⟩ := hstep s l hs hpre.1 hl
        cases hu.symm.trans hv
        refine ih hinv (hpre.2 u hu) (fun hguard => hok ⟨hl, fun w hw => ?_⟩) hrest
        cases hu.symm.trans hw
        exact hguard
      · exact exec_invariant hbad (hfail s l u hs hpre.1 hl hu) (hpre.2 u hu) hrest

/-- When a step that is not permitted leads to a state without the property, the property holds in
every state of a run exactly when the run is guarded. -/
theorem exec_always_iff {inv good : σ → Prop} (hgood : ∀ s, inv s → good s)
    (hstep : ∀ s l t, inv s → ok s l → step s l = some t → inv t)
    (hfail : ∀ s l, inv s → ¬ ok s l → ∃ t, step s l = some t ∧ ¬ good t)
    {s : σ} (hs : inv s) (ls : List ι) :
    (∀ first, first <+: ls → ∀ t, exec step s first = some t → good t) ↔ Guarded step ok s ls := by
  constructor
  · intro h
    induction ls generalizing s with
    | nil => trivial
    | cons l ls ih =>
        have hl : ok s l := by
          by_contra hnot
          obtain ⟨t, ht, hbad⟩ := hfail s l hs hnot
          refine hbad (h [l] (List.prefix_append [l] ls) t ?_)
          rw [exec_cons, ht]
          rfl
        refine ⟨hl, fun t ht => ih (hstep s l t hs hl ht) fun first hfirst u hu => ?_⟩
        exact h (l :: first) ((List.prefix_cons_inj l).mpr hfirst) u
          (exec_cons_eq_some.mpr ⟨t, ht, hu⟩)
  · rintro hguard first ⟨second, rfl⟩ t ht
    exact hgood t (exec_invariant hstep hs (hguard.of_append ht).1 ht)

/-- When the permitted steps are defined and keep the property and no other step leads to a state
that has it, every beginning of a run reaches such a state exactly when the run is guarded. -/
theorem exec_defined_iff {inv good : σ → Prop} {pre : σ → ι → Prop} (hgood : ∀ s, inv s → good s)
    (hstep : ∀ s l, inv s → pre s l ∧ ok s l → ∃ t, step s l = some t ∧ inv t)
    (hfail : ∀ s l t, inv s → pre s l → ¬ ok s l → step s l = some t → ¬ good t)
    {s : σ} {ls : List ι} (hs : inv s) (hpre : Guarded step pre s ls) :
    (∀ first, first <+: ls → ∃ t, exec step s first = some t ∧ good t) ↔
      Guarded step ok s ls := by
  constructor
  · intro h
    induction ls generalizing s with
    | nil => trivial
    | cons l ls ih =>
        have hl : ok s l := by
          by_contra hnot
          obtain ⟨t, ht, hafter⟩ := h [l] (List.prefix_append [l] ls)
          obtain ⟨u, hu, hrest⟩ := exec_cons_eq_some.mp ht
          cases hrest
          exact hfail s l t hs hpre.1 hnot hu hafter
        refine ⟨hl, fun t ht => ?_⟩
        obtain ⟨u, hu, hinv⟩ := hstep s l hs ⟨hpre.1, hl⟩
        cases ht.symm.trans hu
        refine ih hinv (hpre.2 t ht) fun first hfirst => ?_
        obtain ⟨v, hv, hlast⟩ := h (l :: first) ((List.prefix_cons_inj l).mpr hfirst)
        obtain ⟨w, hw, hrest⟩ := exec_cons_eq_some.mp hv
        cases ht.symm.trans hw
        exact ⟨v, hrest, hlast⟩
  · rintro hguard first ⟨second, rfl⟩
    obtain ⟨t, ht, hinv⟩ := exec_defined hstep hs (hpre.and hguard).left
    exact ⟨t, ht, hgood t hinv⟩

/-- The same when a step that is not permitted is undefined. -/
theorem exec_prefixes_iff {inv good : σ → Prop} {pre : σ → ι → Prop} (hgood : ∀ s, inv s → good s)
    (hstep : ∀ s l, inv s → pre s l ∧ ok s l → ∃ t, step s l = some t ∧ inv t)
    (hfail : ∀ s l, inv s → ¬ ok s l → step s l = none)
    {s : σ} {ls : List ι} (hs : inv s) (hpre : Guarded step pre s ls) :
    (∀ first, first <+: ls → ∃ t, exec step s first = some t ∧ good t) ↔
      Guarded step ok s ls := by
  refine exec_defined_iff hgood hstep (fun s l t hs _ hnot ht => ?_) hs hpre
  rw [hfail s l hs hnot] at ht
  cases ht

/-! ## Endless runs -/

/-- A property that every permitted step preserves holds in every state of an endless run. -/
theorem endless_invariant {inv : σ → Prop}
    (hstep : ∀ s l t, inv s → step s l = some t → inv t) {run : Nat → σ} {next : Nat → ι}
    (hs : inv (run 0)) (hrun : ∀ n, step (run n) (next n) = some (run (n + 1))) (n : Nat) :
    inv (run n) := by
  induction n with
  | zero => exact hs
  | succ n ih => exact hstep _ _ _ ih (hrun n)

/-- What changes only when a measure of it decreases stays the same in the end. -/
theorem eventually_constant {α : Type*} {f : Nat → α} (measure : α → Nat)
    (h : ∀ n, f (n + 1) = f n ∨ measure (f (n + 1)) < measure (f n)) :
    ∃ last, ∀ n, last ≤ n → f n = f last := by
  refine ⟨Function.argmin fun n => measure (f n), fun n hn => ?_⟩
  induction n, hn using Nat.le_induction with
  | base => rfl
  | succ n hn ih =>
      rcases h n with hsame | hless
      · exact hsame.trans ih
      · rw [ih] at hless
        exact absurd hless (Function.not_lt_argmin (fun n => measure (f n)) (n + 1))

/-! ## Observations -/

variable {β : Type*} {observe : σ → ι → List β}

/-- What is observed of the steps of the run, up to the first undefined step. -/
def trace (step : σ → ι → Option σ) (observe : σ → ι → List β) : σ → List ι → List β
  | _, [] => []
  | s, l :: ls =>
      match step s l with
      | some t => observe s l ++ trace step observe t ls
      | none => []

theorem trace_cons {s t : σ} {l : ι} (h : step s l = some t) (ls : List ι) :
    trace step observe s (l :: ls) = observe s l ++ trace step observe t ls := by
  rw [trace, h]

theorem trace_append {s t : σ} {first : List ι} (h : exec step s first = some t)
    (second : List ι) :
    trace step observe s (first ++ second) =
      trace step observe s first ++ trace step observe t second := by
  induction first generalizing s with
  | nil =>
      cases h
      rfl
  | cons l ls ih =>
      obtain ⟨u, hu, hrest⟩ := exec_cons_eq_some.mp h
      rw [List.cons_append, trace_cons hu, trace_cons hu, ih hrest, List.append_assoc]

/-- A relation between what was observed and the state, when every permitted step keeps it, holds
at the end of every guarded run. -/
theorem trace_invariant {inv : List β → σ → Prop}
    (hstep : ∀ seen s l t, inv seen s → ok s l → step s l = some t → inv (seen ++ observe s l) t)
    {seen : List β} {s t : σ} {ls : List ι} (hs : inv seen s) (hok : Guarded step ok s ls)
    (hrun : exec step s ls = some t) : inv (seen ++ trace step observe s ls) t := by
  induction ls generalizing seen s with
  | nil =>
      cases hrun
      rw [trace, List.append_nil]
      exact hs
  | cons l ls ih =>
      obtain ⟨u, hu, hrest⟩ := exec_cons_eq_some.mp hrun
      rw [trace_cons hu, ← List.append_assoc]
      exact ih (hstep seen s l u hs hok.1 hu) (hok.2 u hu) hrest

end Utilpp.Lib

import Mathlib.Algebra.Ring.Nat
import Mathlib.Data.List.Basic

/-!
# Spans handed out by bumping an offset

A span is a run of cells of one owner. An allocator that only moves an offset forward hands out
spans that start where no earlier span of that owner reaches: `Unused spans owner n` says that
the cells of `owner` from `n` on belong to no span.
-/

namespace Utilpp.Lib

/-- `length` cells of `owner` from `start` on. -/
structure Span (ρ : Type*) where
  owner : ρ
  start : Nat
  length : Nat

variable {ρ : Type*} {spans : List (Span ρ)} {owner : ρ} {n : Nat}

namespace Span

/-- The cell behind the last one. -/
def stop (s : Span ρ) : Nat := s.start + s.length

/-- Two spans without a common cell. -/
def Disjoint (s t : Span ρ) : Prop := s.owner = t.owner → s.stop ≤ t.start ∨ t.stop ≤ s.start

instance [DecidableEq ρ] (s t : Span ρ) : Decidable (s.Disjoint t) :=
  inferInstanceAs (Decidable (_ → _))

end Span

/-- No span has a cell of `owner` from `n` on. -/
def Unused (spans : List (Span ρ)) (owner : ρ) (n : Nat) : Prop :=
  ∀ s ∈ spans, s.owner = owner → s.stop ≤ n

theorem Unused.nil : Unused ([] : List (Span ρ)) owner n := fun _ hs => nomatch hs

/-- A span that starts behind everything its owner gave out shares no cell with it. -/
theorem Unused.disjoint {s : Span ρ} (h : Unused spans s.owner s.start) :
    ∀ t ∈ spans, s.Disjoint t :=
  fun t ht howner => Or.inr (h t ht howner.symm)

theorem Unused.pairwise {s : Span ρ} (h : Unused spans s.owner s.start)
    (hspans : spans.Pairwise Span.Disjoint) : (s :: spans).Pairwise Span.Disjoint :=
  List.pairwise_cons.mpr ⟨h.disjoint, hspans⟩

/-- Behind a span that was just handed out its owner is unused. -/
theorem Unused.bump {s : Span ρ} (h : Unused spans s.owner s.start) :
    Unused (s :: spans) s.owner s.stop := by
  intro t ht howner
  cases List.mem_cons.mp ht with
  | inl heq => exact Nat.le_of_eq (congrArg Span.stop heq)
  | inr hmem => exact Nat.le_trans (h t hmem howner) (Nat.le_add_right _ _)

/-- The other owners are left alone. -/
theorem Unused.cons {s : Span ρ} (h : Unused spans owner n) (hne : s.owner ≠ owner) :
    Unused (s :: spans) owner n := by
  intro t ht howner
  cases List.mem_cons.mp ht with
  | inl heq => exact absurd (heq ▸ howner) hne
  | inr hmem => exact h t hmem howner

end Utilpp.Lib

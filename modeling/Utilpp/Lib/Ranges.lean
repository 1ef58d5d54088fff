import Mathlib.Data.List.Basic

/-!
# Lists of closed ranges

Ranges with two ends `lo` and `hi`. A list of ranges is `Separated` when each ends before the next
one begins. Two ranges that are next to each other cover the same numbers as one long range but stay
two ranges; they are told apart by the half steps between the numbers: `Touches` is about twice the
ends of a range, and a separated list is determined by the half steps that it touches
(`Separated.ext`).
-/

namespace Utilpp.Lib

variable {ρ : Type*} {lo hi : ρ → Nat} {r : ρ} {rs ss : List ρ} {x : Nat}

/-- No range is empty, and each ends before the next one begins. -/
structure Separated (lo hi : ρ → Nat) (rs : List ρ) : Prop where
  nonempty : ∀ r ∈ rs, lo r ≤ hi r
  apart : rs.Pairwise fun r s => hi r < lo s

/-- The half step `x` lies in one of the ranges. -/
def Touches (lo hi : ρ → Nat) (rs : List ρ) (x : Nat) : Prop :=
  ∃ r ∈ rs, 2 * lo r ≤ x ∧ x ≤ 2 * hi r

theorem touches_cons : Touches lo hi (r :: rs) x ↔
    (2 * lo r ≤ x ∧ x ≤ 2 * hi r) ∨ Touches lo hi rs x :=
  List.exists_mem_cons_iff ..

theorem touches_concat : Touches lo hi (rs ++ [r]) x ↔
    Touches lo hi rs x ∨ (2 * lo r ≤ x ∧ x ≤ 2 * hi r) := by
  simp only [Touches, List.mem_append, List.mem_singleton, or_and_right, exists_or, exists_eq_left]

/-- The order of the ranges does not matter. -/
theorem touches_perm (h : rs.Perm ss) : Touches lo hi rs x ↔ Touches lo hi ss x :=
  exists_congr fun _ => and_congr_left' h.mem_iff

theorem not_touches_nil : ¬ Touches lo hi [] x := fun ⟨_, hr, _⟩ => nomatch hr

theorem separated_nil : Separated lo hi [] := ⟨fun _ hr => absurd hr List.not_mem_nil, .nil⟩

theorem separated_cons : Separated lo hi (r :: rs) ↔
    lo r ≤ hi r ∧ (∀ s ∈ rs, hi r < lo s) ∧ Separated lo hi rs := by
  constructor
  · rintro ⟨hle, hapart⟩
    obtain ⟨hhead, htail⟩ := List.pairwise_cons.mp hapart
    exact ⟨hle r List.mem_cons_self, hhead, fun s hs => hle s (List.mem_cons_of_mem r hs), htail⟩
  · rintro ⟨hle, hhead, htail⟩
    refine ⟨fun s hs => ?_, List.pairwise_cons.mpr ⟨hhead, htail.apart⟩⟩
    rcases List.mem_cons.mp hs with rfl | hs
    · exact hle
    · exact htail.nonempty s hs

/-- A number lies in one of the ranges when twice the number is touched. -/
theorem touches_two_mul : Touches lo hi rs (2 * x) ↔ ∃ r ∈ rs, lo r ≤ x ∧ x ≤ hi r := by
  constructor
  · rintro ⟨r, hr, hlo, hhi⟩
    exact ⟨r, hr, by omega, by omega⟩
  · rintro ⟨r, hr, hlo, hhi⟩
    exact ⟨r, hr, by omega, by omega⟩

/-- A separated list touches nothing before its first range. -/
theorem Separated.le_of_touches (h : Separated lo hi (r :: rs)) (hx : Touches lo hi (r :: rs) x) :
    2 * lo r ≤ x := by
  obtain ⟨hle, hhead, -⟩ := separated_cons.mp h
  rcases touches_cons.mp hx with ⟨hlo, -⟩ | ⟨s, hs, hlo, -⟩
  · exact hlo
  · have hlt := hhead s hs
    omega

/-- What the rest of a separated list touches lies behind its first range. -/
theorem Separated.touches_tail (h : Separated lo hi (r :: rs)) :
    Touches lo hi rs x ↔ Touches lo hi (r :: rs) x ∧ 2 * hi r + 1 < x := by
  obtain ⟨-, hhead, -⟩ := separated_cons.mp h
  rw [touches_cons]
  constructor
  · rintro ⟨s, hs, hlo, hhi⟩
    have hlt := hhead s hs
    exact ⟨.inr ⟨s, hs, hlo, hhi⟩, by omega⟩
  · rintro ⟨⟨-, hhi⟩ | hrest, hlt⟩
    · omega
    · exact hrest

/-- The first range of a separated list starts and ends where the list touches first and last
without a break. -/
theorem Separated.head_eq {s : ρ} (h : Separated lo hi (r :: rs)) (h' : Separated lo hi (s :: ss))
    (heq : ∀ x, Touches lo hi (r :: rs) x ↔ Touches lo hi (s :: ss) x) :
    lo r ≤ lo s ∧ hi s ≤ hi r := by
  obtain ⟨hle, hhead, -⟩ := separated_cons.mp h
  obtain ⟨hle', -, -⟩ := separated_cons.mp h'
  have hfirst : 2 * lo r ≤ 2 * lo s :=
    h.le_of_touches ((heq _).mpr (touches_cons.mpr (.inl ⟨Nat.le_refl _, by omega⟩)))
  refine ⟨by omega, ?_⟩
  by_contra hlt
  have hfirst' : 2 * lo s ≤ 2 * lo r :=
    h'.le_of_touches ((heq _).mp (touches_cons.mpr (.inl ⟨Nat.le_refl _, by omega⟩)))
  -- the half step behind `r` lies in `s`
  have hnext : Touches lo hi (r :: rs) (2 * hi r + 1) :=
    (heq _).mpr (touches_cons.mpr (.inl ⟨by omega, by omega⟩))
  rcases touches_cons.mp hnext with ⟨-, hhi⟩ | hrest
  · omega
  · exact absurd (h.touches_tail.mp hrest).2 (Nat.lt_irrefl _)

/-- A separated list is determined by what it touches. -/
theorem Separated.ext (hinj : ∀ r s, lo r = lo s → hi r = hi s → r = s)
    (h : Separated lo hi rs) (h' : Separated lo hi ss)
    (heq : ∀ x, Touches lo hi rs x ↔ Touches lo hi ss x) : rs = ss := by
  induction rs generalizing ss with
  | nil =>
      cases ss with
      | nil => rfl
      | cons s ss =>
          obtain ⟨hle, -, -⟩ := separated_cons.mp h'
          exact absurd ((heq (2 * lo s)).mpr (touches_cons.mpr (.inl ⟨Nat.le_refl _, by omega⟩)))
            not_touches_nil
  | cons r rs ih =>
      cases ss with
      | nil =>
          obtain ⟨hle, -, -⟩ := separated_cons.mp h
          exact absurd ((heq (2 * lo r)).mp (touches_cons.mpr (.inl ⟨Nat.le_refl _, by omega⟩)))
            not_touches_nil
      | cons s ss =>
          obtain ⟨hlo, hhi⟩ := h.head_eq h' heq
          obtain ⟨hlo', hhi'⟩ := h'.head_eq h fun x => (heq x).symm
          have hend : hi r = hi s := Nat.le_antisymm hhi' hhi
          have hhead : r = s := hinj r s (Nat.le_antisymm hlo hlo') hend
          refine congrArg₂ List.cons hhead
            (ih (separated_cons.mp h).2.2 (separated_cons.mp h').2.2 fun x => ?_)
          rw [h.touches_tail, h'.touches_tail, heq, hend]

/-! ## Appending a range

A list that is kept separated grows at its end: a range that begins behind the last one is appended,
and one that begins in it makes it longer. -/

/-- The last range is made longer. -/
theorem Separated.widen {r' : ρ} (h : Separated lo hi (rs ++ [r])) (hlo : lo r' = lo r)
    (hhi : hi r ≤ hi r') : Separated lo hi (rs ++ [r']) := by
  obtain ⟨hbefore, -, hlast⟩ := List.pairwise_append.mp h.apart
  refine ⟨fun s hs => ?_, List.pairwise_append.mpr ⟨hbefore, List.pairwise_singleton _ _, ?_⟩⟩
  · rcases List.mem_append.mp hs with hs | hs
    · exact h.nonempty s (List.mem_append_left _ hs)
    · have hle := h.nonempty r (List.mem_append_right _ List.mem_cons_self)
      rw [List.mem_singleton.mp hs, hlo]
      exact Nat.le_trans hle hhi
  · intro s hs t ht
    rw [List.mem_singleton.mp ht, hlo]
    exact hlast s hs r List.mem_cons_self

/-- A range is appended. -/
theorem Separated.concat {s : ρ} (h : Separated lo hi (rs ++ [r])) (hs : lo s ≤ hi s)
    (hlt : hi r < lo s) : Separated lo hi (rs ++ [r] ++ [s]) := by
  have hle := h.nonempty r (List.mem_append_right _ List.mem_cons_self)
  obtain ⟨-, -, hlast⟩ := List.pairwise_append.mp h.apart
  refine ⟨fun t ht => ?_, List.pairwise_append.mpr ⟨h.apart, List.pairwise_singleton _ _, ?_⟩⟩
  · rcases List.mem_append.mp ht with ht | ht
    · exact h.nonempty t ht
    · rw [List.mem_singleton.mp ht]
      exact hs
  · intro t ht u hu
    rw [List.mem_singleton.mp hu]
    rcases List.mem_append.mp ht with ht | ht
    · have hbefore := hlast t ht r List.mem_cons_self
      omega
    · rw [List.mem_singleton.mp ht]
      exact hlt

/-- The last range with the one that begins in it touches what both touch. -/
theorem touches_widen {r' s : ρ} (hlo : lo r' = lo r) (hhi : hi r' = max (hi r) (hi s))
    (hle : lo r ≤ lo s) (htouch : lo s ≤ hi r) : Touches lo hi (rs ++ [r']) x ↔
    Touches lo hi (rs ++ [r]) x ∨ (2 * lo s ≤ x ∧ x ≤ 2 * hi s) := by
  rw [touches_concat, touches_concat, or_assoc, hlo, hhi]
  refine or_congr_right ?_
  omega

/-- A range covers the numbers from `lo` on that are below `hi`. Lists that touch the same half
steps cover the same numbers. -/
theorem covers_congr (heq : ∀ x, Touches lo hi rs x ↔ Touches lo hi ss x) :
    (∃ r ∈ rs, lo r ≤ x ∧ x < hi r) ↔ ∃ r ∈ ss, lo r ≤ x ∧ x < hi r := by
  have hhalf : ∀ rs : List ρ, (∃ r ∈ rs, lo r ≤ x ∧ x < hi r) ↔ Touches lo hi rs (2 * x + 1) := by
    intro rs
    refine exists_congr fun r => and_congr_right fun _ => ?_
    omega
  rw [hhalf, hhalf]
  exact heq _

end Utilpp.Lib

import Mathlib.Data.List.Dedup
import Mathlib.Data.List.Nodup
import Mathlib.Data.List.Perm.Basic

/-!
# Maps from keys to sets

A hash map whose values are hash sets, as the list of its entries. An iteration over it goes through
the entries, and through the values of each, in some order: `Iteration` is any such order. The pairs
that are put in come out once each (`iterate_ofPairs_perm`), and in the order in which they were put
in for sure only when there is no more than one (`length_le_one_of_iterate`).
-/

namespace Utilpp.Lib

variable {κ ν β : Type*}

/-- The keys with their sets. -/
abbrev SetMap (κ ν : Type*) := List (κ × List ν)

namespace SetMap

/-- The pairs of a key and one of its values. -/
def pairs (m : SetMap κ ν) : List (κ × ν) := m.flatMap fun entry => entry.2.map (entry.1, ·)

section Insert

variable [DecidableEq κ] [DecidableEq ν]

/-- `try_emplace` of the key, and `emplace` of the value. -/
def insert (key : κ) (value : ν) : SetMap κ ν → SetMap κ ν
  | [] => [(key, [value])]
  | (other, values) :: m =>
      if other = key then (other, if value ∈ values then values else values ++ [value]) :: m
      else (other, values) :: insert key value m

/-- The map that the pairs of a list are put into. -/
def ofPairs (l : List (κ × ν)) : SetMap κ ν := l.foldl (fun m p => m.insert p.1 p.2) []

end Insert

end SetMap

/-- The order in which an iteration finds the entries of a map and the values of a set. -/
structure Iteration (κ ν : Type*) where
  entries : SetMap κ ν → SetMap κ ν
  values : List ν → List ν
  entries_perm : ∀ m, (entries m).Perm m
  values_perm : ∀ l, (values l).Perm l

namespace Iteration

/-- The pairs in the order in which the two nested loops find them. -/
def iterate (order : Iteration κ ν) (m : SetMap κ ν) : List (κ × ν) :=
  (order.entries m).flatMap fun entry => (order.values entry.2).map (entry.1, ·)

/-- The order of the list. -/
def forward : Iteration κ ν := ⟨id, id, fun _ => .rfl, fun _ => .rfl⟩

/-- The order from the end of the list. -/
def backward : Iteration κ ν :=
  ⟨List.reverse, List.reverse, List.reverse_perm, List.reverse_perm⟩

end Iteration

namespace SetMap

open Iteration

theorem iterate_perm (order : Iteration κ ν) (m : SetMap κ ν) : (order.iterate m).Perm m.pairs :=
  (order.entries_perm m).flatMap fun entry _ => (order.values_perm entry.2).map _

theorem iterate_forward (m : SetMap κ ν) : forward.iterate m = m.pairs := rfl

theorem iterate_backward (m : SetMap κ ν) : backward.iterate m = m.pairs.reverse := by
  rw [pairs, List.reverse_flatMap]
  refine congrArg (List.flatMap · m.reverse) (funext fun entry => ?_)
  exact List.map_reverse

theorem pairs_cons (entry : κ × List ν) (m : SetMap κ ν) :
    pairs (entry :: m) = entry.2.map (entry.1, ·) ++ m.pairs := rfl

/-- No key and no value of a key is there twice. -/
def Distinct : SetMap κ ν → Prop
  | [] => True
  | (key, values) :: m => key ∉ m.map Prod.fst ∧ values.Nodup ∧ Distinct m

variable {key : κ} {value : ν} {m : SetMap κ ν}

theorem mem_keys_of_mem_pairs {p : κ × ν} (h : p ∈ m.pairs) : p.1 ∈ m.map Prod.fst := by
  obtain ⟨entry, hmem, hp⟩ := List.mem_flatMap.mp h
  obtain ⟨value, -, rfl⟩ := List.mem_map.mp hp
  exact List.mem_map_of_mem hmem

theorem Distinct.nodup_pairs (h : m.Distinct) : m.pairs.Nodup := by
  induction m with
  | nil => exact List.nodup_nil
  | cons entry m ih =>
      obtain ⟨hkey, hvalues, hrest⟩ := h
      refine (hvalues.map fun _ _ heq => (Prod.mk.inj heq).2).append (ih hrest) ?_
      intro p hp hp'
      obtain ⟨value, -, rfl⟩ := List.mem_map.mp hp
      exact hkey (mem_keys_of_mem_pairs hp')

variable [DecidableEq κ] [DecidableEq ν] {l : List (κ × ν)}

theorem mem_pairs_insert {p : κ × ν} :
    p ∈ (m.insert key value).pairs ↔ p = (key, value) ∨ p ∈ m.pairs := by
  induction m with
  | nil => exact List.mem_singleton.trans (or_iff_left nofun).symm
  | cons entry m ih =>
      obtain ⟨other, values⟩ := entry
      unfold insert
      split
      · rename_i heq
        subst heq
        rw [pairs_cons, pairs_cons]
        split
        · rename_i hmem
          refine (or_iff_right_of_imp ?_).symm
          rintro rfl
          exact List.mem_append_left _ (List.mem_map_of_mem hmem)
        · simp only [List.map_append, List.mem_append, List.map_cons, List.map_nil,
            List.mem_singleton]
          tauto
      · rw [pairs_cons, pairs_cons, List.mem_append, List.mem_append, ih, or_left_comm]

theorem mem_keys_insert {other : κ} (h : other ∈ (m.insert key value).map Prod.fst) :
    other = key ∨ other ∈ m.map Prod.fst := by
  induction m with
  | nil => exact .inl (List.mem_singleton.mp h)
  | cons entry m ih =>
      unfold insert at h
      split at h
      · exact .inr h
      · rcases List.mem_cons.mp h with heq | hrest
        · exact .inr (List.mem_cons.mpr (.inl heq))
        · exact (ih hrest).imp_right (List.mem_cons_of_mem _)

theorem Distinct.insert (h : m.Distinct) : (m.insert key value).Distinct := by
  induction m with
  | nil => exact ⟨nofun, List.nodup_singleton value, trivial⟩
  | cons entry m ih =>
      obtain ⟨hkey, hvalues, hrest⟩ := h
      unfold SetMap.insert
      split
      · refine ⟨hkey, ?_, hrest⟩
        split
        · exact hvalues
        · rename_i hnot
          exact hvalues.append (List.nodup_singleton value) (List.disjoint_singleton.mpr hnot)
      · rename_i hne
        exact ⟨fun hmem => (mem_keys_insert hmem).elim hne hkey, hvalues, ih hrest⟩

theorem foldl_insert (h : m.Distinct) :
    (l.foldl (fun m p => m.insert p.1 p.2) m).Distinct ∧
      ∀ p, p ∈ (l.foldl (fun m p => m.insert p.1 p.2) m).pairs ↔ p ∈ l ∨ p ∈ m.pairs := by
  induction l generalizing m with
  | nil => exact ⟨h, fun p => (or_iff_right nofun).symm⟩
  | cons first l ih =>
      obtain ⟨hdistinct, hmem⟩ := ih h.insert
      refine ⟨hdistinct, fun p => (hmem p).trans ?_⟩
      rw [mem_pairs_insert, List.mem_cons, or_left_comm, or_assoc]

/-- Every pair that is put in comes out once. -/
theorem iterate_ofPairs_perm (order : Iteration κ ν) (l : List (κ × ν)) :
    (order.iterate (ofPairs l)).Perm l.dedup := by
  obtain ⟨hdistinct, hmem⟩ := @foldl_insert κ ν [] _ _ l trivial
  refine (iterate_perm order _).trans ?_
  refine (List.perm_ext_iff_of_nodup hdistinct.nodup_pairs l.nodup_dedup).mpr fun p => ?_
  rw [List.mem_dedup]
  exact (hmem p).trans (or_iff_left nofun)

theorem length_le_one_of_reverse {α : Type*} {l : List α} (hnodup : l.Nodup)
    (hreverse : l.reverse = l) : l.length ≤ 1 := by
  match l, hnodup, hreverse with
  | [], _, _ => exact Nat.zero_le 1
  | [x], _, _ => exact Nat.le_refl 1
  | x :: y :: l, hnodup, hreverse =>
      have hlast : (y :: l).getLast? = some x := by
        rw [← List.getLast?_cons_cons, ← List.head?_reverse, hreverse]
        rfl
      exact absurd (List.mem_of_getLast? hlast) (List.nodup_cons.mp hnodup).1

/-- Pairs that come out as they were put in, in whatever order they are found, are one at most. -/
theorem length_le_one_of_iterate {f g : κ × ν → β} (hf : ∀ p ∈ l, ∀ q ∈ l, f p = f q → p = q)
    (h : ∀ order : Iteration κ ν, (order.iterate (ofPairs l)).map g = l.map f) :
    l.length ≤ 1 := by
  have hdedup : l.dedup = l := by
    refine (List.dedup_sublist l).eq_of_length ?_
    rw [← (iterate_ofPairs_perm Iteration.forward l).length_eq, ← List.length_map g,
      h Iteration.forward, List.length_map]
  have hnodup : (l.map f).Nodup := (List.dedup_eq_self.mp hdedup).map_on hf
  have hreverse : (l.map f).reverse = l.map f := by
    rw [← h Iteration.forward, ← List.map_reverse, iterate_forward, ← iterate_backward,
      h Iteration.backward]
    exact (h Iteration.forward).symm
  exact List.length_map f ▸ length_le_one_of_reverse hnodup hreverse

/-- One pair comes out as it was put in. -/
theorem iterate_ofPairs_of_length_le_one (order : Iteration κ ν) (h : l.length ≤ 1) :
    order.iterate (ofPairs l) = l := by
  have hperm := iterate_ofPairs_perm order l
  match l, h with
  | [], _ => exact hperm.eq_nil
  | [p], _ => exact List.perm_singleton.mp hperm

end SetMap

end Utilpp.Lib

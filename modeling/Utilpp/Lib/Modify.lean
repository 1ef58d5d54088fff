import Mathlib.Algebra.BigOperators.Group.List.Basic
import Mathlib.Algebra.Ring.Nat

/-!
# Changing one element of a list

What `List.modify` does to the members of a list and to a sum over it.
-/

namespace Utilpp.Lib

variable {α : Type*} {f : α → α} {l : List α} {i : Nat}

/-- A member of the changed list is a member of the list or the changed element. -/
theorem mem_modify {x : α} (h : x ∈ l.modify i f) : x ∈ l ∨ ∃ y, l[i]? = some y ∧ x = f y := by
  obtain ⟨j, hj⟩ := List.mem_iff_getElem?.mp h
  rw [List.getElem?_modify] at hj
  split at hj
  · rename_i hij
    subst hij
    obtain ⟨y, hy, rfl⟩ := Option.map_eq_some_iff.mp hj
    exact .inr ⟨y, hy, rfl⟩
  · obtain ⟨y, hy, rfl⟩ := Option.map_eq_some_iff.mp hj
    exact .inl (List.mem_of_getElem? hy)

/-- An element of the changed list is the changed one or an old one. -/
theorem getElem?_modify_cases {j : Nat} {x : α} (h : (l.modify i f)[j]? = some x) :
    (∃ y, j = i ∧ l[i]? = some y ∧ x = f y) ∨ j ≠ i ∧ l[j]? = some x := by
  rw [List.getElem?_modify] at h
  split at h
  · rename_i heq
    subst heq
    obtain ⟨y, hy, rfl⟩ := Option.map_eq_some_iff.mp h
    exact .inl ⟨y, rfl, hy, rfl⟩
  · rename_i hne
    exact .inr ⟨Ne.symm hne, by simpa using h⟩

/-- A sum over the changed list differs in the summand of the changed element. -/
theorem sum_map_modify {g : α → Nat} {x : α} (h : l[i]? = some x) :
    ((l.modify i f).map g).sum + g x = (l.map g).sum + g (f x) := by
  induction l generalizing i with
  | nil => cases h
  | cons a l ih =>
      cases i with
      | zero =>
          cases h
          simp only [List.modify_zero_cons, List.map_cons, List.sum_cons]
          omega
      | succ i =>
          have hrest := ih h
          simp only [List.modify_succ_cons, List.map_cons, List.sum_cons]
          omega

/-- A summand is at most the sum. -/
theorem le_sum_map {g : α → Nat} {x : α} (h : l[i]? = some x) : g x ≤ (l.map g).sum := by
  induction l generalizing i with
  | nil => cases h
  | cons a l ih =>
      cases i with
      | zero =>
          cases h
          simp
      | succ i =>
          have hrest := ih h
          simp only [List.map_cons, List.sum_cons]
          omega

end Utilpp.Lib

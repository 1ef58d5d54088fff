import Mathlib.Data.List.Basic

/-!
# Splitting a list at a separator

A list is split at its first separator, at its last one, or at the `depth`-th one from the end. When
every element is encoded by some units, of which only those of the separator contain the unit that
stands for it, the encoded list is split where the list is (`splitFirst_flatMap`,
`cutLast_flatMap`).
-/

namespace Utilpp.Lib

variable {β : Type*} [DecidableEq β] {sep x : β} {l m before after : List β}

/-- What is before the first separator and behind it. -/
def splitFirst (sep : β) : List β → Option (List β × List β)
  | [] => none
  | x :: xs => if x = sep then some ([], xs) else (splitFirst sep xs).map fun r => (x :: r.1, r.2)

/-- What is before the last separator and behind it. -/
def splitLast (sep : β) : List β → Option (List β × List β)
  | [] => none
  | x :: xs =>
      match splitLast sep xs with
      | some r => some (x :: r.1, r.2)
      | none => if x = sep then some ([], xs) else none

/-- What is before the `depth`-th separator from the end and behind it; the first separator when
there are fewer. -/
def cutLast (sep : β) : Nat → List β → Option (List β × List β)
  | 0, _ => none
  | depth + 1, l =>
      match splitLast sep l with
      | none => none
      | some (before, after) =>
          match cutLast sep depth before with
          | none => some (before, after)
          | some (before', names) => some (before', names ++ sep :: after)

/-! ## One element, one separator -/

theorem splitFirst_cons {xs : List β} : splitFirst sep (x :: xs) =
    if x = sep then some ([], xs) else (splitFirst sep xs).map fun r => (x :: r.1, r.2) :=
  rfl

theorem splitLast_cons {xs : List β} : splitLast sep (x :: xs) =
    match splitLast sep xs with
    | some r => some (x :: r.1, r.2)
    | none => if x = sep then some ([], xs) else none :=
  rfl

theorem cutLast_succ {depth : Nat} : cutLast sep (depth + 1) l =
    match splitLast sep l with
    | none => none
    | some (before, after) =>
        match cutLast sep depth before with
        | none => some (before, after)
        | some (before', names) => some (before', names ++ sep :: after) :=
  rfl

/-! ## The first separator -/

theorem splitFirst_eq_none : splitFirst sep l = none ↔ sep ∉ l := by
  induction l with
  | nil => exact ⟨fun _ => List.not_mem_nil, fun _ => rfl⟩
  | cons x xs ih =>
      rw [splitFirst_cons, List.mem_cons, not_or]
      split
      · rename_i heq
        exact ⟨fun h => absurd h (Option.some_ne_none _), fun h => absurd heq.symm h.1⟩
      · rename_i hne
        rw [Option.map_eq_none_iff, ih]
        exact ⟨fun h => ⟨fun heq => hne heq.symm, h⟩, fun h => h.2⟩

theorem splitFirst_eq_some (h : splitFirst sep l = some (before, after)) :
    l = before ++ sep :: after ∧ sep ∉ before := by
  induction l generalizing before with
  | nil => cases h
  | cons x xs ih =>
      rw [splitFirst_cons] at h
      split at h
      · rename_i heq
        cases h
        exact ⟨heq ▸ rfl, List.not_mem_nil⟩
      · rename_i hne
        obtain ⟨⟨before', after'⟩, hrest, heq⟩ := Option.map_eq_some_iff.mp h
        cases heq
        obtain ⟨rfl, hnot⟩ := ih hrest
        refine ⟨rfl, fun hmem => ?_⟩
        rcases List.mem_cons.mp hmem with rfl | hmem
        · exact hne rfl
        · exact hnot hmem

/-- Elements that are no separator do not change where the list is split. -/
theorem splitFirst_append (h : sep ∉ l) :
    splitFirst sep (l ++ m) = (splitFirst sep m).map fun r => (l ++ r.1, r.2) := by
  induction l with
  | nil => exact Option.map_id'.symm
  | cons x xs ih =>
      obtain ⟨hne, hrest⟩ := List.ne_and_not_mem_of_not_mem_cons h
      rw [List.cons_append, splitFirst_cons, if_neg (fun heq => hne heq.symm), ih hrest,
        Option.map_map]
      rfl

/-! ## The last separator -/

theorem splitLast_append : splitLast sep (l ++ m) =
    match splitLast sep m with
    | some r => some (l ++ r.1, r.2)
    | none => (splitLast sep l).map fun r => (r.1, r.2 ++ m) := by
  induction l with
  | nil =>
      cases h : splitLast sep m with
      | none => exact h
      | some r => exact h
  | cons x xs ih =>
      rw [List.cons_append, splitLast_cons, ih, splitLast_cons]
      cases splitLast sep m with
      | some r => rfl
      | none =>
          cases splitLast sep xs with
          | some r => rfl
          | none =>
              show (if x = sep then some ([], xs ++ m) else none) = _
              split
              · rfl
              · rfl

theorem splitLast_eq_none (h : sep ∉ l) : splitLast sep l = none := by
  induction l with
  | nil => rfl
  | cons x xs ih =>
      obtain ⟨hne, hrest⟩ := List.ne_and_not_mem_of_not_mem_cons h
      rw [splitLast_cons, ih hrest]
      exact if_neg fun heq => hne heq.symm

theorem splitLast_concat_sep : splitLast sep (l ++ [sep]) = some (l, []) := by
  have hlast : splitLast sep [sep] = some ([], []) := if_pos rfl
  rw [splitLast_append, hlast]
  simp

theorem splitLast_concat_of_ne (h : x ≠ sep) :
    splitLast sep (l ++ [x]) = (splitLast sep l).map fun r => (r.1, r.2 ++ [x]) := by
  have hlast : splitLast sep [x] = none := if_neg h
  rw [splitLast_append, hlast]

/-- An element at the end that is no separator belongs to what is cut off. -/
theorem cutLast_concat_of_ne (h : x ≠ sep) (depth : Nat) :
    cutLast sep depth (l ++ [x]) = (cutLast sep depth l).map fun r => (r.1, r.2 ++ [x]) := by
  cases depth with
  | zero => rfl
  | succ depth =>
      rw [cutLast_succ, cutLast_succ, splitLast_concat_of_ne h]
      cases splitLast sep l with
      | none => rfl
      | some r =>
          obtain ⟨before, after⟩ := r
          cases hcut : cutLast sep depth before with
          | none => simp [hcut]
          | some r => simp [hcut]

theorem cutLast_concat_sep (depth : Nat) : cutLast sep (depth + 1) (l ++ [sep]) =
    match cutLast sep depth l with
    | none => some (l, [])
    | some (before, names) => some (before, names ++ [sep]) := by
  rw [cutLast_succ, splitLast_concat_sep]

theorem splitLast_eq_some (h : splitLast sep l = some (before, after)) :
    l = before ++ sep :: after := by
  induction l generalizing before with
  | nil => cases h
  | cons x xs ih =>
      rw [splitLast_cons] at h
      cases hrest : splitLast sep xs with
      | some r =>
          rw [hrest] at h
          cases h
          exact congrArg (x :: ·) (ih hrest)
      | none =>
          rw [hrest] at h
          obtain ⟨heq, hsome⟩ := Option.ite_none_right_eq_some.mp h
          cases hsome
          rw [heq]
          rfl

theorem cutLast_eq_some {depth : Nat} (h : cutLast sep depth l = some (before, after)) :
    l = before ++ sep :: after := by
  induction depth generalizing l after with
  | zero => cases h
  | succ depth ih =>
      rw [cutLast_succ] at h
      cases hsplit : splitLast sep l with
      | none =>
          rw [hsplit] at h
          cases h
      | some r =>
          obtain ⟨first, last⟩ := r
          have hl := splitLast_eq_some hsplit
          rw [hsplit] at h
          cases hcut : cutLast sep depth first with
          | none =>
              simp only [hcut, Option.some.injEq, Prod.mk.injEq] at h
              rw [hl, h.1, h.2]
          | some r =>
              simp only [hcut, Option.some.injEq, Prod.mk.injEq] at h
              obtain ⟨rfl, rfl⟩ := h
              rw [hl, ih hcut, List.append_assoc, List.cons_append]

/-! ## Where a list is cut -/

theorem splitLast_not_mem (h : splitLast sep l = some (before, after)) : sep ∉ after := by
  induction l generalizing before with
  | nil => cases h
  | cons x xs ih =>
      rw [splitLast_cons] at h
      cases hrest : splitLast sep xs with
      | some r =>
          rw [hrest] at h
          cases h
          exact ih hrest
      | none =>
          rw [hrest] at h
          obtain ⟨-, hsome⟩ := Option.ite_none_right_eq_some.mp h
          cases hsome
          intro hmem
          obtain ⟨first, last, rfl⟩ := List.append_of_mem hmem
          rw [splitLast_append, splitLast_cons] at hrest
          cases hlast : splitLast sep last with
          | some r => simp [hlast] at hrest
          | none => simp [hlast] at hrest

theorem cutLast_eq_none {depth : Nat} (h : cutLast sep (depth + 1) l = none) : sep ∉ l := by
  intro hmem
  obtain ⟨first, last, rfl⟩ := List.append_of_mem hmem
  rw [cutLast_succ] at h
  cases hsplit : splitLast sep (first ++ sep :: last) with
  | none =>
      rw [splitLast_append, splitLast_cons] at hsplit
      cases hlast : splitLast sep last with
      | some r => simp [hlast] at hsplit
      | none => simp [hlast] at hsplit
  | some r =>
      rw [hsplit] at h
      cases hcut : cutLast sep depth r.1 with
      | none => simp [hcut] at h
      | some r => simp [hcut] at h

/-- The `depth`-th separator from the end stands between the two parts, or the first one when there
are fewer. -/
def CutAt (sep : β) (depth : Nat) (l before after : List β) : Prop :=
  l = before ++ sep :: after ∧
    (after.count sep + 1 = depth ∨ sep ∉ before ∧ after.count sep + 1 ≤ depth)

theorem cutAt_of_cutLast {depth : Nat} (h : cutLast sep depth l = some (before, after)) :
    CutAt sep depth l before after := by
  refine ⟨cutLast_eq_some h, ?_⟩
  induction depth generalizing l after with
  | zero => cases h
  | succ depth ih =>
      rw [cutLast_succ] at h
      cases hsplit : splitLast sep l with
      | none =>
          rw [hsplit] at h
          cases h
      | some r =>
          obtain ⟨first, last⟩ := r
          have hlast : last.count sep = 0 := List.count_eq_zero.mpr (splitLast_not_mem hsplit)
          rw [hsplit] at h
          cases hcut : cutLast sep depth first with
          | none =>
              simp only [hcut, Option.some.injEq, Prod.mk.injEq] at h
              obtain ⟨rfl, rfl⟩ := h
              rw [hlast]
              cases depth with
              | zero => exact Or.inl rfl
              | succ depth => exact Or.inr ⟨cutLast_eq_none hcut, by omega⟩
          | some r =>
              simp only [hcut, Option.some.injEq, Prod.mk.injEq] at h
              obtain ⟨rfl, rfl⟩ := h
              rw [List.count_append, List.count_cons_self, hlast]
              exact (ih hcut).imp (by omega) fun h => ⟨h.1, by omega⟩

/-- There is one place only to cut a list. -/
theorem CutAt.unique {depth : Nat} {before' after' : List β} (h : CutAt sep depth l before after)
    (h' : CutAt sep depth l before' after') : before = before' ∧ after = after' := by
  have hle : ∀ {b a b' a' : List β}, CutAt sep depth l b a → CutAt sep depth l b' a' →
      b'.length ≤ b.length := by
    intro b a b' a' h h'
    by_contra hlt
    -- the separator behind the shorter part is one of the longer part
    obtain ⟨c, rfl⟩ : ∃ c, b' = b ++ sep :: c := by
      have hfirst : b ++ [sep] <+: l := ⟨a, by rw [h.1, List.append_assoc]; rfl⟩
      have hsecond : b' <+: l := ⟨sep :: a', h'.1.symm⟩
      have hlength : (b ++ [sep]).length ≤ b'.length := by
        rw [List.length_append]
        exact Nat.lt_of_not_le hlt
      obtain ⟨c, rfl⟩ := List.prefix_of_prefix_length_le hfirst hsecond hlength
      exact ⟨c, by rw [List.append_assoc]; rfl⟩
    have ha : a = c ++ sep :: a' := by
      have heq := h.1.symm.trans h'.1
      rw [List.append_assoc, List.append_cancel_left_eq, List.cons_append] at heq
      exact List.tail_eq_of_cons_eq heq
    have hcount : a.count sep = c.count sep + (a'.count sep + 1) := by
      rw [ha, List.count_append, List.count_cons_self]
    have hmem : sep ∈ b ++ sep :: c := List.mem_append_right b List.mem_cons_self
    have hbound : a.count sep + 1 ≤ depth := h.2.elim Nat.le_of_eq fun h => h.2
    have hdepth : a'.count sep + 1 = depth := h'.2.resolve_right fun h => h.1 hmem
    omega
  have hlength := Nat.le_antisymm (hle h' h) (hle h h')
  obtain ⟨hbefore, hafter⟩ := List.append_inj (h.1.symm.trans h'.1) hlength
  exact ⟨hbefore, List.tail_eq_of_cons_eq hafter⟩

theorem cutLast_eq_some_iff {depth : Nat} :
    cutLast sep depth l = some (before, after) ↔ CutAt sep depth l before after := by
  refine ⟨cutAt_of_cutLast, fun h => ?_⟩
  cases hcut : cutLast sep depth l with
  | none =>
      cases depth with
      | zero => exact absurd h.2 (by simp)
      | succ depth =>
          refine absurd ?_ (cutLast_eq_none hcut)
          rw [h.1]
          exact List.mem_append_right before List.mem_cons_self
  | some r =>
      obtain ⟨hbefore, hafter⟩ := h.unique (cutAt_of_cutLast hcut)
      rw [hbefore, hafter]

/-! ## Encoded lists -/

variable {χ : Type*} [DecidableEq χ] {code : χ → List β} {c : χ}

/-- The encoded list is split at its first separator where the list is. -/
theorem splitFirst_flatMap (hsep : code c = [sep]) (hmem : ∀ d, sep ∈ code d → d = c)
    (p : List χ) : splitFirst sep (p.flatMap code) =
      (splitFirst c p).map fun r => (r.1.flatMap code, r.2.flatMap code) := by
  induction p with
  | nil => rfl
  | cons d p ih =>
      rw [List.flatMap_cons, splitFirst_cons]
      split
      · rename_i heq
        rw [heq, hsep]
        exact if_pos rfl
      · rename_i hne
        rw [splitFirst_append (fun hin => hne (hmem d hin)), ih, Option.map_map, Option.map_map]
        rfl

theorem splitLast_flatMap (hsep : code c = [sep]) (hmem : ∀ d, sep ∈ code d → d = c)
    (p : List χ) : splitLast sep (p.flatMap code) =
      (splitLast c p).map fun r => (r.1.flatMap code, r.2.flatMap code) := by
  induction p with
  | nil => rfl
  | cons d p ih =>
      rw [List.flatMap_cons, splitLast_append, ih, splitLast_cons]
      cases splitLast c p with
      | some r => rfl
      | none =>
          by_cases heq : d = c
          · simp [heq, hsep, splitLast]
          · simp [heq, splitLast_eq_none fun hin => heq (hmem d hin)]

/-- The encoded list is cut where the list is. -/
theorem cutLast_flatMap (hsep : code c = [sep]) (hmem : ∀ d, sep ∈ code d → d = c) (depth : Nat)
    (p : List χ) : cutLast sep depth (p.flatMap code) =
      (cutLast c depth p).map fun r => (r.1.flatMap code, r.2.flatMap code) := by
  induction depth generalizing p with
  | zero => rfl
  | succ depth ih =>
      rw [cutLast_succ, cutLast_succ, splitLast_flatMap hsep hmem]
      cases splitLast c p with
      | none => rfl
      | some r =>
          obtain ⟨before, after⟩ := r
          simp only [Option.map_some, ih]
          cases cutLast c depth before with
          | none => rfl
          | some r => simp [hsep]

end Utilpp.Lib

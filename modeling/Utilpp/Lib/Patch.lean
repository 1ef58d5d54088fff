import Utilpp.Lib.LittleEndian

/-!
# Fields in a sequence of bytes

`field` reads a number at a position and `patch` writes bytes over others; both are defined only
inside of the sequence. `SameBut p xs ys` says that `ys` is `xs` with other bytes at most where `p`
holds: it is what a patch does (`patch_sameBut`), it composes, and a field that `p` does not touch
is read from `ys` as from `xs` (`SameBut.field`).
-/

namespace Utilpp.Lib

/-- The number in the `n` bytes from `pos` on. -/
def field (bytes : List UInt8) (pos n : Nat) : Option Nat :=
  if pos + n ≤ bytes.length then some (ofBytes ((bytes.drop pos).take n)) else none

/-- The bytes with `cells` written over those from `pos` on. -/
def patch (bytes : List UInt8) (pos : Nat) (cells : List UInt8) : Option (List UInt8) :=
  if pos + cells.length ≤ bytes.length then
    some (bytes.take pos ++ cells ++ bytes.drop (pos + cells.length))
  else none

/-- The position `i` is one of the `n` positions from `pos` on. -/
def Within (pos n i : Nat) : Prop := pos ≤ i ∧ i < pos + n

/-- The bytes of `ys` are those of `xs` where `p` does not hold. -/
structure SameBut (p : Nat → Prop) (xs ys : List UInt8) : Prop where
  length : ys.length = xs.length
  getElem? : ∀ i, ¬ p i → ys[i]? = xs[i]?

variable {p q : Nat → Prop} {xs ys zs : List UInt8} {pos n value : Nat} {cells : List UInt8}

theorem SameBut.refl : SameBut p xs xs := ⟨rfl, fun _ _ => rfl⟩

theorem SameBut.trans (h : SameBut p xs ys) (h' : SameBut p ys zs) : SameBut p xs zs where
  length := h'.length.trans h.length
  getElem? i hi := (h'.getElem? i hi).trans (h.getElem? i hi)

theorem SameBut.mono (h : SameBut p xs ys) (himp : ∀ i, p i → q i) : SameBut q xs ys where
  length := h.length
  getElem? i hi := h.getElem? i (mt (himp i) hi)

/-! ## Reading -/

theorem field_eq_some_iff :
    field xs pos n = some value ↔
      pos + n ≤ xs.length ∧ ofBytes ((xs.drop pos).take n) = value := by
  unfold field
  split <;> simp_all

theorem field_lt (h : field xs pos n = some value) : value < 256 ^ n := by
  obtain ⟨hlength, rfl⟩ := field_eq_some_iff.mp h
  have hlt := ofBytes_lt ((xs.drop pos).take n)
  rwa [List.length_take_of_le (by rw [List.length_drop]; omega)] at hlt

/-- Sequences that agree on the positions of a field have the same number there. -/
theorem field_congr (hlength : pos + n ≤ xs.length ↔ pos + n ≤ ys.length)
    (h : ∀ i, Within pos n i → ys[i]? = xs[i]?) : field ys pos n = field xs pos n := by
  have hbytes : (ys.drop pos).take n = (xs.drop pos).take n := by
    refine List.ext_getElem? fun i => ?_
    rw [List.getElem?_take, List.getElem?_take, List.getElem?_drop, List.getElem?_drop]
    split
    · exact h _ ⟨Nat.le_add_right _ _, by omega⟩
    · rfl
  rw [field, field, hbytes]
  exact if_congr hlength.symm rfl rfl

theorem SameBut.field (h : SameBut p xs ys) (hoff : ∀ i, Within pos n i → ¬ p i) :
    field ys pos n = field xs pos n :=
  field_congr (by rw [h.length]) fun i hi => h.getElem? i (hoff i hi)

/-- More bytes at the end do not change a field. -/
theorem field_append (h : pos + n ≤ xs.length) : field (xs ++ ys) pos n = field xs pos n := by
  refine field_congr ?_ fun i hi => List.getElem?_append_left (Nat.lt_of_lt_of_le hi.2 h)
  rw [List.length_append]
  omega

/-! ## Writing -/

theorem patch_eq_some_iff :
    patch xs pos cells = some ys ↔
      pos + cells.length ≤ xs.length ∧
        xs.take pos ++ cells ++ xs.drop (pos + cells.length) = ys := by
  unfold patch
  split <;> simp_all

theorem patch_sameBut (h : patch xs pos cells = some ys) :
    SameBut (Within pos cells.length) xs ys := by
  obtain ⟨hroom, rfl⟩ := patch_eq_some_iff.mp h
  have htake : (xs.take pos).length = pos := List.length_take_of_le (by omega)
  refine ⟨?_, fun i hi => ?_⟩
  · rw [List.length_append, List.length_append, htake, List.length_drop]
    omega
  · by_cases hlow : i < pos
    · rw [List.append_assoc, List.getElem?_append_left (by omega), List.getElem?_take_of_lt hlow]
    · have hhigh : pos + cells.length ≤ i := Nat.le_of_not_lt fun hlt =>
        hi ⟨Nat.le_of_not_lt hlow, hlt⟩
      have hindex : pos + cells.length + (i - (pos + cells.length)) = i := by omega
      rw [List.getElem?_append_right (by rw [List.length_append]; omega), List.length_append,
        htake, List.getElem?_drop, hindex]

/-- A number that was written is read. -/
theorem field_patch (h : patch xs pos (toBytes n value) = some ys) (hvalue : value < 256 ^ n) :
    field ys pos n = some value := by
  have hlength := (patch_sameBut h).length
  obtain ⟨hroom, hys⟩ := patch_eq_some_iff.mp h
  rw [length_toBytes] at hroom
  refine field_eq_some_iff.mpr ⟨hroom.trans (Nat.le_of_eq hlength.symm), ?_⟩
  have htake : (xs.take pos).length = pos := List.length_take_of_le (by omega)
  rw [← hys, List.append_assoc, List.drop_left' htake, List.take_left' (length_toBytes n value),
    ofBytes_toBytes hvalue]

theorem patch_defined (h : pos + cells.length ≤ xs.length) : ∃ ys, patch xs pos cells = some ys :=
  ⟨_, if_pos h⟩

end Utilpp.Lib

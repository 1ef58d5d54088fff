import Utilpp.Path.InStep

/-!
# Pop and append

`PopPath` cuts names off a path and returns a view of them, which lies in the buffer, behind the
terminator that it puts where the path ends now. `AppendPath` of the view puts the separator back
in its place, unless the path that is left ends with one. It looks at the unit before the end of
that path without asking whether there is one (`pop_append_iff`).
-/

namespace Utilpp.Path

open Lib Cells

/-- The units from `GetBufInternal` on: `PATH_MAX` without the `PATH_PREFIX_MAX` in front. -/
def room (prefixMax : Nat) : Nat := 32767 - prefixMax

/-- The units in `Buf` where the separator is a slash. -/
def posixUnits : Units (BitVec 8) :=
  { nul := 0x00#8, sep := 0x2F#8, slash := 0x5C#8, question := 0x3F#8 }

/-- A view of a part of the buffer. -/
structure View where
  pos : Nat
  len : Nat
  deriving DecidableEq, Repr

/-! ## One buffer -/

namespace Side

variable {α : Type} [DecidableEq α] (u : Units α) (prefixMax : Nat) (side : Side α)

/-- `GetBufInternal()[i]`; there is nothing to read outside of the buffer. -/
def read? (i : UInt32) : Option α :=
  if i.toNat < room prefixMax then some (side.buf i.toNat) else none

/-- The buffer with `cells` written from `pos` on, if they are inside of it. -/
def write? (pos : Nat) (cells : List α) : Option (Nat → α) :=
  if pos + cells.length ≤ room prefixMax then some (store side.buf pos cells) else none

/-- `AppendPath` puts a separator behind the path, when its last unit is none. `PathLen` is a 32-bit
number. -/
def addSeparator? : Option (Side α) := do
  let last ← side.read? prefixMax (UInt32.ofNat side.len - 1)
  if last = u.sep ∨ last = u.slash then return side
  else
    let buf ← side.write? prefixMax side.len [u.sep]
    return { buf := buf, len := side.len + 1 }

/-- `AppendPath` copies the view behind the path, with a terminator. -/
def copyView? (view : View) : Option (Side α) := do
  if view.pos + view.len ≤ room prefixMax then
    let buf ← side.write? prefixMax side.len (slice side.buf view.pos view.len)
    let side := { buf := buf, len := side.len + view.len : Side α }
    let buf ← side.write? prefixMax side.len [u.nul]
    return { side with buf := buf }
  else none

/-- The loop of `PopPath` over the units below `n`, the last one first. -/
def popLoop? : Nat → Nat → Option Nat → Option (Option Nat)
  | 0, _, lastCursor => some lastCursor
  | i + 1, depth, lastCursor =>
      if depth = 0 then some lastCursor
      else
        (side.read? prefixMax (UInt32.ofNat i)).bind fun unit =>
          if unit = u.sep then popLoop? i (depth - 1) (some i) else popLoop? i depth lastCursor

/-- The path is cut off with a terminator. -/
def truncate? (cursor : Nat) : Option (Side α) :=
  (side.write? prefixMax cursor [u.nul]).map fun buf => { buf := buf, len := cursor }

/-- `PopPath` in one buffer: the view that it returns, and the buffer if the path has changed. -/
def popPath? (depth : UInt32) (bRemove : Bool) : Option (View × Option (Side α)) :=
  match side.popLoop? u prefixMax side.len depth.toNat none with
  | none => none
  | some none => some (⟨0, 0⟩, none)
  | some (some cursor) =>
      let view := ⟨cursor + 1, side.len - (cursor + 1)⟩
      if bRemove then (side.truncate? u prefixMax cursor).map fun side => (view, some side)
      else some (view, none)

/-- `AppendPath` of a view of the buffer, and whether it gets as far as `OnPathChanged`. -/
def appendPath? (view : View) : Option (Side α × Bool) :=
  (side.addSeparator? u prefixMax).bind fun side =>
    -- with nothing to append it returns here
    if view.len = 0 then some (side, false)
    else (side.copyView? u prefixMax view).map fun side => (side, true)

end Side

/-! ## Both buffers -/

namespace FPathBuf

variable (s : FPathBuf)

/-- The narrow buffer after a call, which may have changed the path. -/
def withNarrow (narrow : Side (BitVec 8)) (changed : Bool) : FPathBuf :=
  if changed then { s with narrow := narrow }.onPathChanged false else { s with narrow := narrow }

/-- The wide buffer after a call. -/
def withWide (wide : Side (BitVec 16)) (changed : Bool) : FPathBuf :=
  if changed then { s with wide := wide }.onPathChanged true else { s with wide := wide }

variable (prefixMax : Nat) (conv : Conversions)

/-- `PopPath` -/
def popPath? (u : Units (BitVec 8)) (depth : UInt32) (bRemove : Bool) :
    Option (View × FPathBuf) :=
  let s := s.toPath conv
  (s.narrow.popPath? u prefixMax depth bRemove).map fun result =>
    (result.1, s.withNarrow (result.2.getD s.narrow) result.2.isSome)

/-- `AppendPath` of a view of the buffer. -/
def appendPath? (u : Units (BitVec 8)) (view : View) : Option FPathBuf :=
  let s := s.toPath conv
  (s.narrow.appendPath? u prefixMax view).map fun result => s.withNarrow result.1 result.2

/-- `PopPathW` -/
def popPathW? (u : Units (BitVec 16)) (depth : UInt32) (bRemove : Bool) :
    Option (View × FPathBuf) :=
  let s := s.toPathW conv
  (s.wide.popPath? u prefixMax depth bRemove).map fun result =>
    (result.1, s.withWide (result.2.getD s.wide) result.2.isSome)

/-- `AppendPathW` of a view of the buffer. -/
def appendPathW? (u : Units (BitVec 16)) (view : View) : Option FPathBuf :=
  let s := s.toPathW conv
  (s.wide.appendPath? u prefixMax view).map fun result => s.withWide result.1 result.2

end FPathBuf

/-! ## The calls in the buffer -/

namespace Side

variable {α : Type} {u : Units α} {prefixMax : Nat} {side : Side α} {before after : List α}

theorem room_lt (prefixMax : Nat) : room prefixMax < 2 ^ 15 := by
  unfold room
  omega

theorem read?_of_lt {i : Nat} (h : i < room prefixMax) :
    side.read? prefixMax (UInt32.ofNat i) = some (side.buf i) := by
  have hi : (UInt32.ofNat i).toNat = i :=
    UInt32.toNat_ofNat_of_lt' (Nat.lt_trans h (Nat.lt_trans (room_lt prefixMax) (by decide)))
  rw [read?, hi, if_pos h]

/-- The index before the end of an empty path is far outside of the buffer. -/
theorem read?_empty (h : side.len = 0) :
    side.read? prefixMax (UInt32.ofNat side.len - 1) = none := by
  have hroom := room_lt prefixMax
  rw [h, read?, if_neg]
  show ¬ 2 ^ 32 - 1 < room prefixMax
  omega

theorem read?_last {n : Nat} (h : side.len = n + 1) (hlen : n < room prefixMax) :
    side.read? prefixMax (UInt32.ofNat side.len - 1) = some (side.buf n) := by
  have hlast : UInt32.ofNat (n + 1) - 1 = UInt32.ofNat n := by
    rw [UInt32.ofNat_add]
    exact UInt32.add_sub_cancel _ _
  rw [h, hlast, read?_of_lt hlen]

theorem truncate?_eq {cursor : Nat} (h : cursor < room prefixMax) :
    side.truncate? u prefixMax cursor = some (side.truncate u cursor) := by
  rw [truncate?, write?, if_pos (show cursor + [u.nul].length ≤ room prefixMax from h)]
  rfl

/-- The view is copied as it stands in the buffer. -/
theorem copyView?_eq {view : View} (hview : view.pos + view.len ≤ room prefixMax)
    (hlen : side.len + view.len < room prefixMax) :
    ∃ copied, side.copyView? u prefixMax view = some copied ∧
      copied.len = side.len + view.len ∧
      copied.view = side.view ++ slice side.buf view.pos view.len ∧
      copied.buf copied.len = u.nul := by
  have hfirst : side.write? prefixMax side.len (slice side.buf view.pos view.len) =
      some (store side.buf side.len (slice side.buf view.pos view.len)) := by
    rw [write?, length_slice, if_pos (Nat.le_of_lt hlen)]
  obtain ⟨copied, hcopied⟩ : ∃ copied : Side α, copied =
      { buf := store side.buf side.len (slice side.buf view.pos view.len)
        len := side.len + view.len } := ⟨_, rfl⟩
  have hnul : copied.write? prefixMax (side.len + view.len) [u.nul] =
      some (store copied.buf (side.len + view.len) [u.nul]) := if_pos hlen
  refine ⟨{ buf := store copied.buf (side.len + view.len) [u.nul], len := side.len + view.len },
    ?_, rfl, ?_, ?_⟩
  · rw [copyView?, if_pos hview, hfirst]
    subst hcopied
    show (write? prefixMax _ _ _).bind _ = _
    rw [hnul]
    rfl
  · have hcontent := @slice_store_append _ side.buf side.len
      (slice side.buf view.pos view.len) []
    rw [List.append_nil, length_slice] at hcontent
    rw [Side.view, slice_store_of_le (Nat.le_of_eq (Nat.zero_add _)), hcopied]
    exact hcontent
  · show store copied.buf (side.len + view.len) [u.nul] (side.len + view.len) = u.nul
    rw [store, if_neg (Nat.lt_irrefl _), Nat.sub_self]
    rfl

/-- What is behind the separator that the path is cut at. -/
theorem slice_after {sep : α} (h : side.view = before ++ sep :: after) :
    side.len = before.length + (after.length + 1) ∧
      slice side.buf (before.length + 1) after.length = after := by
  have hlen := congrArg List.length h
  rw [length_view, List.length_append, List.length_cons] at hlen
  have hdrop := @drop_slice _ side.buf (before.length + 1) side.len (by omega)
  have hrest : side.len - (before.length + 1) = after.length := by omega
  rw [← view, h, List.drop_length_add_append, hrest] at hdrop
  exact ⟨hlen, hdrop.symm⟩

theorem buf_before {x : α} (h : side.view = before ++ [x] ++ after) :
    side.buf before.length = x := by
  have hlen := congrArg List.length h
  rw [length_view, List.append_assoc, List.length_append, List.length_append] at hlen
  have hget : side.view[before.length]? = some (side.buf (0 + before.length)) :=
    getElem?_slice (by rw [hlen]; exact Nat.lt_add_of_pos_right (Nat.lt_add_right _ Nat.one_pos))
  rw [h, List.append_assoc, List.getElem?_append_right (Nat.le_refl _), Nat.sub_self,
    Nat.zero_add] at hget
  exact (Option.some.inj hget).symm

variable [DecidableEq α]

/-- The loop reads the path only. -/
theorem popLoop?_eq {n : Nat} (h : n ≤ room prefixMax) (depth : Nat) (last : Option Nat) :
    side.popLoop? u prefixMax n depth last = some (popLoop u side.buf n depth last) := by
  induction n generalizing depth last with
  | zero => rfl
  | succ n ih =>
      rw [popLoop?, popLoop, read?_of_lt h, Option.bind_some]
      split
      · rfl
      · split
        · exact ih (Nat.le_of_succ_le h) _ _
        · exact ih (Nat.le_of_succ_le h) _ _

theorem popLoop?_of_cutLast (h : side.len ≤ room prefixMax) (depth : Nat) :
    side.popLoop? u prefixMax side.len depth none =
      some ((cutLast u.sep depth side.view).map fun r => r.1.length) := by
  rw [popLoop?_eq h, popLoop_eq, view]
  cases cutLast u.sep depth (slice side.buf 0 side.len) with
  | none => rfl
  | some r => rfl

theorem addSeparator?_empty (h : side.len = 0) : side.addSeparator? u prefixMax = none := by
  rw [addSeparator?, read?_empty h]
  rfl

/-- A path that ends with a separator gets no other one. -/
theorem addSeparator?_of_ends {n : Nat} (h : side.len = n + 1) (hlen : n < room prefixMax)
    (hends : side.buf n = u.sep ∨ side.buf n = u.slash) :
    side.addSeparator? u prefixMax = some side := by
  rw [addSeparator?, read?_last h hlen]
  exact if_pos hends

theorem addSeparator?_of_not_ends {n : Nat} (h : side.len = n + 1)
    (hlen : side.len < room prefixMax) (hends : ¬ (side.buf n = u.sep ∨ side.buf n = u.slash)) :
    side.addSeparator? u prefixMax =
      some { buf := store side.buf side.len [u.sep], len := side.len + 1 } := by
  rw [addSeparator?, read?_last h (by omega), write?]
  show (if _ then _ else _) = _
  rw [if_neg hends, if_pos (show side.len + [u.sep].length ≤ room prefixMax from hlen)]
  rfl

omit [DecidableEq α] in
theorem slice_store_behind {c : α} {pos n : Nat} (buf : Nat → α) (len : Nat) (h : pos < n) :
    slice (store buf pos [c]) n len = slice buf n len := by
  refine slice_congr fun i _ => ?_
  rw [store, if_neg (by omega), List.getElem?_eq_none (by rw [List.length_singleton]; omega)]
  rfl

/-- What `AppendPath` of the view makes of the path that was cut. -/
theorem append_truncated {init : List α} {x : α} (hfits : side.len < room prefixMax)
    (h : side.view = init ++ [x] ++ u.sep :: after) :
    ∃ extended copied,
      (side.truncate u (init ++ [x]).length).addSeparator? u prefixMax = some extended ∧
      extended.copyView? u prefixMax ⟨(init ++ [x]).length + 1, after.length⟩ = some copied ∧
      copied.buf copied.len = u.nul ∧
      if x = u.sep ∨ x = u.slash then copied.view ≠ side.view else copied.view = side.view := by
  obtain ⟨hlen, hafter⟩ := slice_after h
  have hcut : (side.truncate u (init ++ [x]).length).view = init ++ [x] := view_truncate h
  have hlast : (side.truncate u (init ++ [x]).length).buf init.length = x :=
    buf_before (hcut.trans (List.append_nil _).symm)
  have hcutlen : (side.truncate u (init ++ [x]).length).len = init.length + 1 :=
    List.length_append
  have hbehind : slice (side.truncate u (init ++ [x]).length).buf ((init ++ [x]).length + 1)
      after.length = after :=
    (slice_store_behind side.buf after.length (Nat.lt_succ_self _)).trans hafter
  have hview : (init ++ [x]).length + 1 + after.length ≤ room prefixMax := by omega
  by_cases hends : x = u.sep ∨ x = u.slash
  · -- the path has one unit less than before
    obtain ⟨copied, hcopied, hcopiedlen, -, hnul⟩ :=
      @copyView?_eq _ u prefixMax (side.truncate u (init ++ [x]).length)
        ⟨(init ++ [x]).length + 1, after.length⟩ hview
        (show (init ++ [x]).length + after.length < room prefixMax by omega)
    have hcopiedlen : copied.len = (init ++ [x]).length + after.length := hcopiedlen
    refine ⟨_, copied, addSeparator?_of_ends hcutlen ?_ (hlast.symm ▸ hends), hcopied, hnul, ?_⟩
    · rw [List.length_append, List.length_singleton] at hlen
      omega
    · rw [if_pos hends]
      intro hsame
      have hsame := congrArg List.length hsame
      rw [length_view, length_view] at hsame
      omega
  · obtain ⟨extended, hextended⟩ : ∃ extended : Side α, extended =
        { buf := store (side.truncate u (init ++ [x]).length).buf (init ++ [x]).length [u.sep]
          len := (init ++ [x]).length + 1 } := ⟨_, rfl⟩
    have hsep : (side.truncate u (init ++ [x]).length).addSeparator? u prefixMax =
        some extended := by
      rw [hextended]
      refine addSeparator?_of_not_ends hcutlen ?_ (hlast.symm ▸ hends)
      show (init ++ [x]).length < room prefixMax
      omega
    have hextview : extended.view = init ++ [x] ++ [u.sep] := by
      have hcontent := @slice_store_append _ (side.truncate u (init ++ [x]).length).buf
        (init ++ [x]).length [u.sep] []
      rw [hextended, view]
      exact hcontent.trans (congrArg (· ++ [u.sep]) hcut)
    have hextbehind : slice extended.buf ((init ++ [x]).length + 1) after.length = after := by
      rw [hextended]
      exact (slice_store_behind _ _ (Nat.lt_succ_self _)).trans hbehind
    obtain ⟨copied, hcopied, -, hcopiedview, hnul⟩ :=
      @copyView?_eq _ u prefixMax extended ⟨(init ++ [x]).length + 1, after.length⟩ hview (by
        rw [hextended]
        show (init ++ [x]).length + 1 + after.length < room prefixMax
        omega)
    refine ⟨extended, copied, hsep, hcopied, hnul, ?_⟩
    rw [if_neg hends, hcopiedview, hextview, hextbehind, h, List.append_assoc]
    rfl

/-- What the loop finds is where the path is cut. -/
theorem popLoop?_eq_some_iff {depth cursor : Nat} (h : side.len ≤ room prefixMax) :
    side.popLoop? u prefixMax side.len depth none = some (some cursor) ↔
      ∃ before after, CutAt u.sep depth side.view before after ∧ before.length = cursor := by
  rw [popLoop?_of_cutLast h, Option.some.injEq, Option.map_eq_some_iff]
  constructor
  · rintro ⟨⟨before, after⟩, hcut, hcursor⟩
    exact ⟨before, after, cutAt_of_cutLast hcut, hcursor⟩
  · rintro ⟨before, after, hcut, hcursor⟩
    exact ⟨(before, after), cutLast_eq_some_iff.mpr hcut, hcursor⟩

/-- Something stands before the separator that the path is cut at, and it does not end with the
other separator, unless nothing is behind it. -/
def Restorable (u : Units α) (depth : Nat) (path : List α) : Prop :=
  ∀ before after, CutAt u.sep depth path before after → after ≠ [] →
    before ≠ [] ∧ before.getLast? ≠ some u.slash

theorem popPath?_of_none {depth : UInt32}
    (h : side.popLoop? u prefixMax side.len depth.toNat none = some none) :
    side.popPath? u prefixMax depth true = some (⟨0, 0⟩, none) := by
  simp only [popPath?, h]

theorem popPath?_of_some {depth : UInt32} {cursor : Nat} (hcursor : cursor < room prefixMax)
    (h : side.popLoop? u prefixMax side.len depth.toNat none = some (some cursor)) :
    side.popPath? u prefixMax depth true =
      some (⟨cursor + 1, side.len - (cursor + 1)⟩, some (side.truncate u cursor)) := by
  simp only [popPath?, h, truncate?_eq hcursor, Option.map_some, if_true]

theorem appendPath?_eq_some_iff {view : View} (hview : view.len ≠ 0) {result : Side α × Bool} :
    side.appendPath? u prefixMax view = some result ↔ ∃ extended copied,
      side.addSeparator? u prefixMax = some extended ∧
      extended.copyView? u prefixMax view = some copied ∧ result = (copied, true) := by
  rw [appendPath?, Option.bind_eq_some_iff]
  simp only [if_neg hview, Option.map_eq_some_iff]
  constructor
  · rintro ⟨extended, hextended, copied, hcopied, rfl⟩
    exact ⟨extended, copied, hextended, hcopied, rfl⟩
  · rintro ⟨extended, copied, hextended, hcopied, rfl⟩
    exact ⟨extended, hextended, copied, hcopied, rfl⟩

/-- What the loop finds can be put back exactly when the path is restorable. -/
theorem append_truncated_iff {depth : Nat} (hfits : side.len < room prefixMax)
    (hsep : ¬ [u.sep, u.sep] <:+: side.view) :
    (∀ cursor, side.popLoop? u prefixMax side.len depth none = some (some cursor) →
      side.len - (cursor + 1) ≠ 0 → ∃ extended copied,
        (side.truncate u cursor).addSeparator? u prefixMax = some extended ∧
        extended.copyView? u prefixMax ⟨cursor + 1, side.len - (cursor + 1)⟩ = some copied ∧
        copied.view = side.view ∧ copied.buf copied.len = u.nul) ↔
    Restorable u depth side.view := by
  have hbound : ∀ {before after : List α}, side.view = before ++ u.sep :: after →
      side.len - (before.length + 1) = after.length := by
    intro before after h
    have hlen := (slice_after h).1
    omega
  constructor
  · intro h before after hcut hafter
    have hrest := hbound hcut.1
    obtain ⟨extended, copied, hextended, hcopied, hview, -⟩ :=
      h before.length ((popLoop?_eq_some_iff (Nat.le_of_lt hfits)).mpr ⟨_, _, hcut, rfl⟩)
        (hrest.symm ▸ fun hzero => hafter (List.length_eq_zero_iff.mp hzero))
    obtain rfl | ⟨init, x, rfl⟩ := List.eq_nil_or_concat' before
    · -- the unit before the end of the empty path is read
      rw [addSeparator?_empty rfl] at hextended
      cases hextended
    · refine ⟨List.append_ne_nil_of_right_ne_nil _ (List.cons_ne_nil _ _), fun hslash => ?_⟩
      rw [List.getLast?_concat, Option.some.injEq] at hslash
      obtain ⟨extended', copied', hextended', hcopied', -, hdiffers⟩ :=
        append_truncated hfits hcut.1
      rw [hextended', Option.some.injEq] at hextended
      subst hextended
      rw [hrest, hcopied', Option.some.injEq] at hcopied
      subst hcopied
      rw [if_pos (Or.inr hslash)] at hdiffers
      exact hdiffers hview
  · intro h cursor hcursor hrest
    obtain ⟨before, after, hcut, rfl⟩ := (popLoop?_eq_some_iff (Nat.le_of_lt hfits)).mp hcursor
    rw [hbound hcut.1] at hrest ⊢
    obtain ⟨hne, hslash⟩ := h before after hcut fun hnil => hrest (hnil ▸ rfl)
    obtain ⟨init, x, rfl⟩ := (List.eq_nil_or_concat' before).resolve_left hne
    obtain ⟨extended, copied, hextended, hcopied, hnul, hsame⟩ := append_truncated hfits hcut.1
    have hends : ¬ (x = u.sep ∨ x = u.slash) := by
      rintro (rfl | rfl)
      · refine hsep ⟨init, after, ?_⟩
        rw [hcut.1, List.append_assoc, List.append_assoc]
        rfl
      · exact hslash List.getLast?_concat
    rw [if_neg hends] at hsame
    exact ⟨extended, copied, hextended, hcopied, hsame, hnul⟩

/-- The view that `PopPath` returns is put back by `AppendPath`, inside of the buffer. -/
def PutBack (u : Units α) (prefixMax : Nat) (side : Side α) (depth : UInt32) : Prop :=
  ∃ view popped, side.popPath? u prefixMax depth true = some (view, popped) ∧
    (view.len ≠ 0 → ∃ restored,
      (popped.getD side).appendPath? u prefixMax view = some (restored, true) ∧
      restored.view = side.view ∧ restored.buf restored.len = u.nul)

theorem putBack_iff {depth : UInt32} (hfits : side.len < room prefixMax)
    (hsep : ¬ [u.sep, u.sep] <:+: side.view) :
    side.PutBack u prefixMax depth ↔ Restorable u depth.toNat side.view := by
  rw [← append_truncated_iff hfits hsep]
  have hloop := popLoop?_of_cutLast (u := u) (Nat.le_of_lt hfits) depth.toNat
  cases hfound : (cutLast u.sep depth.toNat side.view).map fun r => r.1.length with
  | none =>
      rw [hfound] at hloop
      refine ⟨fun _ cursor hcursor => ?_, fun _ => ?_⟩
      · cases hloop.symm.trans hcursor
      · exact ⟨_, _, popPath?_of_none hloop, fun hzero => absurd rfl hzero⟩
  | some cursor =>
      rw [hfound] at hloop
      obtain ⟨before, after, hcut, hlength⟩ := (popLoop?_eq_some_iff (Nat.le_of_lt hfits)).mp hloop
      have hcursor : cursor < room prefixMax := by
        have hlen := (slice_after hcut.1).1
        omega
      have hpop := popPath?_of_some hcursor hloop
      constructor
      · rintro ⟨view, popped, hcall, happend⟩ cursor' hcursor' hrest
        cases hloop.symm.trans hcursor'
        cases hpop.symm.trans hcall
        obtain ⟨restored, hrestored, hview, hnul⟩ := happend hrest
        obtain ⟨extended, copied, hextended, hcopied, hresult⟩ :=
          (appendPath?_eq_some_iff hrest).mp hrestored
        cases hresult
        exact ⟨extended, restored, hextended, hcopied, hview, hnul⟩
      · intro h
        refine ⟨_, _, hpop, fun hrest => ?_⟩
        obtain ⟨extended, copied, hextended, hcopied, hview, hnul⟩ := h cursor hloop hrest
        exact ⟨copied,
          (appendPath?_eq_some_iff hrest).mpr ⟨extended, copied, hextended, hcopied, rfl⟩,
          hview, hnul⟩

variable {σ : Type} {pop : Option (View × σ)} {append : σ → View → Option σ} {s : σ}

/-- Calls of an object that has the buffer put the view back when the buffer does. -/
theorem putBack_of_calls (get : σ → Side α) (put : σ → Side α → Bool → σ) {depth : UInt32}
    (hget : ∀ s side changed, get (put s side changed) = side)
    (hpop : pop = ((get s).popPath? u prefixMax depth true).map fun result =>
      (result.1, put s (result.2.getD (get s)) result.2.isSome))
    (happend : ∀ side changed view, append (put s side changed) view =
      ((get (put s side changed)).appendPath? u prefixMax view).map fun result =>
        put (put s side changed) result.1 result.2) :
    (∃ view popped, pop = some (view, popped) ∧
      (view.len ≠ 0 → ∃ restored, append popped view = some restored ∧
        (get restored).view = (get s).view ∧
        (get restored).buf (get restored).len = u.nul)) ↔ (get s).PutBack u prefixMax depth := by
  subst hpop
  constructor
  · rintro ⟨view, popped, hcall, hback⟩
    obtain ⟨⟨view, changed⟩, hpop, hresult⟩ := Option.map_eq_some_iff.mp hcall
    cases hresult
    refine ⟨view, changed, hpop, fun hrest => ?_⟩
    obtain ⟨restored, hrestored, hview, hnul⟩ := hback hrest
    rw [happend, hget] at hrestored
    obtain ⟨⟨copied, done⟩, hcopied, rfl⟩ := Option.map_eq_some_iff.mp hrestored
    obtain ⟨extended, copied', -, -, hdone⟩ := (appendPath?_eq_some_iff hrest).mp hcopied
    cases hdone
    rw [hget] at hview hnul
    exact ⟨copied, hcopied, hview, hnul⟩
  · rintro ⟨view, changed, hpop, hback⟩
    refine ⟨view, _, Option.map_eq_some_iff.mpr ⟨_, hpop, rfl⟩, fun hrest => ?_⟩
    obtain ⟨restored, hrestored, hview, hnul⟩ := hback hrest
    have hcall := happend (changed.getD (get s)) changed.isSome view
    rw [hget, hrestored, Option.map_some] at hcall
    refine ⟨_, hcall, ?_⟩
    rw [hget]
    exact ⟨hview, hnul⟩

end Side

/-! ## Popping and appending -/

namespace FPathBuf

variable {conv : Conversions} {s : FPathBuf} {prefixMax : Nat}

theorem synced_toPath : (s.toPath conv).synced = true := by
  rw [toPath]
  split
  · assumption
  · rfl

theorem wSynced_toPathW : (s.toPathW conv).wSynced = true := by
  rw [toPathW]
  split
  · assumption
  · rfl

@[simp] theorem narrow_withNarrow (narrow : Side (BitVec 8)) (changed : Bool) :
    (s.withNarrow narrow changed).narrow = narrow := by
  cases changed <;> rfl

@[simp] theorem wide_withWide (wide : Side (BitVec 16)) (changed : Bool) :
    (s.withWide wide changed).wide = wide := by
  cases changed <;> rfl

theorem synced_withNarrow (h : s.synced = true) (narrow : Side (BitVec 8)) (changed : Bool) :
    (s.withNarrow narrow changed).synced = true := by
  cases changed with
  | false => exact h
  | true => rfl

theorem wSynced_withWide (h : s.wSynced = true) (wide : Side (BitVec 16)) (changed : Bool) :
    (s.withWide wide changed).wSynced = true := by
  cases changed with
  | false => exact h
  | true => rfl

/-- Nothing is converted when the narrow buffer has the path. -/
theorem appendPath?_of_synced (h : s.synced = true) (u : Units (BitVec 8)) (view : View) :
    s.appendPath? prefixMax conv u view =
      (s.narrow.appendPath? u prefixMax view).map fun result => s.withNarrow result.1 result.2 := by
  have hpath : s.toPath conv = s := if_pos h
  rw [appendPath?, hpath]

theorem appendPathW?_of_wSynced (h : s.wSynced = true) (u : Units (BitVec 16)) (view : View) :
    s.appendPathW? prefixMax conv u view =
      (s.wide.appendPath? u prefixMax view).map fun result => s.withWide result.1 result.2 := by
  have hpath : s.toPathW conv = s := if_pos h
  rw [appendPathW?, hpath]

/-- `PopPath` stays inside of the buffer, and when it returns a view that is not empty then
`AppendPath` of it stays inside of the buffer and restores the path, exactly when the separator that
the path is cut at is not its first unit and does not stand behind the other separator. -/
theorem pop_append_iff (u : Units (BitVec 8)) (prefixMax : Nat) (conv : Conversions)
    (s : FPathBuf) (depth : UInt32) (hfits : (s.toPath conv).narrow.len < room prefixMax)
    (hsep : ¬ [u.sep, u.sep] <:+: (s.toPath conv).narrow.view) :
    (∃ view popped, s.popPath? prefixMax conv u depth true = some (view, popped) ∧
      (view.len ≠ 0 → ∃ restored, popped.appendPath? prefixMax conv u view = some restored ∧
        restored.narrow.view = (s.toPath conv).narrow.view ∧
        restored.narrow.buf restored.narrow.len = u.nul)) ↔
    Side.Restorable u depth.toNat (s.toPath conv).narrow.view := by
  rw [← Side.putBack_iff hfits hsep]
  exact Side.putBack_of_calls narrow withNarrow (fun _ => narrow_withNarrow) rfl
    fun side changed view =>
      appendPath?_of_synced (synced_withNarrow synced_toPath side changed) u view

/-- The names of `a/b/c` behind the first separator are taken away and put back. -/
theorem pop_append_names :
    (∃ view popped, (({} : FPathBuf).setPath [0x61, 0x2F, 0x62, 0x2F, 0x63]).popPath? 0
        ⟨fun _ => [], fun _ => []⟩ posixUnits 2 true = some (view, popped) ∧
      (view.len ≠ 0 → ∃ restored,
        popped.appendPath? 0 ⟨fun _ => [], fun _ => []⟩ posixUnits view = some restored ∧
        restored.narrow.view = [0x61, 0x2F, 0x62, 0x2F, 0x63] ∧
        restored.narrow.buf restored.narrow.len = 0)) := by
  refine (pop_append_iff posixUnits 0 ⟨fun _ => [], fun _ => []⟩
    (({} : FPathBuf).setPath [0x61, 0x2F, 0x62, 0x2F, 0x63]) 2 (by decide) (by decide)).mpr ?_
  intro before after hcut _
  obtain ⟨rfl, rfl⟩ : before = [0x61] ∧ after = [0x62, 0x2F, 0x63] :=
    hcut.unique ⟨by decide, Or.inl (by decide)⟩
  exact ⟨by decide, by decide⟩

/-- The name of `/a` is taken away, and `AppendPath` reads far outside of the buffer. -/
theorem not_pop_append :
    ∃ popped, (({} : FPathBuf).setPath [0x2F, 0x61]).popPath? 0 ⟨fun _ => [], fun _ => []⟩
        posixUnits 1 true = some (⟨1, 1⟩, popped) ∧
      popped.appendPath? 0 ⟨fun _ => [], fun _ => []⟩ posixUnits ⟨1, 1⟩ = none :=
  ⟨_, rfl, rfl⟩

/-- The same for the wide calls. -/
theorem popW_appendW_iff (u : Units (BitVec 16)) (prefixMax : Nat) (conv : Conversions)
    (s : FPathBuf) (depth : UInt32) (hfits : (s.toPathW conv).wide.len < room prefixMax)
    (hsep : ¬ [u.sep, u.sep] <:+: (s.toPathW conv).wide.view) :
    (∃ view popped, s.popPathW? prefixMax conv u depth true = some (view, popped) ∧
      (view.len ≠ 0 → ∃ restored, popped.appendPathW? prefixMax conv u view = some restored ∧
        restored.wide.view = (s.toPathW conv).wide.view ∧
        restored.wide.buf restored.wide.len = u.nul)) ↔
    Side.Restorable u depth.toNat (s.toPathW conv).wide.view := by
  rw [← Side.putBack_iff hfits hsep]
  exact Side.putBack_of_calls wide withWide (fun _ => wide_withWide) rfl
    fun side changed view =>
      appendPathW?_of_wSynced (wSynced_withWide wSynced_toPathW side changed) u view

end FPathBuf

end Utilpp.Path

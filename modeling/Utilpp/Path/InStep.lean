import Utilpp.Lib.Split
import Utilpp.Lib.Transition
import Utilpp.Path.PathBuf

/-!
# Two views of one path

A path is a list of characters, each of which has a code in bytes and one in wide characters. The
operations of `FPathBuf` are operations on such paths (`PathOp`), and a run of calls, narrow or
wide, should leave both buffers with the codes of the same path. They do if no call appends nothing
while the other buffer is up to date, none takes the root away from a wide path, and none looks for
a terminator where the path has none (`views_agree`).
-/

namespace Utilpp.Path

open Lib Cells

/-! ## Paths -/

/-- The characters that the operations look for. -/
structure PathChars (χ : Type) where
  sep : χ
  slash : χ
  question : χ

/-- The codes of characters. Those that the operations look for are single units, which do not occur
in other codes. -/
structure Codec {α χ : Type} (u : Units α) (k : PathChars χ) where
  code : χ → List α
  code_ne_nil : ∀ c, code c ≠ []
  nul_not_mem : ∀ c, u.nul ∉ code c
  code_sep : code k.sep = [u.sep]
  code_slash : code k.slash = [u.slash]
  code_question : code k.question = [u.question]
  eq_sep : ∀ c, u.sep ∈ code c → c = k.sep
  eq_slash : ∀ c, u.slash ∈ code c → c = k.slash
  eq_question : ∀ c, u.question ∈ code c → c = k.question

/-- The code of a path. -/
def Codec.encode {α χ : Type} {u : Units α} {k : PathChars χ} (e : Codec u k)
    (p : List χ) : List α :=
  p.flatMap e.code

/-- An operation on a path. The size that `UpdatePathLen` gets is that of the path in the buffer. -/
inductive PathOp (χ : Type) where
  | setPath (path : List χ)
  | appendPath (path : List χ)
  | popPath (depth : UInt32) (bRemove : Bool)
  | popRootPath
  | updatePathLen (content : Option (List χ))
  | getView

section

variable {χ : Type} [DecidableEq χ] (k : PathChars χ)

/-- The path with a separator at its end. -/
def PathChars.withSeparator (p : List χ) : List χ :=
  if p.getLast? = some k.sep ∨ p.getLast? = some k.slash then p else p ++ [k.sep]

/-- The path without the prefix `FILE_NAMESPACES`. -/
def PathChars.withoutPrefix (p : List χ) : List χ :=
  if 4 < p.length ∧ p.take 4 = [k.sep, k.sep, k.question, k.sep] then p.drop 4 else p

/-- The path after an operation. -/
def PathChars.apply (p : List χ) : PathOp χ → List χ
  | .setPath path => path
  | .appendPath path => k.withSeparator p ++ path
  | .popPath depth bRemove =>
      if bRemove then ((cutLast k.sep depth.toNat p).map Prod.fst).getD p else p
  | .popRootPath => ((splitFirst k.sep p).map Prod.snd).getD p
  | .updatePathLen content => k.withoutPrefix (content.getD p)
  | .getView => p

end

variable {χ : Type} {k : PathChars χ}

/-- The narrow or the wide call that does an operation. -/
def PathOp.call (e : Codec narrowUnits k) (eW : Codec wideUnits k) (isWide : Bool) :
    PathOp χ → Call
  | .setPath path => if isWide then .setPathW (eW.encode path) else .setPath (e.encode path)
  | .appendPath path =>
      if isWide then .appendPathW (eW.encode path) else .appendPath (e.encode path)
  | .popPath depth bRemove => if isWide then .popPathW depth bRemove else .popPath depth bRemove
  | .popRootPath => if isWide then .popRootPathW else .popRootPath
  | .updatePathLen content =>
      if isWide then .updatePathLenW (content.map fun path => (eW.encode path).length)
      else .updatePathLen (content.map fun path => (e.encode path).length)
  | .getView => if isWide then .getViewW else .getView

/-! ## One buffer -/

namespace Codec

variable {α : Type} {u : Units α} (e : Codec u k) {p : List χ}

@[simp] theorem encode_nil : e.encode [] = [] := rfl

theorem encode_cons (c : χ) (p : List χ) : e.encode (c :: p) = e.code c ++ e.encode p :=
  List.flatMap_cons

@[simp] theorem encode_append (p q : List χ) : e.encode (p ++ q) = e.encode p ++ e.encode q :=
  List.flatMap_append

theorem encode_eq_nil : e.encode p = [] ↔ p = [] := by
  cases p with
  | nil => exact ⟨fun _ => rfl, fun _ => rfl⟩
  | cons c p =>
      rw [encode_cons]
      exact ⟨fun h => absurd (List.append_eq_nil_iff.mp h).1 (e.code_ne_nil c),
        fun h => absurd h (List.cons_ne_nil c p)⟩

theorem nul_not_mem_encode (p : List χ) : u.nul ∉ e.encode p := by
  intro hmem
  obtain ⟨c, -, hc⟩ := List.mem_flatMap.mp hmem
  exact e.nul_not_mem c hc

/-- A path starts with a character when its code starts with the unit for it. -/
theorem encode_eq_cons {c : χ} {x : α} {l : List α} (hcode : e.code c = [x])
    (heq : ∀ d, x ∈ e.code d → d = c) : e.encode p = x :: l ↔ ∃ q, p = c :: q ∧ e.encode q = l := by
  constructor
  · intro h
    cases p with
    | nil => cases h
    | cons d q =>
        rw [encode_cons] at h
        obtain ⟨y, rest, hd⟩ := List.exists_cons_of_ne_nil (e.code_ne_nil d)
        rw [hd, List.cons_append, List.cons.injEq] at h
        have hdc : d = c := heq d (by rw [hd, h.1]; exact List.mem_cons_self)
        rw [hdc, hcode, List.cons.injEq] at hd
        refine ⟨q, by rw [hdc], ?_⟩
        rw [← h.2, ← hd.2, List.nil_append]
  · rintro ⟨q, rfl, rfl⟩
    rw [encode_cons, hcode]
    rfl

/-- A path has the prefix when its code has it. -/
theorem encode_eq_fileNamespaces {l : List α} : e.encode p = u.fileNamespaces ++ l ↔
    ∃ q, p = [k.sep, k.sep, k.question, k.sep] ++ q ∧ e.encode q = l := by
  have hsep : ∀ {p : List χ} {l : List α}, e.encode p = u.sep :: l ↔
      ∃ q, p = k.sep :: q ∧ e.encode q = l := e.encode_eq_cons e.code_sep e.eq_sep
  have hquestion : ∀ {p : List χ} {l : List α}, e.encode p = u.question :: l ↔
      ∃ q, p = k.question :: q ∧ e.encode q = l := e.encode_eq_cons e.code_question e.eq_question
  constructor
  · intro h
    obtain ⟨p₁, rfl, h₁⟩ := hsep.mp h
    obtain ⟨p₂, rfl, h₂⟩ := hsep.mp h₁
    obtain ⟨p₃, rfl, h₃⟩ := hquestion.mp h₂
    obtain ⟨p₄, rfl, h₄⟩ := hsep.mp h₃
    exact ⟨p₄, rfl, h₄⟩
  · rintro ⟨q, rfl, rfl⟩
    exact hsep.mpr ⟨_, rfl, hsep.mpr ⟨_, rfl, hquestion.mpr ⟨_, rfl, hsep.mpr ⟨q, rfl, rfl⟩⟩⟩⟩

theorem withoutPrefix_encode [DecidableEq α] [DecidableEq χ] (p : List χ) :
    e.encode (k.withoutPrefix p) =
      if 4 < (e.encode p).length ∧ (e.encode p).take 4 = u.fileNamespaces then
        (e.encode p).drop 4
      else e.encode p := by
  rw [PathChars.withoutPrefix]
  by_cases hp : 4 < p.length ∧ p.take 4 = [k.sep, k.sep, k.question, k.sep]
  · obtain ⟨q, rfl⟩ : ∃ q, p = [k.sep, k.sep, k.question, k.sep] ++ q :=
      ⟨p.drop 4, hp.2 ▸ (List.take_append_drop 4 p).symm⟩
    have hcode := e.encode_eq_fileNamespaces.mpr ⟨q, rfl, rfl⟩
    have hlen : 0 < (e.encode q).length := by
      refine List.length_pos_iff.mpr fun hnil => ?_
      rw [e.encode_eq_nil.mp hnil] at hp
      exact absurd hp.1 (Nat.lt_irrefl 4)
    have hlong : 4 < (u.fileNamespaces ++ e.encode q).length := by
      rw [List.length_append]
      exact Nat.lt_add_of_pos_right hlen
    rw [if_pos hp, hcode, if_pos ⟨hlong, rfl⟩]
    rfl
  · rw [if_neg hp, if_neg]
    rintro ⟨hlen, htake⟩
    obtain ⟨q, rfl, hq⟩ := e.encode_eq_fileNamespaces.mp
      (htake ▸ (List.take_append_drop 4 (e.encode p)).symm)
    refine hp ⟨?_, rfl⟩
    have hne : q ≠ [] := by
      rintro rfl
      have hdrop := congrArg List.length hq
      rw [List.length_drop] at hdrop
      have hzero : 0 = (e.encode ([k.sep, k.sep, k.question, k.sep] ++ [])).length - 4 := hdrop
      omega
    rw [List.length_append]
    exact Nat.lt_add_of_pos_right (List.length_pos_iff.mpr hne)

end Codec

namespace Side

variable {α : Type} {u : Units α} {e : Codec u k} {side : Side α} {p : List χ}

theorem view_assign (path : List α) : (side.assign u path).view = path := by
  have hview := @slice_store_append _ side.buf 0 path [u.nul]
  rwa [Nat.zero_add] at hview

theorem view_append (path : List α) : (side.append u path).view = side.view ++ path :=
  slice_store_append

theorem len_eq (h : side.view = e.encode p) : side.len = (e.encode p).length := by
  rw [← h, length_view]

/-- The path that is cut off. -/
theorem view_truncate {before after : List α} (h : side.view = before ++ after) :
    (side.truncate u before.length).view = before := by
  have hlen := congrArg List.length h
  rw [length_view, List.length_append] at hlen
  rw [truncate, view, slice_store_of_le (Nat.le_of_eq (Nat.zero_add _)),
    ← take_slice (show before.length ≤ side.len by omega)]
  exact (congrArg (List.take before.length) h).trans List.take_left

theorem rootless_eq {cursor : Nat} (hcursor : cursor < side.len) (hlen : side.len < pathMax) :
    side.rootless cursor = side.len - cursor - 1 := by
  unfold pathMax at hlen
  rw [rootless]
  omega

/-- What remains behind the root. -/
theorem view_dropRoot {before after : List α} (h : side.view = before ++ u.sep :: after)
    (hlen : side.len < pathMax) : (side.dropRoot before.length).view = after := by
  have hlength := congrArg List.length h
  rw [length_view, List.length_append, List.length_cons] at hlength
  have hrest : side.rootless before.length = after.length := by
    rw [rootless_eq (by omega) hlen]
    omega
  unfold pathMax at hlen
  have hsize : (after.length + 1) % 2 ^ 32 = after.length + 1 := by omega
  have hcells : slice side.buf (before.length + 1) after.length = after := by
    have hdrop := @drop_slice _ side.buf (before.length + 1) side.len (by omega)
    have hrest : side.len - (before.length + 1) = after.length := by omega
    rw [← view, h, List.drop_length_add_append, hrest] at hdrop
    exact hdrop.symm
  have hview := @slice_store_append _ side.buf 0 after
    [side.buf (before.length + 1 + after.length)]
  rw [dropRoot, hrest, hsize, slice_succ, hcells, view]
  rwa [Nat.zero_add] at hview

/-- The path becomes what stands at its beginning. -/
theorem view_rootless {before after : List α} (h : side.view = before ++ u.sep :: after)
    (hlen : side.len < pathMax)
    (hsame : side.view.take (side.len - before.length - 1) = side.view.drop (before.length + 1)) :
    slice side.buf 0 (side.rootless before.length) = after := by
  have hlength := congrArg List.length h
  rw [length_view, List.length_append, List.length_cons] at hlength
  rw [rootless_eq (by omega) hlen,
    ← take_slice (Nat.sub_le_of_le_add (Nat.le_add_right_of_le (Nat.sub_le ..)))]
  refine hsame.trans ?_
  rw [h, List.drop_length_add_append]
  rfl

variable [DecidableEq α]

/-- The last unit of a path is a separator when its last character is one. -/
theorem endsWithSeparator_iff (h : side.view = e.encode p) (hp : p ≠ []) :
    side.endsWithSeparator u = true ↔ p.getLast? = some k.sep ∨ p.getLast? = some k.slash := by
  obtain ⟨p, c, rfl⟩ := (List.eq_nil_or_concat' p).resolve_left hp
  obtain ⟨l, x, hcode⟩ := (List.eq_nil_or_concat' (e.code c)).resolve_left (e.code_ne_nil c)
  have hview : side.view = e.encode p ++ l ++ [x] := by
    rw [h, e.encode_append, e.encode_cons, hcode, e.encode_nil, List.append_nil, List.append_assoc]
  obtain ⟨n, hn⟩ : ∃ n, side.len = n + 1 := by
    refine Nat.exists_eq_add_one.mpr ?_
    have hlen := congrArg List.length hview
    rw [length_view, List.length_append] at hlen
    rw [hlen]
    exact Nat.lt_add_left _ Nat.one_pos
  have hlast : side.buf (side.len - 1) = x := by
    rw [view, hn, slice_succ, Nat.zero_add] at hview
    rw [hn, Nat.add_sub_cancel]
    exact List.singleton_inj.mp (List.append_inj' hview rfl).2
  have hmem : x ∈ e.code c := by
    rw [hcode]
    exact List.mem_concat_self
  have hunit : ∀ {d : χ} {y : α}, e.code d = [y] → (∀ d', y ∈ e.code d' → d' = d) →
      (x = y ↔ c = d) := by
    intro d y hd heq
    constructor
    · rintro rfl
      exact heq c hmem
    · rintro rfl
      rw [hd] at hmem
      exact List.mem_singleton.mp hmem
  rw [endsWithSeparator, decide_eq_true_eq, hlast, List.getLast?_concat, Option.some.injEq,
    Option.some.injEq, hunit e.code_sep e.eq_sep, hunit e.code_slash e.eq_slash]

theorem view_addSeparator [DecidableEq χ] (h : side.view = e.encode p) (hp : p ≠ []) :
    (side.addSeparator u).view = e.encode (k.withSeparator p) := by
  rw [addSeparator, PathChars.withSeparator]
  simp only [endsWithSeparator_iff h hp]
  split
  · exact h
  · have hview : slice (store side.buf side.len [u.sep]) 0 (side.len + 1) = side.view ++ [u.sep] :=
      @slice_store_append _ side.buf side.len [u.sep] []
    rw [view, hview, h, e.encode_append, e.encode_cons, e.code_sep, e.encode_nil, List.append_nil]

/-- A path that ends with a separator gets no other one. -/
theorem addSeparator_of_ends [DecidableEq χ] (h : side.view = e.encode p) (hp : p ≠ [])
    (hends : side.endsWithSeparator u = true) :
    side.addSeparator u = side ∧ k.withSeparator p = p :=
  ⟨if_pos hends, if_pos ((endsWithSeparator_iff h hp).mp hends)⟩

/-- The loop of `PopPath` finds where the path is cut. -/
theorem popLoop_eq (buf : Nat → α) (n depth : Nat) (last : Option Nat) :
    popLoop u buf n depth last =
      match cutLast u.sep depth (slice buf 0 n) with
      | none => last
      | some r => some r.1.length := by
  induction n generalizing depth last with
  | zero =>
      cases depth with
      | zero => rfl
      | succ depth => rfl
  | succ n ih =>
      rw [slice_succ, Nat.zero_add, popLoop]
      cases depth with
      | zero => rfl
      | succ depth =>
          rw [if_neg (Nat.succ_ne_zero depth), Nat.add_sub_cancel]
          split
          · rename_i heq
            rw [ih, heq, cutLast_concat_sep]
            cases cutLast u.sep depth (slice buf 0 n) with
            | none => exact congrArg some length_slice.symm
            | some r => rfl
          · rename_i hne
            rw [ih, cutLast_concat_of_ne hne]
            cases cutLast u.sep (depth + 1) (slice buf 0 n) with
            | none => rfl
            | some r => rfl

/-- `PopPath` finds where the path is cut. -/
theorem lastCursor_eq (depth : UInt32) : side.lastCursor u depth =
    (cutLast u.sep depth.toNat side.view).map fun r => r.1.length := by
  rw [lastCursor, popLoop_eq, view]
  cases cutLast u.sep depth.toNat (slice side.buf 0 side.len) with
  | none => rfl
  | some r => rfl

/-- The separator that the path is split at is found. -/
theorem firstCursor_of_view {before after : List α} (h : side.view = before ++ u.sep :: after)
    (hsep : u.sep ∉ before) (hnul : u.nul ∉ before) (hlen : side.len < pathMax) :
    side.firstCursor u = some before.length := by
  have hlt : before.length < side.len := by
    have hlength := congrArg List.length h
    rw [length_view, List.length_append, List.length_cons] at hlength
    omega
  have hbefore : before.findIdx? (fun x => decide (x = u.sep ∨ x = u.nul)) = none := by
    refine List.findIdx?_eq_none_iff.mpr fun x hx => decide_eq_false fun heq => ?_
    rcases heq with rfl | rfl
    · exact hsep hx
    · exact hnul hx
  have hidx : (slice side.buf 0 side.len).findIdx?
      (fun x => decide (x = u.sep ∨ x = u.nul)) = some before.length := by
    rw [← view, h, List.findIdx?_append, hbefore, List.findIdx?_cons, decide_eq_true (.inl rfl)]
    simp
  have hbuf : side.buf before.length = u.sep := by
    have hget := @getElem?_slice _ side.buf 0 side.len before.length hlt
    rw [← view, h, List.getElem?_append_right (Nat.le_refl _), Nat.sub_self, Nat.zero_add] at hget
    exact (Option.some.inj hget).symm
  rcases @firstIndex_of_slice _ side.buf side.len
    (fun x => decide (x = u.sep ∨ x = u.nul)) pathMax hlen with ⟨i, hi, -, hindex⟩ | ⟨hnone, -⟩
  · cases hidx.symm.trans hi
    rw [firstCursor, hindex]
    exact Option.filter_eq_some_iff.mpr ⟨rfl, decide_eq_true hbuf⟩
  · exact absurd (hidx.symm.trans hnone) (Option.some_ne_none _)

/-- A search that stays in the path finds its first separator. -/
theorem firstCursor_eq (hnul : u.nul ∉ side.view) (hlen : side.len < pathMax)
    (hinside : ∀ i, side.firstCursor u = some i → i < side.len) :
    side.firstCursor u = (splitFirst u.sep side.view).map fun r => r.1.length := by
  cases hsplit : splitFirst u.sep side.view with
  | none =>
      cases hcursor : side.firstCursor u with
      | none => rfl
      | some i =>
          -- what is found is a separator in the path
          have hi := hinside i hcursor
          obtain ⟨-, hbuf⟩ := Option.filter_eq_some_iff.mp hcursor
          refine absurd (mem_slice.mpr ⟨i, hi, ?_⟩) (splitFirst_eq_none.mp hsplit)
          rw [Nat.zero_add]
          exact of_decide_eq_true hbuf
  | some r =>
      obtain ⟨hview, hsep⟩ := splitFirst_eq_some hsplit
      exact firstCursor_of_view hview hsep
        (fun hmem => hnul (hview ▸ List.mem_append_left _ hmem)) hlen

/-- `UpdatePathLen` takes the path from the buffer and the prefix from the path. -/
theorem view_updateLen [DecidableEq χ]
    (h : slice side.buf 0 (e.encode p).length = e.encode p) :
    (side.updateLen u (e.encode p).length).view = e.encode (k.withoutPrefix p) := by
  rw [e.withoutPrefix_encode, updateLen]
  by_cases hlen : 4 < (e.encode p).length
  · have htake : (e.encode p).take 4 = slice side.buf 0 4 := by
      rw [← h, take_slice hlen.le]
    have hdrop : (e.encode p).drop 4 = slice side.buf 4 ((e.encode p).length - 4) := by
      have hslice := @drop_slice _ side.buf 4 (e.encode p).length hlen.le
      rwa [h] at hslice
    rw [htake, hdrop]
    split
    · have hview := @slice_store _ side.buf 0 (slice side.buf 4 ((e.encode p).length - 4))
      rwa [length_slice] at hview
    · exact h
  · rw [if_neg fun hcond => hlen hcond.1, if_neg fun hcond => hlen hcond.1]
    exact h

section

variable [DecidableEq χ] {before after : List χ}

theorem lastCursor_of_none (h : side.view = e.encode p) {depth : UInt32}
    (hcut : cutLast k.sep depth.toNat p = none) : side.lastCursor u depth = none := by
  rw [lastCursor_eq, h, Codec.encode, cutLast_flatMap e.code_sep e.eq_sep, hcut]
  rfl

/-- `PopPath` cuts the code where the path is cut. -/
theorem lastCursor_of_some (h : side.view = e.encode p) {depth : UInt32}
    (hcut : cutLast k.sep depth.toNat p = some (before, after)) :
    side.lastCursor u depth = some (e.encode before).length ∧
      (side.truncate u (e.encode before).length).view = e.encode before := by
  constructor
  · rw [lastCursor_eq, h, Codec.encode, cutLast_flatMap e.code_sep e.eq_sep, hcut]
    rfl
  · have hcode := congrArg e.encode (cutLast_eq_some hcut)
    rw [e.encode_append] at hcode
    exact view_truncate (h.trans hcode)

theorem firstCursor_of_none (h : side.view = e.encode p) (hlen : side.len < pathMax)
    (hinside : ∀ i, side.firstCursor u = some i → i < side.len)
    (hsplit : splitFirst k.sep p = none) : side.firstCursor u = none := by
  rw [firstCursor_eq (h ▸ e.nul_not_mem_encode p) hlen hinside, h, Codec.encode,
    splitFirst_flatMap e.code_sep e.eq_sep, hsplit]
  rfl

/-- `PopRootPath` splits the code where the path is split. -/
theorem firstCursor_of_some (h : side.view = e.encode p) (hlen : side.len < pathMax)
    (hinside : ∀ i, side.firstCursor u = some i → i < side.len)
    (hsplit : splitFirst k.sep p = some (before, after)) :
    side.firstCursor u = some (e.encode before).length ∧
      side.view = e.encode before ++ u.sep :: e.encode after := by
  constructor
  · rw [firstCursor_eq (h ▸ e.nul_not_mem_encode p) hlen hinside, h, Codec.encode,
      splitFirst_flatMap e.code_sep e.eq_sep, hsplit]
    rfl
  · rw [h, (splitFirst_eq_some hsplit).1, e.encode_append, e.encode_cons, e.code_sep]
    rfl

end

end Side

/-! ## Both buffers -/

/-- The conversions turn one code of a path into the other. -/
structure Conversions.Inverse (conv : Conversions) (e : Codec narrowUnits k)
    (eW : Codec wideUnits k) : Prop where
  toWide : ∀ p, conv.multiByteToWideChar (e.encode p) = eW.encode p
  toNarrow : ∀ p, conv.wideCharToMultiByte (eW.encode p) = e.encode p

/-- Both codes of the path fit the buffers, with a terminator. -/
def Fits (e : Codec narrowUnits k) (eW : Codec wideUnits k) (p : List χ) : Prop :=
  (e.encode p).length < pathMax ∧ (eW.encode p).length < pathMax

/-- The buffers that are up to date have the codes of the path. -/
structure Denotes (e : Codec narrowUnits k) (eW : Codec wideUnits k) (s : FPathBuf)
    (p : List χ) : Prop where
  synced : s.synced = true ∨ s.wSynced = true
  narrow : s.synced = true → s.narrow.view = e.encode p
  wide : s.wSynced = true → s.wide.view = eW.encode p
  fits : Fits e eW p

variable {e : Codec narrowUnits k} {eW : Codec wideUnits k} {conv : Conversions} {s : FPathBuf}
  {p : List χ}

/-- The first unit of a buffer is the terminator only if the path in it is empty. -/
theorem encode_of_nul {α : Type} {u : Units α} {e : Codec u k} {side : Side α}
    (h : side.view = e.encode p) (hnul : side.buf 0 = u.nul) : p = [] := by
  by_contra hp
  refine e.nul_not_mem_encode p (h ▸ mem_slice.mpr ⟨0, ?_, hnul⟩)
  refine Nat.pos_of_ne_zero fun hzero => hp (e.encode_eq_nil.mp ?_)
  rw [← h, Side.view, hzero]
  rfl

theorem u8ToU16Buf_eq (hconv : conv.Inverse e eW) (h : s.narrow.view = e.encode p) :
    s.u8ToU16Buf conv = eW.encode p := by
  rw [FPathBuf.u8ToU16Buf]
  split
  · rename_i hnul
    rw [encode_of_nul h hnul, eW.encode_nil]
  · rw [h, hconv.toWide]

theorem u16ToU8Buf_eq (hconv : conv.Inverse e eW) (h : s.wide.view = eW.encode p) :
    s.u16ToU8Buf conv = e.encode p := by
  rw [FPathBuf.u16ToU8Buf]
  split
  · rename_i hnul
    rw [encode_of_nul h hnul, e.encode_nil]
  · rw [h, hconv.toNarrow]

/-- After a narrow change only the narrow buffer is up to date. -/
theorem denotes_narrow {narrow : Side (BitVec 8)} (h : narrow.view = e.encode p)
    (hfits : Fits e eW p) : Denotes e eW ({ s with narrow := narrow }.onPathChanged false) p :=
  ⟨.inl rfl, fun _ => h, fun hfalse => absurd hfalse Bool.false_ne_true, hfits⟩

/-- After a wide change only the wide buffer is up to date. -/
theorem denotes_wide {wide : Side (BitVec 16)} (h : wide.view = eW.encode p)
    (hfits : Fits e eW p) : Denotes e eW ({ s with wide := wide }.onPathChanged true) p :=
  ⟨.inr rfl, fun hfalse => absurd hfalse Bool.false_ne_true, fun _ => h, hfits⟩

namespace Denotes

/-- `ToPathW` converts the path. -/
theorem toPathW (h : Denotes e eW s p) (hconv : conv.Inverse e eW) :
    ∃ wide : Side (BitVec 16), wide.view = eW.encode p ∧
      s.toPathW conv = { s with wide := wide, wSynced := true } := by
  rw [FPathBuf.toPathW]
  split
  · rename_i hw
    exact ⟨s.wide, h.wide hw, by rw [← hw]⟩
  · rename_i hw
    have hview := h.narrow (h.synced.resolve_right hw)
    exact ⟨_, (Side.view_assign _).trans (u8ToU16Buf_eq hconv hview), rfl⟩

/-- `ToPath` converts the path. -/
theorem toPath (h : Denotes e eW s p) (hconv : conv.Inverse e eW) :
    ∃ narrow : Side (BitVec 8), narrow.view = e.encode p ∧
      s.toPath conv = { s with narrow := narrow, synced := true } := by
  rw [FPathBuf.toPath]
  split
  · rename_i hs
    exact ⟨s.narrow, h.narrow hs, by rw [← hs]⟩
  · rename_i hs
    have hw := h.synced.resolve_left hs
    have hwide : s.toPathW conv = s := by rw [FPathBuf.toPathW, if_pos hw]
    rw [hwide]
    exact ⟨_, (Side.view_assign _).trans (u16ToU8Buf_eq hconv (h.wide hw)), rfl⟩

/-- The views have the codes of the path. -/
theorem views (h : Denotes e eW s p) (hconv : conv.Inverse e eW) :
    (s.getView conv).1 = e.encode p ∧ (s.getViewW conv).1 = eW.encode p := by
  obtain ⟨narrow, hnarrow, heq⟩ := h.toPath hconv
  obtain ⟨wide, hwide, heqW⟩ := h.toPathW hconv
  rw [FPathBuf.getView, FPathBuf.getViewW, heq, heqW]
  exact ⟨hnarrow, hwide⟩

/-- A buffer that is brought up to date has the same path. -/
theorem withNarrow (h : Denotes e eW s p) {narrow : Side (BitVec 8)}
    (hview : narrow.view = e.encode p) :
    Denotes e eW { s with narrow := narrow, synced := true } p :=
  ⟨.inl rfl, fun _ => hview, h.wide, h.fits⟩

theorem withWide (h : Denotes e eW s p) {wide : Side (BitVec 16)}
    (hview : wide.view = eW.encode p) :
    Denotes e eW { s with wide := wide, wSynced := true } p :=
  ⟨.inr rfl, h.narrow, fun _ => hview, h.fits⟩

end Denotes

/-! ## The operations -/

/-- The call does what the operation is for: when it appends nothing, the other buffer is out of
date or the path already ends with a separator; a search for the terminator or for the first
separator stays in the path; and a root is taken away from the wide path only if what remains stands
at its beginning already. -/
def Sound (conv : Conversions) (s : FPathBuf) : PathOp χ → Bool → Prop
  | .appendPath path, false => path = [] →
      s.wSynced = false ∨ (s.toPath conv).narrow.endsWithSeparator narrowUnits = true
  | .appendPath path, true => path = [] →
      s.synced = false ∨ (s.toPathW conv).wide.endsWithSeparator wideUnits = true
  | .popRootPath, false => ∀ cursor,
      (s.toPath conv).narrow.firstCursor narrowUnits = some cursor →
        cursor < (s.toPath conv).narrow.len
  | .popRootPath, true => ∀ cursor,
      (s.toPathW conv).wide.firstCursor wideUnits = some cursor →
        cursor < (s.toPathW conv).wide.len ∧
          (s.toPathW conv).wide.view.take ((s.toPathW conv).wide.len - cursor - 1) =
            (s.toPathW conv).wide.view.drop (cursor + 1)
  | .updatePathLen none, false =>
      (s.toPath conv).narrow.stringLength narrowUnits = (s.toPath conv).narrow.len
  | .updatePathLen none, true =>
      (s.toPathW conv).wide.stringLength wideUnits = (s.toPathW conv).wide.len
  | _, _ => True

/-- The operation is called with a path that it can use: nothing is appended to an empty path, and
the size for `UpdatePathLen` is that of a path in the buffer. -/
def Usable (e : Codec narrowUnits k) (eW : Codec wideUnits k) (s : FPathBuf) (p : List χ) :
    PathOp χ → Bool → Prop
  | .appendPath _, _ => p ≠ []
  | .updatePathLen (some content), false =>
      slice s.narrow.buf 0 (e.encode content).length = e.encode content
  | .updatePathLen (some content), true =>
      slice s.wide.buf 0 (eW.encode content).length = eW.encode content
  | _, _ => True

namespace Denotes

theorem setPath (path : List χ) (isWide : Bool) (hfits : Fits e eW path) :
    Denotes e eW (s.after conv (PathOp.call e eW isWide (.setPath path))) path := by
  cases isWide with
  | false => exact denotes_narrow (Side.view_assign _) hfits
  | true => exact denotes_wide (Side.view_assign _) hfits

variable [DecidableEq χ]

theorem appendPath_narrow (h : Denotes e eW s p) (hconv : conv.Inverse e eW) {path : List χ}
    (hp : p ≠ []) (hsound : Sound conv s (.appendPath path) false)
    (hfits : Fits e eW (k.apply p (.appendPath path))) :
    Denotes e eW (s.appendPath conv (e.encode path)) (k.withSeparator p ++ path) := by
  obtain ⟨narrow, hview, heq⟩ := h.toPath hconv
  have hsep := Side.view_addSeparator hview hp
  simp only [FPathBuf.appendPath, heq, e.encode_eq_nil]
  split
  · rename_i hnil
    cases hnil
    rw [List.append_nil]
    rcases hsound rfl with hw | hends
    · exact ⟨.inl rfl, fun _ => hsep, fun hfalse => absurd (hw.symm.trans hfalse)
        Bool.false_ne_true, List.append_nil (k.withSeparator p) ▸ hfits⟩
    · rw [heq] at hends
      obtain ⟨hsame, hpath⟩ := Side.addSeparator_of_ends hview hp hends
      rw [hsame, hpath]
      exact h.withNarrow hview
  · refine denotes_narrow ?_ hfits
    rw [Side.view_append, hsep, ← e.encode_append]

theorem appendPath_wide (h : Denotes e eW s p) (hconv : conv.Inverse e eW) {path : List χ}
    (hp : p ≠ []) (hsound : Sound conv s (.appendPath path) true)
    (hfits : Fits e eW (k.apply p (.appendPath path))) :
    Denotes e eW (s.appendPathW conv (eW.encode path)) (k.withSeparator p ++ path) := by
  obtain ⟨wide, hview, heq⟩ := h.toPathW hconv
  have hsep := Side.view_addSeparator hview hp
  simp only [FPathBuf.appendPathW, heq, eW.encode_eq_nil]
  split
  · rename_i hnil
    cases hnil
    rw [List.append_nil]
    rcases hsound rfl with hs | hends
    · exact ⟨.inr rfl, fun hfalse => absurd (hs.symm.trans hfalse) Bool.false_ne_true,
        fun _ => hsep, List.append_nil (k.withSeparator p) ▸ hfits⟩
    · rw [heq] at hends
      obtain ⟨hsame, hpath⟩ := Side.addSeparator_of_ends hview hp hends
      rw [hsame, hpath]
      exact h.withWide hview
  · refine denotes_wide ?_ hfits
    rw [Side.view_append, hsep, ← eW.encode_append]

theorem appendPath (h : Denotes e eW s p) (hconv : conv.Inverse e eW) {path : List χ}
    {isWide : Bool} (hp : p ≠ []) (hsound : Sound conv s (.appendPath path) isWide)
    (hfits : Fits e eW (k.apply p (.appendPath path))) :
    Denotes e eW (s.after conv (PathOp.call e eW isWide (.appendPath path)))
      (k.apply p (.appendPath path)) := by
  cases isWide with
  | false => exact h.appendPath_narrow hconv hp hsound hfits
  | true => exact h.appendPath_wide hconv hp hsound hfits

theorem apply_popPath {depth : UInt32} {bRemove : Bool}
    (h : cutLast k.sep depth.toNat p = none ∨ bRemove = false) :
    k.apply p (.popPath depth bRemove) = p := by
  rcases h with hcut | rfl
  · show (if bRemove then ((cutLast k.sep depth.toNat p).map Prod.fst).getD p else p) = p
    rw [hcut]
    exact ite_self p
  · rfl

theorem apply_popPath_of_some {depth : UInt32} {r : List χ × List χ}
    (hcut : cutLast k.sep depth.toNat p = some r) :
    k.apply p (.popPath depth true) = r.1 := by
  show ((cutLast k.sep depth.toNat p).map Prod.fst).getD p = r.1
  rw [hcut]
  rfl

theorem popPath_narrow (h : Denotes e eW s p) (hconv : conv.Inverse e eW) {depth : UInt32}
    {bRemove : Bool} (hfits : Fits e eW (k.apply p (.popPath depth bRemove))) :
    Denotes e eW (s.popPath conv depth bRemove).2 (k.apply p (.popPath depth bRemove)) := by
  obtain ⟨narrow, hview, heq⟩ := h.toPath hconv
  simp only [FPathBuf.popPath, heq]
  cases hcut : cutLast k.sep depth.toNat p with
  | none =>
      rw [Side.lastCursor_of_none hview hcut, apply_popPath (.inl hcut)]
      exact h.withNarrow hview
  | some r =>
      obtain ⟨hcursor, htruncate⟩ := Side.lastCursor_of_some hview hcut
      rw [hcursor]
      cases bRemove with
      | false => exact h.withNarrow hview
      | true =>
          rw [apply_popPath_of_some hcut] at hfits ⊢
          exact denotes_narrow htruncate hfits

theorem popPath_wide (h : Denotes e eW s p) (hconv : conv.Inverse e eW) {depth : UInt32}
    {bRemove : Bool} (hfits : Fits e eW (k.apply p (.popPath depth bRemove))) :
    Denotes e eW (s.popPathW conv depth bRemove).2 (k.apply p (.popPath depth bRemove)) := by
  obtain ⟨wide, hview, heq⟩ := h.toPathW hconv
  simp only [FPathBuf.popPathW, heq]
  cases hcut : cutLast k.sep depth.toNat p with
  | none =>
      rw [Side.lastCursor_of_none hview hcut, apply_popPath (.inl hcut)]
      exact h.withWide hview
  | some r =>
      obtain ⟨hcursor, htruncate⟩ := Side.lastCursor_of_some hview hcut
      rw [hcursor]
      cases bRemove with
      | false => exact h.withWide hview
      | true =>
          rw [apply_popPath_of_some hcut] at hfits ⊢
          exact denotes_wide htruncate hfits

theorem popPath (h : Denotes e eW s p) (hconv : conv.Inverse e eW) {depth : UInt32}
    {bRemove isWide : Bool} (hfits : Fits e eW (k.apply p (.popPath depth bRemove))) :
    Denotes e eW (s.after conv (PathOp.call e eW isWide (.popPath depth bRemove)))
      (k.apply p (.popPath depth bRemove)) := by
  cases isWide with
  | false => exact h.popPath_narrow hconv hfits
  | true => exact h.popPath_wide hconv hfits

theorem after_popRootPath {s₁ : FPathBuf} (heq : s.toPath conv = s₁) :
    (s₁.narrow.firstCursor narrowUnits = none → s.after conv .popRootPath = s₁) ∧
      ∀ cursor, s₁.narrow.firstCursor narrowUnits = some cursor → s.after conv .popRootPath =
        { s₁ with narrow := s₁.narrow.dropRoot cursor }.onPathChanged false := by
  rw [FPathBuf.after, FPathBuf.popRootPath]
  exact ⟨fun hcursor => by simp only [heq, hcursor], fun cursor hcursor => by
    simp only [heq, hcursor]⟩

theorem after_popRootPathW {s₁ : FPathBuf} (heq : s.toPathW conv = s₁) :
    (s₁.wide.firstCursor wideUnits = none → s.after conv .popRootPathW = s₁) ∧
      ∀ cursor, s₁.wide.firstCursor wideUnits = some cursor →
        ∃ narrow, s.after conv .popRootPathW = FPathBuf.onPathChanged
          { s₁ with
            narrow := narrow
            wide := { s₁.wide with len := s₁.wide.rootless cursor } } true := by
  rw [FPathBuf.after, FPathBuf.popRootPathW]
  refine ⟨fun hcursor => by simp only [heq, hcursor], fun cursor hcursor => ?_⟩
  simp only [heq, hcursor]
  exact ⟨_, rfl⟩

theorem apply_popRootPath_of_none (hsplit : splitFirst k.sep p = none) :
    k.apply p .popRootPath = p := by
  show ((splitFirst k.sep p).map Prod.snd).getD p = p
  rw [hsplit]
  rfl

theorem apply_popRootPath_of_some {before after : List χ}
    (hsplit : splitFirst k.sep p = some (before, after)) : k.apply p .popRootPath = after := by
  show ((splitFirst k.sep p).map Prod.snd).getD p = after
  rw [hsplit]
  rfl

theorem popRootPath_narrow (h : Denotes e eW s p) (hconv : conv.Inverse e eW)
    (hsound : Sound conv s (.popRootPath : PathOp χ) false)
    (hfits : Fits e eW (k.apply p .popRootPath)) :
    Denotes e eW (s.after conv .popRootPath) (k.apply p .popRootPath) := by
  obtain ⟨narrow, hview, heq⟩ := h.toPath hconv
  have hlen : narrow.len < pathMax := (Side.len_eq hview).trans_lt h.fits.1
  obtain ⟨hkeep, hdrop⟩ := after_popRootPath heq
  have hinside : ∀ i, narrow.firstCursor narrowUnits = some i → i < narrow.len := by
    rw [show narrow = (s.toPath conv).narrow from heq ▸ rfl]
    exact hsound
  cases hsplit : splitFirst k.sep p with
  | none =>
      rw [hkeep (Side.firstCursor_of_none hview hlen hinside hsplit),
        apply_popRootPath_of_none hsplit]
      exact h.withNarrow hview
  | some r =>
      obtain ⟨hcursor, hroot⟩ := Side.firstCursor_of_some hview hlen hinside hsplit
      rw [apply_popRootPath_of_some hsplit] at hfits ⊢
      have hrest : (narrow.dropRoot (e.encode r.1).length).view = e.encode r.2 :=
        Side.view_dropRoot hroot hlen
      rw [hdrop _ hcursor]
      exact denotes_narrow hrest hfits

theorem popRootPath_wide (h : Denotes e eW s p) (hconv : conv.Inverse e eW)
    (hsound : Sound conv s (.popRootPath : PathOp χ) true)
    (hfits : Fits e eW (k.apply p .popRootPath)) :
    Denotes e eW (s.after conv .popRootPathW) (k.apply p .popRootPath) := by
  obtain ⟨wide, hview, heq⟩ := h.toPathW hconv
  have hlen : wide.len < pathMax := (Side.len_eq hview).trans_lt h.fits.2
  obtain ⟨hkeep, hdrop⟩ := after_popRootPathW heq
  have hstands : ∀ i, wide.firstCursor wideUnits = some i →
      i < wide.len ∧ wide.view.take (wide.len - i - 1) = wide.view.drop (i + 1) := by
    rw [show wide = (s.toPathW conv).wide from heq ▸ rfl]
    exact hsound
  have hinside : ∀ i, wide.firstCursor wideUnits = some i → i < wide.len :=
    fun i hi => (hstands i hi).1
  cases hsplit : splitFirst k.sep p with
  | none =>
      rw [hkeep (Side.firstCursor_of_none hview hlen hinside hsplit),
        apply_popRootPath_of_none hsplit]
      exact h.withWide hview
  | some r =>
      obtain ⟨hcursor, hroot⟩ := Side.firstCursor_of_some hview hlen hinside hsplit
      rw [apply_popRootPath_of_some hsplit] at hfits ⊢
      have hrest := Side.view_rootless hroot hlen (hstands _ hcursor).2
      obtain ⟨narrow, hafter⟩ := hdrop _ hcursor
      rw [hafter]
      generalize wide.rootless (eW.encode r.1).length = len at hrest ⊢
      have hview : Side.view { wide with len := len } = eW.encode r.2 := hrest
      exact denotes_wide (s := { s with narrow := narrow }) hview hfits

theorem popRootPath (h : Denotes e eW s p) (hconv : conv.Inverse e eW) {isWide : Bool}
    (hsound : Sound conv s (.popRootPath : PathOp χ) isWide)
    (hfits : Fits e eW (k.apply p .popRootPath)) :
    Denotes e eW (s.after conv (PathOp.call e eW isWide .popRootPath))
      (k.apply p .popRootPath) := by
  cases isWide with
  | false => exact h.popRootPath_narrow hconv hsound hfits
  | true => exact h.popRootPath_wide hconv hsound hfits

theorem updatePathLen (h : Denotes e eW s p) (hconv : conv.Inverse e eW)
    {content : Option (List χ)} {isWide : Bool}
    (husable : Usable e eW s p (.updatePathLen content) isWide)
    (hsound : Sound conv s (.updatePathLen content) isWide)
    (hfits : Fits e eW (k.apply p (.updatePathLen content))) :
    Denotes e eW (s.after conv (PathOp.call e eW isWide (.updatePathLen content)))
      (k.apply p (.updatePathLen content)) := by
  cases isWide with
  | false =>
      cases content with
      | some path => exact denotes_narrow (Side.view_updateLen husable) hfits
      | none =>
          obtain ⟨narrow, hview, heq⟩ := h.toPath hconv
          have hstop : narrow.stringLength narrowUnits = narrow.len := by
            rw [show narrow = (s.toPath conv).narrow from heq ▸ rfl]
            exact hsound
          show Denotes e eW (s.updatePathLen conv none) (k.withoutPrefix p)
          simp only [FPathBuf.updatePathLen, heq, hstop, Side.len_eq hview]
          exact denotes_narrow (Side.view_updateLen (Side.len_eq hview ▸ hview)) hfits
  | true =>
      cases content with
      | some path => exact denotes_wide (Side.view_updateLen husable) hfits
      | none =>
          obtain ⟨wide, hview, heq⟩ := h.toPathW hconv
          have hstop : wide.stringLength wideUnits = wide.len := by
            rw [show wide = (s.toPathW conv).wide from heq ▸ rfl]
            exact hsound
          show Denotes e eW (s.updatePathLenW conv none) (k.withoutPrefix p)
          simp only [FPathBuf.updatePathLenW, heq, hstop, Side.len_eq hview]
          exact denotes_wide (Side.view_updateLen (Side.len_eq hview ▸ hview)) hfits

theorem getView (h : Denotes e eW s p) (hconv : conv.Inverse e eW) {isWide : Bool} :
    Denotes e eW (s.after conv (PathOp.call e eW isWide .getView)) (k.apply p .getView) := by
  cases isWide with
  | false =>
      obtain ⟨narrow, hview, heq⟩ := h.toPath hconv
      show Denotes e eW (s.toPath conv) p
      rw [heq]
      exact h.withNarrow hview
  | true =>
      obtain ⟨wide, hview, heq⟩ := h.toPathW hconv
      show Denotes e eW (s.toPathW conv) p
      rw [heq]
      exact h.withWide hview

end Denotes

/-! ## Runs -/

/-- The buffers, and the path that the calls should have made. -/
structure Tracked (χ : Type) where
  buf : FPathBuf
  path : List χ

/-- A new `FPathBuf`. -/
def start (χ : Type) : Tracked χ := { buf := {}, path := [] }

theorem denotes_start : Denotes e eW (start χ).buf (start χ).path := by
  refine ⟨.inl rfl, fun _ => rfl, fun _ => rfl, ?_⟩
  have hpos : 0 < pathMax := by
    unfold pathMax
    decide
  exact ⟨hpos, hpos⟩

section

variable [DecidableEq χ]

instance Usable.decidable (s : FPathBuf) (p : List χ) :
    (op : PathOp χ) → (isWide : Bool) → Decidable (Usable e eW s p op isWide)
  | .appendPath _, _ => inferInstanceAs (Decidable (p ≠ []))
  | .updatePathLen (some content), false =>
      inferInstanceAs
        (Decidable (slice s.narrow.buf 0 (e.encode content).length = e.encode content))
  | .updatePathLen (some content), true =>
      inferInstanceAs
        (Decidable (slice s.wide.buf 0 (eW.encode content).length = eW.encode content))
  | .updatePathLen none, _ => .isTrue trivial
  | .setPath _, _ => .isTrue trivial
  | .popPath _ _, _ => .isTrue trivial
  | .popRootPath, _ => .isTrue trivial
  | .getView, _ => .isTrue trivial

instance (p : List χ) : Decidable (Fits e eW p) := inferInstanceAs (Decidable (_ ∧ _))

/-- An operation in its narrow or its wide variant. -/
def step (e : Codec narrowUnits k) (eW : Codec wideUnits k) (conv : Conversions) (t : Tracked χ)
    (call : PathOp χ × Bool) : Option (Tracked χ) :=
  if Usable e eW t.buf t.path call.1 call.2 ∧ Fits e eW (k.apply t.path call.1) then
    some
      { buf := t.buf.after conv (call.1.call e eW call.2)
        path := k.apply t.path call.1 }
  else none

variable {t t' : Tracked χ}

/-- A sound call leaves the buffers with the path that it should make. -/
theorem Denotes.step (hconv : conv.Inverse e eW) {call : PathOp χ × Bool}
    (h : Denotes e eW t.buf t.path) (hsound : Sound conv t.buf call.1 call.2)
    (hstep : step e eW conv t call = some t') : Denotes e eW t'.buf t'.path := by
  obtain ⟨⟨husable, hfits⟩, heq⟩ := Option.ite_none_right_eq_some.mp hstep
  cases heq
  obtain ⟨op, isWide⟩ := call
  cases op with
  | setPath path => exact Denotes.setPath path isWide hfits
  | appendPath path => exact h.appendPath hconv husable hsound hfits
  | popPath depth bRemove => exact h.popPath hconv hfits
  | popRootPath => exact h.popRootPath hconv hsound hfits
  | updatePathLen content => exact h.updatePathLen hconv husable hsound hfits
  | getView => exact h.getView hconv

/-- The path does not depend on the variants of the operations. -/
theorem path_eq {calls : List (PathOp χ × Bool)}
    (hrun : exec (step e eW conv) t calls = some t') :
    t'.path = (calls.map Prod.fst).foldl k.apply t.path := by
  have hstep : ∀ p t (call : PathOp χ × Bool) t', t.path = p → True →
      step e eW conv t call = some t' → t'.path = k.apply p call.1 := by
    rintro p t call t' rfl - hstep
    obtain ⟨-, heq⟩ := Option.ite_none_right_eq_some.mp hstep
    cases heq
    rfl
  rw [List.foldl_map]
  exact exec_simulates hstep rfl (guarded_true _ _) hrun

theorem denotes_run (hconv : conv.Inverse e eW) {calls : List (PathOp χ × Bool)}
    (hsound : Guarded (step e eW conv) (fun t call => Sound conv t.buf call.1 call.2) (start χ)
      calls)
    (hrun : exec (step e eW conv) (start χ) calls = some t) : Denotes e eW t.buf t.path := by
  have hkeep : ∀ t (call : PathOp χ × Bool) t', Denotes e eW t.buf t.path →
      Sound conv t.buf call.1 call.2 → step e eW conv t call = some t' →
        Denotes e eW t'.buf t'.path :=
    fun _ _ _ h hsound hstep => h.step hconv hsound hstep
  exact exec_invariant hkeep denotes_start hsound hrun

end

/-! ## ASCII -/

/-- Some ASCII characters. -/
inductive Letter where
  | a
  | b
  | c
  | backslash
  | slash
  | question
  deriving DecidableEq

namespace Letter

/-- The number of a character. -/
def number : Letter → Nat
  | a => 0x61
  | b => 0x62
  | c => 0x63
  | backslash => 0x5C
  | slash => 0x2F
  | question => 0x3F

def chars : PathChars Letter := { sep := backslash, slash := slash, question := question }

/-- One byte for every character. -/
def narrow : Codec narrowUnits chars where
  code x := [BitVec.ofNat 8 x.number]
  code_ne_nil x := by cases x <;> decide
  nul_not_mem x := by cases x <;> decide
  code_sep := rfl
  code_slash := rfl
  code_question := rfl
  eq_sep x := by cases x <;> decide
  eq_slash x := by cases x <;> decide
  eq_question x := by cases x <;> decide

/-- One wide character for every character. -/
def wide : Codec wideUnits chars where
  code x := [BitVec.ofNat 16 x.number]
  code_ne_nil x := by cases x <;> decide
  nul_not_mem x := by cases x <;> decide
  code_sep := rfl
  code_slash := rfl
  code_question := rfl
  eq_sep x := by cases x <;> decide
  eq_slash x := by cases x <;> decide
  eq_question x := by cases x <;> decide

/-- The conversions of ASCII text. -/
def conversions : Conversions :=
  { multiByteToWideChar := List.map fun unit => unit.setWidth 16
    wideCharToMultiByte := List.map fun unit => unit.setWidth 8 }

theorem conversions_inverse : conversions.Inverse narrow wide := by
  constructor
  · intro p
    refine List.map_flatMap.trans (congrArg (List.flatMap · p) (funext fun x => ?_))
    cases x <;> rfl
  · intro p
    refine List.map_flatMap.trans (congrArg (List.flatMap · p) (funext fun x => ?_))
    cases x <;> rfl

/-- The prefix is taken away from a path, a name is appended, and two are taken away. -/
def prefixed (isWide : Bool) : List (PathOp Letter × Bool) :=
  let path := [backslash, backslash, question, backslash, a, backslash, b]
  [(.setPath path, isWide), (.updatePathLen (some path), isWide), (.appendPath [c], isWide),
    (.popPath 2 true, isWide)]

end Letter

end Utilpp.Path

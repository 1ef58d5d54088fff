import Utilpp.Path.PopAppend

/-!
# Walks over a directory

`RecursiveIterateDir` on Windows. One path buffer follows the walk, the names are appended to it and
popped from it, and the flags `bExit` and `bEnter`, which the callback may assign, belong to the
thread: a walk starts with what the walks before it have left. The depth is counted twice, down in
the parameter and up in `out.Depth`, and a directory is entered while the one is above the other.
-/

namespace Utilpp.Path

open Lib Cells

/-! ## Directories -/

/-- The units of `wideUnits` that the operations look for in a path. -/
def wideChars : PathChars (BitVec 16) :=
  { sep := 0x005C#16, slash := 0x002F#16, question := 0x003F#16 }

/-- `cFileName`, which is not empty and has no separators in it. -/
structure FileName where
  units : List (BitVec 16)
  ne_nil : units ≠ []
  sep_not_mem : wideChars.sep ∉ units
  slash_not_mem : wideChars.slash ∉ units

/-- The pattern `L"*"`. -/
def FileName.all : FileName :=
  { units := [0x002A#16]
    ne_nil := by decide
    sep_not_mem := by decide
    slash_not_mem := by decide }

/-- `L"."` or `L".."`. -/
def FileName.isDots (name : FileName) : Bool :=
  decide (name.units = [0x002E#16] ∨ name.units = [0x002E#16, 0x002E#16])

/-- What `FindFirstFileW` and `FindNextFileW` find in a directory, one after the other, and what is
inside of the directories that they find. -/
inductive Listing where
  | nil
  | file (name : FileName) (size : UInt64) (next : Listing)
  | dir (name : FileName) (inside next : Listing)

/-- Nothing but `.` and `..` is found. -/
def Listing.Silent : Listing → Prop
  | nil => True
  | file .. => False
  | dir name _ next => name.isDots = true ∧ next.Silent

/-- `FindFirstFileW` fails when there is nothing to find. -/
def Listing.isNil : Listing → Bool
  | nil => true
  | _ => false

/-! ## The callback -/

inductive EIterateDirOrder where
  | nlr
  | lrn
  deriving DecidableEq, Repr

/-- `DirEntry_t` with the path that its buffer shows. `Size` is set for a file only. -/
structure DirEntry where
  path : List (BitVec 16)
  bDir : Bool
  depth : Nat
  size : Option UInt64
  deriving DecidableEq, Repr

namespace DirEntry

/-- What is reported for a file. -/
def file (path : List (BitVec 16)) (depth : Nat) (size : UInt64) : DirEntry :=
  { path := path, bDir := false, depth := depth, size := some size }

/-- What is reported for a directory. -/
def dir (path : List (BitVec 16)) (depth : Nat) : DirEntry :=
  { path := path, bDir := true, depth := depth, size := none }

end DirEntry

/-- What the callback assigns to the flags, if it assigns them. -/
structure Answer where
  bExit : Option Bool
  bEnter : Option Bool
  deriving DecidableEq, Repr

/-- `IterateDirRecursivelyCallback`, with a state of its own. -/
abbrev Callback (σ : Type) := σ → DirEntry → σ × Answer

/-- The callback of the overload that takes an `IterateDirCallback`. -/
def internalCB {σ : Type} (cb : σ → DirEntry → σ × Bool) : Callback σ := fun client entry =>
  ((cb client entry).1, { bExit := some !(cb client entry).2, bEnter := none })

/-- The reports of a walk and the answers to them. -/
abbrev Log := List (DirEntry × Answer)

/-- The state of the callback, its calls, and the flags of the thread. -/
structure Visitor (σ : Type) where
  client : σ
  log : Log
  bExit : Bool
  bEnter : Bool

namespace Visitor

/-- Nothing is reported yet, and the flags are what was left of them. -/
def start {σ : Type} (client : σ) (bExit bEnter : Bool) : Visitor σ :=
  { client := client, log := [], bExit := bExit, bEnter := bEnter }

variable {σ : Type} (cb : Callback σ) (order : EIterateDirOrder) (entry : DirEntry) (v : Visitor σ)

/-- What the callback answers. -/
def answer : Answer := (cb v.client entry).2

/-- `cb(out, bExit, bEnter)` -/
def call : Visitor σ :=
  { client := (cb v.client entry).1
    log := v.log ++ [(entry, v.answer cb entry)]
    bExit := (v.answer cb entry).bExit.getD v.bExit
    bEnter := (v.answer cb entry).bEnter.getD v.bEnter }

/-- The report of a directory before what is inside of it. -/
def before : Visitor σ :=
  match order with
  | .nlr => { v with bEnter := true }.call cb entry
  | .lrn => v

/-- The report of a directory behind what is inside of it. -/
def after : Visitor σ :=
  match order with
  | .nlr => v
  | .lrn => v.call cb entry

end Visitor

/-! ## The walk -/

namespace FPathBuf

variable (conv : Conversions) (s : FPathBuf)

/-- `AppendPathW` of a name, if it reads and writes inside of the buffer: it looks at the last unit
of the path. -/
def appendName? (name : FileName) : Option FPathBuf :=
  let side := (s.toPathW conv).wide
  if side.len ≠ 0 ∧ (side.addSeparator wideUnits).len + name.units.length < room 4 then
    some (s.appendPathW conv name.units)
  else none

/-- The path that the wide buffer shows. -/
def viewW : List (BitVec 16) := (s.getViewW conv).1

end FPathBuf

/-- The path buffer and what the callback knows. -/
structure Walk (σ : Type) where
  pathBuf : FPathBuf
  visitor : Visitor σ

namespace Walk

variable {σ : Type} (conv : Conversions) (cb : Callback σ) (order : EIterateDirOrder) (s : Walk σ)

def push (name : FileName) : Option (Walk σ) :=
  (s.pathBuf.appendName? conv name).map fun pathBuf => { s with pathBuf := pathBuf }

/-- `PopPathW()` -/
def pop : Walk σ := { s with pathBuf := (s.pathBuf.popPathW conv 1 true).2 }

/-- The report of a file at its path. -/
def reportFile (k : Nat) (size : UInt64) : Walk σ :=
  { s with visitor := s.visitor.call cb (.file (s.pathBuf.viewW conv) k size) }

/-- The report of a directory at its path, before what is inside of it. -/
def reportBefore (k : Nat) : Walk σ :=
  { s with visitor := s.visitor.before cb order (.dir (s.pathBuf.viewW conv) k) }

/-- The report of a directory at its path, behind what is inside of it. -/
def reportAfter (k : Nat) : Walk σ :=
  { s with visitor := s.visitor.after cb order (.dir (s.pathBuf.viewW conv) k) }

/-- A walk starts with the pattern, which stays in the buffer when nothing is found. -/
def findFirst (listing : Listing) : Option (Bool × Walk σ) :=
  (s.push conv .all).map fun s => if listing.isNil then (false, s) else (true, s.pop conv)

/-- The loop over what is found in a directory. `k` is `out.Depth`. -/
def iterate : Nat → Nat → Listing → Walk σ → Option (Bool × Walk σ)
  | _, _, .nil, s => some (true, s)
  | depth, k, .file name size next, s =>
      (s.push conv name).bind fun s =>
        iterate depth k next ((s.reportFile conv cb k size).pop conv)
  | depth, k, .dir name inside next, s =>
      if name.isDots then iterate depth k next s
      else
        (s.push conv name).bind fun s =>
          let s := s.reportBefore conv cb order k
          -- nothing is popped on the ways out
          if order = .nlr ∧ s.visitor.bExit then some (false, s)
          else
            (if k < depth ∧ s.visitor.bEnter then
              (s.findFirst conv inside).bind fun found =>
                if found.1 then iterate (depth - 1) (k + 1) inside found.2 else some found
            else some (true, s)).bind fun result =>
              if result.1 then
                let s := result.2.reportAfter conv cb order k
                if order = .lrn ∧ s.visitor.bExit then some (false, s)
                else iterate depth k next (s.pop conv)
              else some result

/-- `RecursiveIterateDir` -/
def recursiveIterateDir (depth : UInt32) (listing : Listing) : Option (Bool × Walk σ) :=
  (s.findFirst conv listing).bind fun found =>
    if found.1 then iterate conv cb order depth.toNat 0 listing found.2 else some found

end Walk

/-! ## The path of an entry -/

section

variable (p : List (BitVec 16)) (name : FileName)

/-- The path of an entry. -/
def child : List (BitVec 16) := wideChars.apply p (.appendPath name.units)

/-- What `PopPathW` leaves of a path. -/
def parent : List (BitVec 16) := wideChars.apply p (.popPath 1 true)

/-- The path has a last unit, and the path with the name and its terminator fits the buffer. -/
def RoomFor : Prop := p ≠ [] ∧ (child p name).length < room 4

instance : Decidable (RoomFor p name) := inferInstanceAs (Decidable (_ ∧ _))

/-- The path has a last unit, which is no separator. -/
def Extensible : Prop :=
  p ≠ [] ∧ p.getLast? ≠ some wideChars.sep ∧ p.getLast? ≠ some wideChars.slash

end

section

variable {p : List (BitVec 16)} {name : FileName}

theorem child_of_extensible (h : Extensible p) :
    child p name = p ++ wideChars.sep :: name.units := by
  have hsep : ¬ (p.getLast? = some wideChars.sep ∨ p.getLast? = some wideChars.slash) :=
    fun hends => hends.elim h.2.1 h.2.2
  rw [child, PathChars.apply, PathChars.withSeparator, if_neg hsep, List.append_assoc]
  rfl

theorem child_of_not_extensible (hp : p ≠ []) (h : ¬ Extensible p) :
    child p name = p ++ name.units := by
  have hsep : p.getLast? = some wideChars.sep ∨ p.getLast? = some wideChars.slash := by
    by_contra hends
    exact h ⟨hp, fun hsep => hends (.inl hsep), fun hslash => hends (.inr hslash)⟩
  rw [child, PathChars.apply, PathChars.withSeparator, if_pos hsep]

/-- A path that ends with a name gets a separator. -/
theorem extensible_append : Extensible (p ++ name.units) := by
  have hlast : (p ++ name.units).getLast? = name.units.getLast? := by
    rw [List.getLast?_append_of_ne_nil p name.ne_nil]
  refine ⟨List.append_ne_nil_of_right_ne_nil p name.ne_nil, ?_, ?_⟩
  · rw [hlast]
    exact fun hsep => name.sep_not_mem (List.mem_of_getLast? hsep)
  · rw [hlast]
    exact fun hslash => name.slash_not_mem (List.mem_of_getLast? hslash)

theorem extensible_child : Extensible (child p name) := extensible_append

theorem length_lt_child : p.length < (child p name).length := by
  have hname : 0 < name.units.length := List.length_pos_iff.mpr name.ne_nil
  rw [child, PathChars.apply, List.length_append, PathChars.withSeparator]
  split
  · omega
  · rw [List.length_append]
    omega

theorem parent_eq : parent p = ((cutLast wideChars.sep 1 p).map Prod.fst).getD p := rfl

/-- An entry is taken off the path that it was put on. -/
theorem parent_child (h : Extensible p) : parent (child p name) = p := by
  have hcut : CutAt wideChars.sep 1 (child p name) p name.units := by
    refine ⟨child_of_extensible h, .inl ?_⟩
    rw [List.count_eq_zero.mpr name.sep_not_mem]
  rw [parent_eq, cutLast_eq_some_iff.mpr hcut]
  rfl

/-- A path that ends with a separator is not what it was when an entry was put on it and taken off
again: more than the entry is taken off, or nothing. -/
theorem parent_child_of_not_extensible (hp : p ≠ []) (h : ¬ Extensible p) :
    (parent (child p name)).length < p.length ∨ Extensible (parent (child p name)) := by
  rw [child_of_not_extensible hp h, parent_eq]
  cases hcut : cutLast wideChars.sep 1 (p ++ name.units) with
  | none => exact .inr extensible_append
  | some r =>
      obtain ⟨first, last⟩ := r
      left
      show first.length < p.length
      obtain ⟨c, rfl, hunits⟩ | ⟨c, rfl, hlast⟩ :=
        List.append_eq_append_iff.mp (cutLast_eq_some hcut)
      · exact absurd (hunits ▸ List.mem_append_right c List.mem_cons_self) name.sep_not_mem
      · cases c with
        | nil =>
            rw [List.nil_append] at hlast
            exact absurd (hlast ▸ List.mem_cons_self) name.sep_not_mem
        | cons x c =>
            rw [List.length_append, List.length_cons]
            omega

end

/-! ## The buffer -/

namespace Side

variable {side : Side (BitVec 16)}

theorem endsWithSeparator_wide (h : side.view ≠ []) :
    side.endsWithSeparator wideUnits = true ↔
      side.view.getLast? = some wideChars.sep ∨ side.view.getLast? = some wideChars.slash := by
  obtain ⟨init, x, hview⟩ := (List.eq_nil_or_concat' side.view).resolve_left h
  have hlen : side.len = init.length + 1 := by
    rw [← length_view, hview, List.length_append, List.length_singleton]
  have hlast : side.buf (side.len - 1) = x := by
    rw [hlen]
    exact buf_before (hview.trans (List.append_nil _).symm)
  rw [endsWithSeparator, decide_eq_true_eq, hlast, hview, List.getLast?_concat, Option.some.injEq,
    Option.some.injEq]
  rfl

theorem view_addSeparator_wide (h : side.view ≠ []) :
    (side.addSeparator wideUnits).view = wideChars.withSeparator side.view := by
  rw [addSeparator, PathChars.withSeparator]
  simp only [endsWithSeparator_wide h]
  split
  · rfl
  · exact @slice_store_append _ side.buf side.len [wideUnits.sep] []

end Side

namespace FPathBuf

variable {conv : Conversions} {s : FPathBuf} {name : FileName}

theorem viewW_eq : s.viewW conv = (s.toPathW conv).wide.view := rfl

theorem viewW_of_wSynced (h : s.wSynced = true) : s.viewW conv = s.wide.view := by
  rw [viewW_eq, toPathW, if_pos h]

theorem appendPathW_eq : s.appendPathW conv name.units = { s.toPathW conv with
    wide := ((s.toPathW conv).wide.addSeparator wideUnits).append wideUnits name.units
    synced := false
    wSynced := true } := by
  rw [appendPathW, if_neg name.ne_nil]
  rfl

theorem viewW_appendPathW (h : s.viewW conv ≠ []) :
    (s.appendPathW conv name.units).viewW conv = child (s.viewW conv) name := by
  rw [viewW_eq] at h
  rw [appendPathW_eq, viewW_of_wSynced rfl, Side.view_append, Side.view_addSeparator_wide h]
  rfl

theorem appendName?_eq : s.appendName? conv name =
    if RoomFor (s.viewW conv) name then some (s.appendPathW conv name.units) else none := by
  have hpath : (s.toPathW conv).wide.len ≠ 0 ↔ s.viewW conv ≠ [] := by
    rw [viewW_eq, ← Side.length_view, Ne, List.length_eq_zero_iff]
  have hlen : s.viewW conv ≠ [] →
      ((s.toPathW conv).wide.addSeparator wideUnits).len + name.units.length =
        (child (s.viewW conv) name).length := by
    intro h
    rw [← viewW_appendPathW h, appendPathW_eq, viewW_of_wSynced rfl, Side.length_view]
    rfl
  rw [appendName?]
  refine if_congr ?_ rfl rfl
  rw [hpath]
  exact and_congr_right fun h => by rw [hlen h]

theorem viewW_popPathW : (s.popPathW conv 1 true).2.viewW conv = parent (s.viewW conv) := by
  have hcursor := @Side.lastCursor_eq _ wideUnits (s.toPathW conv).wide _ 1
  rw [parent_eq, popPathW]
  cases hcut : cutLast wideChars.sep 1 (s.viewW conv) with
  | none =>
      have hcursor := hcursor.trans (congrArg (Option.map _) hcut)
      simp only [hcursor, Option.map_none]
      exact viewW_of_wSynced wSynced_toPathW
  | some r =>
      have hcursor := hcursor.trans (congrArg (Option.map _) hcut)
      simp only [hcursor, Option.map_some, if_true]
      exact (viewW_of_wSynced rfl).trans (Side.view_truncate (cutLast_eq_some hcut))

end FPathBuf

end Utilpp.Path

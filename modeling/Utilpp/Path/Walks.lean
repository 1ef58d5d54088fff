import Utilpp.Path.Visits

/-!
# The walk and its buffer

A walk has the conversation of `visit` as long as nothing ends it before its time. A directory that
the callback stops the walk at leaves its path in the buffer, and so does one that cannot be listed.
-/

namespace Utilpp.Path

/-! ## Where a walk is -/

section

variable {σ : Type}

/-- A walk at a path, with what the callback knows. -/
structure At (conv : Conversions) (p : List (BitVec 16)) (v : Visitor σ) (s : Walk σ) : Prop where
  path : s.pathBuf.viewW conv = p
  visitor : s.visitor = v

/-- How a loop ends which has started at a path: there again, or further down. -/
structure Ended (conv : Conversions) (p : List (BitVec 16)) (left : Visitor σ) (passes : Prop)
    (done : Bool) (s : Walk σ) : Prop where
  back : done = true → At conv p left s ∧ passes
  ahead : done = false →
    p.length < (s.pathBuf.viewW conv).length ∧ Extensible (s.pathBuf.viewW conv)

variable {conv : Conversions} {p : List (BitVec 16)} {name : FileName} {v : Visitor σ}
  {s t : Walk σ}

namespace At

theorem push (h : At conv p v s) (hpush : s.push conv name = some t) :
    RoomFor p name ∧ At conv (child p name) v t := by
  rw [Walk.push, FPathBuf.appendName?_eq, h.path] at hpush
  split at hpush
  · rename_i hroom
    cases hpush
    refine ⟨hroom, ?_, h.visitor⟩
    rw [← h.path]
    exact FPathBuf.viewW_appendPathW (h.path ▸ hroom.1)
  · cases hpush

theorem exists_push (h : At conv p v s) (hroom : RoomFor p name) :
    ∃ t, s.push conv name = some t := by
  rw [Walk.push, FPathBuf.appendName?_eq, h.path, if_pos hroom]
  exact ⟨_, rfl⟩

theorem pop (h : At conv p v s) : At conv (parent p) v (s.pop conv) :=
  ⟨h.path ▸ FPathBuf.viewW_popPathW, h.visitor⟩

theorem pop_child (h : At conv (child p name) v s) (hp : Extensible p) :
    At conv p v (s.pop conv) :=
  parent_child hp ▸ h.pop

theorem reportFile (h : At conv p v s) (cb : Callback σ) (k : Nat) (size : UInt64) :
    At conv p (v.call cb (.file p k size)) (s.reportFile conv cb k size) := by
  refine ⟨h.path, ?_⟩
  rw [← h.visitor, ← h.path]
  rfl

theorem reportBefore (h : At conv p v s) (cb : Callback σ) (order : EIterateDirOrder) (k : Nat) :
    At conv p (v.before cb order (.dir p k)) (s.reportBefore conv cb order k) := by
  refine ⟨h.path, ?_⟩
  rw [← h.visitor, ← h.path]
  rfl

theorem reportAfter (h : At conv p v s) (cb : Callback σ) (order : EIterateDirOrder) (k : Nat) :
    At conv p (v.after cb order (.dir p k)) (s.reportAfter conv cb order k) := by
  refine ⟨h.path, ?_⟩
  rw [← h.visitor, ← h.path]
  rfl

/-- The pattern stays in the buffer when nothing is found. -/
theorem findFirst (h : At conv p v s) {listing : Listing} {found : Bool}
    (hfind : s.findFirst conv listing = some (found, t)) :
    RoomFor p .all ∧ listing.isNil = !found ∧
      At conv (if found then parent (child p .all) else child p .all) v t := by
  obtain ⟨pushed, hpush, hresult⟩ := Option.map_eq_some_iff.mp hfind
  obtain ⟨hroom, hat⟩ := h.push hpush
  split at hresult
  · rename_i hnil
    cases hresult
    exact ⟨hroom, hnil, hat⟩
  · rename_i hnil
    cases hresult
    exact ⟨hroom, Bool.eq_false_iff.mpr hnil, hat.pop⟩

theorem exists_findFirst (h : At conv p v s) {listing : Listing} (hroom : RoomFor p .all)
    (hfound : listing.isNil = false) : ∃ t, s.findFirst conv listing = some (true, t) := by
  obtain ⟨pushed, hpush⟩ := h.exists_push hroom
  refine ⟨pushed.pop conv, ?_⟩
  rw [Walk.findFirst, hpush, hfound]
  rfl

end At

theorem Ended.imp {left : Visitor σ} {passes passes' : Prop} {done : Bool}
    (h : Ended conv p left passes done s) (himp : passes → passes') :
    Ended conv p left passes' done s :=
  ⟨fun hdone => ⟨(h.back hdone).1, himp (h.back hdone).2⟩, h.ahead⟩

/-- What has ended below an entry has not come back. -/
theorem Ended.of_child {left left' : Visitor σ} {passes passes' : Prop}
    (h : Ended conv (child p name) left passes false s) : Ended conv p left' passes' false s :=
  ⟨fun hdone => absurd hdone Bool.false_ne_true,
    fun _ => ⟨Nat.lt_trans length_lt_child (h.ahead rfl).1, (h.ahead rfl).2⟩⟩

theorem At.ended_child {left : Visitor σ} {passes : Prop} (h : At conv (child p name) v s) :
    Ended conv p left passes false s := by
  refine ⟨fun hdone => absurd hdone Bool.false_ne_true, fun _ => ?_⟩
  rw [h.path]
  exact ⟨length_lt_child, extensible_child⟩

end

/-! ## The loop -/

section

variable {σ : Type} (conv : Conversions) (cb : Callback σ) (order : EIterateDirOrder)

/-- The part of the loop that walks over what is inside of a directory. -/
def descend (depth k : Nat) (inside : Listing) (s : Walk σ) : Option (Bool × Walk σ) :=
  if k < depth ∧ s.visitor.bEnter then
    (s.findFirst conv inside).bind fun found =>
      if found.1 then found.2.iterate conv cb order (depth - 1) (k + 1) inside else some found
  else some (true, s)

variable {conv cb order} {depth k : Nat} {p : List (BitVec 16)} {name : FileName}
  {inside next : Listing} {v : Visitor σ} {s t : Walk σ} {done : Bool}

theorem iterate_file {size : UInt64} {result : Bool × Walk σ}
    (h : s.iterate conv cb order depth k (.file name size next) = some result) :
    ∃ pushed, s.push conv name = some pushed ∧
      ((pushed.reportFile conv cb k size).pop conv).iterate conv cb order depth k next =
        some result :=
  Option.bind_eq_some_iff.mp h

theorem iterate_dots (h : name.isDots = true) :
    s.iterate conv cb order depth k (.dir name inside next) =
      s.iterate conv cb order depth k next :=
  if_pos h

/-- What the loop does with a directory. -/
theorem iterate_dir (hdots : name.isDots = false)
    (h : s.iterate conv cb order depth k (.dir name inside next) = some (done, t)) :
    ∃ pushed, s.push conv name = some pushed ∧
      let asked := pushed.reportBefore conv cb order k
      if order = .nlr ∧ asked.visitor.bExit = true then done = false ∧ t = asked
      else ∃ back below, descend conv cb order depth k inside asked = some (back, below) ∧
        if back = true then
          let after := below.reportAfter conv cb order k
          if order = .lrn ∧ after.visitor.bExit = true then done = false ∧ t = after
          else (after.pop conv).iterate conv cb order depth k next = some (done, t)
        else done = false ∧ t = below := by
  rw [Walk.iterate, if_neg (Bool.eq_false_iff.mp hdots)] at h
  obtain ⟨pushed, hpush, hrest⟩ := Option.bind_eq_some_iff.mp h
  refine ⟨pushed, hpush, ?_⟩
  dsimp only at hrest ⊢
  split at hrest
  · rename_i hexit
    cases hrest
    rw [if_pos hexit]
    exact ⟨rfl, rfl⟩
  · rename_i hexit
    obtain ⟨⟨back, below⟩, hbelow, hrest⟩ := Option.bind_eq_some_iff.mp hrest
    rw [if_neg hexit]
    refine ⟨back, below, hbelow, ?_⟩
    cases back with
    | false =>
        cases hrest
        exact ⟨rfl, rfl⟩
    | true =>
        simp only [if_true] at hrest ⊢
        split at hrest
        · rename_i hexit
          cases hrest
          rw [if_pos hexit]
          exact ⟨rfl, rfl⟩
        · rename_i hexit
          rw [if_neg hexit]
          exact hrest

/-- The loop goes on behind a directory. -/
theorem iterate_dir_of {pushed below : Walk σ} (hdots : name.isDots = false)
    (hpush : s.push conv name = some pushed)
    (hasked : ¬ (order = .nlr ∧ (pushed.reportBefore conv cb order k).visitor.bExit = true))
    (hbelow : descend conv cb order depth k inside (pushed.reportBefore conv cb order k) =
      some (true, below))
    (hafter : ¬ (order = .lrn ∧ (below.reportAfter conv cb order k).visitor.bExit = true)) :
    s.iterate conv cb order depth k (.dir name inside next) =
      ((below.reportAfter conv cb order k).pop conv).iterate conv cb order depth k next := by
  rw [Walk.iterate, if_neg (Bool.eq_false_iff.mp hdots), hpush, Option.bind_some]
  dsimp only
  rw [if_neg hasked]
  show (descend conv cb order depth k inside _).bind _ = _
  rw [hbelow, Option.bind_some]
  dsimp only
  rw [if_pos rfl, if_neg hafter]

/-- What holds of every loop over what is inside holds below the directory. -/
theorem descend_ended (hinside : ∀ {v : Visitor σ} {s t : Walk σ} {done : Bool}, At conv p v s →
      s.iterate conv cb order (depth - 1) (k + 1) inside = some (done, t) →
      Ended conv p (visit cb order (depth - 1) (k + 1) p inside v)
        (Passes cb order (depth - 1) (k + 1) p inside v) done t)
    (h : At conv p v s) (hp : Extensible p)
    (hrun : descend conv cb order depth k inside s = some (done, t)) :
    Ended conv p (visitBelow cb order depth k p inside v)
      (k < depth ∧ v.bEnter = true → RoomFor p .all ∧ inside.isNil = false ∧
        Passes cb order (depth - 1) (k + 1) p inside v) done t := by
  rw [descend, h.visitor] at hrun
  split at hrun
  · rename_i henter
    rw [visitBelow_of_enters henter]
    obtain ⟨⟨found, first⟩, hfind, hrest⟩ := Option.bind_eq_some_iff.mp hrun
    obtain ⟨hroom, hnil, hfirst⟩ := h.findFirst hfind
    cases found with
    | false =>
        cases hrest
        exact hfirst.ended_child
    | true =>
        rw [if_pos rfl, parent_child hp] at hfirst
        exact (hinside hfirst hrest).imp fun hpasses _ => ⟨hroom, hnil, hpasses⟩
  · rename_i hstay
    cases hrun
    rw [visitBelow_of_not_enters hstay]
    exact ⟨fun _ => ⟨h, fun henter => absurd henter hstay⟩, fun hdone => by cases hdone⟩

/-- A loop that comes to its end is where it was and has had the conversation of the visit, and one
that is left is further down. -/
theorem iterate_ended (listing : Listing) (h : At conv p v s) (hp : Extensible p)
    (hrun : s.iterate conv cb order depth k listing = some (done, t)) :
    Ended conv p (visit cb order depth k p listing v) (Passes cb order depth k p listing v)
      done t := by
  induction listing generalizing depth k p v s t done with
  | nil =>
      cases hrun
      exact ⟨fun _ => ⟨h, trivial⟩, fun hdone => by cases hdone⟩
  | file name size next ih =>
      obtain ⟨pushed, hpush, hrest⟩ := iterate_file hrun
      obtain ⟨hroom, hpushed⟩ := h.push hpush
      exact (ih ((hpushed.reportFile cb k size).pop_child hp) hp hrest).imp
        fun hpasses => ⟨hroom, hpasses⟩
  | dir name inside next ihInside ihNext =>
      cases hdots : name.isDots with
      | true =>
          rw [iterate_dots hdots] at hrun
          rw [visit_dots hdots, passes_dots hdots]
          exact ihNext h hp hrun
      | false =>
          rw [visit_dir hdots, passes_dir hdots]
          obtain ⟨pushed, hpush, hrest⟩ := iterate_dir hdots hrun
          obtain ⟨hroom, hpushed⟩ := h.push hpush
          have hasked := hpushed.reportBefore cb order k
          dsimp only at hrest
          rw [hasked.visitor] at hrest
          split at hrest
          · obtain ⟨rfl, rfl⟩ := hrest
            exact hasked.ended_child
          · rename_i hexitAsked
            obtain ⟨back, below, hbelow, hrest⟩ := hrest
            have hended := descend_ended (fun h hrun => ihInside h extensible_child hrun) hasked
              extensible_child hbelow
            cases back with
            | false =>
                obtain ⟨rfl, rfl⟩ := hrest
                exact hended.of_child
            | true =>
                obtain ⟨hback, hpassesBelow⟩ := hended.back rfl
                have hafter := hback.reportAfter cb order k
                rw [if_pos rfl, hafter.visitor] at hrest
                split at hrest
                · obtain ⟨rfl, rfl⟩ := hrest
                  exact hafter.ended_child
                · rename_i hexitAfter
                  exact (ihNext (hafter.pop_child hp) hp hrest).imp fun hpasses =>
                    ⟨hroom, fun horder => Bool.eq_false_iff.mpr fun hexit =>
                        hexitAsked ⟨horder, hexit⟩, hpassesBelow,
                      fun horder => Bool.eq_false_iff.mpr fun hexit =>
                        hexitAfter ⟨horder, hexit⟩, hpasses⟩

/-- A visit that nothing keeps from going on is a loop that comes to its end. -/
theorem iterate_of_passes (listing : Listing) (h : At conv p v s) (hp : Extensible p)
    (hpasses : Passes cb order depth k p listing v) :
    ∃ t, s.iterate conv cb order depth k listing = some (true, t) := by
  induction listing generalizing depth k p v s with
  | nil => exact ⟨s, rfl⟩
  | file name size next ih =>
      obtain ⟨pushed, hpush⟩ := h.exists_push hpasses.1
      obtain ⟨-, hpushed⟩ := h.push hpush
      obtain ⟨t, hrun⟩ := ih ((hpushed.reportFile cb k size).pop_child hp) hp hpasses.2
      exact ⟨t, Option.bind_eq_some_iff.mpr ⟨pushed, hpush, hrun⟩⟩
  | dir name inside next ihInside ihNext =>
      cases hdots : name.isDots with
      | true =>
          rw [iterate_dots hdots]
          exact ihNext h hp ((passes_dots hdots).mp hpasses)
      | false =>
          obtain ⟨hroom, hexitAsked, hpassesBelow, hexitAfter, hpassesNext⟩ :=
            (passes_dir hdots).mp hpasses
          obtain ⟨pushed, hpush⟩ := h.exists_push hroom
          obtain ⟨-, hpushed⟩ := h.push hpush
          have hasked := hpushed.reportBefore cb order k
          obtain ⟨below, hbelow⟩ : ∃ below, descend conv cb order depth k inside
              (pushed.reportBefore conv cb order k) = some (true, below) := by
            rw [descend, hasked.visitor]
            split
            · rename_i henter
              obtain ⟨hroomAll, hnil, hpassesInside⟩ := hpassesBelow henter
              obtain ⟨first, hfind⟩ := hasked.exists_findFirst hroomAll hnil
              obtain ⟨-, -, hfirst⟩ := hasked.findFirst hfind
              rw [if_pos rfl, parent_child extensible_child] at hfirst
              obtain ⟨t, hrun⟩ := ihInside hfirst extensible_child hpassesInside
              exact ⟨t, Option.bind_eq_some_iff.mpr ⟨(true, first), hfind, hrun⟩⟩
            · exact ⟨_, rfl⟩
          have hback := ((descend_ended (fun h hrun => iterate_ended inside h extensible_child hrun)
            hasked extensible_child hbelow).back rfl).1
          have hafter := hback.reportAfter cb order k
          obtain ⟨t, hrun⟩ := ihNext (hafter.pop_child hp) hp hpassesNext
          refine ⟨t, (iterate_dir_of hdots hpush ?_ hbelow ?_).trans hrun⟩
          · rw [hasked.visitor]
            exact fun hexit => Bool.false_ne_true ((hexitAsked hexit.1).symm.trans hexit.2)
          · rw [hafter.visitor]
            exact fun hexit => Bool.false_ne_true ((hexitAfter hexit.1).symm.trans hexit.2)

/-! ## A path that ends with a separator -/

/-- A path that is not `start` if that one ends with a separator. -/
def Off (start p : List (BitVec 16)) : Prop := p.length < start.length ∨ Extensible p

theorem off_parent_child {start : List (BitVec 16)} (hroom : RoomFor p name) (h : Off start p) :
    Off start (parent (child p name)) := by
  by_cases hp : Extensible p
  · rw [parent_child hp]
    exact h
  · exact (parent_child_of_not_extensible hroom.1 hp).imp
      (Nat.lt_trans · (h.resolve_right hp)) id

/-- A walk does not get back to a path that ends with a separator. -/
theorem iterate_off {start : List (BitVec 16)} (listing : Listing) (h : At conv p v s)
    (hoff : Off start p) (hrun : s.iterate conv cb order depth k listing = some (done, t)) :
    Off start (t.pathBuf.viewW conv) := by
  induction listing generalizing p v s with
  | nil =>
      cases hrun
      exact h.path.symm ▸ hoff
  | file name size next ih =>
      obtain ⟨pushed, hpush, hrest⟩ := iterate_file hrun
      obtain ⟨hroom, hpushed⟩ := h.push hpush
      exact ih (hpushed.reportFile cb k size).pop (off_parent_child hroom hoff) hrest
  | dir name inside next _ ih =>
      cases hdots : name.isDots with
      | true =>
          rw [iterate_dots hdots] at hrun
          exact ih h hoff hrun
      | false =>
          obtain ⟨pushed, hpush, hrest⟩ := iterate_dir hdots hrun
          obtain ⟨hroom, hpushed⟩ := h.push hpush
          have hasked := hpushed.reportBefore cb order k
          dsimp only at hrest
          split at hrest
          · obtain ⟨-, rfl⟩ := hrest
            exact .inr (hasked.path.symm ▸ extensible_child)
          · obtain ⟨back, below, hbelow, hrest⟩ := hrest
            have hended := descend_ended
              (fun h hrun => iterate_ended inside h extensible_child hrun) hasked
              extensible_child hbelow
            cases back with
            | false =>
                obtain ⟨-, rfl⟩ := hrest
                exact .inr (hended.ahead rfl).2
            | true =>
                have hafter := (hended.back rfl).1.reportAfter cb order k
                rw [if_pos rfl] at hrest
                split at hrest
                · obtain ⟨-, rfl⟩ := hrest
                  exact .inr (hafter.path.symm ▸ extensible_child)
                · exact ih hafter.pop (off_parent_child hroom hoff) hrest

end

/-! ## Walks over a directory -/

section

variable {σ : Type} (conv : Conversions) (cb : Callback σ) (order : EIterateDirOrder)
  (depth : UInt32) (listing : Listing) (pathBuf : FPathBuf) (client : σ)

/-- Whatever the walks before it have left of the flags, a walk has the same right reports and the
same result, and the path in the buffer is what it was. -/
def Walked : Prop :=
  ∃ done log, Right order depth.toNat 0 (pathBuf.viewW conv) listing log ∧
    ∀ bExit bEnter, ∃ s : Walk σ,
      Walk.recursiveIterateDir conv cb order
          { pathBuf := pathBuf, visitor := .start client bExit bEnter } depth listing =
        some (done, s) ∧
      s.visitor.log = log ∧ s.pathBuf.viewW conv = pathBuf.viewW conv

/-- The path does not end with a separator and the buffer has room, the directories can be listed,
the callback clears `bExit` when it has got a directory and stops the walk only where nothing more
is reported, and the directories with something inside are entered as they should be, by the
callback's own answers. -/
structure Guarded (p : List (BitVec 16)) : Prop where
  extensible : Extensible p
  room : RoomFor p .all
  found : listing.isNil = false
  passes : ∀ bExit bEnter,
    Passes cb order depth.toNat 0 p listing (.start client bExit bEnter)
  decides : Decides cb order depth.toNat 0 p listing (.start client false true)
  steady : Steady cb order depth.toNat 0 p listing (.start client false true)

variable {conv cb order depth listing pathBuf client}

theorem at_start (bExit bEnter : Bool) : At conv (pathBuf.viewW conv) (.start client bExit bEnter)
    { pathBuf := pathBuf, visitor := .start client bExit bEnter } :=
  ⟨rfl, rfl⟩

/-- The first walk of a thread, and one behind a walk that has left `bEnter` false. -/
theorem apart_start (client : σ) :
    Apart (.start client false true) (.start client false false) :=
  { client := rfl
    log := rfl
    unset := fun _ hmem => absurd hmem List.not_mem_nil
    enters := rfl
    stays := rfl }

/-- A walk that is back where it started has come to its end. -/
theorem walk_back {p : List (BitVec 16)} {v : Visitor σ} {s t : Walk σ} {done : Bool}
    (h : At conv p v s)
    (hrun : s.recursiveIterateDir conv cb order depth listing = some (done, t))
    (hback : t.pathBuf.viewW conv = p) :
    Extensible p ∧ RoomFor p .all ∧ listing.isNil = false ∧ done = true ∧
      t.visitor = visit cb order depth.toNat 0 p listing v ∧
      Passes cb order depth.toNat 0 p listing v := by
  obtain ⟨⟨found, first⟩, hfind, hrest⟩ := Option.bind_eq_some_iff.mp hrun
  obtain ⟨hroom, hnil, hfirst⟩ := h.findFirst hfind
  cases found with
  | false =>
      cases hrest
      have hpath : child p .all = p := hfirst.path.symm.trans hback
      have hlonger := @length_lt_child p .all
      rw [hpath] at hlonger
      exact absurd hlonger (Nat.lt_irrefl _)
  | true =>
      have hp : Extensible p := by
        by_contra hends
        have hoff : Off p (parent (child p .all)) := parent_child_of_not_extensible hroom.1 hends
        rcases iterate_off listing hfirst hoff hrest with hshort | hextensible
        · rw [hback] at hshort
          exact Nat.lt_irrefl _ hshort
        · exact hends (hback ▸ hextensible)
      rw [if_pos rfl, parent_child hp] at hfirst
      have hended := iterate_ended listing hfirst hp hrest
      cases done with
      | false =>
          have hahead := (hended.ahead rfl).1
          rw [hback] at hahead
          exact absurd hahead (Nat.lt_irrefl _)
      | true =>
          obtain ⟨hat, hpasses⟩ := hended.back rfl
          exact ⟨hp, hroom, hnil, rfl, hat.visitor, hpasses⟩

/-- The walk over a guarded directory. -/
theorem walk_of_guarded (h : Guarded cb order depth listing client (pathBuf.viewW conv))
    (bExit bEnter : Bool) : ∃ s : Walk σ,
      Walk.recursiveIterateDir conv cb order
          { pathBuf := pathBuf, visitor := .start client bExit bEnter } depth listing =
        some (true, s) ∧
      s.visitor = visit cb order depth.toNat 0 (pathBuf.viewW conv) listing
        (.start client bExit bEnter) ∧
      s.pathBuf.viewW conv = pathBuf.viewW conv := by
  have hstart := @at_start _ conv pathBuf client bExit bEnter
  obtain ⟨first, hfind⟩ := hstart.exists_findFirst h.room h.found
  obtain ⟨-, -, hfirst⟩ := hstart.findFirst hfind
  rw [if_pos rfl, parent_child h.extensible] at hfirst
  obtain ⟨s, hrun⟩ := iterate_of_passes listing hfirst h.extensible (h.passes bExit bEnter)
  obtain ⟨hback, -⟩ := (iterate_ended listing hfirst h.extensible hrun).back rfl
  exact ⟨s, Option.bind_eq_some_iff.mpr ⟨(true, first), hfind, hrun⟩, hback.visitor, hback.path⟩

/-- The visits from what may be left of the flags have the same reports. -/
theorem visit_start_log {p : List (BitVec 16)}
    (h : Steady cb order depth.toNat 0 p listing (.start client false true))
    (bExit bEnter : Bool) :
    (visit cb order depth.toNat 0 p listing (.start client bExit bEnter)).log =
      (visit cb order depth.toNat 0 p listing (.start client false true)).log := by
  have hsame : Same (.start client bExit bEnter) (.start client false bEnter) := ⟨rfl, rfl, rfl⟩
  rw [(hsame.visit listing).log]
  cases bEnter with
  | true => rfl
  | false => exact ((steady_iff listing (apart_start client)).mpr h).symm

theorem right_start_iff {p : List (BitVec 16)}
    (h : Passes cb order depth.toNat 0 p listing (.start client false true)) :
    Right order depth.toNat 0 p listing
        (visit cb order depth.toNat 0 p listing (.start client false true)).log ↔
      Decides cb order depth.toNat 0 p listing (.start client false true) := by
  have hiff := right_visit_iff listing h (List.nil_append _).symm
  rwa [if_neg (show ¬ Stopped (Visitor.start client false true).log from not_stopped_nil)] at hiff

end

/-- A walk over a directory reports what it should, leaves the path as it was and does not depend on
the walks before it exactly when it is guarded. -/
theorem recursiveIterateDir_iff {σ : Type} (conv : Conversions) (cb : Callback σ)
    (order : EIterateDirOrder) (depth : UInt32) (listing : Listing) (pathBuf : FPathBuf)
    (client : σ) : Walked conv cb order depth listing pathBuf client ↔
      Guarded cb order depth listing client (pathBuf.viewW conv) := by
  constructor
  · rintro ⟨done, log, hright, hwalk⟩
    have hback : ∀ bExit bEnter,
        Extensible (pathBuf.viewW conv) ∧ RoomFor (pathBuf.viewW conv) .all ∧
          listing.isNil = false ∧
          log = (visit cb order depth.toNat 0 (pathBuf.viewW conv) listing
            (.start client bExit bEnter)).log ∧
          Passes cb order depth.toNat 0 (pathBuf.viewW conv) listing
            (.start client bExit bEnter) := by
      intro bExit bEnter
      obtain ⟨s, hrun, hlog, hpath⟩ := hwalk bExit bEnter
      obtain ⟨hp, hroom, hnil, -, hvisit, hpasses⟩ := walk_back (at_start bExit bEnter) hrun hpath
      exact ⟨hp, hroom, hnil, hlog.symm.trans (congrArg Visitor.log hvisit), hpasses⟩
    obtain ⟨hp, hroom, hnil, hlog, hpasses⟩ := hback false true
    obtain ⟨-, -, -, hlog', -⟩ := hback false false
    exact
      { extensible := hp
        room := hroom
        found := hnil
        passes := fun bExit bEnter => (hback bExit bEnter).2.2.2.2
        decides := (right_start_iff hpasses).mp (hlog ▸ hright)
        steady := (steady_iff listing (apart_start client)).mp (hlog.symm.trans hlog') }
  · intro h
    refine ⟨true, _, (right_start_iff (h.passes false true)).mpr h.decides, fun bExit bEnter => ?_⟩
    obtain ⟨s, hrun, hvisit, hpath⟩ := walk_of_guarded h bExit bEnter
    refine ⟨s, hrun, ?_, hpath⟩
    rw [hvisit]
    exact visit_start_log h.steady bExit bEnter

/-- The name `a`. -/
def nameA : FileName :=
  { units := [0x0061#16]
    ne_nil := by decide
    sep_not_mem := by decide
    slash_not_mem := by decide }

/-- The path `p` in a buffer. -/
def bufP : FPathBuf := ({} : FPathBuf).setPathW [0x0070#16]

/-- The file `a\a\a` is two directories down. -/
def chainA : Listing := .dir nameA (.dir nameA (.file nameA 0 .nil) .nil) .nil

/-- When the callback stops the walk at the directory `a`, its path is left in the buffer; and a
callback that never does is not told of the file two directories down. -/
theorem not_walked :
    ¬ Walked ⟨fun _ => [], fun _ => []⟩ (internalCB fun client _ => (client, false)) .nlr 2 chainA
        bufP () ∧
      ¬ Walked ⟨fun _ => [], fun _ => []⟩ (internalCB fun client _ => (client, true)) .nlr 2 chainA
        bufP () := by
  constructor
  · rintro ⟨done, log, -, hwalk⟩
    obtain ⟨s, hrun, -, hpath⟩ := hwalk false true
    have hleft : (Walk.recursiveIterateDir ⟨fun _ => [], fun _ => []⟩
        (internalCB fun client _ => (client, false)) .nlr ⟨bufP, .start () false true⟩ 2
        chainA).map (fun result => result.2.pathBuf.viewW ⟨fun _ => [], fun _ => []⟩) =
          some [0x0070#16, 0x005C#16, 0x0061#16] := rfl
    rw [hrun, Option.map_some, hpath] at hleft
    exact absurd hleft (by decide)
  · rintro ⟨done, log, hright, hwalk⟩
    obtain ⟨s, hrun, hlog, -⟩ := hwalk false true
    obtain ⟨reports, hreports⟩ : ∃ reports : Log, reports =
        [(.dir [0x0070#16, 0x005C#16, 0x0061#16] 0, ⟨some false, none⟩),
          (.dir [0x0070#16, 0x005C#16, 0x0061#16, 0x005C#16, 0x0061#16] 1, ⟨some false, none⟩)] :=
      ⟨_, rfl⟩
    have htold : (Walk.recursiveIterateDir ⟨fun _ => [], fun _ => []⟩
        (internalCB fun client _ => (client, true)) .nlr ⟨bufP, .start () false true⟩ 2
        chainA).map (fun result => result.2.visitor.log) = some reports := by
      rw [hreports]
      rfl
    rw [hrun, Option.map_some, hlog, Option.some.injEq] at htold
    subst htold
    have hentries := right_entries chainA hright (by rw [hreports]; decide)
      (by rw [hreports]; decide)
    rw [hreports] at hentries
    exact absurd (congrArg List.length hentries) (by decide)

/-- With the entries `.` and `a` in it, a directory is guarded. -/
example : Guarded (internalCB fun client _ => (client, true)) .nlr 0
    (.dir ⟨[0x002E#16], by decide, by decide, by decide⟩ .nil (.file nameA 0 .nil)) ()
    [0x0070#16] :=
  { extensible := ⟨by decide, by decide, by decide⟩
    room := by decide
    found := rfl
    passes := fun _ _ => ⟨by decide, trivial⟩
    decides := ⟨by decide, trivial⟩
    steady := trivial }

end Utilpp.Path

import Utilpp.Path.IterateDir

/-!
# What a walk tells the callback

`visit` is the conversation of a walk with the callback alone, without the path buffer and without
the ways out of the loop. `Right` says which reports are right when the callback has answered them
so. The conversation is right exactly when the walk decides about every directory as it should
(`right_visit_iff`), and it does not depend on what `bEnter` was exactly when no directory is left
to the flag before the callback has assigned it (`Steady`).
-/

namespace Utilpp.Path

/-! ## The conversation -/

section

variable {σ : Type} (cb : Callback σ) (order : EIterateDirOrder)

/-- The calls of a walk. -/
def visit : Nat → Nat → List (BitVec 16) → Listing → Visitor σ → Visitor σ
  | _, _, _, .nil, v => v
  | depth, k, p, .file name size next, v =>
      visit depth k p next (v.call cb (.file (child p name) k size))
  | depth, k, p, .dir name inside next, v =>
      if name.isDots then visit depth k p next v
      else
        let entry := DirEntry.dir (child p name) k
        let asked := v.before cb order entry
        let below :=
          if k < depth ∧ asked.bEnter then visit (depth - 1) (k + 1) (child p name) inside asked
          else asked
        visit depth k p next (below.after cb order entry)

/-- The calls for what is inside of a directory, if the walk enters it. -/
def visitBelow (depth k : Nat) (path : List (BitVec 16)) (inside : Listing) (v : Visitor σ) :
    Visitor σ :=
  if k < depth ∧ v.bEnter then visit cb order (depth - 1) (k + 1) path inside v else v

end

/-! ## The right reports -/

/-- A callback has asked the walk to stop. -/
def Stopped (log : Log) : Prop := ∃ report ∈ log, report.2.bExit = some true

instance (log : Log) : Decidable (Stopped log) :=
  inferInstanceAs (Decidable (∃ report ∈ log, report.2.bExit = some true))

/-- No callback has assigned `bEnter`. -/
def Unset (log : Log) : Prop := ∀ report ∈ log, report.2.bEnter = none

/-- The reports of a walk, with the answers to them, when the entries down to `depth` more levels
are to be reported: every entry that is not below a directory which the callback declines, a
directory before or behind what is inside of it, and nothing behind a stop. -/
def Right (order : EIterateDirOrder) : Nat → Nat → List (BitVec 16) → Listing → Log → Prop
  | _, _, _, .nil, log => log = []
  | depth, k, p, .file name size next, log =>
      ∃ answer later, log = (.file (child p name) k size, answer) :: later ∧
        if answer.bExit = some true then later = [] else Right order depth k p next later
  | depth, k, p, .dir name inside next, log =>
      if name.isDots then Right order depth k p next log
      else
        match order with
        | .nlr =>
            ∃ answer below later, log = (.dir (child p name) k, answer) :: (below ++ later) ∧
              (if 0 < depth ∧ answer.bEnter ≠ some false ∧ answer.bExit ≠ some true then
                Right .nlr (depth - 1) (k + 1) (child p name) inside below
              else below = []) ∧
              if answer.bExit = some true ∨ Stopped below then later = []
              else Right .nlr depth k p next later
        | .lrn =>
            ∃ below,
              if Stopped below then
                log = below ∧ 0 < depth ∧
                  Right .lrn (depth - 1) (k + 1) (child p name) inside below
              else
                ∃ answer later, log = below ++ (.dir (child p name) k, answer) :: later ∧
                  (if 0 < depth ∧ answer.bEnter ≠ some false then
                    Right .lrn (depth - 1) (k + 1) (child p name) inside below
                  else below = []) ∧
                  if answer.bExit = some true then later = []
                  else Right .lrn depth k p next later

/-- Every entry down to `depth` more levels. -/
def entries (order : EIterateDirOrder) :
    Nat → Nat → List (BitVec 16) → Listing → List DirEntry
  | _, _, _, .nil => []
  | depth, k, p, .file name size next =>
      .file (child p name) k size :: entries order depth k p next
  | depth, k, p, .dir name inside next =>
      if name.isDots then entries order depth k p next
      else
        let below :=
          if 0 < depth then entries order (depth - 1) (k + 1) (child p name) inside else []
        match order with
        | .nlr => .dir (child p name) k :: (below ++ entries order depth k p next)
        | .lrn => below ++ .dir (child p name) k :: entries order depth k p next

section

variable {σ : Type} (cb : Callback σ) (order : EIterateDirOrder)

/-- Every path fits the buffer, there is something to find in every directory that is entered, and
`bExit` is not set when the callback has got a directory. -/
def Passes : Nat → Nat → List (BitVec 16) → Listing → Visitor σ → Prop
  | _, _, _, .nil, _ => True
  | depth, k, p, .file name size next, v =>
      RoomFor p name ∧ Passes depth k p next (v.call cb (.file (child p name) k size))
  | depth, k, p, .dir name inside next, v =>
      if name.isDots then Passes depth k p next v
      else
        let entry := DirEntry.dir (child p name) k
        let asked := v.before cb order entry
        let done := (visitBelow cb order depth k (child p name) inside asked).after cb order entry
        RoomFor p name ∧ (order = .nlr → asked.bExit = false) ∧
          (k < depth ∧ asked.bEnter → RoomFor (child p name) .all ∧ inside.isNil = false ∧
            Passes (depth - 1) (k + 1) (child p name) inside asked) ∧
          (order = .lrn → done.bExit = false) ∧ Passes depth k p next done

/-- Nothing is reported behind a stop, and a directory with something inside of it is entered
exactly when there is a level left and the callback does not decline it. -/
def Decides : Nat → Nat → List (BitVec 16) → Listing → Visitor σ → Prop
  | _, _, _, .nil, _ => True
  | depth, k, p, .file name size next, v =>
      ¬ Stopped v.log ∧ Decides depth k p next (v.call cb (.file (child p name) k size))
  | depth, k, p, .dir name inside next, v =>
      if name.isDots then Decides depth k p next v
      else
        let entry := DirEntry.dir (child p name) k
        let asked := v.before cb order entry
        let below := visitBelow cb order depth k (child p name) inside asked
        let asker := match order with | .nlr => v | .lrn => below
        ¬ Stopped asker.log ∧
          (k < depth ∧ asked.bEnter → Decides (depth - 1) (k + 1) (child p name) inside asked) ∧
          (inside.Silent ∨ (k < depth ∧ asked.bEnter ↔
            0 < depth ∧ (asker.answer cb entry).bEnter ≠ some false)) ∧
          Decides depth k p next (below.after cb order entry)

/-- In `LRN` order, nothing is inside of a directory that could be entered while no callback has
assigned `bEnter`. -/
def Steady : Nat → Nat → List (BitVec 16) → Listing → Visitor σ → Prop
  | _, _, _, .nil, _ => True
  | depth, k, p, .file name size next, v =>
      Steady depth k p next (v.call cb (.file (child p name) k size))
  | depth, k, p, .dir name inside next, v =>
      if name.isDots then Steady depth k p next v
      else
        let entry := DirEntry.dir (child p name) k
        let asked := v.before cb order entry
        (order = .lrn ∧ k < depth ∧ Unset v.log → inside.Silent) ∧
          Steady depth k p next
            ((visitBelow cb order depth k (child p name) inside asked).after cb order entry)

end

/-! ## Step by step -/

section

variable {σ : Type} {cb : Callback σ} {order : EIterateDirOrder} {depth k : Nat}
  {p : List (BitVec 16)} {name : FileName} {inside next : Listing} {v : Visitor σ}

theorem visit_dots (h : name.isDots = true) :
    visit cb order depth k p (.dir name inside next) v = visit cb order depth k p next v :=
  if_pos h

theorem visit_dir (h : name.isDots = false) :
    visit cb order depth k p (.dir name inside next) v =
      visit cb order depth k p next
        ((visitBelow cb order depth k (child p name) inside
          (v.before cb order (.dir (child p name) k))).after cb order (.dir (child p name) k)) :=
  if_neg (Bool.eq_false_iff.mp h)

theorem visitBelow_of_enters (h : k < depth ∧ v.bEnter = true) :
    visitBelow cb order depth k p inside v = visit cb order (depth - 1) (k + 1) p inside v :=
  if_pos h

theorem visitBelow_of_not_enters (h : ¬ (k < depth ∧ v.bEnter = true)) :
    visitBelow cb order depth k p inside v = v :=
  if_neg h

theorem visit_silent (h : next.Silent) (v : Visitor σ) : visit cb order depth k p next v = v := by
  induction next with
  | nil => rfl
  | file name size next ih => exact h.elim
  | dir name inside next _ ih =>
      rw [visit_dots h.1]
      exact ih h.2

theorem visitBelow_silent (h : inside.Silent) : visitBelow cb order depth k p inside v = v := by
  rw [visitBelow, visit_silent h, ite_self]

/-! ## What is reported -/

/-- The reports of a directory whose entries are at depth `k`: in `NLR` order one of these comes
first. -/
structure AtDepth (order : EIterateDirOrder) (k : Nat) (log : Log) : Prop where
  le : ∀ report ∈ log, k ≤ report.1.depth
  head : order = .nlr → ∀ report ∈ log.head?, report.1.depth = k

theorem AtDepth.nil : AtDepth order k [] :=
  ⟨fun _ h => absurd h List.not_mem_nil, fun _ _ h => by cases h⟩

theorem le_depth_cons {entry : DirEntry} {log : Log} (h : entry.depth = k)
    (hlog : ∀ report ∈ log, k ≤ report.1.depth) (answer : Answer) :
    ∀ report ∈ (entry, answer) :: log, k ≤ report.1.depth := by
  intro report hmem
  rcases List.mem_cons.mp hmem with rfl | hmem
  · exact Nat.le_of_eq h.symm
  · exact hlog report hmem

theorem AtDepth.cons {entry : DirEntry} {log : Log} (h : entry.depth = k)
    (hlog : ∀ report ∈ log, k ≤ report.1.depth) (answer : Answer) :
    AtDepth order k ((entry, answer) :: log) := by
  refine ⟨le_depth_cons h hlog answer, fun _ report hhead => ?_⟩
  cases hhead
  exact h

theorem call_log (v : Visitor σ) (entry : DirEntry) :
    (v.call cb entry).log = v.log ++ [(entry, v.answer cb entry)] := rfl

theorem visitBelow_log_of (h : ∀ depth k p (v : Visitor σ), ∃ log,
      (visit cb order depth k p inside v).log = v.log ++ log ∧ AtDepth order k log)
    (depth k : Nat) (path : List (BitVec 16)) (v : Visitor σ) :
    ∃ below, (visitBelow cb order depth k path inside v).log = v.log ++ below ∧
      AtDepth order (k + 1) below := by
  by_cases henter : k < depth ∧ v.bEnter = true
  · rw [visitBelow_of_enters henter]
    exact h (depth - 1) (k + 1) path v
  · rw [visitBelow_of_not_enters henter]
    exact ⟨[], (List.append_nil _).symm, .nil⟩

/-- In `NLR` order the report of a directory is in front of those from below it. -/
theorem log_dir_nlr {below later : Log} {entry : DirEntry} {left : Visitor σ}
    (hbelow : (visitBelow cb .nlr depth k p inside (v.before cb .nlr entry)).log =
      (v.before cb .nlr entry).log ++ below)
    (hlater : left.log = ((visitBelow cb .nlr depth k p inside
      (v.before cb .nlr entry)).after cb .nlr entry).log ++ later) :
    left.log = v.log ++ (entry, v.answer cb entry) :: (below ++ later) := by
  rw [hlater]
  show (visitBelow _ _ _ _ _ _ _).log ++ later = _
  rw [hbelow]
  show v.log ++ [(entry, v.answer cb entry)] ++ below ++ later = _
  rw [List.append_assoc, List.append_assoc]
  rfl

/-- In `LRN` order the report of a directory is behind those from below it. -/
theorem log_dir_lrn {below later : Log} {entry : DirEntry} {left : Visitor σ}
    (hbelow : (visitBelow cb .lrn depth k p inside v).log = v.log ++ below)
    (hlater : left.log =
      ((visitBelow cb .lrn depth k p inside v).after cb .lrn entry).log ++ later) :
    left.log = v.log ++ (below ++
      (entry, (visitBelow cb .lrn depth k p inside v).answer cb entry) :: later) := by
  rw [hlater]
  show (visitBelow _ _ _ _ _ _ _).log ++ [_] ++ later = _
  rw [hbelow, List.append_assoc, List.append_assoc]
  rfl

variable (cb order) in
/-- The reports of a visit come behind those before. -/
theorem visit_log (listing : Listing) (depth k : Nat) (p : List (BitVec 16)) (v : Visitor σ) :
    ∃ log, (visit cb order depth k p listing v).log = v.log ++ log ∧ AtDepth order k log := by
  induction listing generalizing depth k p v with
  | nil => exact ⟨[], (List.append_nil _).symm, .nil⟩
  | file name size next ih =>
      obtain ⟨log, hlog, hdepth⟩ := ih depth k p (v.call cb (.file (child p name) k size))
      refine ⟨(.file (child p name) k size, v.answer cb (.file (child p name) k size)) :: log,
        hlog.trans ?_, .cons (by rfl) hdepth.le _⟩
      rw [call_log, List.append_assoc]
      rfl
  | dir name inside next ihInside ihNext =>
      cases hdots : name.isDots with
      | true =>
          rw [visit_dots hdots]
          exact ihNext depth k p v
      | false =>
          rw [visit_dir hdots]
          obtain ⟨below, hbelow, hdepth⟩ := visitBelow_log_of ihInside depth k (child p name)
            (v.before cb order (.dir (child p name) k))
          have hle : ∀ report ∈ below, k ≤ report.1.depth :=
            fun report hmem => Nat.le_of_succ_le (hdepth.le report hmem)
          obtain ⟨later, hlater, hlaterDepth⟩ := ihNext depth k p
            ((visitBelow cb order depth k (child p name) inside
              (v.before cb order (.dir (child p name) k))).after cb order (.dir (child p name) k))
          cases order with
          | nlr =>
              refine ⟨_, log_dir_nlr hbelow hlater, .cons (by rfl) (fun report hmem => ?_) _⟩
              exact (List.mem_append.mp hmem).elim (hle report) (hlaterDepth.le report)
          | lrn =>
              refine ⟨_, log_dir_lrn hbelow hlater, fun report hmem => ?_, fun h => by cases h⟩
              refine (List.mem_append.mp hmem).elim (hle report) fun hmem => ?_
              exact le_depth_cons (by rfl) hlaterDepth.le _ report hmem

variable (cb order) in
theorem visitBelow_log (inside : Listing) (depth k : Nat) (path : List (BitVec 16))
    (v : Visitor σ) : ∃ below, (visitBelow cb order depth k path inside v).log = v.log ++ below ∧
      AtDepth order (k + 1) below :=
  visitBelow_log_of (visit_log cb order inside) depth k path v

theorem visit_log_eq_iff (listing : Listing) :
    (visit cb order depth k p listing v).log = v.log ↔ listing.Silent := by
  constructor
  · intro h
    induction listing with
    | nil => trivial
    | file name size next _ =>
        obtain ⟨log, hlog, -⟩ := visit_log cb order next depth k p
          (v.call cb (.file (child p name) k size))
        have hsame := hlog.symm.trans h
        rw [call_log, List.append_assoc, List.append_right_eq_self] at hsame
        cases hsame
    | dir name inside next _ ih =>
        cases hdots : name.isDots with
        | true =>
            rw [visit_dots hdots] at h
            exact ⟨hdots, ih h⟩
        | false =>
            rw [visit_dir hdots] at h
            obtain ⟨below, hbelow, -⟩ := visitBelow_log cb order inside depth k
              (child p name) (v.before cb order (.dir (child p name) k))
            obtain ⟨later, hlater, -⟩ := visit_log cb order next depth k p
              ((visitBelow cb order depth k (child p name) inside
                (v.before cb order (.dir (child p name) k))).after cb order
                (.dir (child p name) k))
            cases order with
            | nlr =>
                have hsame := (log_dir_nlr hbelow hlater).symm.trans h
                rw [List.append_right_eq_self] at hsame
                cases hsame
            | lrn =>
                have hsame : v.log ++ _ = v.log := (log_dir_lrn hbelow hlater).symm.trans h
                rw [List.append_right_eq_self] at hsame
                exact absurd hsame (List.append_ne_nil_of_right_ne_nil _ (List.cons_ne_nil _ _))
  · intro h
    rw [visit_silent h]

end

/-! ## Right reports -/

section

variable {order : EIterateDirOrder} {depth k : Nat} {p : List (BitVec 16)} {name : FileName}
  {inside next : Listing} {log below later : Log} {answer : Answer}

theorem right_dots (h : name.isDots = true) :
    Right order depth k p (.dir name inside next) log ↔ Right order depth k p next log :=
  Iff.of_eq (if_pos h)

theorem right_nlr (h : name.isDots = false) : Right .nlr depth k p (.dir name inside next) log ↔
    ∃ answer below later, log = (.dir (child p name) k, answer) :: (below ++ later) ∧
      (if 0 < depth ∧ answer.bEnter ≠ some false ∧ answer.bExit ≠ some true then
        Right .nlr (depth - 1) (k + 1) (child p name) inside below
      else below = []) ∧
      if answer.bExit = some true ∨ Stopped below then later = []
      else Right .nlr depth k p next later :=
  Iff.of_eq (if_neg (Bool.eq_false_iff.mp h))

theorem right_lrn (h : name.isDots = false) : Right .lrn depth k p (.dir name inside next) log ↔
    ∃ below,
      if Stopped below then
        log = below ∧ 0 < depth ∧ Right .lrn (depth - 1) (k + 1) (child p name) inside below
      else
        ∃ answer later, log = below ++ (.dir (child p name) k, answer) :: later ∧
          (if 0 < depth ∧ answer.bEnter ≠ some false then
            Right .lrn (depth - 1) (k + 1) (child p name) inside below
          else below = []) ∧
          if answer.bExit = some true then later = [] else Right .lrn depth k p next later :=
  Iff.of_eq (if_neg (Bool.eq_false_iff.mp h))

theorem not_stopped_nil : ¬ Stopped [] := by
  rintro ⟨report, hmem, -⟩
  exact absurd hmem List.not_mem_nil

theorem stopped_append {before : Log} :
    Stopped (before ++ later) ↔ Stopped before ∨ Stopped later := by
  simp only [Stopped, List.mem_append, or_and_right, exists_or]

theorem stopped_cons {entry : DirEntry} :
    Stopped ((entry, answer) :: later) ↔ answer.bExit = some true ∨ Stopped later := by
  simp only [Stopped, List.mem_cons, or_and_right, exists_or, exists_eq_left]

/-- No reports are right when there is nothing to report. -/
theorem right_nil_iff (listing : Listing) : Right order depth k p listing [] ↔ listing.Silent := by
  induction listing with
  | nil => exact ⟨fun _ => trivial, fun _ => rfl⟩
  | file name size next _ =>
      refine ⟨fun h => ?_, fun h => h.elim⟩
      obtain ⟨answer, later, hlog, -⟩ := h
      cases hlog
  | dir name inside next _ ih =>
      cases hdots : name.isDots with
      | true =>
          rw [right_dots hdots, ih]
          exact ⟨fun h => ⟨hdots, h⟩, fun h => h.2⟩
      | false =>
          refine ⟨fun h => ?_, fun h => absurd (hdots.symm.trans h.1) Bool.false_ne_true⟩
          cases order with
          | nlr =>
              obtain ⟨answer, below, later, hlog, -⟩ := (right_nlr hdots).mp h
              cases hlog
          | lrn =>
              obtain ⟨below, hbelow⟩ := (right_lrn hdots).mp h
              split at hbelow
              · rename_i hstop
                rw [← hbelow.1] at hstop
                exact absurd hstop not_stopped_nil
              · obtain ⟨answer, later, hlog, -⟩ := hbelow
                exact absurd hlog.symm
                  (List.append_ne_nil_of_right_ne_nil _ (List.cons_ne_nil _ _))

theorem right_atDepth (listing : Listing) (h : Right order depth k p listing log) :
    AtDepth order k log := by
  induction listing generalizing depth k p log with
  | nil =>
      cases h
      exact .nil
  | file name size next ih =>
      obtain ⟨answer, later, rfl, hlater⟩ := h
      refine .cons (by rfl) ?_ answer
      split at hlater
      · rw [hlater]
        exact fun _ h => absurd h List.not_mem_nil
      · exact (ih hlater).le
  | dir name inside next ihInside ihNext =>
      cases hdots : name.isDots with
      | true => exact ihNext ((right_dots hdots).mp h)
      | false =>
          have hnone : ∀ report ∈ ([] : Log), k ≤ report.1.depth :=
            fun _ h => absurd h List.not_mem_nil
          have hinside : ∀ {below : Log},
              Right order (depth - 1) (k + 1) (child p name) inside below →
              ∀ report ∈ below, k ≤ report.1.depth :=
            fun h report hmem => Nat.le_of_succ_le ((ihInside h).le report hmem)
          cases order with
          | nlr =>
              obtain ⟨answer, below, later, rfl, hbelow, hlater⟩ := (right_nlr hdots).mp h
              refine .cons (by rfl) (fun report hmem => ?_) answer
              rcases List.mem_append.mp hmem with hmem | hmem
              · split at hbelow
                · exact hinside hbelow report hmem
                · exact hnone report (hbelow ▸ hmem)
              · split at hlater
                · exact hnone report (hlater ▸ hmem)
                · exact (ihNext hlater).le report hmem
          | lrn =>
              refine ⟨fun report hmem => ?_, fun h => by cases h⟩
              obtain ⟨below, hbelow⟩ := (right_lrn hdots).mp h
              split at hbelow
              · exact hinside hbelow.2.2 report (hbelow.1 ▸ hmem)
              · obtain ⟨answer, later, rfl, hbelow, hlater⟩ := hbelow
                rcases List.mem_append.mp hmem with hmem | hmem
                · split at hbelow
                  · exact hinside hbelow report hmem
                  · exact hnone report (hbelow ▸ hmem)
                · refine le_depth_cons (by rfl) ?_ answer report hmem
                  split at hlater
                  · exact hlater ▸ hnone
                  · exact (ihNext hlater).le

theorem right_below_deep {path : List (BitVec 16)} {should : Prop} [Decidable should]
    (h : if should then Right order (depth - 1) (k + 1) path inside below else below = []) :
    ∀ report ∈ below, k < report.1.depth := by
  split at h
  · exact (right_atDepth inside h).le
  · exact fun report hmem => absurd (h ▸ hmem) List.not_mem_nil

theorem right_below_entries {path : List (BitVec 16)} {should : Prop} [Decidable should]
    (hshould : should ↔ 0 < depth)
    (hbelow : if should then Right order (depth - 1) (k + 1) path inside below else below = [])
    (hinside : Right order (depth - 1) (k + 1) path inside below →
      below.map Prod.fst = entries order (depth - 1) (k + 1) path inside) :
    below.map Prod.fst =
      if 0 < depth then entries order (depth - 1) (k + 1) path inside else [] := by
  simp only [hshould] at hbelow
  split
  · rename_i hdepth
    rw [if_pos hdepth] at hbelow
    exact hinside hbelow
  · rename_i hdepth
    rw [if_neg hdepth] at hbelow
    rw [hbelow]
    rfl

/-- The right reports are those of all entries when the callback neither stops the walk nor declines
a directory. -/
theorem right_entries (listing : Listing) (h : Right order depth k p listing log)
    (hstop : ¬ Stopped log) (henter : ∀ report ∈ log, report.2.bEnter ≠ some false) :
    log.map Prod.fst = entries order depth k p listing := by
  induction listing generalizing depth k p log with
  | nil =>
      cases h
      rfl
  | file name size next ih =>
      obtain ⟨answer, later, rfl, hlater⟩ := h
      obtain ⟨hexit, hstop⟩ := not_or.mp (stopped_cons.not.mp hstop)
      rw [if_neg hexit] at hlater
      exact congrArg (_ :: ·) (ih hlater hstop fun report hmem =>
        henter report (List.mem_cons_of_mem _ hmem))
  | dir name inside next ihInside ihNext =>
      cases hdots : name.isDots with
      | true =>
          rw [entries, if_pos hdots]
          exact ihNext ((right_dots hdots).mp h) hstop henter
      | false =>
          rw [entries, if_neg (Bool.eq_false_iff.mp hdots)]
          cases order with
          | nlr =>
              obtain ⟨answer, below, later, rfl, hbelow, hlater⟩ := (right_nlr hdots).mp h
              obtain ⟨hexit, hrest⟩ := not_or.mp (stopped_cons.not.mp hstop)
              obtain ⟨hstopBelow, hstopLater⟩ := not_or.mp (stopped_append.not.mp hrest)
              rw [if_neg (not_or.mpr ⟨hexit, hstopBelow⟩)] at hlater
              have hasked : answer.bEnter ≠ some false := henter _ List.mem_cons_self
              have hbelow := right_below_entries (by simp [hasked, hexit]) hbelow fun hright =>
                ihInside hright hstopBelow fun report hmem =>
                  henter report (List.mem_cons_of_mem _ (List.mem_append_left later hmem))
              have hlater := ihNext hlater hstopLater fun report hmem =>
                henter report (List.mem_cons_of_mem _ (List.mem_append_right below hmem))
              rw [List.map_cons, List.map_append, hbelow, hlater]
          | lrn =>
              obtain ⟨below, hbelow⟩ := (right_lrn hdots).mp h
              split at hbelow
              · rename_i hstopBelow
                exact absurd (hbelow.1 ▸ hstopBelow) hstop
              · rename_i hstopBelow
                obtain ⟨answer, later, rfl, hbelow, hlater⟩ := hbelow
                obtain ⟨-, hrest⟩ := not_or.mp (stopped_append.not.mp hstop)
                obtain ⟨hexit, hstopLater⟩ := not_or.mp (stopped_cons.not.mp hrest)
                rw [if_neg hexit] at hlater
                have hasked : answer.bEnter ≠ some false :=
                  henter _ (List.mem_append_right below List.mem_cons_self)
                have hbelow := right_below_entries (by simp [hasked]) hbelow fun hright =>
                  ihInside hright hstopBelow fun report hmem =>
                    henter report (List.mem_append_left _ hmem)
                have hlater := ihNext hlater hstopLater fun report hmem =>
                  henter report (List.mem_append_right below (List.mem_cons_of_mem _ hmem))
                rw [List.map_append, List.map_cons, hbelow, hlater]

/-- The depths tell where the reports from below a directory end. -/
theorem split_unique {below' later' : Log} (h : below ++ later = below' ++ later')
    (hbelow : ∀ report ∈ below, k < report.1.depth)
    (hlater : ∀ report ∈ later.head?, report.1.depth = k)
    (hbelow' : ∀ report ∈ below', k < report.1.depth)
    (hlater' : ∀ report ∈ later'.head?, report.1.depth = k) : below = below' ∧ later = later' := by
  have htake : ∀ {below later : Log}, (∀ report ∈ below, k < report.1.depth) →
      (∀ report ∈ later.head?, report.1.depth = k) →
      (below ++ later).takeWhile (fun report => k < report.1.depth) = below := by
    intro below later hbelow hlater
    rw [List.takeWhile_append_of_pos fun report hmem => decide_eq_true (hbelow report hmem)]
    cases later with
    | nil => exact List.append_nil _
    | cons report later =>
        have hhead : ¬ k < report.1.depth := by
          rw [hlater report rfl]
          exact Nat.lt_irrefl k
        rw [List.takeWhile_cons_of_neg (by simpa using hhead), List.append_nil]
  have hsame : below = below' := by
    rw [← htake hbelow hlater, h, htake hbelow' hlater']
  subst hsame
  exact ⟨rfl, List.append_cancel_left h⟩

theorem right_file_cons {size : UInt64} {entry : DirEntry} :
    Right order depth k p (.file name size next) ((entry, answer) :: later) ↔
      entry = .file (child p name) k size ∧
        if answer.bExit = some true then later = [] else Right order depth k p next later := by
  constructor
  · rintro ⟨answer', later', hlog, hlater⟩
    cases hlog
    exact ⟨rfl, hlater⟩
  · rintro ⟨rfl, hlater⟩
    exact ⟨answer, later, rfl, hlater⟩

/-- The reports for a directory in `NLR` order, when it is known which of them are from below. -/
theorem right_nlr_cons (hdots : name.isDots = false) (hbelow : AtDepth .nlr (k + 1) below)
    (hlater : AtDepth .nlr k later) :
    Right .nlr depth k p (.dir name inside next)
        ((.dir (child p name) k, answer) :: (below ++ later)) ↔
      (if 0 < depth ∧ answer.bEnter ≠ some false ∧ answer.bExit ≠ some true then
        Right .nlr (depth - 1) (k + 1) (child p name) inside below
      else below = []) ∧
      if answer.bExit = some true ∨ Stopped below then later = []
      else Right .nlr depth k p next later := by
  rw [right_nlr hdots]
  constructor
  · rintro ⟨answer', below', later', hlog, hbelow', hlater'⟩
    obtain ⟨hreport, hrest⟩ := List.cons.inj hlog
    cases hreport
    have hhead : ∀ report ∈ later'.head?, report.1.depth = k := by
      split at hlater'
      · rw [hlater']
        exact fun _ h => by cases h
      · exact (right_atDepth next hlater').head rfl
    obtain ⟨rfl, rfl⟩ := split_unique hrest hbelow.le (hlater.head rfl)
      (right_below_deep hbelow') hhead
    exact ⟨hbelow', hlater'⟩
  · rintro ⟨hbelow', hlater'⟩
    exact ⟨answer, below, later, rfl, hbelow', hlater'⟩

/-- The reports for a directory in `LRN` order, when it is known which of them are from below. -/
theorem right_lrn_append (hdots : name.isDots = false) (hbelow : AtDepth .lrn (k + 1) below) :
    Right .lrn depth k p (.dir name inside next)
        (below ++ (.dir (child p name) k, answer) :: later) ↔
      ¬ Stopped below ∧
        (if 0 < depth ∧ answer.bEnter ≠ some false then
          Right .lrn (depth - 1) (k + 1) (child p name) inside below
        else below = []) ∧
        if answer.bExit = some true then later = [] else Right .lrn depth k p next later := by
  have hhead : ∀ {answer : Answer} {later : Log},
      ∀ report ∈ (((.dir (child p name) k, answer) :: later : Log).head?), report.1.depth = k := by
    intro answer later report hhead
    cases hhead
    rfl
  rw [right_lrn hdots]
  constructor
  · rintro ⟨below', hbelow'⟩
    split at hbelow'
    · -- the report of the directory is none of those from below it
      have hdepth := (right_atDepth inside hbelow'.2.2).le (.dir (child p name) k, answer)
        (hbelow'.1 ▸ List.mem_append_right below List.mem_cons_self)
      exact absurd hdepth (Nat.not_succ_le_self k)
    · rename_i hstop
      obtain ⟨answer', later', hlog, hinside, hlater'⟩ := hbelow'
      obtain ⟨rfl, hrest⟩ := split_unique hlog hbelow.le hhead (right_below_deep hinside) hhead
      cases hrest
      exact ⟨hstop, hinside, hlater'⟩
  · rintro ⟨hstop, hinside, hlater'⟩
    refine ⟨below, ?_⟩
    rw [if_neg hstop]
    exact ⟨answer, later, rfl, hinside, hlater'⟩

end

/-! ## The decisions of a walk -/

section

variable {σ : Type} {cb : Callback σ} {order : EIterateDirOrder} {depth k : Nat}
  {p : List (BitVec 16)} {name : FileName} {inside next : Listing} {v : Visitor σ}

theorem decides_file {size : UInt64} : Decides cb order depth k p (.file name size next) v ↔
    ¬ Stopped v.log ∧ Decides cb order depth k p next (v.call cb (.file (child p name) k size)) :=
  Iff.rfl

theorem decides_dots (h : name.isDots = true) :
    Decides cb order depth k p (.dir name inside next) v ↔ Decides cb order depth k p next v :=
  Iff.of_eq (if_pos h)

theorem passes_dots (h : name.isDots = true) :
    Passes cb order depth k p (.dir name inside next) v ↔ Passes cb order depth k p next v :=
  Iff.of_eq (if_pos h)

theorem passes_dir (h : name.isDots = false) :
    Passes cb order depth k p (.dir name inside next) v ↔
      let entry := DirEntry.dir (child p name) k
      let asked := v.before cb order entry
      let done := (visitBelow cb order depth k (child p name) inside asked).after cb order entry
      RoomFor p name ∧ (order = .nlr → asked.bExit = false) ∧
        (k < depth ∧ asked.bEnter → RoomFor (child p name) .all ∧ inside.isNil = false ∧
          Passes cb order (depth - 1) (k + 1) (child p name) inside asked) ∧
        (order = .lrn → done.bExit = false) ∧ Passes cb order depth k p next done :=
  Iff.of_eq (if_neg (Bool.eq_false_iff.mp h))

theorem decides_silent (h : next.Silent) : Decides cb order depth k p next v := by
  induction next with
  | nil => trivial
  | file name size next _ => exact h.elim
  | dir name inside next _ ih =>
      rw [decides_dots h.1]
      exact ih h.2

theorem passes_nlr (h : name.isDots = false)
    (hpass : Passes cb .nlr depth k p (.dir name inside next) v) :
    (v.answer cb (.dir (child p name) k)).bExit ≠ some true := by
  have hpass := (passes_dir h).mp hpass
  intro hexit
  have hclear : (v.answer cb (.dir (child p name) k)).bExit.getD v.bExit = false := hpass.2.1 rfl
  rw [hexit] at hclear
  cases hclear

theorem passes_lrn (h : name.isDots = false)
    (hpass : Passes cb .lrn depth k p (.dir name inside next) v) :
    ((visitBelow cb .lrn depth k (child p name) inside v).answer cb
      (.dir (child p name) k)).bExit ≠ some true := by
  have hpass := (passes_dir h).mp hpass
  intro hexit
  have hclear : ((visitBelow cb .lrn depth k (child p name) inside v).answer cb
      (.dir (child p name) k)).bExit.getD _ = false := hpass.2.2.2.1 rfl
  rw [hexit] at hclear
  cases hclear

theorem decides_nlr (h : name.isDots = false) :
    Decides cb .nlr depth k p (.dir name inside next) v ↔ ¬ Stopped v.log ∧
      (k < depth ∧ (v.before cb .nlr (.dir (child p name) k)).bEnter = true →
        Decides cb .nlr (depth - 1) (k + 1) (child p name) inside
          (v.before cb .nlr (.dir (child p name) k))) ∧
      (inside.Silent ∨ (k < depth ∧ (v.before cb .nlr (.dir (child p name) k)).bEnter = true ↔
        0 < depth ∧ (v.answer cb (.dir (child p name) k)).bEnter ≠ some false)) ∧
      Decides cb .nlr depth k p next (visitBelow cb .nlr depth k (child p name) inside
        (v.before cb .nlr (.dir (child p name) k))) :=
  Iff.of_eq (if_neg (Bool.eq_false_iff.mp h))

theorem decides_lrn (h : name.isDots = false) :
    Decides cb .lrn depth k p (.dir name inside next) v ↔
      ¬ Stopped (visitBelow cb .lrn depth k (child p name) inside v).log ∧
      (k < depth ∧ v.bEnter = true →
        Decides cb .lrn (depth - 1) (k + 1) (child p name) inside v) ∧
      (inside.Silent ∨ (k < depth ∧ v.bEnter = true ↔ 0 < depth ∧
        ((visitBelow cb .lrn depth k (child p name) inside v).answer cb
          (.dir (child p name) k)).bEnter ≠ some false)) ∧
      Decides cb .lrn depth k p next ((visitBelow cb .lrn depth k (child p name) inside v).call cb
        (.dir (child p name) k)) :=
  Iff.of_eq (if_neg (Bool.eq_false_iff.mp h))

/-- What is reported from below a directory is right when the walk enters it as it should. -/
theorem right_below_iff {path : List (BitVec 16)} {below : Log} {should : Prop} [Decidable should]
    (hbelow : (visitBelow cb order depth k path inside v).log = v.log ++ below)
    (hinside : k < depth ∧ v.bEnter = true →
      (Right order (depth - 1) (k + 1) path inside below ↔
        Decides cb order (depth - 1) (k + 1) path inside v)) :
    (if should then Right order (depth - 1) (k + 1) path inside below else below = []) ↔
      (k < depth ∧ v.bEnter = true → Decides cb order (depth - 1) (k + 1) path inside v) ∧
        (inside.Silent ∨ (k < depth ∧ v.bEnter = true ↔ should)) := by
  by_cases henter : k < depth ∧ v.bEnter = true
  · rw [visitBelow_of_enters henter] at hbelow
    have hsilent : below = [] ↔ inside.Silent := by
      rw [← @visit_log_eq_iff _ cb order (depth - 1) (k + 1) path v inside, hbelow,
        List.append_right_eq_self]
    by_cases hshould : should
    · simp [henter, hshould, hinside henter]
    · simp [henter, hshould, hsilent]
      exact decides_silent
  · rw [visitBelow_of_not_enters henter] at hbelow
    have hnil : below = [] := List.append_right_eq_self.mp hbelow.symm
    by_cases hshould : should
    · simp [henter, hshould, hnil, right_nil_iff]
    · simp [henter, hshould, hnil]

/-- One directory in `NLR` order, when the walks inside of it and behind it are known to be right
exactly when they decide as they should. -/
theorem right_step_nlr (hdots : name.isDots = false) {below later : Log}
    (hexit : (v.answer cb (.dir (child p name) k)).bExit ≠ some true)
    (hbelow : (visitBelow cb .nlr depth k (child p name) inside
        (v.before cb .nlr (.dir (child p name) k))).log =
      (v.before cb .nlr (.dir (child p name) k)).log ++ below)
    (hdepth : AtDepth .nlr (k + 1) below) (hlater : AtDepth .nlr k later)
    (hinside : k < depth ∧ (v.before cb .nlr (.dir (child p name) k)).bEnter = true →
      ((if Stopped (v.before cb .nlr (.dir (child p name) k)).log then below = []
        else Right .nlr (depth - 1) (k + 1) (child p name) inside below) ↔
        Decides cb .nlr (depth - 1) (k + 1) (child p name) inside
          (v.before cb .nlr (.dir (child p name) k))))
    (hnext : (if Stopped (visitBelow cb .nlr depth k (child p name) inside
          (v.before cb .nlr (.dir (child p name) k))).log then later = []
        else Right .nlr depth k p next later) ↔
      Decides cb .nlr depth k p next (visitBelow cb .nlr depth k (child p name) inside
        (v.before cb .nlr (.dir (child p name) k)))) (hstop : ¬ Stopped v.log) :
    Right .nlr depth k p (.dir name inside next) ((.dir (child p name) k,
        v.answer cb (.dir (child p name) k)) :: (below ++ later)) ↔
      Decides cb .nlr depth k p (.dir name inside next) v := by
  have hasked : (v.before cb .nlr (.dir (child p name) k)).log =
      v.log ++ [(.dir (child p name) k, v.answer cb (.dir (child p name) k))] := rfl
  have hstopAsked : ¬ Stopped (v.before cb .nlr (.dir (child p name) k)).log := by
    simp [hasked, stopped_append, stopped_cons, not_stopped_nil, hstop, hexit]
  rw [if_neg hstopAsked] at hinside
  rw [hbelow] at hnext
  simp only [stopped_append, hstopAsked, false_or] at hnext
  rw [right_nlr_cons hdots hdepth hlater, right_below_iff hbelow hinside, decides_nlr hdots,
    ← hnext]
  simp only [hstop, hexit, ne_eq, not_false_eq_true, and_true, true_and, false_or, and_assoc]

/-- One directory in `LRN` order. -/
theorem right_step_lrn (hdots : name.isDots = false) {below later : Log}
    (hexit : ((visitBelow cb .lrn depth k (child p name) inside v).answer cb
      (.dir (child p name) k)).bExit ≠ some true)
    (hbelow : (visitBelow cb .lrn depth k (child p name) inside v).log = v.log ++ below)
    (hdepth : AtDepth .lrn (k + 1) below)
    (hinside : k < depth ∧ v.bEnter = true →
      ((if Stopped v.log then below = []
        else Right .lrn (depth - 1) (k + 1) (child p name) inside below) ↔
        Decides cb .lrn (depth - 1) (k + 1) (child p name) inside v))
    (hnext : (if Stopped ((visitBelow cb .lrn depth k (child p name) inside v).call cb
          (.dir (child p name) k)).log then later = [] else Right .lrn depth k p next later) ↔
      Decides cb .lrn depth k p next ((visitBelow cb .lrn depth k (child p name) inside v).call cb
        (.dir (child p name) k))) (hstop : ¬ Stopped v.log) :
    Right .lrn depth k p (.dir name inside next) (below ++ (.dir (child p name) k,
        (visitBelow cb .lrn depth k (child p name) inside v).answer cb
          (.dir (child p name) k)) :: later) ↔
      Decides cb .lrn depth k p (.dir name inside next) v := by
  have hstopNext : ¬ Stopped below → ¬ Stopped ((visitBelow cb .lrn depth k (child p name)
      inside v).call cb (.dir (child p name) k)).log := by
    intro hstopBelow
    rw [call_log, hbelow]
    simp [stopped_append, stopped_cons, not_stopped_nil, hstop, hexit, hstopBelow]
  rw [if_neg hstop] at hinside
  rw [right_lrn_append hdots hdepth, right_below_iff hbelow hinside, decides_lrn hdots, hbelow,
    stopped_append]
  simp only [hstop, hexit, if_false, false_or, and_assoc]
  exact and_congr_right fun hstopBelow => by rw [← hnext, if_neg (hstopNext hstopBelow)]

/-- The reports of a walk that is not kept from going on are right exactly when it decides as it
should. -/
theorem right_visit_iff (listing : Listing) {log : Log}
    (hpass : Passes cb order depth k p listing v)
    (hlog : (visit cb order depth k p listing v).log = v.log ++ log) :
    (if Stopped v.log then log = [] else Right order depth k p listing log) ↔
      Decides cb order depth k p listing v := by
  induction listing generalizing depth k p v log with
  | nil =>
      have hnil : log = [] := List.append_right_eq_self.mp hlog.symm
      subst hnil
      exact ⟨fun _ => trivial, fun _ => by split <;> rfl⟩
  | file name size next ih =>
      obtain ⟨later, hlater, -⟩ := visit_log cb order next depth k p
        (v.call cb (.file (child p name) k size))
      have hih := ih hpass.2 hlater
      rw [call_log, List.append_assoc] at hlater
      obtain rfl := List.append_cancel_left (hlog.symm.trans hlater)
      rw [decides_file, ← hih, call_log]
      by_cases hstop : Stopped v.log
      · simp [hstop]
      · simp [hstop, stopped_append, stopped_cons, not_stopped_nil, right_file_cons]
  | dir name inside next ihInside ihNext =>
      cases hdots : name.isDots with
      | true =>
          rw [visit_dots hdots] at hlog
          have hpass := (passes_dots hdots).mp hpass
          rw [decides_dots hdots, ← ihNext hpass hlog, right_dots hdots]
      | false =>
          rw [visit_dir hdots] at hlog
          obtain ⟨below, hbelow, hdepth⟩ := visitBelow_log cb order inside depth k
            (child p name) (v.before cb order (.dir (child p name) k))
          obtain ⟨later, hlater, hlaterDepth⟩ := visit_log cb order next depth k p
            ((visitBelow cb order depth k (child p name) inside
              (v.before cb order (.dir (child p name) k))).after cb order (.dir (child p name) k))
          cases order with
          | nlr =>
              have hexit := passes_nlr hdots hpass
              obtain ⟨-, -, hpassInside, -, hpassNext⟩ := (passes_dir hdots).mp hpass
              obtain rfl := List.append_cancel_left (hlog.symm.trans (log_dir_nlr hbelow hlater))
              by_cases hstop : Stopped v.log
              · simp [decides_nlr hdots, hstop]
              · rw [if_neg hstop]
                exact right_step_nlr hdots hexit hbelow hdepth hlaterDepth
                  (fun henter => ihInside (hpassInside henter).2.2
                    ((congrArg Visitor.log (visitBelow_of_enters henter)).symm.trans hbelow))
                  (ihNext hpassNext hlater) hstop
          | lrn =>
              have hexit := passes_lrn hdots hpass
              obtain ⟨-, -, hpassInside, -, hpassNext⟩ := (passes_dir hdots).mp hpass
              have hbelow : (visitBelow cb .lrn depth k (child p name) inside v).log =
                  v.log ++ below := hbelow
              obtain rfl := List.append_cancel_left (hlog.symm.trans (log_dir_lrn hbelow hlater))
              by_cases hstop : Stopped v.log
              · simp [decides_lrn hdots, hbelow, stopped_append, hstop]
              · rw [if_neg hstop]
                exact right_step_lrn hdots hexit hbelow hdepth
                  (fun henter => ihInside (hpassInside henter).2.2
                    ((congrArg Visitor.log (visitBelow_of_enters henter)).symm.trans hbelow))
                  (ihNext hpassNext hlater) hstop

end

/-! ## What was left of the flags -/

section

variable {σ : Type} {cb : Callback σ} {order : EIterateDirOrder} {depth k : Nat}
  {p : List (BitVec 16)} {v v' : Visitor σ}

/-- Two conversations that may differ in `bExit`. -/
structure Same (v v' : Visitor σ) : Prop where
  client : v.client = v'.client
  log : v.log = v'.log
  bEnter : v.bEnter = v'.bEnter

/-- Two conversations in which `bEnter` is what was left of it. -/
structure Apart (v v' : Visitor σ) : Prop where
  client : v.client = v'.client
  log : v.log = v'.log
  unset : Unset v.log
  enters : v.bEnter = true
  stays : v'.bEnter = false

variable (cb) in
theorem answer_congr (h : v.client = v'.client) (entry : DirEntry) :
    v.answer cb entry = v'.answer cb entry := by
  rw [Visitor.answer, h]
  rfl

theorem Same.call (h : Same v v') (entry : DirEntry) :
    Same (v.call cb entry) (v'.call cb entry) := by
  have hanswer := answer_congr cb h.client entry
  refine ⟨?_, ?_, ?_⟩
  · rw [Visitor.call, h.client]
    rfl
  · rw [call_log, call_log, h.log, hanswer]
  · rw [Visitor.call, Visitor.call, hanswer, h.bEnter]

variable (cb) in
/-- In `NLR` order the flag is set before a directory is reported. -/
theorem before_same (hclient : v.client = v'.client) (hlog : v.log = v'.log) (entry : DirEntry) :
    Same (v.before cb .nlr entry) (v'.before cb .nlr entry) := by
  have hset : Same { v with bEnter := true } { v' with bEnter := true } := ⟨hclient, hlog, rfl⟩
  exact hset.call entry

variable (cb order) in
theorem Same.before (h : Same v v') (entry : DirEntry) :
    Same (v.before cb order entry) (v'.before cb order entry) := by
  cases order with
  | nlr => exact before_same cb h.client h.log entry
  | lrn => exact h

theorem Same.after (h : Same v v') (entry : DirEntry) :
    Same (v.after cb order entry) (v'.after cb order entry) := by
  cases order with
  | nlr => exact h
  | lrn => exact h.call entry

/-- `bExit` does not matter for the conversation. -/
theorem Same.visit (h : Same v v') (listing : Listing) :
    Same (visit cb order depth k p listing v) (visit cb order depth k p listing v') := by
  induction listing generalizing depth k p v v' with
  | nil => exact h
  | file name size next ih => exact ih (h.call _)
  | dir name inside next ihInside ihNext =>
      cases hdots : name.isDots with
      | true =>
          rw [visit_dots hdots, visit_dots hdots]
          exact ihNext h
      | false =>
          rw [visit_dir hdots, visit_dir hdots]
          refine ihNext (Same.after ?_ _)
          have hasked := h.before cb order (.dir (child p name) k)
          rw [visitBelow, visitBelow, hasked.bEnter]
          split
          · exact ihInside hasked
          · exact hasked

/-- Where the flag is what was left of it, a call leaves it so or sets it. -/
theorem Apart.call (h : Apart v v') (entry : DirEntry) :
    Apart (v.call cb entry) (v'.call cb entry) ∨
      Same (v.call cb entry) (v'.call cb entry) ∧ ¬ Unset (v.call cb entry).log := by
  have hanswer := answer_congr cb h.client entry
  have hclient : (v.call cb entry).client = (v'.call cb entry).client := by
    rw [Visitor.call, h.client]
    rfl
  have hlog : (v.call cb entry).log = (v'.call cb entry).log := by
    rw [call_log, call_log, h.log, hanswer]
  cases hset : (v.answer cb entry).bEnter with
  | none =>
      refine .inl ⟨hclient, hlog, ?_, ?_, ?_⟩
      · intro report hmem
        rw [call_log] at hmem
        rcases List.mem_append.mp hmem with hmem | hmem
        · exact h.unset report hmem
        · rw [List.mem_singleton.mp hmem]
          exact hset
      · rw [Visitor.call, hset]
        exact h.enters
      · rw [Visitor.call, ← hanswer, hset]
        exact h.stays
  | some bEnter =>
      refine .inr ⟨⟨hclient, hlog, ?_⟩, fun hunset => ?_⟩
      · rw [Visitor.call, Visitor.call, ← hanswer, hset]
        rfl
      · have hnone := hunset _ (List.mem_append_right v.log (List.mem_singleton.mpr rfl))
        rw [hset] at hnone
        cases hnone

theorem steady_dots {name : FileName} {inside next : Listing} (h : name.isDots = true) :
    Steady cb order depth k p (.dir name inside next) v ↔ Steady cb order depth k p next v :=
  Iff.of_eq (if_pos h)

theorem steady_dir {name : FileName} {inside next : Listing} (h : name.isDots = false) :
    Steady cb order depth k p (.dir name inside next) v ↔
      let entry := DirEntry.dir (child p name) k
      let asked := v.before cb order entry
      (order = .lrn ∧ k < depth ∧ Unset v.log → inside.Silent) ∧
        Steady cb order depth k p next
          ((visitBelow cb order depth k (child p name) inside asked).after cb order entry) :=
  Iff.of_eq (if_neg (Bool.eq_false_iff.mp h))

theorem steady_nlr (listing : Listing) : Steady cb .nlr depth k p listing v := by
  induction listing generalizing v with
  | nil => trivial
  | file name size next ih => exact ih
  | dir name inside next _ ih =>
      cases hdots : name.isDots with
      | true => exact (steady_dots hdots).mpr ih
      | false => exact (steady_dir hdots).mpr ⟨fun h => absurd h.1 (by decide), ih⟩

theorem not_unset_append {before later : Log} (h : ¬ Unset before) : ¬ Unset (before ++ later) :=
  fun hunset => h fun report hmem => hunset report (List.mem_append_left later hmem)

/-- Nothing depends on what was left of the flag once it is assigned. -/
theorem steady_of_set (listing : Listing) (h : ¬ Unset v.log) :
    Steady cb order depth k p listing v := by
  cases order with
  | nlr => exact steady_nlr listing
  | lrn =>
      induction listing generalizing v with
      | nil => trivial
      | file name size next ih => exact ih (not_unset_append h)
      | dir name inside next _ ih =>
          cases hdots : name.isDots with
          | true => exact (steady_dots hdots).mpr (ih h)
          | false =>
              refine (steady_dir hdots).mpr
                ⟨fun hunset => absurd hunset.2.2 h, ih (not_unset_append ?_)⟩
              obtain ⟨below, hbelow, -⟩ := visitBelow_log cb .lrn inside depth k (child p name) v
              show ¬ Unset (visitBelow _ _ _ _ _ _ v).log
              rw [hbelow]
              exact not_unset_append h

theorem steady_call_iff {listing : Listing} (h : Apart v v') (entry : DirEntry)
    (ih : ∀ {v v' : Visitor σ}, Apart v v' →
      ((visit cb order depth k p listing v).log = (visit cb order depth k p listing v').log ↔
        Steady cb order depth k p listing v)) :
    (visit cb order depth k p listing (v.call cb entry)).log =
        (visit cb order depth k p listing (v'.call cb entry)).log ↔
      Steady cb order depth k p listing (v.call cb entry) := by
  rcases h.call entry with hapart | ⟨hsame, hset⟩
  · exact ih hapart
  · exact ⟨fun _ => steady_of_set listing hset, fun _ => (hsame.visit listing).log⟩

theorem steady_lrn {name : FileName} {inside next : Listing} (hdots : name.isDots = false)
    (hunset : Unset v.log) : Steady cb .lrn depth k p (.dir name inside next) v ↔
      (k < depth → inside.Silent) ∧ Steady cb .lrn depth k p next
        ((visitBelow cb .lrn depth k (child p name) inside v).call cb (.dir (child p name) k)) := by
  refine (steady_dir hdots).trans ?_
  exact and_congr_left fun _ => ⟨fun h hdeep => h ⟨rfl, hdeep, hunset⟩, fun h hdeep => h hdeep.2.1⟩

/-- What is inside of a directory is reported before it or not at all. -/
theorem visit_lrn_ne {name : FileName} {inside : Listing} (next : Listing) (h : Apart v v')
    (hdeep : k < depth) (hinside : ¬ inside.Silent) :
    (visit cb .lrn depth k p next ((visitBelow cb .lrn depth k (child p name) inside v).call cb
        (.dir (child p name) k))).log ≠
      (visit cb .lrn depth k p next ((visitBelow cb .lrn depth k (child p name) inside v').call cb
        (.dir (child p name) k))).log := by
  intro hsame
  obtain ⟨below, hbelow, hdepth⟩ := visitBelow_log cb .lrn inside depth k (child p name) v
  obtain ⟨later, hlater, -⟩ := visit_log cb .lrn next depth k p
    ((visitBelow cb .lrn depth k (child p name) inside v).call cb (.dir (child p name) k))
  have hstays : ¬ (k < depth ∧ v'.bEnter = true) :=
    fun henter => Bool.false_ne_true (h.stays.symm.trans henter.2)
  obtain ⟨later', hlater', -⟩ := visit_log cb .lrn next depth k p
    ((visitBelow cb .lrn depth k (child p name) inside v').call cb (.dir (child p name) k))
  have hbelow' : (visitBelow cb .lrn depth k (child p name) inside v').log = v'.log ++ [] := by
    rw [visitBelow_of_not_enters hstays, List.append_nil]
  have hlogs := (log_dir_lrn hbelow hlater).symm.trans
    (hsame.trans (log_dir_lrn hbelow' hlater'))
  rw [← h.log] at hlogs
  have hrest := List.append_cancel_left hlogs
  cases below with
  | nil =>
      rw [visitBelow_of_enters ⟨hdeep, h.enters⟩, List.append_nil] at hbelow
      exact hinside ((visit_log_eq_iff inside).mp hbelow)
  | cons report below =>
      obtain ⟨rfl, -⟩ := List.cons.inj hrest
      exact absurd (hdepth.le _ List.mem_cons_self) (Nat.not_succ_le_self k)

/-- The conversation does not depend on what was left of the flag exactly when nothing is inside of
the directories that are left to it. -/
theorem steady_iff (listing : Listing) (h : Apart v v') :
    (visit cb order depth k p listing v).log = (visit cb order depth k p listing v').log ↔
      Steady cb order depth k p listing v := by
  induction listing generalizing v v' with
  | nil => exact ⟨fun _ => trivial, fun _ => h.log⟩
  | file name size next ih => exact steady_call_iff h _ ih
  | dir name inside next _ ih =>
      cases hdots : name.isDots with
      | true =>
          rw [visit_dots hdots, visit_dots hdots, steady_dots hdots]
          exact ih h
      | false =>
          rw [visit_dir hdots, visit_dir hdots]
          cases order with
          | nlr =>
              have hasked := before_same cb h.client h.log (.dir (child p name) k)
              refine ⟨fun _ => steady_nlr _, fun _ => (Same.visit ?_ next).log⟩
              show Same (visitBelow _ _ _ _ _ _ _) (visitBelow _ _ _ _ _ _ _)
              rw [visitBelow, visitBelow, hasked.bEnter]
              split
              · exact hasked.visit inside
              · exact hasked
          | lrn =>
              rw [steady_lrn hdots h.unset]
              show (visit _ _ _ _ _ _ ((visitBelow _ _ _ _ _ _ v).call cb _)).log =
                (visit _ _ _ _ _ _ ((visitBelow _ _ _ _ _ _ v').call cb _)).log ↔ _
              by_cases hinside : k < depth ∧ ¬ inside.Silent
              · exact ⟨fun hsame => absurd hsame (visit_lrn_ne next h hinside.1 hinside.2),
                  fun hsteady => absurd (hsteady.1 hinside.1) hinside.2⟩
              · have hsilent : k < depth → inside.Silent :=
                  fun hdeep => by_contra fun hloud => hinside ⟨hdeep, hloud⟩
                have hnone : ∀ v : Visitor σ,
                    visitBelow cb .lrn depth k (child p name) inside v = v := by
                  intro v
                  by_cases hdeep : k < depth
                  · exact visitBelow_silent (hsilent hdeep)
                  · exact visitBelow_of_not_enters fun henter => hdeep henter.1
                rw [hnone v, hnone v', steady_call_iff h _ ih]
                exact ⟨fun hsteady => ⟨hsilent, hsteady⟩, fun hsteady => hsteady.2⟩

end

end Utilpp.Path

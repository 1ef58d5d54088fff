import Mathlib.Data.List.DropRight

/-!
# POSIX paths

The operations of `std::filesystem::path` on the characters of a path whose only separator is `/`.
A path made normal stays absolute, and keeps a separator at its end.
-/

namespace Utilpp.Lib.PosixPath

/-- `is_absolute` -/
def isAbsolute (path : List Char) : Bool := path.head? == some '/'

/-- The last character is a separator. -/
def endsWithSeparator (path : List Char) : Bool := path.getLast? == some '/'

/-- `operator/` -/
def append (path other : List Char) : List Char :=
  if isAbsolute other then other
  else if path = [] ∨ endsWithSeparator path then path ++ other
  else path ++ '/' :: other

/-- The names between the separators; one after a separator at the end is empty. -/
def names : List Char → List (List Char)
  | [] => [[]]
  | c :: cs =>
      if c = '/' then [] :: names cs
      else
        match names cs with
        | [] => [[c]]
        | name :: rest => (c :: name) :: rest

/-- One name of a path that is made normal; `stack` has the names that remain, the last one first.
Two dots take the name before them away, and are dropped at the root. -/
def pushName (absolute : Bool) (stack : List (List Char)) (name : List Char) : List (List Char) :=
  if name = [] ∨ name = ['.'] then stack
  else if name = ['.', '.'] then
    match stack with
    | [] => if absolute then [] else [name]
    | top :: rest => if top = ['.', '.'] then name :: stack else rest
  else name :: stack

/-- The names that remain of a path that is made normal, the last one first. -/
def normalNames (path : List Char) : List (List Char) :=
  (names path).foldl (pushName (isAbsolute path)) []

/-- A path that is made normal ends with a separator. -/
def keepsSeparator (path : List Char) : Bool :=
  let last := (names path).getLastD []
  (last = [] ∨ last = ['.'] ∨ last = ['.', '.']) ∧ (normalNames path).head? ≠ some ['.', '.']

/-- `lexically_normal` -/
def lexicallyNormal (path : List Char) : List Char :=
  if path = [] then []
  else if normalNames path = [] then (if isAbsolute path then ['/'] else ['.'])
  else
    (if isAbsolute path then ['/'] else []) ++ List.intercalate ['/'] (normalNames path).reverse ++
      if keepsSeparator path then ['/'] else []

/-- `parent_path` -/
def parentPath (path : List Char) : List Char :=
  let directory := path.rdropWhile (· ≠ '/')
  let parent := directory.rdropWhile (· = '/')
  if parent = [] then directory.take 1 else parent

theorem isAbsolute_append {path : List Char} (h : isAbsolute path) (other : List Char) :
    isAbsolute (append path other) := by
  cases path with
  | nil => cases h
  | cons c cs =>
      unfold append
      split
      · assumption
      · split
        · exact h
        · exact h

theorem isAbsolute_lexicallyNormal {path : List Char} (h : isAbsolute path) :
    isAbsolute (lexicallyNormal path) := by
  have hne : path ≠ [] := by
    rintro rfl
    cases h
  rw [lexicallyNormal, if_neg hne, if_pos h, if_pos h]
  split
  · rfl
  · rfl

/-- An absolute path that is made normal has no two dots. -/
theorem pushName_ne_dots {stack : List (List Char)} (h : ['.', '.'] ∉ stack) (name : List Char) :
    ['.', '.'] ∉ pushName true stack name := by
  unfold pushName
  split
  · exact h
  · split
    · cases stack with
      | nil => exact List.not_mem_nil
      | cons top rest =>
          obtain ⟨hne, hrest⟩ := not_or.mp (mt List.mem_cons.mpr h)
          show _ ∉ if top = ['.', '.'] then name :: top :: rest else rest
          rw [if_neg (Ne.symm hne)]
          exact hrest
    · rename_i hname
      exact mt List.mem_cons.mp (not_or.mpr ⟨Ne.symm hname, h⟩)

theorem normalNames_ne_dots {path : List Char} (h : isAbsolute path) :
    ['.', '.'] ∉ normalNames path := by
  have hfold : ∀ (parts : List (List Char)) (stack : List (List Char)), ['.', '.'] ∉ stack →
      ['.', '.'] ∉ parts.foldl (pushName true) stack := by
    intro parts
    induction parts with
    | nil => exact fun _ hstack => hstack
    | cons name parts ih => exact fun stack hstack => ih _ (pushName_ne_dots hstack name)
  rw [normalNames, h]
  exact hfold _ _ List.not_mem_nil

theorem names_ne_nil (path : List Char) : names path ≠ [] := by
  cases path with
  | nil => exact List.cons_ne_nil _ _
  | cons c cs =>
      rw [names]
      split
      · exact List.cons_ne_nil _ _
      · split
        · exact List.cons_ne_nil _ _
        · exact List.cons_ne_nil _ _

/-- Nothing stands after a separator at the end. -/
theorem names_separator (path : List Char) : names (path ++ ['/']) = names path ++ [[]] := by
  induction path with
  | nil => rfl
  | cons c cs ih =>
      rw [List.cons_append, names, names, ih]
      split
      · rfl
      · cases hnames : names cs with
        | nil => exact absurd hnames (names_ne_nil cs)
        | cons name rest => rfl

theorem endsWithSeparator_iff {path : List Char} :
    endsWithSeparator path ↔ ∃ front, path = front ++ ['/'] := by
  rw [endsWithSeparator, beq_iff_eq, List.getLast?_eq_some_iff]

theorem endsWithSeparator_lexicallyNormal {path : List Char} (habsolute : isAbsolute path)
    (h : endsWithSeparator path) : endsWithSeparator (lexicallyNormal path) := by
  obtain ⟨front, rfl⟩ := endsWithSeparator_iff.mp h
  have hne : front ++ ['/'] ≠ [] := List.append_ne_nil_of_right_ne_nil _ (List.cons_ne_nil _ _)
  rw [lexicallyNormal, if_neg hne, if_pos habsolute]
  split
  · rfl
  · have hlast : (names (front ++ ['/'])).getLastD [] = [] := by
      rw [names_separator, List.getLastD_eq_getLast?, List.getLast?_append]
      rfl
    have hhead : (normalNames (front ++ ['/'])).head? ≠ some ['.', '.'] := by
      intro hhead
      exact normalNames_ne_dots habsolute (List.mem_of_mem_head? hhead)
    have hkeeps : keepsSeparator (front ++ ['/']) := by
      simp only [keepsSeparator, hlast, true_or, true_and, decide_eq_true_eq]
      exact hhead
    rw [if_pos hkeeps]
    exact endsWithSeparator_iff.mpr ⟨_, rfl⟩

/-- A path with nothing appended to it ends with a separator. -/
theorem endsWithSeparator_append_nil {path : List Char} (h : path ≠ []) :
    endsWithSeparator (append path []) := by
  unfold append
  rw [if_neg (by decide)]
  split
  · rename_i hend
    rw [List.append_nil]
    exact hend.resolve_left h
  · exact endsWithSeparator_iff.mpr ⟨path, rfl⟩

example : lexicallyNormal "/a/./b/../c".toList = "/a/c".toList := by decide

example : lexicallyNormal "/a/b/..".toList = "/a/".toList := by decide

end Utilpp.Lib.PosixPath

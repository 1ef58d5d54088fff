import Mathlib.Data.List.TakeWhile

/-!
# Tokens of a POSIX shell

`step` recognises the tokens of a command one character at a time, by the rules of the shell command
language for quoting and for token recognition. A word is the list of its characters, each with
whether it is quoted, and of the places where an expansion begins. Only characters that are not
quoted are candidates for reserved words, aliases, assignments, tildes, fields and patterns.
-/

namespace Utilpp.Lib.Shell

/-- A part of a word. -/
inductive Piece where
  | char (c : UInt8) (quoted : Bool)
  /-- a parameter expansion, a command substitution or an arithmetic expansion -/
  | expansion (c : UInt8)
  deriving DecidableEq, Repr

/-- A token. -/
inductive Token where
  | word (pieces : List Piece)
  | operator (chars : List UInt8)
  | newline
  deriving DecidableEq, Repr

/-- What the quotes that are open make of the next character. -/
inductive Mode where
  | unquoted
  | escaped
  | singleQuoted
  | doubleQuoted
  | doubleEscaped
  | comment
  deriving DecidableEq, Repr

/-- The token that is being read. -/
inductive Current where
  | none
  | word (pieces : List Piece)
  | operator (chars : List UInt8)
  deriving DecidableEq, Repr

/-- The state of the token recognition. -/
structure Lexer where
  mode : Mode := .unquoted
  current : Current := .none
  tokens : List Token := []
  deriving DecidableEq, Repr

/-- The operators. -/
def operators : List (List UInt8) :=
  -- & | ; < > ( )
  [[0x26], [0x7C], [0x3B], [0x3C], [0x3E], [0x28], [0x29],
    -- && || ;; << >> <& >& <> >| <<-
    [0x26, 0x26], [0x7C, 0x7C], [0x3B, 0x3B], [0x3C, 0x3C], [0x3E, 0x3E], [0x3C, 0x26],
    [0x3E, 0x26], [0x3C, 0x3E], [0x3E, 0x7C], [0x3C, 0x3C, 0x2D]]

namespace Lexer

variable (s : Lexer)

/-- The current token ends. -/
def delimit : Lexer :=
  match s.current with
  | .none => s
  | .word pieces => { s with current := .none, tokens := s.tokens ++ [.word pieces] }
  | .operator chars => { s with current := .none, tokens := s.tokens ++ [.operator chars] }

/-- The word that is being read, so far. -/
def pieces : List Piece :=
  match s.current with
  | .word pieces => pieces
  | _ => []

/-- The word goes on, or begins. -/
def extend (more : List Piece) : Lexer := { s with current := .word (s.pieces ++ more) }

/-- An operator ends before a character that does not belong to it. -/
def leaveOperator : Lexer :=
  match s.current with
  | .operator _ => s.delimit
  | _ => s

/-- A character outside of quotes, when no operator goes on with it. -/
def start (c : UInt8) : Lexer :=
  if c = 0x5C then { s with mode := .escaped }
  else if c = 0x27 then { s.extend [] with mode := .singleQuoted }
  else if c = 0x22 then { s.extend [] with mode := .doubleQuoted }
  -- $ and the backquote
  else if c = 0x24 ∨ c = 0x60 then s.extend [.expansion c]
  else if [c] ∈ operators then { s.delimit with current := .operator [c] }
  else if c = 0x0A then { s.delimit with tokens := s.delimit.tokens ++ [.newline] }
  else if c = 0x20 ∨ c = 0x09 then s.delimit
  else if c = 0x23 ∧ s.current = .none then { s with mode := .comment }
  else s.extend [.char c false]

/-- A character outside of quotes. -/
def unquoted (c : UInt8) : Lexer :=
  match s.current with
  | .operator chars =>
      if chars ++ [c] ∈ operators then { s with current := .operator (chars ++ [c]) }
      else s.delimit.start c
  | _ => s.start c

/-- The next character. -/
def step (c : UInt8) : Lexer :=
  match s.mode with
  | .unquoted => s.unquoted c
  | .escaped =>
      -- a line is continued
      if c = 0x0A then { s with mode := .unquoted }
      else { s.extend [.char c true] with mode := .unquoted }
  | .singleQuoted =>
      if c = 0x27 then { s with mode := .unquoted } else s.extend [.char c true]
  | .doubleQuoted =>
      if c = 0x22 then { s with mode := .unquoted }
      else if c = 0x5C then { s with mode := .doubleEscaped }
      else if c = 0x24 ∨ c = 0x60 then s.extend [.expansion c]
      else s.extend [.char c true]
  | .doubleEscaped =>
      if c = 0x0A then { s with mode := .doubleQuoted }
      else if c = 0x24 ∨ c = 0x60 ∨ c = 0x22 ∨ c = 0x5C then
        { s.extend [.char c true] with mode := .doubleQuoted }
      else { s.extend [.char 0x5C true, .char c true] with mode := .doubleQuoted }
  | .comment =>
      if c = 0x0A then { s with mode := .unquoted, tokens := s.tokens ++ [.newline] } else s

/-- The characters of a text, one after the other. -/
def run (text : List UInt8) : Lexer := text.foldl step s

/-- The tokens when the text ends here, unless it ends inside of quotes. -/
def finish : Option (List Token) :=
  if s.mode = .unquoted ∨ s.mode = .comment then some s.delimit.tokens else none

end Lexer

/-- A command reaches the shell as a string that ends at the first NUL. -/
def command (text : List UInt8) : List UInt8 := text.takeWhile fun c => c != 0

/-- The tokens of a command. -/
def tokens (text : List UInt8) : Option (List Token) := (({} : Lexer).run (command text)).finish

/-- The value of a word after quote removal, when nothing is expanded. -/
def value (pieces : List Piece) : List UInt8 :=
  pieces.filterMap fun
    | .char c _ => some c
    | .expansion _ => none

/-- A word of quoted characters. -/
def quoted (value : List UInt8) : List Piece := value.map fun c => .char c true

/-! ## Quoted text -/

@[simp] theorem value_quoted (text : List UInt8) : value (quoted text) = text := by
  induction text with
  | nil => rfl
  | cons c text ih => exact congrArg (c :: ·) ih

theorem command_of_not_mem {text : List UInt8} (h : 0 ∉ text) : command text = text :=
  List.takeWhile_eq_self_iff.mpr fun c hc => by
    rw [bne_iff_ne]
    rintro rfl
    exact h hc

namespace Lexer

variable {s : Lexer}

theorem run_append (first second : List UInt8) :
    s.run (first ++ second) = (s.run first).run second := List.foldl_append

theorem run_cons (c : UInt8) (text : List UInt8) : s.run (c :: text) = (s.step c).run text := rfl

/-- The word is being read, outside of quotes. -/
def outside (s : Lexer) (more : List Piece) : Lexer := { s.extend more with mode := .unquoted }

/-- The word is being read, between single quotes. -/
def inside (s : Lexer) (more : List Piece) : Lexer := { s.extend more with mode := .singleQuoted }

/-- A quote outside of quotes begins a word, or goes on with one. -/
theorem step_quote (h : s.mode = .unquoted) : s.step 0x27 = s.leaveOperator.inside [] := by
  unfold step leaveOperator unquoted
  rw [h]
  cases s.current with
  | none => rfl
  | word pieces => rfl
  | operator chars =>
      have hnot : chars ++ [0x27] ∉ operators := by
        intro hmem
        have hlast : ∀ op ∈ operators, op.getLast? ≠ some 0x27 := by decide
        exact hlast _ hmem List.getLast?_concat
      dsimp only
      rw [if_neg hnot]
      rfl

/-- Between single quotes every other character stands for itself. -/
theorem step_inside {c : UInt8} (hc : c ≠ 0x27) (more : List Piece) :
    (s.inside more).step c = s.inside (more ++ [.char c true]) := by
  show (if c = 0x27 then _ else _) = _
  rw [if_neg hc]
  show { s.extend more with
    current := .word ((s.pieces ++ more) ++ [Piece.char c true]), mode := .singleQuoted } = _
  rw [List.append_assoc]
  rfl

theorem step_inside_quote (more : List Piece) : (s.inside more).step 0x27 = s.outside more := rfl

/-- A quoted quote between two texts in single quotes. -/
theorem run_requote (more : List Piece) :
    (s.outside more).run [0x5C, 0x27, 0x27] = s.inside (more ++ [.char 0x27 true]) := by
  show { s.extend more with
    current := .word (((s.pieces ++ more) ++ [Piece.char 0x27 true]) ++ [])
    mode := .singleQuoted } = _
  rw [List.append_nil, List.append_assoc]
  rfl

end Lexer

end Utilpp.Lib.Shell

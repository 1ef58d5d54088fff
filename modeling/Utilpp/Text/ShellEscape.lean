import Utilpp.Lib.Shell

/-!
# Quoting for the shell

`ShellEscape` puts a string between single quotes, closes them for a single quote in the string and
opens them again. `OpenExplorer` puts the quoted path into a command for `std::system`.
`shell_escape_word` says that the shell reads the string as one word, whatever stands around it.
-/

namespace Utilpp.Text

open Lib Lib.Shell

/-- What `ShellEscape` appends for a character. -/
def escapeChar (c : UInt8) : List UInt8 := if c = 0x27 then [0x27, 0x5C, 0x27, 0x27] else [c]

/-- `ShellEscape` -/
def shellEscape (str : List UInt8) : List UInt8 :=
  str.foldl (fun result c => result ++ escapeChar c) [0x27] ++ [0x27]

theorem shellEscape_eq (str : List UInt8) :
    shellEscape str = 0x27 :: (str.flatMap escapeChar ++ [0x27]) := by
  have hfold : ∀ result : List UInt8,
      str.foldl (fun result c => result ++ escapeChar c) result =
        result ++ str.flatMap escapeChar := by
    induction str with
    | nil => exact fun result => (List.append_nil result).symm
    | cons c str ih =>
        intro result
        rw [List.foldl_cons, ih, List.flatMap_cons, List.append_assoc]
  rw [shellEscape, hfold]
  rfl

theorem zero_not_mem_shellEscape {str : List UInt8} (h : 0 ∉ str) : 0 ∉ shellEscape str := by
  have hchar : ∀ c ∈ str, 0 ∉ escapeChar c := by
    intro c hc hmem
    unfold escapeChar at hmem
    split at hmem
    · exact absurd hmem (by decide)
    · exact h (List.mem_singleton.mp hmem ▸ hc)
  rw [shellEscape_eq]
  simp only [List.mem_cons, List.mem_append, List.mem_flatMap]
  rintro (h | ⟨c, hc, hmem⟩ | h)
  · exact absurd h (by decide)
  · exact hchar c hc hmem
  · exact absurd h (by decide)

/-- The lexer is between single quotes again after every character. -/
theorem run_escapeChar (s : Lexer) (more : List Piece) (c : UInt8) :
    (s.inside more).run (escapeChar c) = s.inside (more ++ [.char c true]) := by
  unfold escapeChar
  split
  · rename_i h
    subst h
    exact Lexer.run_requote more
  · rename_i h
    exact Lexer.step_inside h more

theorem run_escapeChars (s : Lexer) (more : List Piece) (str : List UInt8) :
    (s.inside more).run (str.flatMap escapeChar) = s.inside (more ++ quoted str) := by
  induction str generalizing more with
  | nil => rw [List.flatMap_nil, quoted, List.map_nil, List.append_nil]; rfl
  | cons c str ih =>
      rw [List.flatMap_cons, Lexer.run_append, run_escapeChar, ih, List.append_assoc]
      rfl

/-- The quoted string goes on with the word that stands before it, or begins one, and leaves the
lexer outside of quotes. -/
theorem run_shellEscape {s : Lexer} (h : s.mode = .unquoted) (str : List UInt8) :
    s.run (shellEscape str) = s.leaveOperator.outside (quoted str) := by
  rw [shellEscape_eq, Lexer.run_cons, Lexer.step_quote h, Lexer.run_append, run_escapeChars,
    List.nil_append]
  exact Lexer.step_inside_quote _

/-- A word that stands before the quotes goes on, and an operator ends. -/
theorem value_pieces_outside (s : Lexer) (str : List UInt8) :
    value (s.leaveOperator.outside (quoted str)).pieces = value s.pieces ++ str := by
  have hpieces : s.leaveOperator.pieces = s.pieces := by
    unfold Lexer.leaveOperator Lexer.delimit Lexer.pieces
    cases hcurrent : s.current <;> simp [hcurrent]
  calc value (s.leaveOperator.outside (quoted str)).pieces
      = value (s.leaveOperator.pieces ++ quoted str) := rfl
    _ = value s.pieces ++ value (quoted str) := by
        rw [hpieces, value, List.filterMap_append]
        rfl
    _ = value s.pieces ++ str := by rw [value_quoted]

theorem shellEscape_injective : Function.Injective shellEscape := by
  intro first second h
  have hrun := congrArg (fun text => value (({} : Lexer).run text).pieces) h
  simp only [run_shellEscape (s := {}) rfl] at hrun
  exact (value_quoted first).symm.trans (hrun.trans (value_quoted second))

/-- The shell reads the quoted string as one word without an expansion or a character that is not
quoted, and its value is the string. What follows is read outside of quotes, and different strings
are quoted differently. -/
theorem shell_escape_word (str : List UInt8) (h : 0 ∉ str) :
    (∃ word, tokens (shellEscape str) = some [.word word] ∧ value word = str ∧
      ∀ piece ∈ word, ∃ c, piece = .char c true) ∧
    (∀ s : Lexer, s.mode = .unquoted → ∀ rest, ∃ after : Lexer, after.mode = .unquoted ∧
      s.run (shellEscape str ++ rest) = after.run rest ∧
      value after.pieces = value s.pieces ++ str) ∧
    ∀ other, shellEscape other = shellEscape str → other = str := by
  refine ⟨⟨quoted str, ?_, value_quoted str, ?_⟩, fun s hs rest => ?_, fun other heq =>
    shellEscape_injective heq⟩
  · rw [tokens, command_of_not_mem (zero_not_mem_shellEscape h), run_shellEscape rfl]
    rfl
  · intro piece hpiece
    obtain ⟨c, -, rfl⟩ := List.mem_map.mp hpiece
    exact ⟨c, rfl⟩
  · refine ⟨s.leaveOperator.outside (quoted str), rfl, ?_, ?_⟩
    · rw [Lexer.run_append, run_shellEscape hs]
    · exact value_pieces_outside s str

/-- Quotes in a row and a newline. -/
theorem shell_escape_word_quotes :
    (∃ word, tokens (shellEscape [0x27, 0x27, 0x0A, 0x24]) = some [.word word] ∧
      value word = [0x27, 0x27, 0x0A, 0x24] ∧ ∀ piece ∈ word, ∃ c, piece = .char c true) ∧
    (∀ s : Lexer, s.mode = .unquoted → ∀ rest, ∃ after : Lexer, after.mode = .unquoted ∧
      s.run (shellEscape [0x27, 0x27, 0x0A, 0x24] ++ rest) = after.run rest ∧
      value after.pieces = value s.pieces ++ [0x27, 0x27, 0x0A, 0x24]) ∧
    ∀ other, shellEscape other = shellEscape [0x27, 0x27, 0x0A, 0x24] →
      other = [0x27, 0x27, 0x0A, 0x24] :=
  shell_escape_word _ (by decide)

/-! ## The command of `OpenExplorer` -/

/-- `OpenExplorer` on Linux: the command for `std::system`, which is `xdg-open {} &`. -/
def openExplorer (path : List UInt8) : Option (List UInt8) :=
  if path = [] then none
  else some ([0x78, 0x64, 0x67, 0x2D, 0x6F, 0x70, 0x65, 0x6E, 0x20] ++ shellEscape path ++
    [0x20, 0x26])

/-- The command starts `xdg-open` in the background, with the path as its argument. -/
theorem openExplorer_tokens {path cmd : List UInt8} (h : openExplorer path = some cmd)
    (hpath : 0 ∉ path) :
    tokens cmd = some [
      .word ([0x78, 0x64, 0x67, 0x2D, 0x6F, 0x70, 0x65, 0x6E].map fun c => .char c false),
      .word (quoted path), .operator [0x26]] := by
  unfold openExplorer at h
  split at h
  · cases h
  · cases h
    have hzero : 0 ∉ [0x78, 0x64, 0x67, 0x2D, 0x6F, 0x70, 0x65, 0x6E, 0x20] ++ shellEscape path ++
        [0x20, 0x26] := by
      simp only [List.mem_append, not_or]
      exact ⟨⟨by decide, zero_not_mem_shellEscape hpath⟩, by decide⟩
    rw [tokens, command_of_not_mem hzero, Lexer.run_append, Lexer.run_append, run_shellEscape rfl]
    rfl

end Utilpp.Text

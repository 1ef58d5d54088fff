import Mathlib.Data.List.Basic

/-!
# Input file streams

A `std::ifstream` over the bytes of a file: the position and the two flags that the extractions
set. `fail` stands for `badbit` too; nothing clears it. An extraction from a stream with a flag set
extracts nothing. `getline` is the one of a stream whose characters are made of single bytes by
`convert`, which can reject a byte.
-/

namespace Utilpp.Lib

/-- The state of a stream. -/
structure FileStream where
  data : List UInt8
  pos : Nat
  eof : Bool
  fail : Bool
  deriving DecidableEq, Repr

namespace FileStream

/-- A stream without a flag at a position. -/
def ready (data : List UInt8) (pos : Nat) : FileStream := ⟨data, pos, false, false⟩

/-- A stream that was just opened. -/
def opened (data : List UInt8) : FileStream := ready data 0

/-- The member `good`. -/
def good (s : FileStream) : Bool := !s.eof && !s.fail

/-- The bytes from the position on; a position can be behind the end. -/
def rest (s : FileStream) : List UInt8 := s.data.drop s.pos

/-- `read` of `n` bytes, with those that were extracted. -/
def read (s : FileStream) (n : Nat) : List UInt8 × FileStream :=
  if s.good then
    let bytes := s.rest.take n
    (bytes, { s with pos := s.pos + bytes.length, eof := bytes.length < n,
                     fail := bytes.length < n })
  else ([], { s with fail := true })

/-- What ends a line. -/
inductive LineEnd where
  | delimiter
  | endOfFile
  | invalid
  deriving DecidableEq, Repr

variable {γ : Type} [DecidableEq γ]

/-- The characters up to the delimiter, with the number of bytes that are extracted. -/
def scanLine (convert : UInt8 → Option γ) (delimiter : γ) :
    List UInt8 → List γ × Nat × LineEnd
  | [] => ([], 0, .endOfFile)
  | b :: bytes =>
      match convert b with
      | none => ([], 0, .invalid)
      | some c =>
          if c = delimiter then ([], 1, .delimiter)
          else
            let line := scanLine convert delimiter bytes
            (c :: line.1, line.2.1 + 1, line.2.2)

/-- `std::getline`. -/
def getline (s : FileStream) (convert : UInt8 → Option γ) (delimiter : γ) :
    List γ × FileStream :=
  if s.good then
    let line := scanLine convert delimiter s.rest
    (line.1, { s with pos := s.pos + line.2.1, eof := line.2.2 = .endOfFile,
                      fail := line.2.2 = .invalid ∨ line.2.2 = .endOfFile ∧ line.2.1 = 0 })
  else ([], { s with fail := true })

/-- `tellg`. -/
def tellg (s : FileStream) : Int × FileStream :=
  if s.good then ((s.pos : Int), s) else (-1, { s with fail := true })

/-- `seekg`; the flag `eof` is cleared first. -/
def seekg (s : FileStream) (pos : Int) : FileStream :=
  let s := { s with eof := false }
  if s.fail then s else if pos < 0 then { s with fail := true } else { s with pos := pos.toNat }

/-! ## Streams without a flag -/

@[simp] theorem good_ready (data : List UInt8) (pos : Nat) : (ready data pos).good = true := rfl

@[simp] theorem rest_ready (data : List UInt8) (pos : Nat) :
    (ready data pos).rest = data.drop pos := rfl

@[simp] theorem tellg_ready (data : List UInt8) (pos : Nat) :
    (ready data pos).tellg = ((pos : Int), ready data pos) := rfl

@[simp] theorem seekg_ready (data : List UInt8) (pos next : Nat) :
    (ready data pos).seekg next = ready data next := rfl

/-- A read of bytes that are there. -/
theorem read_ready {data : List UInt8} {pos n : Nat} (h : pos + n ≤ data.length) :
    (ready data pos).read n = ((data.drop pos).take n, ready data (pos + n)) := by
  have hlength : ((data.drop pos).take n).length = n := by
    rw [List.length_take, List.length_drop]
    omega
  simp only [read, good_ready, rest_ready, ↓reduceIte, hlength, Nat.lt_irrefl, decide_false]
  rfl

/-- A read that reaches behind the end. -/
theorem fail_read_ready {data : List UInt8} {pos n : Nat} (h : data.length < pos + n) (hn : 0 < n) :
    ((ready data pos).read n).2.fail = true := by
  have hlength : ((data.drop pos).take n).length < n := by
    rw [List.length_take, List.length_drop]
    omega
  simp only [read, good_ready, rest_ready, ↓reduceIte, hlength, decide_true]

/-! ## Streams with a flag -/

theorem read_of_not_good {s : FileStream} (h : s.good = false) (n : Nat) :
    s.read n = ([], { s with fail := true }) := by
  rw [read, if_neg (by rw [h]; exact Bool.false_ne_true)]

theorem getline_of_not_good {s : FileStream} (h : s.good = false) (convert : UInt8 → Option γ)
    (delimiter : γ) : s.getline convert delimiter = ([], { s with fail := true }) := by
  rw [getline, if_neg (by rw [h]; exact Bool.false_ne_true)]

theorem tellg_of_not_good {s : FileStream} (h : s.good = false) :
    s.tellg = (-1, { s with fail := true }) := by
  rw [tellg, if_neg (by rw [h]; exact Bool.false_ne_true)]

theorem good_of_fail {s : FileStream} (h : s.fail = true) : s.good = false := by
  rw [good, h, Bool.not_true, Bool.and_false]

theorem fail_seekg {s : FileStream} (h : s.fail = true) (pos : Int) :
    (s.seekg pos).fail = true := by
  unfold seekg
  dsimp only
  rw [if_pos h]
  exact h

theorem fail_seekg_of_neg (s : FileStream) {pos : Int} (h : pos < 0) :
    (s.seekg pos).fail = true := by
  unfold seekg
  dsimp only
  split
  · assumption
  · rfl

/-! ## Lines -/

variable {convert : UInt8 → Option γ} {delimiter : γ}

/-- The bytes are those of the characters, with the delimiter behind them. -/
def IsLine (convert : UInt8 → Option γ) (delimiter : γ) (line : List γ) (bytes : List UInt8) :
    Prop :=
  ∃ (raw : List UInt8) (last : UInt8), bytes = raw ++ [last] ∧
    raw.map convert = line.map some ∧ delimiter ∉ line ∧ convert last = some delimiter

theorem scanLine_complete {line : List γ} {bytes : List UInt8}
    (h : IsLine convert delimiter line bytes) (behind : List UInt8) :
    scanLine convert delimiter (bytes ++ behind) = (line, bytes.length, .delimiter) := by
  obtain ⟨raw, last, rfl, hraw, hnot, hlast⟩ := h
  induction raw generalizing line with
  | nil =>
      rw [List.map_nil] at hraw
      rw [List.map_eq_nil_iff.mp hraw.symm, List.nil_append, List.cons_append, scanLine]
      simp only [hlast, ↓reduceIte]
      rfl
  | cons b raw ih =>
      cases line with
      | nil => cases hraw
      | cons c line =>
          obtain ⟨hb, htail⟩ := List.cons.inj hraw
          rw [List.mem_cons, not_or] at hnot
          rw [List.cons_append, List.cons_append, scanLine]
          simp only [hb, if_neg (Ne.symm hnot.1), ih htail hnot.2]
          rfl

theorem scanLine_sound {bytes : List UInt8} {line : List γ} {n : Nat}
    (h : scanLine convert delimiter bytes = (line, n, .delimiter)) :
    IsLine convert delimiter line (bytes.take n) ∧ n ≤ bytes.length := by
  induction bytes generalizing line n with
  | nil => cases h
  | cons b bytes ih =>
      rw [scanLine] at h
      split at h
      · cases h
      · rename_i c hc
        split at h
        · rename_i heq
          cases h
          exact ⟨⟨[], b, rfl, rfl, List.not_mem_nil, heq ▸ hc⟩, by simp⟩
        · rename_i hne
          generalize hrest : scanLine convert delimiter bytes = result at h
          obtain ⟨tail, k, ended⟩ := result
          cases h
          obtain ⟨⟨raw, last, hbytes, hraw, hnot, hlast⟩, hle⟩ := ih hrest
          refine ⟨⟨b :: raw, last, ?_, ?_, ?_, hlast⟩, Nat.succ_le_succ hle⟩
          · rw [List.take_succ_cons, hbytes, List.cons_append]
          · rw [List.map_cons, hc, hraw, List.map_cons]
          · rw [List.mem_cons, not_or]
            exact ⟨Ne.symm hne, hnot⟩

/-- A line that is there. -/
theorem getline_ready {data : List UInt8} {pos : Nat} {line : List γ} {bytes : List UInt8}
    (h : IsLine convert delimiter line bytes) (hbytes : bytes <+: data.drop pos) :
    (ready data pos).getline convert delimiter = (line, ready data (pos + bytes.length)) := by
  obtain ⟨behind, hbehind⟩ := hbytes
  simp only [getline, good_ready, rest_ready, ↓reduceIte, ← hbehind, scanLine_complete h]
  rfl

/-- Otherwise a flag is set. -/
theorem getline_sound {data : List UInt8} {pos : Nat}
    (h : ((ready data pos).getline convert delimiter).2.good = true) :
    ∃ line bytes, IsLine convert delimiter line bytes ∧ bytes <+: data.drop pos ∧
      (ready data pos).getline convert delimiter = (line, ready data (pos + bytes.length)) := by
  generalize hline : scanLine convert delimiter (data.drop pos) = result
  obtain ⟨line, n, ended⟩ := result
  cases ended with
  | delimiter =>
      obtain ⟨hisLine, -⟩ := scanLine_sound hline
      exact ⟨line, _, hisLine, List.take_prefix _ _, getline_ready hisLine (List.take_prefix _ _)⟩
  | endOfFile =>
      simp only [getline, good_ready, rest_ready, ↓reduceIte, hline] at h
      simp [good] at h
  | invalid =>
      simp only [getline, good_ready, rest_ready, ↓reduceIte, hline] at h
      simp [good] at h

end FileStream

end Utilpp.Lib

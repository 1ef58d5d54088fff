import Mathlib.Tactic.Ring

/-!
# Little-endian fields and streams over a span

`toBytes n v` writes the low `n` bytes of a number and `ofBytes` reads them back. `SpanStream`
is a `std::ispanstream`: `read` copies at most `n` bytes into a zeroed field and adds
`gcount()` to `readLen`. A short read leaves nothing for the reads after it.
-/

namespace Utilpp.Lib

/-- The `n` low bytes of a number, lowest first. -/
def toBytes : Nat → Nat → List UInt8
  | 0, _ => []
  | n + 1, value => UInt8.ofNat value :: toBytes n (value / 256)

/-- The number with these bytes, lowest first. -/
def ofBytes : List UInt8 → Nat
  | [] => 0
  | b :: rest => b.toNat + 256 * ofBytes rest

theorem toBytes_succ (n value : Nat) :
    toBytes (n + 1) value = UInt8.ofNat value :: toBytes n (value / 256) :=
  rfl

theorem ofBytes_cons (b : UInt8) (rest : List UInt8) :
    ofBytes (b :: rest) = b.toNat + 256 * ofBytes rest :=
  rfl

@[simp] theorem length_toBytes (n value : Nat) : (toBytes n value).length = n := by
  induction n generalizing value with
  | zero => rfl
  | succ n ih => simp [toBytes_succ, ih]

/-- A number that fits its field is read back. -/
theorem ofBytes_toBytes {n value : Nat} (h : value < 256 ^ n) :
    ofBytes (toBytes n value) = value := by
  induction n generalizing value with
  | zero =>
      rw [pow_zero] at h
      exact (Nat.lt_one_iff.mp h).symm
  | succ n ih =>
      have hrest : value / 256 < 256 ^ n := by
        rw [Nat.div_lt_iff_lt_mul (by decide), ← pow_succ]
        exact h
      simp only [toBytes_succ, ofBytes_cons, ih hrest, UInt8.toNat_ofNat']
      omega

theorem ofBytes_lt (bytes : List UInt8) : ofBytes bytes < 256 ^ bytes.length := by
  induction bytes with
  | nil => exact Nat.one_pos
  | cons b rest ih =>
      have hb := b.toNat_lt
      rw [ofBytes_cons, List.length_cons, pow_succ]
      omega

/-- Bytes are written back as they were read. -/
theorem toBytes_ofBytes (bytes : List UInt8) : toBytes bytes.length (ofBytes bytes) = bytes := by
  induction bytes with
  | nil => rfl
  | cons b rest ih =>
      have hb := b.toNat_lt
      have hrest : (b.toNat + 256 * ofBytes rest) / 256 = ofBytes rest := by omega
      have hfirst : UInt8.ofNat (b.toNat + 256 * ofBytes rest) = b := by
        apply UInt8.toNat.inj
        rw [UInt8.toNat_ofNat']
        omega
      rw [ofBytes_cons, List.length_cons, toBytes_succ, hrest, hfirst, ih]

/-- An input stream over a span, with the count of bytes read so far. -/
structure SpanStream where
  rest : List UInt8
  readLen : Nat := 0

/-- `stream.read(field, n)` followed by `readLen += stream.gcount()`. -/
def SpanStream.read (stream : SpanStream) (n : Nat) : Nat × SpanStream :=
  (ofBytes (stream.rest.take n),
    { rest := stream.rest.drop n, readLen := stream.readLen + (stream.rest.take n).length })

/-- A complete field is read back. -/
theorem SpanStream.read_toBytes {n value : Nat} (h : value < 256 ^ n) (rest : List UInt8)
    (readLen : Nat) :
    (SpanStream.mk (toBytes n value ++ rest) readLen).read n =
      (value, ⟨rest, readLen + n⟩) := by
  have htake : (toBytes n value ++ rest).take n = toBytes n value := by
    rw [List.take_left' (length_toBytes n value)]
  have hdrop : (toBytes n value ++ rest).drop n = rest := by
    rw [List.drop_left' (length_toBytes n value)]
  simp only [SpanStream.read, htake, hdrop, ofBytes_toBytes h, length_toBytes]

/-- What a complete read takes from the stream. -/
theorem SpanStream.read_complete {stream : SpanStream} {n : Nat} (h : n ≤ stream.rest.length) :
    stream.rest = toBytes n (stream.read n).1 ++ (stream.read n).2.rest ∧
      (stream.read n).1 < 256 ^ n ∧ (stream.read n).2.readLen = stream.readLen + n := by
  have hlength : (stream.rest.take n).length = n := List.length_take_of_le h
  have hbytes := toBytes_ofBytes (stream.rest.take n)
  have hlt := ofBytes_lt (stream.rest.take n)
  rw [hlength] at hbytes hlt
  refine ⟨?_, hlt, congrArg (stream.readLen + ·) hlength⟩
  show _ = toBytes n (ofBytes (stream.rest.take n)) ++ stream.rest.drop n
  rw [hbytes, List.take_append_drop]

/-- Every byte is either counted or left. -/
theorem SpanStream.read_count (stream : SpanStream) (n : Nat) :
    (stream.read n).2.readLen + (stream.read n).2.rest.length =
      stream.readLen + stream.rest.length := by
  simp only [SpanStream.read, List.length_take, List.length_drop]
  omega

end Utilpp.Lib

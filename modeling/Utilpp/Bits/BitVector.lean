import Utilpp.Lib.BitList

/-!
# The bit vector

`TBitVector<kBits>`: `kBits` bits in an array of bytes, with byte-wise fast paths for whole bytes.
Positions and counts are natural numbers; an array of `2 ^ 61` bytes does not exist, so that
`size_t` arithmetic on positions below `kBits` does not wrap.
-/

namespace Utilpp.Bits

open Lib

/-- The number of bytes. -/
def kWords (kBits : Nat) : Nat := (kBits + 7) / 8

/-- `TBitVector<kBits>`. -/
structure TBitVector (kBits : Nat) where
  data : List (BitVec 8)
  length_data : data.length = kWords kBits
  deriving DecidableEq, Repr

namespace TBitVector

variable {kBits : Nat}

/-- `data_[i]`. -/
def byte (v : TBitVector kBits) (i : Nat) : BitVec 8 := v.data.getD i 0

/-- An assignment to `data_[i]`. -/
def update (v : TBitVector kBits) (i : Nat) (f : BitVec 8 → BitVec 8) : TBitVector kBits :=
  ⟨v.data.modify i f, by rw [List.length_modify, v.length_data]⟩

/-- `memset` of the whole array. -/
def fill (kBits : Nat) (byte : BitVec 8) : TBitVector kBits :=
  ⟨List.replicate (kWords kBits) byte, List.length_replicate⟩

/-- The bits of the last byte that are below `kBits`, when there are others. -/
def lastMask (kBits : Nat) : BitVec 8 := (1#8 <<< (kBits % 8)) - 1

/-- `data_[kWords - 1] &= (1U << (kBits % 8)) - 1U` when `kBits` does not fill the last byte. -/
def clearPadding (v : TBitVector kBits) : TBitVector kBits :=
  if kBits % 8 ≠ 0 then v.update (kWords kBits - 1) (· &&& lastMask kBits) else v

/-! ## Single bits -/

/-- `Test`. -/
def test (v : TBitVector kBits) (pos : Nat) : Bool := (v.byte (pos / 8) >>> (pos % 8)) &&& 1 ≠ 0

/-- `Set`. -/
def set (v : TBitVector kBits) (pos : Nat) : TBitVector kBits :=
  v.update (pos / 8) (· ||| 1#8 <<< (pos % 8))

/-- `Reset`. -/
def reset (v : TBitVector kBits) (pos : Nat) : TBitVector kBits :=
  v.update (pos / 8) (· &&& ~~~(1#8 <<< (pos % 8)))

/-- `Flip`. -/
def flip (v : TBitVector kBits) (pos : Nat) : TBitVector kBits :=
  v.update (pos / 8) (· ^^^ 1#8 <<< (pos % 8))

/-! ## All bits and ranges -/

/-- `SetAll`. -/
def setAll (_ : TBitVector kBits) : TBitVector kBits := (fill kBits 0xff).clearPadding

/-- `ClearAll`. -/
def clearAll (_ : TBitVector kBits) : TBitVector kBits := fill kBits 0

/-- The default constructor. -/
def new (kBits : Nat) : TBitVector kBits := fill kBits 0

/-- `ClearBits`. -/
def clearBits (v : TBitVector kBits) (offset bitNum : Nat) : TBitVector kBits :=
  if bitNum = 0 then v else (List.range bitNum).foldl (fun v i => v.reset (offset + i)) v

/-- `SetBits`; `value` is the argument behind the integral promotions. -/
def setBits {w : Nat} (v : TBitVector kBits) (value : BitVec w) (offset bitNum : Nat) :
    TBitVector kBits :=
  if bitNum = 0 then v
  else (List.range bitNum).foldl
    (fun v i => if value &&& 1#w <<< i ≠ 0 then v.set (offset + i) else v)
    (v.clearBits offset bitNum)

/-- `GetBits` for a type of `w` bits; the bits are collected in a `uint64_t`. -/
def getBits (v : TBitVector kBits) (w offset bitNum : Nat) : BitVec w :=
  if bitNum = 0 then 0
  else ((List.range bitNum).foldl
    (fun result i => if v.test (offset + i) then result ||| 1#64 <<< i else result) 0#64).setWidth w

/-- `SetBits` behind its assertion. -/
def checkedSetBits {w : Nat} (v : TBitVector kBits) (value : BitVec w) (offset bitNum : Nat) :
    Option (TBitVector kBits) :=
  if bitNum = 0 ∨ offset + bitNum ≤ kBits then some (v.setBits value offset bitNum) else Option.none

/-- `GetBits` behind its assertion. -/
def checkedGetBits (v : TBitVector kBits) (w offset bitNum : Nat) : Option (BitVec w) :=
  if bitNum = 0 ∨ offset + bitNum ≤ kBits then some (v.getBits w offset bitNum) else Option.none

/-- The constructor that takes an integer. -/
def ofInteger (kBits : Nat) (value : BitVec 64) : TBitVector kBits :=
  if kBits ≤ 64 then
    (List.range (min kBits 64)).foldl
      (fun v i => if value &&& 1#64 <<< i ≠ 0 then v.set i else v) (new kBits)
  else new kBits

/-- The first loop of `SetBatch` and `ClearBatch`: bit by bit up to a byte boundary. -/
def batchHead (one : TBitVector kBits → Nat → TBitVector kBits) (stop : Nat)
    (v : TBitVector kBits) (idx : Nat) : TBitVector kBits × Nat :=
  if idx < stop ∧ idx % 8 ≠ 0 then batchHead one stop (one v idx) (idx + 1) else (v, idx)
termination_by stop - idx

/-- The second loop: byte by byte. -/
def batchBytes (byte : BitVec 8) (stop : Nat) (v : TBitVector kBits) (idx : Nat) :
    TBitVector kBits × Nat :=
  if idx + 8 ≤ stop then batchBytes byte stop (v.update (idx / 8) fun _ => byte) (idx + 8)
  else (v, idx)
termination_by stop - idx

/-- The third loop: the rest bit by bit. -/
def batchTail (one : TBitVector kBits → Nat → TBitVector kBits) (stop : Nat)
    (v : TBitVector kBits) (idx : Nat) : TBitVector kBits :=
  if idx < stop then batchTail one stop (one v idx) (idx + 1) else v
termination_by stop - idx

/-- The body of `SetBatch` and `ClearBatch`. -/
def batch (one : TBitVector kBits → Nat → TBitVector kBits) (byte : BitVec 8)
    (v : TBitVector kBits) (start count : Nat) : TBitVector kBits :=
  let stop := min (start + count) kBits
  let head := batchHead one stop v start
  let bytes := batchBytes byte stop head.1 head.2
  batchTail one stop bytes.1 bytes.2

/-- `SetBatch`. -/
def setBatch : TBitVector kBits → Nat → Nat → TBitVector kBits := batch set 0xff

/-- `ClearBatch`. -/
def clearBatch : TBitVector kBits → Nat → Nat → TBitVector kBits := batch reset 0

/-! ## Operators -/

/-- `operator&`. -/
def and (v other : TBitVector kBits) : TBitVector kBits :=
  ⟨List.zipWith (· &&& ·) v.data other.data, by simp [v.length_data, other.length_data]⟩

/-- `operator|`. -/
def or (v other : TBitVector kBits) : TBitVector kBits :=
  ⟨List.zipWith (· ||| ·) v.data other.data, by simp [v.length_data, other.length_data]⟩

/-- `operator^`. -/
def xor (v other : TBitVector kBits) : TBitVector kBits :=
  ⟨List.zipWith (· ^^^ ·) v.data other.data, by simp [v.length_data, other.length_data]⟩

/-- `operator~`. -/
def not (v : TBitVector kBits) : TBitVector kBits :=
  clearPadding ⟨v.data.map (~~~·), by rw [List.length_map, v.length_data]⟩

/-- `operator==`. -/
def eq (v other : TBitVector kBits) : Bool :=
  (List.range (kWords kBits)).all fun i => v.byte i = other.byte i

/-! ## Queries -/

/-- `__builtin_popcount` of a byte. -/
def popcount (byte : BitVec 8) : Nat := (byte.setWidth 32).cpop.toNat

/-- `Count`. -/
def count (v : TBitVector kBits) : Nat :=
  let count := ((List.range (kWords kBits)).map fun i => popcount (v.byte i)).sum
  -- the bits behind `kBits` in the last byte were counted too
  if kBits % 8 ≠ 0 then count - popcount (v.byte (kWords kBits - 1) &&& ~~~lastMask kBits)
  else count

/-- `None`. -/
def none (v : TBitVector kBits) : Bool := (List.range (kWords kBits)).all fun i => v.byte i = 0

/-- `Any`. -/
def any (v : TBitVector kBits) : Bool := !v.none

/-- `last_mask` of `All` and `FindFirstZero`. -/
def fullMask (kBits : Nat) : BitVec 8 := if kBits % 8 = 0 then 0xff else lastMask kBits

/-- `All`. -/
def all (v : TBitVector kBits) : Bool :=
  ((List.range (kWords kBits - 1)).all fun i => v.byte i = 0xff) &&
    v.byte (kWords kBits - 1) &&& fullMask kBits = fullMask kBits

/-- `FindFirst`, from byte `i` on. -/
def findFrom (v : TBitVector kBits) (i : Nat) : Nat :=
  match (List.range' i (kWords kBits - i)).find? fun i => v.byte i ≠ 0 with
  | some i => i * 8 + ((v.byte i).setWidth 32).ctz.toNat
  | Option.none => kBits

/-- `FindFirst`. -/
def findFirst (v : TBitVector kBits) : Nat := v.findFrom 0

/-- `FindFirstZero`. -/
def findFirstZero (v : TBitVector kBits) : Nat :=
  match (List.range (kWords kBits - 1)).find? fun i => v.byte i ≠ 0xff with
  | some i => i * 8 + (~~~((v.byte i).setWidth 32)).ctz.toNat
  | Option.none =>
      if v.byte (kWords kBits - 1) &&& fullMask kBits ≠ fullMask kBits then
        (kWords kBits - 1) * 8 + (~~~((v.byte (kWords kBits - 1)).setWidth 32)).ctz.toNat
      else kBits

/-- `FindNext`. -/
def findNext (v : TBitVector kBits) (pos : Nat) : Nat :=
  if kBits ≤ pos then kBits
  else
    let byte := v.byte (pos / 8) >>> (pos % 8)
    if byte ≠ 0 then pos + (byte.setWidth 32).ctz.toNat
    -- the search goes on at the next byte
    else v.findFrom (pos / 8 + 1)

/-- The inner loop of `ToBitset<N>`, over the first bits of byte `i`. -/
def bitsetByte {n : Nat} (v : TBitVector kBits) (i bits : Nat) (result : BitVec n) : BitVec n :=
  (List.range bits).foldl (fun result j =>
    if i * 8 + j < kBits ∧ v.byte i &&& 1#8 <<< j ≠ 0 then result ||| 1#n <<< (i * 8 + j)
    else result) result

/-- `ToBitset<N>`. -/
def toBitset (n : Nat) (v : TBitVector kBits) : BitVec n :=
  (List.range (kWords kBits)).foldl (fun result i => v.bitsetByte i 8 result) 0

end TBitVector

end Utilpp.Bits

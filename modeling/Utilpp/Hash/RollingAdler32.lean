import Utilpp.Lib.Adler32
import Utilpp.Lib.Transition

/-!
# The rolling checksum

`FRollingAdler32` keeps the two components of the Adler-32 checksum of a window of bytes. `Init`
takes them from zlib's `adler32`, which is a parameter here, and `Roll` moves the window on by one
byte. `Roll` leaves out the 1 that the checksum starts with and cuts a product to 32 bits; `drift`
is what the second component is off by afterwards (`roll_iff`). `Init` goes on from the component
that the object has and takes the low half of the checksum modulo 65521 of all of it (`init_iff`).
-/

namespace Utilpp.Hash

open Lib Lib.Adler32

/-- An `FRollingAdler32`. -/
structure FRollingAdler32 where
  windowSize : UInt32
  s1 : UInt32
  s2 : UInt32
  full : Bool
  deriving DecidableEq, Repr

namespace FRollingAdler32

/-- `MOD` -/
def mod : UInt32 := 65521

/-- `Reset`, and the constructor. -/
def new : FRollingAdler32 := ⟨0, 1, 0, false⟩

/-- `(x >= MOD) ? (x - MOD) : x` -/
def reduce (x : UInt32) : UInt32 := if x ≥ mod then x - mod else x

/-- `Init`; `data` are the bytes that its pointer points to. The assertion fails for an empty
window. -/
def init (adler32 : UInt32 → List UInt8 → UInt32) (h : FRollingAdler32) (data : List UInt8)
    (windowSize : UInt32) : Option FRollingAdler32 :=
  if windowSize = 0 then none
  else
    let s1 := adler32 h.s1 (data.take windowSize.toNat)
    some { windowSize := windowSize, s1 := s1 % mod, s2 := s1 >>> 16, full := true }

/-- `Roll` -/
def roll (h : FRollingAdler32) (outByte newByte : UInt8) : FRollingAdler32 :=
  let s1 := reduce (h.s1 + mod - outByte.toUInt32)
  -- the product has 32 bits
  let contribution := h.windowSize * outByte.toUInt32 % mod
  let s2 := reduce (h.s2 + mod - contribution)
  let s1 := reduce (s1 + newByte.toUInt32)
  { h with s1 := s1, s2 := reduce (s2 + s1) }

/-- `Get` -/
def get (h : FRollingAdler32) : UInt32 := h.s2 <<< 16 ||| h.s1

/-- A `Roll` for each of the first `k` bytes that leave the window. -/
def slide (h : FRollingAdler32) (data : List UInt8) (n k : Nat) : FRollingAdler32 :=
  ((data.zip (data.drop n)).take k).foldl (fun h bytes => h.roll bytes.1 bytes.2) h

/-! ## States -/

/-- Both components are reduced. -/
structure Reduced (h : FRollingAdler32) : Prop where
  s1 : h.s1.toNat < base
  s2 : h.s2.toNat < base

/-- zlib's `adler32` continues a checksum whose low half is the first component and whose high half
is the second. -/
def Continues (adler32 : UInt32 → List UInt8 → UInt32) : Prop :=
  ∀ seed data, seed.toNat % 2 ^ 16 < base → seed.toNat / 2 ^ 16 < base →
    adler32 seed data = combined (continued (seed.toNat % 2 ^ 16, seed.toNat / 2 ^ 16) data)

theorem toNat_reduce {x : UInt32} (h : x.toNat < 2 * base) :
    (reduce x).toNat = x.toNat % base := by
  have hmod : mod.toNat = base := rfl
  rw [reduce]
  split
  · rename_i hle
    rw [UInt32.toNat_sub_of_le _ _ hle, hmod]
    rw [ge_iff_le, UInt32.le_iff_toNat_le, hmod] at hle
    unfold base at h hle ⊢
    omega
  · rename_i hlt
    rw [ge_iff_le, UInt32.le_iff_toNat_le, hmod] at hlt
    exact (Nat.mod_eq_of_lt (Nat.not_le.mp hlt)).symm

theorem toNat_mod (x : UInt32) : (x % mod).toNat = x.toNat % base := UInt32.toNat_mod _ _

theorem toNat_combined {c : Nat × Nat} (h : c.1 < base ∧ c.2 < base) :
    (combined c).toNat = c.2 * 2 ^ 16 + c.1 := by
  unfold base at h
  exact UInt32.toNat_ofNat_of_lt' (show c.2 * 2 ^ 16 + c.1 < 2 ^ 32 by omega)

/-- Taking a number below `MOD` away from a component. -/
theorem toNat_reduce_sub {x y : UInt32} (hx : x.toNat < base) (hy : y.toNat < base) :
    (reduce (x + mod - y)).toNat = (x.toNat + base - y.toNat) % base := by
  have hsum : (x + mod).toNat = x.toNat + base := by
    rw [UInt32.toNat_add]
    exact Nat.mod_eq_of_lt (show x.toNat + base < 2 ^ 32 by unfold base at hx ⊢; omega)
  have hsub : (x + mod - y).toNat = x.toNat + base - y.toNat := by
    rw [UInt32.toNat_sub_of_le, hsum]
    rw [UInt32.le_iff_toNat_le, hsum]
    omega
  rw [toNat_reduce (by rw [hsub]; omega), hsub]

theorem toNat_reduce_add {x y : UInt32} (hx : x.toNat < base) (hy : y.toNat < base) :
    (reduce (x + y)).toNat = (x.toNat + y.toNat) % base := by
  have hsum : (x + y).toNat = x.toNat + y.toNat := by
    rw [UInt32.toNat_add]
    exact Nat.mod_eq_of_lt (show x.toNat + y.toNat < 2 ^ 32 by unfold base at hx hy; omega)
  rw [toNat_reduce (by rw [hsum]; omega), hsum]

/-- The components that `Roll` leaves. -/
theorem Reduced.toNat_roll {h : FRollingAdler32} (hh : h.Reduced) (outByte newByte : UInt8) :
    (h.roll outByte newByte).s1.toNat =
        ((h.s1.toNat + base - outByte.toNat) % base + newByte.toNat) % base ∧
      (h.roll outByte newByte).s2.toNat =
        ((h.s2.toNat + base - h.windowSize.toNat * outByte.toNat % 2 ^ 32 % base) % base +
          (h.roll outByte newByte).s1.toNat) % base := by
  have hbyte : ∀ byte : UInt8, byte.toUInt32.toNat < base := fun byte =>
    Nat.lt_trans (show byte.toUInt32.toNat < 256 from byte.toNat_lt) (by decide)
  have hmod : ∀ x : Nat, x % base < base := fun x => Nat.mod_lt x (by decide)
  have hless1 := toNat_reduce_sub hh.s1 (hbyte outByte)
  have hs1 := toNat_reduce_add (hless1 ▸ hmod _) (hbyte newByte)
  have hcontribution : (h.windowSize * outByte.toUInt32 % mod).toNat =
      h.windowSize.toNat * outByte.toNat % 2 ^ 32 % base := by
    rw [toNat_mod, UInt32.toNat_mul]
    rfl
  have hless2 := toNat_reduce_sub hh.s2 (hcontribution ▸ hmod _)
  have hs2 := toNat_reduce_add (hless2 ▸ hmod _) (hs1 ▸ hmod _)
  rw [hless1] at hs1
  rw [hless2, hcontribution] at hs2
  exact ⟨hs1, hs2⟩

/-- What the product of a window size and a byte loses in 32 bits. -/
def lost (n : Nat) (byte : UInt8) : Nat := 2 ^ 32 * (n * byte.toNat / 2 ^ 32)

/-- The components that `Roll` leaves are reduced and differ from the earlier ones by what the two
bytes contribute, and by what the product loses. -/
theorem Reduced.roll {h : FRollingAdler32} (hh : h.Reduced) (outByte newByte : UInt8) :
    (h.roll outByte newByte).Reduced ∧
      (h.roll outByte newByte).s1.toNat + outByte.toNat ≡ h.s1.toNat + newByte.toNat [MOD base] ∧
      (h.roll outByte newByte).s2.toNat + h.windowSize.toNat * outByte.toNat ≡
        h.s2.toNat + lost h.windowSize.toNat outByte +
          (h.roll outByte newByte).s1.toNat [MOD base] := by
  obtain ⟨hs1, hs2⟩ := hh.toNat_roll outByte newByte
  have hlt := outByte.toNat_lt
  have hsplit := Nat.div_add_mod (h.windowSize.toNat * outByte.toNat) (2 ^ 32)
  refine ⟨⟨hs1 ▸ Nat.mod_lt _ (by decide), hs2 ▸ Nat.mod_lt _ (by decide)⟩, ?_, ?_⟩
  · rw [hs1]
    unfold base Nat.ModEq
    omega
  · rw [hs2, lost]
    generalize (h.roll outByte newByte).s1.toNat = s1
    unfold base Nat.ModEq
    omega

/-! ## Rolling -/

/-- The object stands for the window: it has its size and its two components. -/
structure Holds (h : FRollingAdler32) (window : List UInt8) : Prop where
  size : h.windowSize.toNat = window.length
  s1 : h.s1.toNat = (components window).1
  s2 : h.s2.toNat = (components window).2

/-- The second component is `d` more than that of the window. -/
structure Lags (h : FRollingAdler32) (window : List UInt8) (d : Nat) : Prop where
  reduced : h.Reduced
  size : h.windowSize.toNat = window.length
  s1 : h.s1.toNat = (components window).1
  s2 : h.s2.toNat ≡ (components window).2 + d [MOD base]

theorem Holds.lags {h : FRollingAdler32} {window : List UInt8} (hh : h.Holds window) :
    h.Lags window 0 := by
  obtain ⟨hfirst, hsecond⟩ := components_lt window
  exact ⟨⟨hh.s1 ▸ hfirst, hh.s2 ▸ hsecond⟩, hh.size, hh.s1, by rw [hh.s2, Nat.add_zero]⟩

/-- The components are right again when what the second one is off by is a multiple of `base`. -/
theorem Lags.holds_iff {h : FRollingAdler32} {window : List UInt8} {d : Nat}
    (hh : h.Lags window d) : h.Holds window ↔ d % base = 0 := by
  have hsecond := (components_lt window).2
  have hlt := hh.reduced.s2
  have hs2 : h.s2.toNat % base = ((components window).2 + d) % base := hh.s2
  unfold base at hsecond hlt hs2 ⊢
  constructor
  · intro hholds
    have heq := hholds.s2
    omega
  · intro hd
    exact ⟨hh.size, hh.s1, by omega⟩

theorem roll_windowSize (h : FRollingAdler32) (outByte newByte : UInt8) :
    (h.roll outByte newByte).windowSize = h.windowSize := by
  -- `rfl` would compare the other fields as well
  rw [roll]

/-- One `Roll` misses the 1 that the checksum starts with and what the product loses. -/
theorem Lags.roll {h : FRollingAdler32} {outByte : UInt8} {window : List UInt8} {d : Nat}
    (hh : h.Lags (outByte :: window) d) (newByte : UInt8) :
    (h.roll outByte newByte).Lags (window ++ [newByte])
      (d + 1 + lost (window.length + 1) outByte) := by
  obtain ⟨hreduced, hs1, hs2⟩ := hh.reduced.roll outByte newByte
  obtain ⟨hfirst, hsecond⟩ := slide_modEq outByte newByte window
  have hsize : h.windowSize.toNat = window.length + 1 := hh.size
  have hd := hh.s2
  rw [hh.s1] at hs1
  rw [hsize] at hs2
  have heq : (h.roll outByte newByte).s1.toNat = (components (window ++ [newByte])).1 := by
    refine Nat.ModEq.eq_of_lt_of_lt ?_ hreduced.s1 (components_lt _).1
    exact Nat.ModEq.add_right_cancel' _ (hs1.trans hfirst.symm)
  refine ⟨hreduced, ?_, heq, ?_⟩
  · rw [roll_windowSize, hsize, List.length_append, List.length_singleton]
  · rw [heq] at hs2
    refine Nat.ModEq.add_right_cancel' ((window.length + 1) * outByte.toNat) ?_
    calc (h.roll outByte newByte).s2.toNat + (window.length + 1) * outByte.toNat
        ≡ h.s2.toNat + lost (window.length + 1) outByte + (components (window ++ [newByte])).1
          [MOD base] := hs2
      _ ≡ (components (outByte :: window)).2 + d + lost (window.length + 1) outByte +
          (components (window ++ [newByte])).1 [MOD base] := (hd.add_right _).add_right _
      _ = (components (outByte :: window)).2 + (components (window ++ [newByte])).1 +
          (d + lost (window.length + 1) outByte) := by ring
      _ ≡ (components (window ++ [newByte])).2 + (window.length + 1) * outByte.toNat + 1 +
          (d + lost (window.length + 1) outByte) [MOD base] := hsecond.symm.add_right _
      _ = (components (window ++ [newByte])).2 + (d + 1 + lost (window.length + 1) outByte) +
          (window.length + 1) * outByte.toNat := by ring

/-- What `k` calls to `Roll` get wrong in the second component. -/
def drift (n : Nat) (data : List UInt8) (k : Nat) : Nat :=
  k + ((data.take k).map (lost n)).sum

/-- Where no product exceeds 32 bits only the 1 is missing. -/
theorem drift_of_lost {n : Nat} {data : List UInt8} (h : ∀ byte ∈ data, lost n byte = 0) (k : Nat) :
    drift n data k = k := by
  have hsum : ((data.take k).map (lost n)).sum = 0 := by
    refine List.sum_eq_zero fun x hx => ?_
    obtain ⟨byte, hbyte, rfl⟩ := List.mem_map.mp hx
    exact h byte (List.mem_of_mem_take hbyte)
  rw [drift, hsum, Nat.add_zero]

/-- The window of `n` bytes that starts at `k`. -/
def window (data : List UInt8) (n k : Nat) : List UInt8 := (data.drop k).take n

theorem Lags.slide {h : FRollingAdler32} {data : List UInt8} {n k d : Nat} (hn : 0 < n)
    (hlen : n + k ≤ data.length) (hh : h.Lags (data.take n) d) :
    (h.slide data n k).Lags (window data n k) (d + drift n data k) := by
  obtain ⟨m, rfl⟩ : ∃ m, n = m + 1 := ⟨n - 1, by omega⟩
  induction k generalizing h data d with
  | zero => exact hh
  | succ k ih =>
      cases data with
      | nil => exact absurd hlen (by simp)
      | cons outByte rest =>
          rw [List.length_cons] at hlen
          have hm : m < rest.length := by omega
          have hroll := hh.roll rest[m]
          have htake : rest.take m ++ [rest[m]] = rest.take (m + 1) :=
            (List.take_succ_eq_append_getElem hm).symm
          have hlength : (rest.take m).length = m := List.length_take_of_le (by omega)
          rw [htake, hlength] at hroll
          have hrest := ih (show m + 1 + k ≤ rest.length by omega) hroll
          have hslide : h.slide (outByte :: rest) (m + 1) (k + 1) =
              (h.roll outByte rest[m]).slide rest (m + 1) k := by
            unfold FRollingAdler32.slide
            rw [List.drop_succ_cons, List.drop_eq_getElem_cons hm, List.zip_cons_cons,
              List.take_succ_cons, List.foldl_cons]
          have hdrift : drift (m + 1) (outByte :: rest) (k + 1) =
              1 + lost (m + 1) outByte + drift (m + 1) rest k := by
            unfold drift
            rw [List.take_succ_cons, List.map_cons, List.sum_cons]
            omega
          rw [hslide, hdrift, ← Nat.add_assoc, ← Nat.add_assoc]
          exact hrest

/-- After `k` calls to `Roll` the components are those of the window that starts at `k` if and only
if what they miss is a multiple of `base`; they are below `MOD` in any case. -/
theorem roll_iff (h : FRollingAdler32) (data : List UInt8) (n k : Nat) (hn : 1 ≤ n)
    (hlen : n + k ≤ data.length) (hstart : h.Holds (data.take n)) :
    ((h.slide data n k).Holds (window data n k) ∧ (h.slide data n k).Reduced) ↔
      drift n data k % base = 0 := by
  have hlags := hstart.lags.slide hn hlen
  rw [Nat.zero_add] at hlags
  exact (and_iff_left hlags.reduced).trans hlags.holds_iff

/-- A window of three equal bytes that has moved on `base` times. -/
theorem roll_base_times :
    Holds (slide ⟨3, 22, 45, true⟩ (List.replicate 65524 7) 3 65521)
      (window (List.replicate 65524 7) 3 65521) := by
  have hstart : Holds ⟨3, 22, 45, true⟩ ((List.replicate 65524 7).take 3) := by
    rw [List.take_replicate]
    exact ⟨rfl, rfl, rfl⟩
  refine ((roll_iff _ (List.replicate 65524 7) 3 65521 (by decide) ?_ hstart).mpr ?_).1
  · rw [List.length_replicate]
  · have hlost : ∀ byte ∈ List.replicate 65524 (7 : UInt8), lost 3 byte = 0 := by
      intro byte hbyte
      rw [List.eq_of_mem_replicate hbyte]
      rfl
    rw [drift_of_lost hlost]
    rfl

/-- A window of zeros that moves on by one zero. -/
theorem not_roll :
    ¬ ∀ (h : FRollingAdler32) (data : List UInt8) (n k : Nat), 1 ≤ n → n < 2 ^ 32 →
      n + k ≤ data.length → h.Holds (data.take n) →
      (h.slide data n k).Holds (window data n k) ∧ (h.slide data n k).Reduced := by
  intro h
  obtain ⟨hholds, -⟩ :=
    h ⟨1, 1, 1, true⟩ [0, 0] 1 1 (by decide) (by decide) (by decide) ⟨rfl, rfl, rfl⟩
  exact absurd hholds.s2 (by decide)

/-! ## Starting -/

theorem toNat_get {h : FRollingAdler32} (hh : h.Reduced) :
    h.get.toNat = h.s2.toNat * 2 ^ 16 + h.s1.toNat := by
  obtain ⟨hs1, hs2⟩ := hh
  unfold base at hs1 hs2
  have hshift : (h.s2 <<< 16).toNat = h.s2.toNat <<< 16 := by
    rw [UInt32.toNat_shiftLeft]
    refine Nat.mod_eq_of_lt ?_
    show h.s2.toNat <<< 16 < 2 ^ 32
    rw [Nat.shiftLeft_eq]
    omega
  rw [get, UInt32.toNat_or, hshift, ← Nat.shiftLeft_add_eq_or_of_lt (by omega), Nat.shiftLeft_eq]

/-- The components that `Init` takes from a checksum with the components `c`. -/
theorem toNat_init {c : Nat × Nat} (hc : c.1 < base ∧ c.2 < base) :
    (combined c >>> 16).toNat = c.2 ∧ (combined c % mod).toNat = (15 * c.2 + c.1) % base := by
  have hcombined := toNat_combined hc
  unfold base at hc
  constructor
  · rw [UInt32.toNat_shiftRight, hcombined]
    show (c.2 * 2 ^ 16 + c.1) >>> 16 = c.2
    rw [Nat.shiftRight_eq_div_pow]
    omega
  · rw [toNat_mod, hcombined]
    unfold base
    omega

/-- Continuing from the first component of the object. -/
theorem Continues.of_s1 {adler32 : UInt32 → List UInt8 → UInt32} (hadler : Continues adler32)
    {h : FRollingAdler32} (hh : h.Reduced) (data : List UInt8) :
    adler32 h.s1 data = combined (continued (h.s1.toNat, 0) data) := by
  have hs1 := hh.s1
  unfold base at hs1
  have hlow : h.s1.toNat % 2 ^ 16 = h.s1.toNat := Nat.mod_eq_of_lt (by omega)
  have hhigh : h.s1.toNat / 2 ^ 16 = 0 := Nat.div_eq_of_lt (by omega)
  rw [hadler h.s1 data (hlow.symm ▸ hh.s1) (hhigh.symm ▸ by decide), hlow, hhigh]

/-- What `Init` leaves. -/
theorem Reduced.init {adler32 : UInt32 → List UInt8 → UInt32} (hadler : Continues adler32)
    {h : FRollingAdler32} (hh : h.Reduced) (data : List UInt8) {windowSize : UInt32}
    (hsize : windowSize ≠ 0) :
    ∃ h', h.init adler32 data windowSize = some h' ∧ h'.Reduced ∧ h'.windowSize = windowSize ∧
      h'.s2.toNat = (continued (h.s1.toNat, 0) (data.take windowSize.toNat)).2 ∧
      h'.s1.toNat = (15 * (continued (h.s1.toNat, 0) (data.take windowSize.toNat)).2 +
        (continued (h.s1.toNat, 0) (data.take windowSize.toNat)).1) % base := by
  have hlt := @continued_lt (h.s1.toNat, 0) ⟨hh.s1, Nat.zero_lt_of_lt hh.s1⟩
    (data.take windowSize.toNat)
  obtain ⟨hs2, hs1⟩ := toNat_init hlt
  rw [← hadler.of_s1 hh] at hs2 hs1
  refine ⟨_, if_neg hsize, ⟨?_, ?_⟩, rfl, hs2, hs1⟩
  · exact lt_of_eq_of_lt hs1 (Nat.mod_lt _ (by decide))
  · exact lt_of_eq_of_lt hs2 hlt.2

/-- `Init` leaves the components of the data, and `Get` returns their checksum, if and only if the
component that the object had makes no difference and the high half of the checksum none to the low
half. -/
theorem init_iff {adler32 : UInt32 → List UInt8 → UInt32} (hadler : Continues adler32)
    (h : FRollingAdler32) (hh : h.Reduced) (data : List UInt8) (windowSize : UInt32)
    (hsize : windowSize ≠ 0) (hlen : windowSize.toNat ≤ data.length) :
    ∃ h', h.init adler32 data windowSize = some h' ∧
      (h'.Holds (data.take windowSize.toNat) ∧
          h'.get = adler32 1 (data.take windowSize.toNat) ↔
        windowSize.toNat * h.s1.toNat ≡ windowSize.toNat [MOD base] ∧
          15 * (windowSize.toNat + weighted (data.take windowSize.toNat)) + h.s1.toNat ≡ 1
            [MOD base]) := by
  obtain ⟨h', hinit, hreduced, hwindowSize, hs2, hs1⟩ := hh.init hadler data hsize
  refine ⟨h', hinit, ?_⟩
  have hlength : (data.take windowSize.toNat).length = windowSize.toNat :=
    List.length_take_of_le hlen
  generalize data.take windowSize.toNat = window at hs2 hs1 hlength ⊢
  obtain ⟨hfirst, hsecond⟩ := continued_modEq (h.s1.toNat, 0) window
  obtain ⟨hfirst', hsecond'⟩ := components_modEq window
  have hlt := components_lt window
  have hlt2 := hreduced.s2
  -- the checksum follows from the components
  have hget : h'.Holds window → h'.get = adler32 1 window := by
    intro hholds
    have hone : adler32 1 window = combined (components window) :=
      hadler 1 window (by decide) (by decide)
    rw [hone, ← UInt32.toNat_inj, toNat_get hreduced, toNat_combined hlt, hholds.s2, hholds.s1]
  have hcomponents : h'.Holds window ↔
      h'.s1.toNat = (components window).1 ∧ h'.s2.toNat = (components window).2 :=
    ⟨fun hholds => ⟨hholds.s1, hholds.s2⟩,
      fun heq => ⟨by rw [hwindowSize, hlength], heq.1, heq.2⟩⟩
  rw [and_iff_left_of_imp hget, hcomponents, hs1, hs2]
  rw [hs2] at hlt2
  rw [hlength] at hsecond hsecond'
  generalize windowSize.toNat * h.s1.toNat = product at hsecond ⊢
  unfold Nat.ModEq base at *
  omega

/-- The sums of Adler-32, as `adler32` of zlib computes them. -/
def zlibAdler32 (seed : UInt32) (data : List UInt8) : UInt32 :=
  combined (continued (seed.toNat % 2 ^ 16, seed.toNat / 2 ^ 16) data)

theorem continues_zlibAdler32 : Continues zlibAdler32 := fun _ _ _ _ => rfl

/-- A new object and 23 bytes whose second component is 0. -/
theorem init_twenty_three :
    let data : List UInt8 := List.replicate 17 255 ++ [78, 1, 0, 0, 0, 0]
    ∃ h', new.init zlibAdler32 data 23 = some h' ∧ h'.Holds data ∧ h'.get = zlibAdler32 1 data := by
  intro data
  obtain ⟨h', hinit, hiff⟩ := init_iff continues_zlibAdler32 new ⟨by decide, by decide⟩ data 23
    (by decide) (by decide)
  exact ⟨h', hinit, hiff.mpr (by decide)⟩

/-- One byte and a new object: the first component gets 15 times the second. -/
theorem not_init :
    ¬ ∀ adler32 : UInt32 → List UInt8 → UInt32, Continues adler32 →
      ∀ (h : FRollingAdler32) (data : List UInt8) (windowSize : UInt32), h.Reduced →
        windowSize ≠ 0 → windowSize.toNat ≤ data.length →
        ∃ h', h.init adler32 data windowSize = some h' ∧
          h'.Holds (data.take windowSize.toNat) ∧
          h'.get = adler32 1 (data.take windowSize.toNat) := by
  intro h
  obtain ⟨h', hinit, hholds, -⟩ := h zlibAdler32 continues_zlibAdler32 new [1] 1
    ⟨by decide, by decide⟩ (by decide) (by decide)
  have hresult : new.init zlibAdler32 [1] 1 = some ⟨1, 32, 2, true⟩ := by decide
  rw [hresult, Option.some.injEq] at hinit
  have hs1 := hholds.s1
  rw [← hinit] at hs1
  exact absurd hs1 (by decide)

/-! ## Reachable states -/

/-- A call on an object. -/
inductive Call where
  | reset
  | init (data : List UInt8) (windowSize : UInt32)
  | roll (outByte newByte : UInt8)

/-- The object after a call. -/
def call (adler32 : UInt32 → List UInt8 → UInt32) (h : FRollingAdler32) :
    Call → Option FRollingAdler32
  | .reset => some new
  | .init data windowSize => h.init adler32 data windowSize
  | .roll outByte newByte => some (h.roll outByte newByte)

/-- The components are reduced after any calls. -/
theorem reduced_of_run {adler32 : UInt32 → List UInt8 → UInt32} (hadler : Continues adler32)
    {calls : List Call} {h : FRollingAdler32} (hrun : exec (call adler32) new calls = some h) :
    h.Reduced := by
  have hstep : ∀ h c h', Reduced h → True → call adler32 h c = some h' → Reduced h' := by
    intro h c h' hh _ hcall
    cases c with
    | reset =>
        cases hcall
        exact ⟨by decide, by decide⟩
    | roll outByte newByte =>
        cases hcall
        exact (hh.roll outByte newByte).1
    | init data windowSize =>
        have hsize : windowSize ≠ 0 := by
          rintro rfl
          cases hcall
        obtain ⟨h'', hinit, hreduced, -⟩ := hh.init hadler data hsize
        cases hinit.symm.trans hcall
        exact hreduced
  exact exec_invariant hstep ⟨by decide, by decide⟩ (guarded_true _ _) hrun

end FRollingAdler32

end Utilpp.Hash

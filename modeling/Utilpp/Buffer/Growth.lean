import Utilpp.Buffer.Bounds

/-!
# Growth at large sizes

The sizes that callers compute have 64 bits and are cut to 32 bits at the calls of `Reserve` and
`Resize`. Every state that calls of any size reach is `Sound` (`sound_of_reachable`), and for such a
state the theorems of this module say for which sizes the capacity suffices afterwards.
-/

namespace Utilpp.Buffer

open Lib

namespace FCharBuffer

variable {b b' : FCharBuffer}

/-- The capacity is at least the size asked for, unless the size was cut. -/
theorem reserve_capacity_iff (h : b.Sound) (size : Nat) :
    (∃ b', b.reserve (UInt32.ofNat size) = some b' ∧ size ≤ b'.bufSize) ↔
      size ≤ b.bufSize ∨ size < 2 ^ 32 := by
  obtain ⟨b', hreserve, -, -, hbufSize⟩ := h.reserve (UInt32.ofNat size)
  have hcut : (UInt32.ofNat size).toNat = size % 2 ^ 32 := rfl
  have hlt := h.bufSize_lt
  rw [hcut] at hbufSize
  constructor
  · rintro ⟨b'', hreserve', hsize⟩
    cases hreserve.symm.trans hreserve'
    omega
  · intro hfits
    exact ⟨b', hreserve, by omega⟩

theorem append_isSome_iff (h : b.Sound) (bytes : List UInt8) :
    (b.append (bytes.map some)).isSome = true ↔ b.Room (.append bytes) := by
  by_cases hroom : b.Room (.append bytes)
  · obtain ⟨b', happend, -⟩ := (h.append bytes).1 hroom
    rw [happend]
    exact iff_of_true rfl hroom
  · rw [(h.append bytes).2 hroom]
    exact iff_of_false Bool.false_ne_true hroom

theorem put_isSome_iff (h : b.Sound) (c : UInt8) :
    (b.put c).isSome = true ↔ b.Room (.put c) := by
  by_cases hroom : b.Room (.put c)
  · obtain ⟨b', hput, -⟩ := (h.put c).1 hroom
    rw [hput]
    exact iff_of_true rfl hroom
  · rw [(h.put c).2 hroom]
    exact iff_of_false Bool.false_ne_true hroom

/-- The copy that `Assign` and `ReserveAssign` end with stays below the capacity when it has room
there, and leaves the allocation otherwise. -/
theorem replace_isSome_iff (h : b.Sound) (bytes : List UInt8) :
    (b.replace (bytes.map some)).isSome = true ↔ bytes.length ≤ b.bufSize := by
  constructor
  · intro hsome
    by_contra hlong
    have hne : bytes.map some ≠ [] := by
      intro hnil
      have hzero := congrArg List.length hnil
      rw [List.length_map, List.length_nil] at hzero
      omega
    have hnone : b.write 0 (bytes.map some) = none :=
      write_eq_none hne (by rw [List.length_map]; omega)
    rw [FCharBuffer.replace, List.length_map, if_pos (by omega), hnone] at hsome
    cases hsome
  · intro hroom
    obtain ⟨b', hreplace, -⟩ := h.replace hroom
    rw [hreplace]
    rfl

/-- The capacity with which `Assign` and `ReserveAssign` copy `n` bytes. -/
def assignCapacity (b : FCharBuffer) (n : Nat) : Nat := max b.bufSize ((n + 2) % 2 ^ 32)

theorem assign_isSome_iff (h : b.Sound) (bytes : List UInt8) :
    (b.assign (bytes.map some)).isSome = true ↔ bytes.length ≤ b.assignCapacity bytes.length := by
  obtain ⟨grown, hresize, hsound, -⟩ := h.resize (UInt32.ofNat (bytes.length + 2))
  have hassign : b.assign (bytes.map some) = grown.replace (bytes.map some) := by
    simp only [FCharBuffer.assign, List.length_map, hresize, Option.bind_eq_bind, Option.bind_some]
  have hcapacity : grown.bufSize = b.assignCapacity bytes.length := bufSize_of_resize hresize
  rw [hassign, replace_isSome_iff hsound, hcapacity]

theorem reserveAssign_isSome_iff (h : b.Sound) (bytes : List UInt8) :
    (b.reserveAssign (bytes.map some)).isSome = true ↔
      bytes.length ≤ b.assignCapacity bytes.length := by
  obtain ⟨grown, hreserve, hsound, -, hbufSize⟩ := h.reserve (UInt32.ofNat (bytes.length + 2))
  have hassign : b.reserveAssign (bytes.map some) = grown.replace (bytes.map some) := by
    simp only [FCharBuffer.reserveAssign, List.length_map, hreserve, Option.bind_eq_bind,
      Option.bind_some]
  have hcapacity : grown.bufSize = b.assignCapacity bytes.length := hbufSize
  rw [hassign, replace_isSome_iff hsound, hcapacity]

/-! ## The states that are reached -/

/-- The result of a call is the sound one that is known to exist. -/
theorem sound_of_spec {o : Option FCharBuffer} {P : FCharBuffer → Prop} (hresult : o = some b')
    (hspec : ∃ b'', o = some b'' ∧ b''.Sound ∧ P b'') : b'.Sound := by
  obtain ⟨b'', hresult', hsound, -⟩ := hspec
  cases hresult.symm.trans hresult'
  exact hsound

theorem Sound.of_replace {bytes : List UInt8} (h : b.Sound)
    (hreplace : b.replace (bytes.map some) = some b') : b'.Sound := by
  have hroom : bytes.length ≤ b.bufSize :=
    (replace_isSome_iff h bytes).mp (Option.isSome_iff_exists.mpr ⟨b', hreplace⟩)
  exact sound_of_spec hreplace (h.replace hroom)

/-- A call of any size that stays inside of the allocation leaves a sound buffer. -/
theorem Sound.of_call {c : Call} (h : b.Sound) (hcall : b.call c = some b') : b'.Sound := by
  have hroom : b.Room c := by
    by_contra hnot
    rw [h.call_none hnot] at hcall
    cases hcall
  have hsmall : 0 < 2 ^ 30 := Nat.two_pow_pos 30
  cases c with
  | assign bytes =>
      obtain ⟨grown, hresize, hreplace⟩ := Option.bind_eq_some_iff.mp hcall
      exact (sound_of_spec hresize (h.resize _)).of_replace hreplace
  | reserveAssign bytes =>
      obtain ⟨grown, hreserve, hreplace⟩ := Option.bind_eq_some_iff.mp hcall
      exact (sound_of_spec hreserve (h.reserve _)).of_replace hreplace
  | append bytes => exact sound_of_spec hcall ((h.append bytes).1 hroom)
  | put c => exact sound_of_spec hcall ((h.put c).1 hroom)
  | resize size => exact sound_of_spec hcall (h.resize size)
  | reserve size => exact sound_of_spec hcall (h.reserve size)
  | cStr => exact sound_of_spec hcall (h.cStr.1 hroom)
  | trimNewline unset => exact sound_of_spec hcall (h.trimNewline hroom)
  | clear => exact sound_of_spec hcall h.clear
  | setLength l => exact sound_of_spec hcall (@Sound.call b h (.setLength l) trivial hsmall trivial)
  | seekp pos => exact sound_of_spec hcall (@Sound.call b h (.seekp pos) trivial hsmall trivial)
  | seekg pos => exact sound_of_spec hcall (@Sound.call b h (.seekg pos) trivial hsmall trivial)
  | peek =>
      obtain ⟨c, -, rfl⟩ := Option.map_eq_some_iff.mp hcall
      exact h
  | take =>
      obtain ⟨⟨after, c⟩, htake, rfl⟩ := Option.map_eq_some_iff.mp hcall
      obtain ⟨c', -, hresult⟩ := Option.bind_eq_some_iff.mp htake
      cases hresult
      exact ⟨h.backed.of_eq rfl rfl, h.cursor_le, h.bufSize_lt⟩

/-- Every state that a run reaches is sound, whatever sizes its calls have. -/
theorem sound_of_reachable {calls : List Call} (hrun : exec FCharBuffer.call .new calls = some b) :
    b.Sound :=
  exec_invariant (fun _ _ _ h _ hcall => Sound.of_call h hcall) sound_new (guarded_true _ calls)
    hrun

end FCharBuffer

end Utilpp.Buffer

import Utilpp.Buffer.Refinement
import Utilpp.Lib.Modify

/-!
# The bounds of the character buffer

`Sound` says that the length is at most the capacity and that the allocation has it. An operation
that writes behind the length calls `Reserve` first, whose 32-bit parameter can lose the high bits
of the size, and `TrimNewline` writes a terminator without a look at the capacity. `Room` is the
condition on the state before an operation under which it stays inside of the allocation, and
`buffer_bounds` says that a run stays in bounds exactly when each of its operations has room.
`resize_content` says when `Resize` keeps the content.
-/

namespace Utilpp.Buffer

open Lib

namespace FCharBuffer

/-- The length is at most the capacity, which the allocation has and a `uint32_t` can hold. -/
structure Sound (b : FCharBuffer) : Prop where
  backed : b.Backed []
  cursor_le : b.cursor ≤ b.bufSize
  bufSize_lt : b.bufSize < 2 ^ 32

theorem sound_new : new.Sound := ⟨⟨rfl, rfl⟩, Nat.le_refl _, by decide⟩

/-- The bytes up to any position of the allocation. -/
theorem Backed.upTo {b : FCharBuffer} (h : b.Backed []) {n : Nat} (hn : n ≤ b.bufSize) :
    ∃ known, known.length = n ∧ b.Backed known := by
  unfold Backed at h
  split at h
  · rename_i hnull
    refine ⟨[], (Nat.le_zero.mp (h.1 ▸ hn)).symm, ?_⟩
    unfold Backed
    rw [hnull]
    exact h
  · rename_i block hblock
    refine ⟨block.take n, List.length_take_of_le (h.1.symm ▸ hn), ?_⟩
    exact backed_some hblock h.1 h.2.1 (List.take_prefix _ _)

/-! ## Writes and reads -/

/-- A write below the capacity. -/
theorem Sound.write {b : FCharBuffer} (h : b.Sound) {pos : Nat} {cells : List (Option UInt8)}
    (hroom : pos + cells.length ≤ b.bufSize) :
    ∃ b', b.write pos cells = some b' ∧ b'.Sound ∧ b'.cursor = b.cursor ∧
      b'.bufSize = b.bufSize := by
  obtain ⟨known, rfl, hknown⟩ := h.backed.upTo (Nat.le_trans (Nat.le_add_right _ _) hroom)
  obtain ⟨b', hwrite, hbacked, hbufSize, hcursor⟩ := write_spec hknown hroom
  refine ⟨b', hwrite, ⟨hbacked.shorter List.nil_prefix, ?_, ?_⟩, hcursor, hbufSize⟩
  · rw [hcursor, hbufSize]
    exact h.cursor_le
  · rw [hbufSize]
    exact h.bufSize_lt

/-- A write that reaches behind the capacity. -/
theorem write_eq_none {b : FCharBuffer} {pos : Nat} {cells : List (Option UInt8)}
    (hne : cells ≠ []) (hroom : b.bufSize < pos + cells.length) : b.write pos cells = none := by
  unfold FCharBuffer.write
  split
  · exact if_neg hne
  · exact if_neg (Nat.not_le.mpr hroom)

theorem Sound.read {b : FCharBuffer} (h : b.Sound) {n : Nat} (hn : n ≤ b.bufSize) :
    ∃ cells, b.read n = some cells := by
  obtain ⟨known, rfl, hknown⟩ := h.backed.upTo hn
  exact ⟨known, read_spec hknown⟩

theorem Sound.fetch {b : FCharBuffer} (h : b.Sound) {pos : Nat} (hpos : pos < b.bufSize) :
    ∃ c, b.fetch pos = some c := by
  have hbacked := h.backed
  unfold Backed at hbacked
  unfold FCharBuffer.fetch
  cases hbuf : b.pBuf with
  | none =>
      simp only [hbuf] at hbacked
      omega
  | some block =>
      simp only [hbuf] at hbacked
      simp only [if_pos hpos]
      exact ⟨_, List.getElem?_eq_getElem (hbacked.1.symm ▸ hpos)⟩

/-! ## Growth -/

theorem Sound.reserve {b : FCharBuffer} (h : b.Sound) (size : UInt32) :
    ∃ b', b.reserve size = some b' ∧ b'.Sound ∧ b'.cursor = b.cursor ∧
      b'.bufSize = max b.bufSize size.toNat := by
  obtain ⟨known, hlength, hknown⟩ := h.backed.upTo h.cursor_le
  obtain ⟨b', hreserve, hbacked, hcursor, -⟩ := reserve_spec hknown hlength.symm size
  have hsize := size.toNat_lt
  have hbufSize : b'.bufSize = max b.bufSize size.toNat := by
    have hresult := hreserve
    unfold FCharBuffer.reserve at hresult
    dsimp only at hresult
    split at hresult
    · cases hresult
      omega
    · obtain ⟨newbuf, -, hnew⟩ := Option.bind_eq_some_iff.mp hresult
      cases hnew
      show size.toNat = _
      omega
  have hlow := h.bufSize_lt
  have hlength_le := h.cursor_le
  exact ⟨b', hreserve, ⟨hbacked.shorter List.nil_prefix, by omega, by omega⟩, hcursor, hbufSize⟩

theorem Sound.reserveWhen {b : FCharBuffer} (h : b.Sound) (full : Bool) (size : Nat) :
    ∃ b', b.reserveWhen full size = some b' ∧ b'.Sound ∧ b'.cursor = b.cursor ∧
      b'.bufSize = if full then max b.bufSize (size % 2 ^ 32) else b.bufSize := by
  cases full with
  | false => exact ⟨b, rfl, h, rfl, rfl⟩
  | true => exact h.reserve (UInt32.ofNat size)

/-- The capacity suffices for `needed` bytes, or that which `Reserve` is called with does. -/
def Enough (b : FCharBuffer) (needed size : Nat) : Prop :=
  b.bufSize < needed → needed ≤ size % 2 ^ 32

/-- A write at the cursor behind a growth check. -/
theorem Sound.extend {b : FCharBuffer} (h : b.Sound) {full : Bool} {size : Nat}
    {cells : List (Option UInt8)} (hfull : full = false → b.cursor + cells.length ≤ b.bufSize)
    (henough : b.Enough (b.cursor + cells.length) size) :
    ∃ grown b', b.reserveWhen full size = some grown ∧ grown.write grown.cursor cells = some b' ∧
      b'.Sound ∧ b'.cursor = b.cursor ∧ b.cursor + cells.length ≤ b'.bufSize := by
  obtain ⟨grown, hreserve, hsound, hcursor, hbufSize⟩ := h.reserveWhen full size
  have hroom : grown.cursor + cells.length ≤ grown.bufSize := by
    rw [hcursor, hbufSize]
    cases full with
    | false => exact hfull rfl
    | true =>
        show _ ≤ max b.bufSize (size % 2 ^ 32)
        by_cases hlow : b.bufSize < b.cursor + cells.length
        · exact Nat.le_trans (henough hlow) (Nat.le_max_right _ _)
        · exact Nat.le_trans (Nat.not_lt.mp hlow) (Nat.le_max_left _ _)
  obtain ⟨b', hwrite, hsound', hcursor', hbufSize'⟩ := hsound.write hroom
  exact ⟨grown, b', hreserve, hwrite, hsound', hcursor'.trans hcursor,
    by rw [hbufSize', ← hcursor]; exact hroom⟩

/-- The write at the cursor leaves the allocation. -/
theorem Sound.extend_none {b : FCharBuffer} (h : b.Sound) {full : Bool} {size : Nat}
    {cells : List (Option UInt8)} (hne : cells ≠ [])
    (hfull : full = false → b.cursor + cells.length ≤ b.bufSize)
    (henough : ¬ b.Enough (b.cursor + cells.length) size) :
    ∃ grown, b.reserveWhen full size = some grown ∧ grown.write grown.cursor cells = none := by
  obtain ⟨hlow, hsize⟩ := Classical.not_imp.mp henough
  obtain ⟨grown, hreserve, hsound, hcursor, hbufSize⟩ := h.reserveWhen full size
  refine ⟨grown, hreserve, write_eq_none hne ?_⟩
  rw [hcursor, hbufSize]
  cases full with
  | false => exact absurd (hfull rfl) (Nat.not_le.mpr hlow)
  | true => exact Nat.max_lt.mpr ⟨hlow, Nat.not_le.mp hsize⟩

/-- A write changes the bytes of the buffer and nothing else. -/
theorem write_frame {b b' : FCharBuffer} {pos : Nat} {cells : List (Option UInt8)}
    (h : b.write pos cells = some b') : b'.bufSize = b.bufSize ∧
      b'.cursor = b.cursor ∧ b'.readCursor = b.readCursor := by
  unfold FCharBuffer.write at h
  split at h
  · split at h
    · cases h
      exact ⟨rfl, rfl, rfl⟩
    · cases h
  · split at h
    · obtain ⟨block, -, rfl⟩ := Option.map_eq_some_iff.mp h
      exact ⟨rfl, rfl, rfl⟩
    · cases h

theorem bufSize_of_resize {b b' : FCharBuffer} {size : UInt32} (h : b.resize size = some b') :
    b'.bufSize = max b.bufSize size.toNat := by
  obtain ⟨⟨grown, copySize⟩, hgrow, hrest⟩ := Option.bind_eq_some_iff.mp h
  obtain ⟨filled, hwrite, hresult⟩ := Option.bind_eq_some_iff.mp hrest
  cases hresult
  show filled.bufSize = _
  rw [(write_frame hwrite).1]
  unfold grow at hgrow
  split at hgrow
  · obtain ⟨newbuf, -, hnew⟩ := Option.bind_eq_some_iff.mp hgrow
    cases hnew
    show size.toNat = _
    omega
  · cases hgrow
    omega

theorem Sound.resize {b : FCharBuffer} (h : b.Sound) (size : UInt32) :
    ∃ b', b.resize size = some b' ∧ b'.Sound ∧ b'.cursor = size.toNat := by
  obtain ⟨known, hlength, hknown⟩ := h.backed.upTo h.cursor_le
  obtain ⟨b', copied, hresize, -, hbacked, hcursor, hsize⟩ :=
    resize_spec hknown hlength.symm size
  have hbufSize := bufSize_of_resize hresize
  have hlow := h.bufSize_lt
  have hlt := size.toNat_lt
  exact ⟨b', hresize, ⟨hbacked.shorter List.nil_prefix, by omega, by omega⟩, hcursor⟩

theorem Sound.replace {b : FCharBuffer} (h : b.Sound) {bytes : List UInt8}
    (hroom : bytes.length ≤ b.bufSize) :
    ∃ b', b.replace (bytes.map some) = some b' ∧ b'.Sound ∧ b'.cursor = bytes.length := by
  unfold FCharBuffer.replace
  simp only [List.length_map]
  split
  · obtain ⟨b', hwrite, hsound, -, hbufSize⟩ :=
      h.write (show 0 + (bytes.map some).length ≤ b.bufSize by rw [List.length_map]; omega)
    rw [hwrite]
    exact ⟨_, rfl, ⟨hsound.backed.of_eq rfl rfl, hbufSize.symm ▸ hroom, hsound.bufSize_lt⟩, rfl⟩
  · exact ⟨_, rfl, ⟨h.backed.of_eq rfl rfl, hroom, h.bufSize_lt⟩, rfl⟩

/-! ## Line ends -/

/-- The byte at `pos` is a line end. -/
def IsNewline (b : FCharBuffer) (unset : Nat → UInt8) (pos : Nat) : Prop :=
  ∃ c, b.fetch pos = some c ∧ (c.getD (unset pos) = 10 ∨ c.getD (unset pos) = 13)

/-- The loop of `TrimNewline` stops at the end exactly when there is no line end. -/
theorem Sound.trimLoop {b : FCharBuffer} (h : b.Sound) (unset : Nat → UInt8) {len : Nat}
    (hlen : len ≤ b.bufSize) :
    ∃ rest, b.trimLoop unset len = some rest ∧ rest ≤ len ∧
      (rest = len ↔ len = 0 ∨ ¬ b.IsNewline unset (len - 1)) := by
  induction len with
  | zero => exact ⟨0, rfl, Nat.le_refl _, fun _ => .inl rfl, fun _ => rfl⟩
  | succ len ih =>
      obtain ⟨c, hfetch⟩ := h.fetch (show len < b.bufSize by omega)
      have hnewline : b.IsNewline unset len ↔
          c.getD (unset len) = 10 ∨ c.getD (unset len) = 13 := by
        constructor
        · rintro ⟨c', hfetch', hc⟩
          cases hfetch.symm.trans hfetch'
          exact hc
        · exact fun hc => ⟨c, hfetch, hc⟩
      unfold FCharBuffer.trimLoop
      simp only [hfetch, Option.bind_eq_bind, Option.bind_some, Nat.add_sub_cancel, hnewline]
      split
      · rename_i hc
        obtain ⟨rest, hrest, hle, -⟩ := ih (by omega)
        refine ⟨rest, hrest, by omega, fun heq => by omega, fun hnot => ?_⟩
        rcases hnot with hzero | hnot
        · omega
        · exact absurd hc hnot
      · rename_i hc
        exact ⟨len + 1, rfl, Nat.le_refl _, fun _ => .inr hc, fun _ => rfl⟩

/-- A full buffer ends with a line end. -/
def Trims (b : FCharBuffer) (unset : Nat → UInt8) : Prop :=
  0 < b.cursor → b.cursor = b.bufSize → b.IsNewline unset (b.cursor - 1)

theorem Sound.trimNewline {b : FCharBuffer} (h : b.Sound) {unset : Nat → UInt8}
    (htrims : b.Trims unset) :
    ∃ b', b.trimNewline unset = some b' ∧ b'.Sound ∧ b'.cursor ≤ b.cursor := by
  have hle := h.cursor_le
  obtain ⟨rest, hrest, hshort, hstays⟩ := h.trimLoop unset hle
  unfold FCharBuffer.trimNewline
  split
  · exact ⟨b, rfl, h, Nat.le_refl _⟩
  · rename_i hcond
    rw [not_or] at hcond
    have hroom : rest + 1 ≤ b.bufSize := by
      by_contra hfull
      have heq : rest = b.cursor := by omega
      rcases hstays.mp heq with hzero | hnot
      · exact hcond.2 hzero
      · exact hnot (htrims (by omega) (by omega))
    have hmoved : Sound { b with cursor := rest } :=
      ⟨h.backed.of_eq rfl rfl, by show rest ≤ b.bufSize; omega, h.bufSize_lt⟩
    obtain ⟨b', hwrite, hsound, hcursor, -⟩ :=
      hmoved.write (show rest + [some (0 : UInt8)].length ≤ b.bufSize from hroom)
    refine ⟨b', ?_, hsound, by rw [hcursor]; exact hshort⟩
    simp only [hrest, Option.bind_eq_bind, Option.bind_some, hwrite]

/-- The terminator of a full buffer without a line end is behind the allocation. -/
theorem Sound.trimNewline_none {b : FCharBuffer} (h : b.Sound) {unset : Nat → UInt8}
    (htrims : ¬ b.Trims unset) : b.trimNewline unset = none := by
  unfold Trims at htrims
  push Not at htrims
  obtain ⟨hpos, hfull, hnot⟩ := htrims
  obtain ⟨rest, hrest, -, hstays⟩ := h.trimLoop unset h.cursor_le
  obtain rfl := hstays.mpr (.inr hnot)
  have hpBuf : b.pBuf.isNone = false := by
    cases hnull : b.pBuf with
    | none =>
        have hbacked := h.backed
        unfold Backed at hbacked
        rw [hnull] at hbacked
        omega
    | some block => rfl
  unfold FCharBuffer.trimNewline
  rw [if_neg (by rw [hpBuf, not_or]; exact ⟨Bool.false_ne_true, Nat.ne_of_gt hpos⟩)]
  simp only [hrest, Option.bind_eq_bind, Option.bind_some]
  exact write_eq_none (by simp) (by show b.bufSize < b.cursor + 1; omega)

end FCharBuffer

/-! ## Runs -/

/-- A call on one buffer. The bytes come from outside of it; `unset` are the values that bytes
have which nothing was written to. -/
inductive Call where
  | append (bytes : List UInt8)
  | put (c : UInt8)
  | assign (bytes : List UInt8)
  | reserveAssign (bytes : List UInt8)
  | resize (size : UInt32)
  | reserve (size : UInt32)
  | setLength (l : Nat)
  | seekp (pos : Nat)
  | seekg (pos : Nat)
  | trimNewline (unset : Nat → UInt8)
  | clear
  | cStr
  | peek
  | take

namespace FCharBuffer

/-- One call. -/
def call (b : FCharBuffer) : Call → Option FCharBuffer
  | .append bytes => b.append (bytes.map some)
  | .put c => b.put c
  | .assign bytes => b.assign (bytes.map some)
  | .reserveAssign bytes => b.reserveAssign (bytes.map some)
  | .resize size => b.resize size
  | .reserve size => b.reserve size
  | .setLength l => some (b.setLength l)
  | .seekp pos => some (b.seekp pos)
  | .seekg pos => some (b.seekg pos)
  | .trimNewline unset => b.trimNewline unset
  | .clear => b.clear
  | .cStr => b.cStr.map Prod.fst
  | .peek => b.peek.map fun _ => b
  | .take => b.take.map Prod.fst

/-- `Peek` and `Take` are called while `Tell` is below `Length`. -/
def Reads (b : FCharBuffer) : Call → Prop
  | .peek | .take => b.readCursor < b.cursor
  | _ => True

/-- The call stays inside of the allocation. -/
def Room (b : FCharBuffer) : Call → Prop
  | .append bytes => bytes ≠ [] → b.Enough (b.cursor + bytes.length)
      (max b.getIncreasedSize (bytes.length + b.cursor + 2))
  | .put _ => b.Enough (b.cursor + 1) b.getIncreasedSize
  | .cStr => b.Enough (b.cursor + 1) (b.cursor + 1)
  | .trimNewline unset => b.Trims unset
  | _ => True

end FCharBuffer

/-- The number of bytes that a call asks for. -/
def Call.requested : Call → Nat
  | .append bytes | .assign bytes | .reserveAssign bytes => bytes.length
  | .put _ => 1
  | .resize size | .reserve size => size.toNat
  | _ => 0

/-- The length that a call sets. -/
def Call.position : Call → Nat
  | .setLength l => l
  | .seekp pos => pos
  | _ => 0

namespace FCharBuffer

theorem Sound.append {b : FCharBuffer} (h : b.Sound) (bytes : List UInt8) :
    (b.Room (.append bytes) → ∃ b', b.append (bytes.map some) = some b' ∧ b'.Sound ∧
      b'.cursor = b.cursor + bytes.length) ∧
    (¬ b.Room (.append bytes) → b.append (bytes.map some) = none) := by
  have hlt := h.bufSize_lt
  unfold FCharBuffer.append
  simp only [List.length_map]
  split
  · rename_i hempty
    have hnil : bytes = [] := List.eq_nil_of_length_eq_zero hempty
    exact ⟨fun _ => ⟨b, rfl, h, by omega⟩, fun hnot => absurd (absurd hnil) hnot⟩
  · rename_i hpos
    have hne : bytes ≠ [] := fun hnil => hpos (hnil ▸ rfl)
    have hfull : decide (b.bufSize = 0 ∨ b.bufSize - 1 < bytes.length + b.cursor) = false →
        b.cursor + (bytes.map some).length ≤ b.bufSize := by
      intro hfits
      have hcond := of_decide_eq_false hfits
      rw [List.length_map]
      omega
    constructor
    · intro hroom
      obtain ⟨grown, b', hgrow, hwrite, hsound, hcursor, hle⟩ :=
        h.extend hfull (by rw [List.length_map]; exact hroom hne)
      rw [List.length_map] at hle
      refine ⟨{ b' with cursor := b'.cursor + bytes.length }, ?_,
        ⟨hsound.backed.of_eq rfl rfl, ?_, hsound.bufSize_lt⟩, congrArg (· + bytes.length) hcursor⟩
      · simp only [hgrow, hwrite, Option.bind_eq_bind, Option.bind_some]
      · show b'.cursor + bytes.length ≤ b'.bufSize
        omega
    · intro hnot
      have hcells : bytes.map some ≠ [] := fun hnil => hne (List.map_eq_nil_iff.mp hnil)
      obtain ⟨grown, hgrow, hwrite⟩ := h.extend_none hcells hfull
        (by rw [List.length_map]; exact fun henough => hnot fun _ => henough)
      simp only [hgrow, hwrite, Option.bind_eq_bind, Option.bind_some, Option.bind_none]

theorem Sound.put {b : FCharBuffer} (h : b.Sound) (c : UInt8) :
    (b.Room (.put c) → ∃ b', b.put c = some b' ∧ b'.Sound ∧ b'.cursor = b.cursor + 1) ∧
    (¬ b.Room (.put c) → b.put c = none) := by
  have hfull : decide (b.bufSize = 0 ∨ b.bufSize - 1 ≤ b.cursor) = false →
      b.cursor + [some c].length ≤ b.bufSize := by
    intro hfits
    have hcond := of_decide_eq_false hfits
    show b.cursor + 1 ≤ b.bufSize
    omega
  unfold FCharBuffer.put
  constructor
  · intro hroom
    obtain ⟨grown, b', hgrow, hwrite, hsound, hcursor, hle⟩ := h.extend hfull hroom
    refine ⟨{ b' with cursor := b'.cursor + 1 }, ?_,
      ⟨hsound.backed.of_eq rfl rfl, ?_, hsound.bufSize_lt⟩, congrArg (· + 1) hcursor⟩
    · simp only [hgrow, hwrite, Option.bind_eq_bind, Option.bind_some]
    · show b'.cursor + 1 ≤ b'.bufSize
      rw [hcursor]
      exact hle
  · intro hnot
    obtain ⟨grown, hgrow, hwrite⟩ := h.extend_none (List.cons_ne_nil _ _) hfull hnot
    simp only [hgrow, hwrite, Option.bind_eq_bind, Option.bind_some, Option.bind_none]

theorem Sound.cStr {b : FCharBuffer} (h : b.Sound) :
    (b.Room .cStr → ∃ b', b.cStr.map Prod.fst = some b' ∧ b'.Sound ∧ b'.cursor = b.cursor) ∧
    (¬ b.Room .cStr → b.cStr = none) := by
  have hfull : decide (b.bufSize ≤ b.cursor) = false →
      b.cursor + [some (0 : UInt8)].length ≤ b.bufSize := by
    intro hfits
    have hcond := of_decide_eq_false hfits
    show b.cursor + 1 ≤ b.bufSize
    omega
  unfold FCharBuffer.cStr
  constructor
  · intro hroom
    obtain ⟨grown, b', hgrow, hwrite, hsound, hcursor, hle⟩ := h.extend hfull hroom
    obtain ⟨text, htext⟩ := hsound.read (n := b'.cursor + 1) (by rw [hcursor]; exact hle)
    refine ⟨b', ?_, hsound, hcursor⟩
    simp only [hgrow, hwrite, htext, Option.bind_eq_bind, Option.bind_some, Option.map_some]
  · intro hnot
    obtain ⟨grown, hgrow, hwrite⟩ := h.extend_none (List.cons_ne_nil _ _) hfull hnot
    simp only [hgrow, hwrite, Option.bind_eq_bind, Option.bind_some, Option.bind_none]

theorem Sound.assign {b : FCharBuffer} (h : b.Sound) {bytes : List UInt8}
    (hsize : bytes.length < 2 ^ 30) :
    ∃ b', b.assign (bytes.map some) = some b' ∧ b'.Sound ∧ b'.cursor = bytes.length := by
  obtain ⟨grown, hresize, hsound, hcursor⟩ := h.resize (UInt32.ofNat (bytes.length + 2))
  rw [toNat_ofNat (by omega)] at hcursor
  have hle := hsound.cursor_le
  obtain ⟨b', hreplace, hsound', hcursor'⟩ :=
    hsound.replace (show bytes.length ≤ grown.bufSize by omega)
  refine ⟨b', ?_, hsound', hcursor'⟩
  simp only [FCharBuffer.assign, List.length_map, hresize, hreplace, Option.bind_eq_bind,
    Option.bind_some]

theorem Sound.reserveAssign {b : FCharBuffer} (h : b.Sound) {bytes : List UInt8}
    (hsize : bytes.length < 2 ^ 30) :
    ∃ b', b.reserveAssign (bytes.map some) = some b' ∧ b'.Sound ∧ b'.cursor = bytes.length := by
  obtain ⟨grown, hreserve, hsound, -, hbufSize⟩ := h.reserve (UInt32.ofNat (bytes.length + 2))
  rw [toNat_ofNat (by omega)] at hbufSize
  obtain ⟨b', hreplace, hsound', hcursor'⟩ :=
    hsound.replace (show bytes.length ≤ grown.bufSize by omega)
  refine ⟨b', ?_, hsound', hcursor'⟩
  simp only [FCharBuffer.reserveAssign, List.length_map, hreserve, hreplace, Option.bind_eq_bind,
    Option.bind_some]

theorem Sound.clear {b : FCharBuffer} (h : b.Sound) :
    ∃ b', b.clear = some b' ∧ b'.Sound ∧ b'.cursor = 0 := by
  have hempty : Sound { b with cursor := 0, readCursor := 0 } :=
    ⟨h.backed.of_eq rfl rfl, Nat.zero_le _, h.bufSize_lt⟩
  unfold FCharBuffer.clear
  dsimp only
  split
  · rename_i hpBuf
    have hsize : 0 < b.bufSize := by
      have hbacked := h.backed
      unfold Backed at hbacked
      split at hbacked
      · rename_i hnull
        rw [hnull] at hpBuf
        cases hpBuf
      · exact hbacked.2.1
    obtain ⟨b', hwrite, hsound, hcursor, -⟩ :=
      hempty.write (show 0 + [some (0 : UInt8)].length ≤ b.bufSize from hsize)
    exact ⟨b', hwrite, hsound, hcursor⟩
  · exact ⟨_, rfl, hempty, rfl⟩

/-- A call with room keeps the length below the capacity, and sets the length to at most what it
is asked for behind the old one. -/
theorem Sound.call {b : FCharBuffer} (h : b.Sound) {c : Call} (hreads : b.Reads c)
    (hrequested : c.requested < 2 ^ 30) (hroom : b.Room c) :
    ∃ b', b.call c = some b' ∧ b'.Sound ∧
      b'.cursor ≤ b.cursor + c.requested + c.position := by
  cases c with
  | append bytes =>
      obtain ⟨b', hcall, hsound, hcursor⟩ := (h.append bytes).1 hroom
      exact ⟨b', hcall, hsound, Nat.le_of_eq hcursor⟩
  | put c =>
      obtain ⟨b', hcall, hsound, hcursor⟩ := (h.put c).1 hroom
      exact ⟨b', hcall, hsound, Nat.le_of_eq hcursor⟩
  | assign bytes =>
      obtain ⟨b', hcall, hsound, hcursor⟩ := h.assign hrequested
      exact ⟨b', hcall, hsound, hcursor.symm ▸ Nat.le_add_left _ _⟩
  | reserveAssign bytes =>
      obtain ⟨b', hcall, hsound, hcursor⟩ := h.reserveAssign hrequested
      exact ⟨b', hcall, hsound, hcursor.symm ▸ Nat.le_add_left _ _⟩
  | resize size =>
      obtain ⟨b', hcall, hsound, hcursor⟩ := h.resize size
      exact ⟨b', hcall, hsound, hcursor.symm ▸ Nat.le_add_left _ _⟩
  | reserve size =>
      obtain ⟨b', hcall, hsound, hcursor, -⟩ := h.reserve size
      exact ⟨b', hcall, hsound, hcursor.symm ▸ Nat.le_add_right _ _⟩
  | setLength l =>
      refine ⟨_, rfl, ?_, ?_⟩
      · unfold FCharBuffer.setLength
        split
        · rename_i hle
          exact ⟨h.backed.of_eq rfl rfl, hle, h.bufSize_lt⟩
        · exact h
      · unfold FCharBuffer.setLength
        split
        · exact Nat.le_add_left _ _
        · exact Nat.le_trans (Nat.le_add_right _ _) (Nat.le_add_right _ _)
  | seekp pos =>
      have hmin : (b.seekp pos).cursor ≤ b.bufSize ∧ (b.seekp pos).cursor ≤ pos := by
        unfold FCharBuffer.seekp
        dsimp only
        split <;> omega
      exact ⟨_, rfl, ⟨h.backed.of_eq rfl rfl, hmin.1, h.bufSize_lt⟩,
        Nat.le_trans hmin.2 (Nat.le_add_left _ _)⟩
  | seekg pos =>
      exact ⟨_, rfl, ⟨h.backed.of_eq rfl rfl, h.cursor_le, h.bufSize_lt⟩, Nat.le_refl _⟩
  | trimNewline unset =>
      obtain ⟨b', hcall, hsound, hcursor⟩ := h.trimNewline hroom
      exact ⟨b', hcall, hsound, hcursor⟩
  | clear =>
      obtain ⟨b', hcall, hsound, hcursor⟩ := h.clear
      exact ⟨b', hcall, hsound, hcursor.symm ▸ Nat.zero_le _⟩
  | cStr =>
      obtain ⟨b', hcall, hsound, hcursor⟩ := h.cStr.1 hroom
      exact ⟨b', hcall, hsound, Nat.le_of_eq hcursor⟩
  | peek =>
      obtain ⟨c, hfetch⟩ := h.fetch (Nat.lt_of_lt_of_le hreads h.cursor_le)
      refine ⟨b, ?_, h, Nat.le_refl _⟩
      simp only [FCharBuffer.call, FCharBuffer.peek, hfetch, Option.map_some]
  | take =>
      obtain ⟨c, hfetch⟩ := h.fetch (Nat.lt_of_lt_of_le hreads h.cursor_le)
      refine ⟨{ b with readCursor := b.readCursor + 1 }, ?_,
        ⟨h.backed.of_eq rfl rfl, h.cursor_le, h.bufSize_lt⟩, Nat.le_refl _⟩
      simp only [FCharBuffer.call, FCharBuffer.take, hfetch, Option.bind_eq_bind,
        Option.bind_some, Option.map_some]

/-- A call without room leaves the allocation. -/
theorem Sound.call_none {b : FCharBuffer} (h : b.Sound) {c : Call} (hroom : ¬ b.Room c) :
    b.call c = none := by
  cases c with
  | append bytes => exact (h.append bytes).2 hroom
  | put c => exact (h.put c).2 hroom
  | cStr =>
      show b.cStr.map Prod.fst = none
      rw [h.cStr.2 hroom]
      rfl
  | trimNewline unset => exact h.trimNewline_none hroom
  | _ => exact absurd trivial hroom

/-- `TrimNewline` is not called on a full buffer without a line end. -/
def TrimRoom (b : FCharBuffer) : Call → Prop
  | .trimNewline unset => b.Trims unset
  | _ => True

/-- While the length is small, `Reserve` gets the size that was computed. -/
theorem Sound.room_of_small {b : FCharBuffer} (h : b.Sound) {c : Call}
    (hsmall : b.cursor + c.requested < 2 ^ 30) (htrim : b.TrimRoom c) : b.Room c := by
  have hle := h.cursor_le
  have hincreased : b.getIncreasedSize = if b.bufSize = 0 then 128 else b.bufSize * 2 := by
    unfold getIncreasedSize
    split <;> rfl
  cases c with
  | append bytes =>
      intro _ hlow
      have hlength : (Call.append bytes).requested = bytes.length := rfl
      rw [hincreased]
      split <;> omega
  | put c =>
      intro hlow
      have hone : (Call.put c).requested = 1 := rfl
      rw [hincreased]
      split <;> omega
  | cStr =>
      intro hlow
      omega
  | trimNewline unset => exact htrim
  | _ => trivial

/-- From a small length on, only `TrimNewline` can leave the allocation. -/
theorem Sound.guarded_room {b : FCharBuffer} (h : b.Sound) {calls : List Call}
    (hreads : Guarded FCharBuffer.call Reads b calls)
    (hsum : b.cursor + (calls.map fun c => c.requested + c.position).sum < 2 ^ 30)
    (htrim : Guarded FCharBuffer.call TrimRoom b calls) :
    Guarded FCharBuffer.call Room b calls := by
  induction calls generalizing b with
  | nil => trivial
  | cons c calls ih =>
      rw [List.map_cons, List.sum_cons] at hsum
      have hroom := h.room_of_small (c := c) (by omega) htrim.1
      refine ⟨hroom, fun t ht => ?_⟩
      obtain ⟨b', hcall, hsound, hcursor⟩ := h.call hreads.1 (by omega) hroom
      cases ht.symm.trans hcall
      exact ih hsound (hreads.2 t ht) (by omega) (htrim.2 t ht)

end FCharBuffer

/-- The length is at most the capacity in every state of the run, and no call reads or writes at
an index from the capacity on. -/
def InBounds (calls : List Call) : Prop :=
  ∀ first, first <+: calls →
    ∃ b, exec FCharBuffer.call .new first = some b ∧ b.cursor ≤ b.bufSize

theorem inBounds_iff {calls : List Call}
    (hreads : Guarded FCharBuffer.call FCharBuffer.Reads .new calls)
    (hrequested : (calls.map Call.requested).sum < 2 ^ 30) :
    InBounds calls ↔ Guarded FCharBuffer.call FCharBuffer.Room .new calls := by
  have hsmall : ∀ c ∈ calls, c.requested < 2 ^ 30 := by
    intro c hc
    obtain ⟨i, hi⟩ := List.mem_iff_getElem?.mp hc
    exact Nat.lt_of_le_of_lt (le_sum_map hi) hrequested
  refine exec_prefixes_iff (fun b h => h.cursor_le) (fun b c h hc => ?_)
    (fun b c h hroom => h.call_none hroom) FCharBuffer.sound_new
    (hreads.and (guarded_of_mem hsmall _))
  obtain ⟨b', hcall, hsound, -⟩ := h.call hc.1.1 hc.1.2 hc.2
  exact ⟨b', hcall, hsound⟩

/-- A run whose requests are small stays in bounds exactly when each of its calls has room. When
the lengths that `SetLength` and `Seekp` set are counted as requests, only `TrimNewline` can have
none. -/
theorem buffer_bounds (calls : List Call)
    (hreads : Guarded FCharBuffer.call FCharBuffer.Reads .new calls)
    (hrequested : (calls.map Call.requested).sum < 2 ^ 30) :
    (InBounds calls ↔ Guarded FCharBuffer.call FCharBuffer.Room .new calls) ∧
      ((calls.map fun c => c.requested + c.position).sum < 2 ^ 30 →
        (InBounds calls ↔ Guarded FCharBuffer.call FCharBuffer.TrimRoom .new calls)) := by
  have hbounds := inBounds_iff hreads hrequested
  refine ⟨hbounds, fun hsum => hbounds.trans ⟨fun h => h.mono fun b c hroom => ?_, fun h => ?_⟩⟩
  · cases c with
    | trimNewline unset => exact hroom
    | _ => trivial
  · exact FCharBuffer.sound_new.guarded_room hreads ((Nat.zero_add _).symm ▸ hsum) h

/-- A line is appended, its end trimmed and its text taken. -/
theorem buffer_bounds_line :
    InBounds [.append [104, 105, 10], .trimNewline fun _ => 0, .cStr] := by
  have hcapacity : (FCharBuffer.new.call (.append [104, 105, 10])).all
      (fun b => b.cursor < b.bufSize) = true := by decide +kernel
  have hreads : Guarded FCharBuffer.call FCharBuffer.Reads .new
      [.append [104, 105, 10], .trimNewline fun _ => 0, .cStr] :=
    ⟨trivial, fun _ _ => ⟨trivial, fun _ _ => ⟨trivial, fun _ _ => trivial⟩⟩⟩
  refine ((buffer_bounds _ hreads (by decide)).2 (by decide)).mpr
    ⟨trivial, fun b hb => ⟨fun _ hfull => ?_, fun _ _ => ⟨trivial, fun _ _ => trivial⟩⟩⟩
  rw [hb, Option.all_some, decide_eq_true_iff] at hcapacity
  omega

/-- One byte that is no line end fills its buffer. -/
theorem not_buffer_bounds :
    ¬ ∀ calls : List Call, Guarded FCharBuffer.call FCharBuffer.Reads .new calls →
      (calls.map Call.requested).sum < 2 ^ 30 → InBounds calls := by
  intro h
  obtain ⟨b, hrun, -⟩ := h [.resize 1, .trimNewline fun _ => 0]
    ⟨trivial, fun _ _ => ⟨trivial, fun _ _ => trivial⟩⟩ (by decide) _ (List.prefix_refl _)
  have hnone : (exec FCharBuffer.call .new [.resize 1, .trimNewline fun _ => 0]).isNone = true := by
    decide
  rw [hrun] at hnone
  cases hnone

/-! ## The content behind a `Resize` -/

namespace FCharBuffer

/-- The content of the buffer is `c`; it can have bytes that nothing was written to. -/
structure Shows (b : FCharBuffer) (c : List (Option UInt8)) : Prop where
  cursor : b.cursor = c.length
  backed : b.Backed c
  bufSize_lt : b.bufSize < 2 ^ 32

/-- `View` returns the content. -/
theorem Shows.view {b : FCharBuffer} {c : List (Option UInt8)} (h : b.Shows c) :
    b.view = some c := by
  unfold FCharBuffer.view
  rw [h.cursor]
  exact read_spec h.backed

/-- Every state that a run in bounds reaches has a content. -/
theorem Sound.shows {b : FCharBuffer} (h : b.Sound) : ∃ c, b.Shows c := by
  obtain ⟨c, hlength, hbacked⟩ := h.backed.upTo h.cursor_le
  exact ⟨c, hlength.symm, hbacked, h.bufSize_lt⟩

/-- The reallocation copies the content, and without one nothing is kept. -/
theorem Shows.copied {b grown : FCharBuffer} {c : List (Option UInt8)} (h : b.Shows c)
    {desiredSize copySize : Nat} (hgrow : b.grow desiredSize = some (grown, copySize)) :
    copySize = if b.bufSize < desiredSize then c.length else 0 := by
  have hlength := h.backed.length_le
  have hlt := h.bufSize_lt
  unfold FCharBuffer.grow at hgrow
  split at hgrow
  · rename_i hless
    obtain ⟨newbuf, -, hresult⟩ := Option.bind_eq_some_iff.mp hgrow
    rw [Option.some.injEq, Prod.mk.injEq] at hresult
    rw [if_pos hless, ← hresult.2, h.cursor, toNat_ofNat (by omega)]
    split
    · rw [Nat.min_eq_left (by omega)]
    · rename_i hnull
      have hbacked := h.backed
      unfold Backed at hbacked
      split at hbacked
      · rw [hbacked.2]
        rfl
      · rename_i block hblock
        rw [hblock] at hnull
        exact absurd rfl hnull
  · rename_i hless
    rw [Option.some.injEq, Prod.mk.injEq] at hgrow
    rw [if_neg hless, ← hgrow.2]

/-- What `View` returns behind `Resize`. -/
theorem Shows.resize {b : FCharBuffer} {c : List (Option UInt8)} (h : b.Shows c) (n : UInt32) :
    ∃ b', b.resize n = some b' ∧ b'.view = some (if b.bufSize < n.toNat then
      c ++ List.replicate (n.toNat - c.length) (some 0) else List.replicate n.toNat (some 0)) := by
  obtain ⟨grown, copied, hgrow, hbacked, hcopied, hle, hsize⟩ :=
    grow_spec h.backed h.cursor n.toNat
  have hcopySize := h.copied hgrow
  obtain ⟨b', hwrite, hfilled, -, -⟩ :=
    @write_spec grown copied (List.replicate (n.toNat - copied.length) (some 0)) hbacked
      (by rw [List.length_replicate]; omega)
  have hlength : (copied ++ List.replicate (n.toNat - copied.length) (some 0)).length =
      n.toNat := by
    rw [List.length_append, List.length_replicate]
    omega
  refine ⟨{ b' with cursor := n.toNat, readCursor := 0 }, ?_, ?_⟩
  · simp only [FCharBuffer.resize, hgrow, hwrite, Option.bind_eq_bind, Option.bind_some]
  · have hread := read_spec hfilled
    rw [hlength] at hread
    refine hread.trans (congrArg some ?_)
    split at hcopySize
    · rename_i hless
      rw [if_pos hless, hcopied.eq_of_length hcopySize]
    · rename_i hless
      rw [if_neg hless, List.eq_nil_of_length_eq_zero hcopySize]
      rfl

/-- `Resize` keeps the first bytes of the content and fills up with zeros exactly when it
reallocates or the bytes to keep are zeros: where the capacity suffices it clears them. -/
theorem resize_content (b : FCharBuffer) (c : List (Option UInt8)) (h : b.Shows c) (n : UInt32) :
    ∃ b', b.resize n = some b' ∧
      (b'.view = some (c.take n.toNat ++
          List.replicate (n.toNat - min c.length n.toNat) (some 0)) ↔
        b.bufSize < n.toNat ∨ ∀ x ∈ c.take n.toNat, x = some 0) := by
  have hlength := h.backed.length_le
  obtain ⟨b', hresize, hview⟩ := h.resize n
  refine ⟨b', hresize, ?_⟩
  rw [hview, Option.some.injEq]
  by_cases hless : b.bufSize < n.toNat
  · rw [if_pos hless, List.take_of_length_le (by omega), Nat.min_eq_left (by omega)]
    exact ⟨fun _ => .inl hless, fun _ => rfl⟩
  · rw [if_neg hless, eq_comm, List.append_eq_replicate_iff, List.eq_replicate_iff]
    have hsum : (c.take n.toNat).length +
        (List.replicate (n.toNat - min c.length n.toNat) (some (0 : UInt8))).length = n.toNat := by
      rw [List.length_take, List.length_replicate]
      omega
    constructor
    · exact fun hzeros => .inr hzeros.2.1.2
    · intro hzeros
      refine ⟨hsum, ⟨rfl, hzeros.resolve_left hless⟩, ?_⟩
      rw [List.length_replicate]

/-- Two bytes in a buffer of two are kept when it grows to three. -/
theorem resize_content_three :
    ∃ b', resize ⟨2, some [some 65, some 66], 2, 0⟩ 3 = some b' ∧
      b'.view = some [some 65, some 66, some 0] := by
  obtain ⟨b', hresize, hview⟩ := resize_content ⟨2, some [some 65, some 66], 2, 0⟩
    [some 65, some 66] ⟨rfl, ⟨rfl, by decide, List.prefix_refl _⟩, by decide⟩ 3
  exact ⟨b', hresize, hview.mpr (.inl (by decide))⟩

/-- The letter that `Append` put into a new buffer is lost when the buffer is set to its length. -/
theorem not_resize_content :
    ¬ ∀ (b : FCharBuffer) (c : List (Option UInt8)) (n : UInt32), b.Shows c → n.toNat < 2 ^ 31 →
      ∃ b', b.resize n = some b' ∧ b'.view = some (c.take n.toNat ++
        List.replicate (n.toNat - min c.length n.toNat) (some 0)) := by
  intro h
  have happend : FCharBuffer.new.append [some 65] =
      some ⟨128, some (some 65 :: List.replicate 127 none), 1, 0⟩ := by decide +kernel
  have hshows : Shows ⟨128, some (some 65 :: List.replicate 127 none), 1, 0⟩ [some 65] :=
    ⟨rfl, ⟨rfl, by decide, List.prefix_append [some 65] _⟩, by decide⟩
  obtain ⟨b', hresize, hview⟩ := h _ _ 1 hshows (by decide)
  have hlost : ((FCharBuffer.new.append [some 65]).bind fun b => (b.resize 1).bind view) =
      some [some 0] := by decide +kernel
  rw [happend, Option.bind_some, hresize, Option.bind_some, hview] at hlost
  revert hlost
  decide

end FCharBuffer

end Utilpp.Buffer

import Utilpp.Steam.AppInfo

/-!
# The format of the app info cache

The format of names, values, tables and apps as relations that do not mention the reader, and the
reader complete and sound for them: what is there is read (`readPropertyTable_complete`,
`readApps_complete`), and what was read without running behind the end of the file was there
(`readPropertyTable_sound`, `readApps_sound`).
-/

namespace Utilpp.Steam.AppInfo

open Lib FileStream

variable {widen : UInt8 → Option UInt32}

/-! ## The format -/

/-- The bytes of a value behind its type and name. -/
inductive ValueBytes (widen : UInt8 → Option UInt32) : UInt8 → Value → List UInt8 → Prop where
  | string {line bytes} (h : IsLine some 0 line bytes) : ValueBytes widen 1 (.string line) bytes
  | wstring {line bytes} (h : IsLine widen 0 line bytes) : ValueBytes widen 5 (.wstring line) bytes
  | int32 (value : Int32) : ValueBytes widen 2 (.int32 value) (toBytes 4 value.toUInt32.toNat)
  | float (bits : UInt32) : ValueBytes widen 3 (.float bits) (toBytes 4 bits.toNat)
  | color (r g b : UInt8) : ValueBytes widen 6 (.color r g b) [r, g, b]
  | uint64 (value : UInt64) : ValueBytes widen 7 (.uint64 value) (toBytes 8 value.toNat)

/-- The bytes of a name. -/
def NameBytes (names : Names) (name : Name) (bytes : List UInt8) : Prop :=
  match names with
  | .inline => IsLine some 0 name bytes
  | .pool strings => ∃ i < 2 ^ 31, strings[i]? = some name ∧ bytes = toBytes 4 i

/-- The bytes of a table with these entries. Entries of a type that there is not are passed over
when `lax` holds. -/
inductive TableBytes (widen : UInt8 → Option UInt32) (names : Names) (lax : Prop) :
    PropertyTable → List UInt8 → Prop where
  | endOfTable : TableBytes widen names lax .nil [8]
  | value {name type v rest nameBytes valueBytes restBytes}
      (hname : NameBytes names name nameBytes) (hvalue : ValueBytes widen type v valueBytes)
      (hrest : TableBytes widen names lax rest restBytes) :
      TableBytes widen names lax (.value name v rest)
        (type :: (nameBytes ++ (valueBytes ++ restBytes)))
  | table {name child rest nameBytes childBytes restBytes}
      (hname : NameBytes names name nameBytes)
      (hchild : TableBytes widen names lax child childBytes)
      (hrest : TableBytes widen names lax rest restBytes) :
      TableBytes widen names lax (.table name child rest)
        (0 :: (nameBytes ++ (childBytes ++ restBytes)))
  | unknown {type name rest nameBytes restBytes} (hlax : lax)
      (htype : type ∉ [0, 1, 2, 3, 5, 6, 7, 8]) (hname : NameBytes names name nameBytes)
      (hrest : TableBytes widen names lax rest restBytes) :
      TableBytes widen names lax rest (type :: (nameBytes ++ restBytes))

/-- The table that the entries make: the first entry of a name stays. -/
def PropertyTable.collect : PropertyTable → PropertyTable → PropertyTable
  | nil, properties => properties
  | value name v rest, properties =>
      rest.collect (properties.tryEmplace name (.value name v .nil))
  | table name child rest, properties =>
      rest.collect (properties.tryEmplace name (.table name (child.collect .nil) .nil))

/-- The bytes between the id of an app and its properties: a count, sixteen bytes, a hash, a change
number and since the second version another hash. -/
def headSize : MagicNumber → Nat
  | .v1 => 44
  | .v2 | .v3 => 64

/-- The bytes of apps with these entries. -/
inductive AppsBytes (widen : UInt8 → Option UInt32) (magicNumber : MagicNumber) (names : Names)
    (lax : Prop) : List App → List UInt8 → Prop where
  | nil : AppsBytes widen magicNumber names lax [] []
  | cons {appId entries head tableBytes apps restBytes} (hid : appId ≠ 0)
      (hhead : head.length = headSize magicNumber)
      (htable : TableBytes widen names lax entries tableBytes)
      (hrest : AppsBytes widen magicNumber names lax apps restBytes) :
      AppsBytes widen magicNumber names lax (⟨appId, entries⟩ :: apps)
        (toBytes 4 appId.toNat ++ (head ++ (tableBytes ++ restBytes)))

/-! ## Positions -/

/-- What begins at a position and what follows it. -/
theorem append_prefix_drop {data first second : List UInt8} {pos : Nat} :
    first ++ second <+: data.drop pos ↔
      first <+: data.drop pos ∧ second <+: data.drop (pos + first.length) := by
  rw [← List.drop_drop]
  constructor
  · rintro ⟨behind, hbehind⟩
    rw [← hbehind, List.append_assoc]
    refine ⟨List.prefix_append _ _, ?_⟩
    rw [List.drop_left]
    exact List.prefix_append _ _
  · rintro ⟨⟨behind, hbehind⟩, hsecond⟩
    rw [← hbehind, List.drop_left] at hsecond
    rw [← hbehind]
    exact List.prefix_append_right_inj first |>.mpr hsecond

theorem cons_prefix_drop {data bytes : List UInt8} {b : UInt8} {pos : Nat} :
    b :: bytes <+: data.drop pos ↔
      (∃ behind, data.drop pos = b :: behind) ∧ bytes <+: data.drop (pos + 1) := by
  have happend : [b] ++ bytes <+: data.drop pos ↔ _ := append_prefix_drop
  refine happend.trans (and_congr_left fun _ => ?_)
  exact ⟨fun ⟨behind, h⟩ => ⟨behind, h.symm⟩, fun ⟨behind, h⟩ => ⟨behind, h.symm⟩⟩

/-- What begins at a position ends with the data. -/
theorem le_length_of_prefix {data bytes : List UInt8} {pos : Nat} (h : bytes <+: data.drop pos)
    (hbytes : bytes ≠ []) : pos + bytes.length ≤ data.length := by
  have hle := h.length_le
  have hpos := List.length_pos_of_ne_nil hbytes
  rw [List.length_drop] at hle
  omega

/-! ## Single reads -/

variable {data : List UInt8} {pos wpos : Nat} {wif : FileStream}

/-- The streams are at their positions. -/
def Files.ready (data : List UInt8) (pos wpos : Nat) : Files :=
  ⟨FileStream.ready data pos, FileStream.ready data wpos⟩

theorem readNumber_complete {n x : Nat} (hn : 0 < n) (hx : x < 256 ^ n)
    (h : toBytes n x <+: data.drop pos) :
    (Files.ready data pos wpos).readNumber n = (x, .ready data (pos + n) wpos) := by
  have hlength := length_toBytes n x
  have hle := le_length_of_prefix h (List.ne_nil_of_length_pos (hlength.symm ▸ hn))
  have htake := List.prefix_iff_eq_take.mp h
  rw [hlength] at hle htake
  unfold Files.readNumber Files.ready
  dsimp only
  rw [read_ready hle, ← htake, ofBytes_toBytes hx]

theorem readNumber_sound {n : Nat} (hn : 0 < n)
    (h : ((Files.ready data pos wpos).readNumber n).2.file.good = true) :
    ∃ x < 256 ^ n, toBytes n x <+: data.drop pos ∧
      (Files.ready data pos wpos).readNumber n = (x, .ready data (pos + n) wpos) := by
  by_cases hle : pos + n ≤ data.length
  · have hlength : ((data.drop pos).take n).length = n := by
      rw [List.length_take, List.length_drop]
      omega
    have hbytes := toBytes_ofBytes ((data.drop pos).take n)
    have hlt := ofBytes_lt ((data.drop pos).take n)
    rw [hlength] at hbytes hlt
    have hbegins : toBytes n (ofBytes ((data.drop pos).take n)) <+: data.drop pos := by
      rw [hbytes]
      exact List.take_prefix _ _
    exact ⟨_, hlt, hbegins, readNumber_complete hn hlt hbegins⟩
  · have hfail := fail_read_ready (Nat.not_le.mp hle) hn
    have hgood := good_of_fail hfail
    exact absurd (hgood.symm.trans h) Bool.false_ne_true

theorem readNumber_not_good {files : Files} (h : files.file.good = false) (n : Nat) :
    (files.readNumber n).2.file.good = false := by
  unfold Files.readNumber
  rw [read_of_not_good h]
  exact good_of_fail rfl

theorem getline_complete {line : Name} {bytes : List UInt8} (hline : IsLine some 0 line bytes)
    (h : bytes <+: data.drop pos) :
    (Files.ready data pos wpos).getline = (line, .ready data (pos + bytes.length) wpos) := by
  unfold Files.getline Files.ready
  dsimp only
  rw [getline_ready hline h]

theorem getNameLine_sound (h : ((Files.ready data pos wpos).getline).2.file.good = true) :
    ∃ line bytes, IsLine some 0 line bytes ∧ bytes <+: data.drop pos ∧
      (Files.ready data pos wpos).getline = (line, .ready data (pos + bytes.length) wpos) := by
  obtain ⟨line, bytes, hline, hbytes, -⟩ := getline_sound h
  exact ⟨line, bytes, hline, hbytes, getline_complete hline hbytes⟩

theorem getline_not_good {files : Files} (h : files.file.good = false) :
    files.getline.2.file.good = false := by
  unfold Files.getline
  rw [getline_of_not_good h]
  exact good_of_fail rfl

theorem getWideLine_complete {line : List UInt32} {bytes : List UInt8}
    (hline : IsLine widen 0 line bytes) (h : bytes <+: data.drop pos) :
    (Files.ready data pos wpos).getWideLine widen =
      (line, .ready data (pos + bytes.length) (pos + bytes.length)) := by
  unfold Files.getWideLine Files.ready
  simp only [tellg_ready, seekg_ready, getline_ready hline h]

theorem getWideLine_sound
    (h : ((Files.ready data pos wpos).getWideLine widen).2.file.good = true) :
    ∃ line bytes, IsLine widen 0 line bytes ∧ bytes <+: data.drop pos ∧
      (Files.ready data pos wpos).getWideLine widen =
        (line, .ready data (pos + bytes.length) (pos + bytes.length)) := by
  have hgood : ((FileStream.ready data pos).getline widen 0).2.good = true := by
    by_contra hnot
    rw [Bool.not_eq_true] at hnot
    unfold Files.getWideLine Files.ready at h
    simp only [tellg_ready, seekg_ready, tellg_of_not_good hnot] at h
    have hfail := fail_seekg_of_neg (FileStream.ready data pos) (show (-1 : Int) < 0 by decide)
    rw [good_of_fail hfail] at h
    cases h
  obtain ⟨line, bytes, hline, hbytes, -⟩ := getline_sound hgood
  exact ⟨line, bytes, hline, hbytes, getWideLine_complete hline hbytes⟩

theorem getWideLine_not_good {files : Files} (h : files.file.good = false) :
    (files.getWideLine widen).2.file.good = false := by
  unfold Files.getWideLine
  rw [tellg_of_not_good h]
  exact good_of_fail (fail_seekg rfl _)

/-! ## Names and values -/

theorem readName_complete {names : Names} {name : Name} {bytes : List UInt8}
    (hname : NameBytes names name bytes) (h : bytes <+: data.drop pos) :
    readName names (.ready data pos wpos) =
      some (name, .ready data (pos + bytes.length) wpos) := by
  cases names with
  | inline =>
      unfold readName
      rw [getline_complete hname h]
  | pool strings =>
      obtain ⟨i, hi, hget, rfl⟩ := hname
      have hlength := length_toBytes 4 i
      have hle := le_length_of_prefix h (List.ne_nil_of_length_pos (by omega))
      have htake := List.prefix_iff_eq_take.mp h
      rw [hlength] at hle htake
      unfold readName Files.ready
      simp only [read_ready hle, ← htake, ofBytes_toBytes (show i < 256 ^ 4 by omega), hlength,
        hget, Option.map_some]
      rw [if_neg (by omega)]

theorem readName_sound {names : Names} {name : Name} {files : Files}
    (h : readName names (.ready data pos wpos) = some (name, files))
    (hgood : files.file.good = true) :
    ∃ bytes, NameBytes names name bytes ∧ bytes <+: data.drop pos ∧
      files = .ready data (pos + bytes.length) wpos := by
  cases names with
  | inline =>
      have hfiles : (Files.ready data pos wpos).getline = (name, files) := Option.some.inj h
      obtain ⟨line, bytes, hline, hbytes, heq⟩ :=
        getNameLine_sound ((congrArg (fun r => r.2.file.good) hfiles).trans hgood)
      cases heq.symm.trans hfiles
      exact ⟨bytes, hline, hbytes, rfl⟩
  | pool strings =>
      unfold readName at h
      dsimp only at h
      split at h
      · cases h
      · rename_i hindex
        rw [not_or, Nat.not_lt, Nat.not_le] at hindex
        obtain ⟨name', hget, heq⟩ := Option.map_eq_some_iff.mp h
        by_cases hle : pos + 4 ≤ data.length
        · have hread : (Files.ready data pos wpos).file.read 4 = _ := read_ready hle
          rw [hread] at hindex hget heq
          cases heq
          have hbytes := toBytes_ofBytes ((data.drop pos).take 4)
          have hlength : ((data.drop pos).take 4).length = 4 := by
            rw [List.length_take, List.length_drop]
            omega
          refine ⟨_, ⟨_, hindex.2, hget, rfl⟩, ?_, ?_⟩
          · rw [hlength] at hbytes
            show toBytes 4 (ofBytes ((data.drop pos).take 4)) <+: _
            rw [hbytes]
            exact List.take_prefix _ _
          · rw [length_toBytes]
            rfl
        · have hfail := fail_read_ready (Nat.not_le.mp hle) (show 0 < 4 by omega)
          cases heq
          exact absurd ((good_of_fail hfail).symm.trans hgood) Bool.false_ne_true

theorem readValue_complete {type : UInt8} {v : Value} {bytes : List UInt8}
    (hvalue : ValueBytes widen type v bytes) (h : bytes <+: data.drop pos) (wpos : Nat) :
    ∃ next, readValue widen type (.ready data pos wpos) =
      (some v, .ready data (pos + bytes.length) next) := by
  cases hvalue with
  | string hline => exact ⟨wpos, by simp [readValue, getline_complete hline h]⟩
  | wstring hline => exact ⟨_, by simp [readValue, getWideLine_complete hline h]; rfl⟩
  | int32 value =>
      refine ⟨wpos, ?_⟩
      simp [readValue, readNumber_complete (by decide) value.toUInt32.toNat_lt h]
  | float bits =>
      refine ⟨wpos, ?_⟩
      simp [readValue, readNumber_complete (by decide) bits.toNat_lt h]
  | color r g b =>
      have hbytes : [r, g, b] =
          toBytes 1 r.toNat ++ (toBytes 1 g.toNat ++ toBytes 1 b.toNat) := by simp [toBytes]
      rw [hbytes, append_prefix_drop, append_prefix_drop, length_toBytes, length_toBytes] at h
      refine ⟨wpos, ?_⟩
      simp [readValue, readNumber_complete (by decide) r.toNat_lt h.1,
        readNumber_complete (by decide) g.toNat_lt h.2.1,
        readNumber_complete (by decide) b.toNat_lt h.2.2]
  | uint64 value =>
      refine ⟨wpos, ?_⟩
      simp [readValue, readNumber_complete (by decide) value.toNat_lt h]

/-- The types of the values. -/
def IsValueType (type : UInt8) : Prop := type ∈ [1, 2, 3, 5, 6, 7]

theorem readValue_not_good {files : Files} (h : files.file.good = false) (type : UInt8) :
    (readValue widen type files).2.file.good = false := by
  unfold readValue
  split
  · exact getline_not_good h
  split
  · exact getWideLine_not_good h
  split
  · exact readNumber_not_good h 4
  split
  · exact readNumber_not_good h 4
  split
  · exact readNumber_not_good (readNumber_not_good (readNumber_not_good h 1) 1) 1
  split
  · exact readNumber_not_good h 8
  · exact h

/-- A color is read in three steps. -/
theorem readColor_sound
    (h : ((((Files.ready data pos wpos).readNumber 1).2.readNumber 1).2.readNumber 1).2.file.good =
      true) : ∃ r g b : UInt8, [r, g, b] <+: data.drop pos := by
  have hfirst : ((Files.ready data pos wpos).readNumber 1).2.file.good = true := by
    by_contra hnot
    rw [Bool.not_eq_true] at hnot
    rw [readNumber_not_good (readNumber_not_good hnot 1) 1] at h
    cases h
  obtain ⟨r, hr, hrbytes, hrread⟩ := readNumber_sound (by decide) hfirst
  rw [hrread] at h
  have hsecond : ((Files.ready data (pos + 1) wpos).readNumber 1).2.file.good = true := by
    by_contra hnot
    rw [Bool.not_eq_true] at hnot
    rw [readNumber_not_good hnot 1] at h
    cases h
  obtain ⟨g, hg, hgbytes, hgread⟩ := readNumber_sound (by decide) hsecond
  rw [hgread] at h
  obtain ⟨b, hb, hbbytes, -⟩ := readNumber_sound (by decide) h
  refine ⟨.ofNat r, .ofNat g, .ofNat b, ?_⟩
  have hbytes : [UInt8.ofNat r, UInt8.ofNat g, UInt8.ofNat b] =
      toBytes 1 r ++ (toBytes 1 g ++ toBytes 1 b) := rfl
  rw [hbytes, append_prefix_drop, append_prefix_drop, length_toBytes, length_toBytes]
  exact ⟨hrbytes, hgbytes, hbbytes⟩

/-- A value after which the stream is good was there. -/
theorem readValue_sound {type : UInt8} (htype : IsValueType type)
    (h : (readValue widen type (Files.ready data pos wpos)).2.file.good = true) :
    ∃ v bytes, ValueBytes widen type v bytes ∧ bytes <+: data.drop pos := by
  have hnumber : ∀ {n : Nat}, 0 < n →
      ((Files.ready data pos wpos).readNumber n).2.file.good = true →
      ∃ x < 256 ^ n, toBytes n x <+: data.drop pos := by
    intro n hn hgood
    obtain ⟨x, hx, hbytes, -⟩ := readNumber_sound hn hgood
    exact ⟨x, hx, hbytes⟩
  simp only [IsValueType, List.mem_cons, List.not_mem_nil, or_false] at htype
  rcases htype with rfl | rfl | rfl | rfl | rfl | rfl
  · obtain ⟨line, bytes, hline, hbytes, -⟩ := getNameLine_sound h
    exact ⟨_, bytes, .string hline, hbytes⟩
  · obtain ⟨x, hx, hbytes⟩ := hnumber (n := 4) (by decide) h
    refine ⟨_, _, .int32 (UInt32.ofNat x).toInt32, ?_⟩
    rw [UInt32.toUInt32_toInt32, UInt32.toNat_ofNat_of_lt' hx]
    exact hbytes
  · obtain ⟨x, hx, hbytes⟩ := hnumber (n := 4) (by decide) h
    refine ⟨_, _, .float (.ofNat x), ?_⟩
    rw [UInt32.toNat_ofNat_of_lt' hx]
    exact hbytes
  · obtain ⟨line, bytes, hline, hbytes, -⟩ := getWideLine_sound h
    exact ⟨_, bytes, .wstring hline, hbytes⟩
  · obtain ⟨r, g, b, hbytes⟩ := readColor_sound h
    exact ⟨_, _, .color r g b, hbytes⟩
  · obtain ⟨x, hx, hbytes⟩ := hnumber (n := 8) (by decide) h
    refine ⟨_, _, .uint64 (.ofNat x), ?_⟩
    rw [UInt64.toNat_ofNat_of_lt' hx]
    exact hbytes

/-- Nothing is read for another type. -/
theorem readValue_unknown {type : UInt8} (htype : ¬ IsValueType type) (files : Files) :
    readValue widen type files = (none, files) := by
  simp only [IsValueType, List.mem_cons, List.not_mem_nil, or_false, not_or] at htype
  obtain ⟨h1, h2, h3, h5, h6, h7⟩ := htype
  unfold readValue
  rw [if_neg h1, if_neg h5, if_neg h2, if_neg h3, if_neg h6, if_neg h7]

/-! ## Tables -/

variable {names : Names}

theorem readType_nil (h : data.drop pos = []) :
    ((Files.ready data pos wpos).file.read 1).1 = [] := by
  simp [Files.ready, FileStream.read, h]

theorem readType_cons {type : UInt8} {behind : List UInt8} (h : data.drop pos = type :: behind) :
    (Files.ready data pos wpos).file.read 1 = ([type], FileStream.ready data (pos + 1)) := by
  have htype : [type] <+: data.drop pos := h ▸ List.prefix_append [type] behind
  have hle := le_length_of_prefix htype (List.cons_ne_nil _ _)
  have hread : (Files.ready data pos wpos).file.read 1 = _ := read_ready hle
  rw [hread, h]
  rfl

/-- There is no step without a type. -/
theorem readPropertyTable_nil {files : Files} (h : (files.file.read 1).1 = []) (fuel : Nat)
    (properties : PropertyTable) :
    readPropertyTable widen names (fuel + 1) files properties = none := by
  rw [readPropertyTable, h]

/-- The step of the reader on a type. -/
theorem readPropertyTable_cons {type : UInt8} {behind : List UInt8}
    (h : data.drop pos = type :: behind) (fuel : Nat) (properties : PropertyTable) :
    readPropertyTable widen names (fuel + 1) (.ready data pos wpos) properties =
      if type = 8 then some (properties, .ready data (pos + 1) wpos)
      else (readName names (.ready data (pos + 1) wpos)).bind fun named =>
        if type = 0 then
          (readPropertyTable widen names fuel named.2 .nil).bind fun child =>
            readPropertyTable widen names fuel child.2
              (properties.tryEmplace named.1 (.table named.1 child.1 .nil))
        else
          readPropertyTable widen names fuel (readValue widen type named.2).2
            (match (readValue widen type named.2).1 with
            | some v => properties.tryEmplace named.1 (.value named.1 v .nil)
            | none => properties) := by
  rw [readPropertyTable, readType_cons h]
  rfl

/-- No table is read from a stream with a flag. -/
theorem good_of_readPropertyTable {fuel : Nat} {files : Files} {properties : PropertyTable}
    {result : PropertyTable × Files}
    (h : readPropertyTable widen names fuel files properties = some result) :
    files.file.good = true := by
  by_contra hnot
  rw [Bool.not_eq_true] at hnot
  cases fuel with
  | zero => cases h
  | succ fuel =>
      rw [readPropertyTable_nil (by rw [read_of_not_good hnot])] at h
      cases h

theorem good_of_readValue {type : UInt8} {files : Files}
    (h : (readValue widen type files).2.file.good = true) : files.file.good = true := by
  by_contra hnot
  rw [Bool.not_eq_true] at hnot
  rw [readValue_not_good hnot type] at h
  cases h

/-- The position behind an entry and what follows it. -/
theorem entry_end (pos : Nat) (type : UInt8) (nameBytes valueBytes restBytes : List UInt8) :
    pos + (type :: (nameBytes ++ (valueBytes ++ restBytes))).length =
      pos + 1 + nameBytes.length + valueBytes.length + restBytes.length := by
  simp only [List.length_cons, List.length_append]
  omega

/-- The bytes of an entry and what follows it. -/
theorem entry_prefix_drop {type : UInt8} {nameBytes valueBytes restBytes : List UInt8} :
    type :: (nameBytes ++ (valueBytes ++ restBytes)) <+: data.drop pos ↔
      (∃ behind, data.drop pos = type :: behind) ∧ nameBytes <+: data.drop (pos + 1) ∧
        valueBytes <+: data.drop (pos + 1 + nameBytes.length) ∧
        restBytes <+: data.drop (pos + 1 + nameBytes.length + valueBytes.length) := by
  rw [cons_prefix_drop, append_prefix_drop, append_prefix_drop]

/-- The types that have a `case`. -/
theorem mem_types {type : UInt8} :
    type ∈ [0, 1, 2, 3, 5, 6, 7, 8] ↔ type = 8 ∨ type = 0 ∨ IsValueType type := by
  simp only [IsValueType, List.mem_cons, List.not_mem_nil, or_false]
  tauto

/-- A table that was read was there. -/
theorem readPropertyTable_sound {fuel : Nat} {properties result : PropertyTable} {files : Files}
    (h : readPropertyTable widen names fuel (.ready data pos wpos) properties =
      some (result, files)) :
    ∃ entries bytes next, TableBytes widen names True entries bytes ∧
      bytes <+: data.drop pos ∧ result = entries.collect properties ∧
      files = .ready data (pos + bytes.length) next := by
  induction fuel generalizing pos wpos properties result files with
  | zero => cases h
  | succ fuel ih =>
      cases hdrop : data.drop pos with
      | nil =>
          rw [readPropertyTable_nil (readType_nil hdrop)] at h
          cases h
      | cons type behind =>
          rw [← hdrop]
          by_cases hend : type = 8
          · subst hend
            rw [readPropertyTable_cons hdrop, if_pos rfl] at h
            cases h
            exact ⟨.nil, [8], wpos, .endOfTable,
              cons_prefix_drop.mpr ⟨⟨behind, hdrop⟩, List.nil_prefix⟩, rfl, rfl⟩
          rw [readPropertyTable_cons hdrop, if_neg hend] at h
          obtain ⟨⟨name, named⟩, hname, hrest⟩ := Option.bind_eq_some_iff.mp h
          dsimp only at hrest
          have hgood : named.file.good = true := by
            split at hrest
            · obtain ⟨child, hchild, -⟩ := Option.bind_eq_some_iff.mp hrest
              exact good_of_readPropertyTable hchild
            · exact good_of_readValue (good_of_readPropertyTable hrest)
          obtain ⟨nameBytes, hnameBytes, hnamePrefix, rfl⟩ := readName_sound hname hgood
          split at hrest
          · rename_i hzero
            subst hzero
            obtain ⟨⟨child, afterChild⟩, hchild, hlast⟩ := Option.bind_eq_some_iff.mp hrest
            obtain ⟨childEntries, childBytes, wnext, htable, hchildPrefix, rfl, rfl⟩ := ih hchild
            obtain ⟨entries, bytes, next, hentries, hbytes, rfl, rfl⟩ := ih hlast
            refine ⟨.table name childEntries entries, _, next, .table hnameBytes htable hentries,
              entry_prefix_drop.mpr ⟨⟨behind, hdrop⟩, hnamePrefix, hchildPrefix, hbytes⟩, rfl, ?_⟩
            rw [entry_end]
          · rename_i hzero
            by_cases hvalueType : IsValueType type
            · have hvalueGood := good_of_readPropertyTable hrest
              obtain ⟨v, valueBytes, hvalue, hvaluePrefix⟩ :=
                readValue_sound hvalueType hvalueGood
              obtain ⟨wnext, hread⟩ := readValue_complete hvalue hvaluePrefix wpos
              rw [hread] at hrest
              obtain ⟨entries, bytes, next, hentries, hbytes, rfl, rfl⟩ := ih hrest
              refine ⟨.value name v entries, _, next, .value hnameBytes hvalue hentries,
                entry_prefix_drop.mpr ⟨⟨behind, hdrop⟩, hnamePrefix, hvaluePrefix, hbytes⟩, rfl, ?_⟩
              rw [entry_end]
            · have hnotType : type ∉ [0, 1, 2, 3, 5, 6, 7, 8] := fun hmem =>
                (mem_types.mp hmem).elim hend fun hor => hor.elim hzero hvalueType
              rw [readValue_unknown hvalueType] at hrest
              obtain ⟨entries, bytes, next, hentries, hbytes, rfl, rfl⟩ := ih hrest
              refine ⟨entries, _, next, .unknown trivial hnotType hnameBytes hentries,
                (@entry_prefix_drop _ _ _ _ [] _).mpr
                  ⟨⟨behind, hdrop⟩, hnamePrefix, List.nil_prefix, hbytes⟩, rfl, ?_⟩
              have hlength : pos + (type :: (nameBytes ++ bytes)).length =
                  pos + 1 + nameBytes.length + bytes.length := entry_end pos type nameBytes [] bytes
              rw [hlength]

/-- A table that is there is read, with fuel for its bytes. -/
theorem readPropertyTable_complete {lax : Prop} {entries : PropertyTable} {bytes : List UInt8}
    (h : TableBytes widen names lax entries bytes) (hbytes : bytes <+: data.drop pos) {fuel : Nat}
    (hfuel : bytes.length ≤ fuel) (wpos : Nat) (properties : PropertyTable) :
    ∃ next, readPropertyTable widen names fuel (.ready data pos wpos) properties =
      some (entries.collect properties, .ready data (pos + bytes.length) next) := by
  induction h generalizing pos wpos fuel properties with
  | endOfTable =>
      obtain ⟨fuel, rfl⟩ : ∃ n, fuel = n + 1 := ⟨fuel - 1, (Nat.sub_add_cancel hfuel).symm⟩
      obtain ⟨⟨behind, hdrop⟩, -⟩ := cons_prefix_drop.mp hbytes
      refine ⟨wpos, ?_⟩
      rw [readPropertyTable_cons hdrop, if_pos rfl]
      rfl
  | @value name type v rest nameBytes valueBytes restBytes hname hvalue hrest ih =>
      obtain ⟨⟨behind, hdrop⟩, hnamePrefix, hvaluePrefix, hrestPrefix⟩ :=
        entry_prefix_drop.mp hbytes
      rw [entry_end]
      simp only [List.length_cons, List.length_append] at hfuel
      obtain ⟨fuel, rfl⟩ : ∃ n, fuel = n + 1 := ⟨fuel - 1, by omega⟩
      have hrestFuel : restBytes.length ≤ fuel := by omega
      have htype : type ≠ 8 ∧ type ≠ 0 := by cases hvalue <;> decide
      obtain ⟨wnext, hread⟩ := readValue_complete hvalue hvaluePrefix wpos
      obtain ⟨next, hlast⟩ := ih hrestPrefix hrestFuel wnext
        (properties.tryEmplace name (.value name v .nil))
      refine ⟨next, ?_⟩
      rw [readPropertyTable_cons hdrop, if_neg htype.1, readName_complete hname hnamePrefix]
      simp only [Option.bind_some, if_neg htype.2, hread, hlast, PropertyTable.collect]
  | @table name child rest nameBytes childBytes restBytes hname hchild hrest ihChild ih =>
      obtain ⟨⟨behind, hdrop⟩, hnamePrefix, hchildPrefix, hrestPrefix⟩ :=
        entry_prefix_drop.mp hbytes
      rw [entry_end]
      simp only [List.length_cons, List.length_append] at hfuel
      obtain ⟨fuel, rfl⟩ : ∃ n, fuel = n + 1 := ⟨fuel - 1, by omega⟩
      have hchildFuel : childBytes.length ≤ fuel := by omega
      have hrestFuel : restBytes.length ≤ fuel := by omega
      obtain ⟨wnext, hread⟩ := ihChild hchildPrefix hchildFuel wpos .nil
      obtain ⟨next, hlast⟩ := ih hrestPrefix hrestFuel wnext
        (properties.tryEmplace name (.table name (child.collect .nil) .nil))
      refine ⟨next, ?_⟩
      rw [readPropertyTable_cons hdrop, if_neg (by decide), readName_complete hname hnamePrefix]
      simp only [Option.bind_some, ↓reduceIte, hread, hlast, PropertyTable.collect]
  | @unknown type name rest nameBytes restBytes hlax htype hname hrest ih =>
      obtain ⟨⟨behind, hdrop⟩, hnamePrefix, -, hrestPrefix⟩ :=
        (@entry_prefix_drop _ _ _ _ [] _).mp hbytes
      simp only [List.length_cons, List.length_append] at hfuel
      obtain ⟨fuel, rfl⟩ : ∃ n, fuel = n + 1 := ⟨fuel - 1, by omega⟩
      have hrestFuel : restBytes.length ≤ fuel := by omega
      rw [mem_types, not_or, not_or] at htype
      obtain ⟨next, hlast⟩ := ih hrestPrefix hrestFuel wpos properties
      refine ⟨next, ?_⟩
      rw [readPropertyTable_cons hdrop, if_neg htype.1, readName_complete hname hnamePrefix]
      have hlength : pos + (type :: (nameBytes ++ restBytes)).length =
          pos + 1 + nameBytes.length + restBytes.length := entry_end pos type nameBytes [] restBytes
      simp only [Option.bind_some, if_neg htype.2.1, readValue_unknown htype.2.2, hlength]
      exact hlast

/-! ## Apps -/

theorem skip_ready (n : Nat) :
    (Files.ready data pos wpos).skip n = .ready data (pos + n) wpos := by
  unfold Files.skip Files.ready
  dsimp only
  rw [tellg_ready, ← Nat.cast_add, seekg_ready]

theorem skip_not_good {files : Files} (h : files.file.good = false) (n : Nat) :
    (files.skip n).file.good = false := by
  unfold Files.skip
  rw [tellg_of_not_good h]
  exact good_of_fail (fail_seekg rfl _)

variable {magicNumber : MagicNumber}

/-- Only the count is read: what is skipped may not be there. -/
theorem skipHead_ready (h : pos + 4 ≤ data.length) :
    skipHead magicNumber (.ready data pos wpos) =
      .ready data (pos + headSize magicNumber) wpos := by
  have hcount : ((Files.ready data pos wpos).readNumber 4).2 = .ready data (pos + 4) wpos := by
    unfold Files.readNumber Files.ready
    dsimp only
    rw [read_ready h]
  unfold skipHead
  dsimp only
  rw [hcount]
  cases magicNumber <;> simp [skip_ready, headSize]

theorem skipHead_not_good {files : Files} (h : (files.readNumber 4).2.file.good = false) :
    (skipHead magicNumber files).file.good = false := by
  have hskipped := skip_not_good (skip_not_good (skip_not_good h 16) 20) 4
  unfold skipHead
  dsimp only
  split
  · exact skip_not_good hskipped 20
  · exact hskipped

theorem skipHead_sound
    (h : (skipHead magicNumber (Files.ready data pos wpos)).file.good = true) :
    skipHead magicNumber (.ready data pos wpos) =
      .ready data (pos + headSize magicNumber) wpos := by
  by_cases hle : pos + 4 ≤ data.length
  · exact skipHead_ready hle
  · have hfail := fail_read_ready (Nat.not_le.mp hle) (show 0 < 4 by decide)
    have hcount : ((Files.ready data pos wpos).readNumber 4).2.file.good = false :=
      good_of_fail hfail
    rw [skipHead_not_good hcount] at h
    cases h

theorem TableBytes.ne_nil {lax : Prop} {entries : PropertyTable} {bytes : List UInt8}
    (h : TableBytes widen names lax entries bytes) : bytes ≠ [] := by
  cases h <;> exact List.cons_ne_nil _ _

/-- A number is made of the bytes that are there. -/
theorem readNumber_ready (n : Nat) :
    ((Files.ready data pos wpos).readNumber n).1 = ofBytes ((data.drop pos).take n) := by
  simp [Files.readNumber, Files.ready, FileStream.read]

/-- The app with the table that its entries make. -/
def App.collect (app : App) : App := ⟨app.appId, app.propertyTable.collect .nil⟩

/-- The end of the loop: no byte of the next id is other than zero. -/
def EndOfApps (bytes : List UInt8) : Prop := ofBytes (bytes.take 4) = 0

/-- One iteration of the loop over the apps. -/
theorem readApps_succ (fuel : Nat) (files : Files) :
    readApps widen magicNumber names (fuel + 1) files =
      if (files.readNumber 4).1 = 0 then some ([], (files.readNumber 4).2)
      else (readPropertyTable widen names fuel (skipHead magicNumber (files.readNumber 4).2)
          .nil).bind fun table =>
        (readApps widen magicNumber names fuel table.2).bind fun apps =>
          some (⟨.ofNat (files.readNumber 4).1, table.1⟩ :: apps.1, apps.2) := rfl

/-- The apps that were read were there. -/
theorem readApps_sound {fuel : Nat} {result : List App} {files : Files}
    (h : readApps widen magicNumber names fuel (.ready data pos wpos) = some (result, files)) :
    ∃ apps bytes, AppsBytes widen magicNumber names True apps bytes ∧ bytes <+: data.drop pos ∧
      EndOfApps (data.drop (pos + bytes.length)) ∧ result = apps.map App.collect := by
  induction fuel generalizing pos wpos result files with
  | zero => cases h
  | succ fuel ih =>
      rw [readApps_succ] at h
      split at h
      · rename_i hzero
        cases h
        rw [readNumber_ready] at hzero
        exact ⟨[], [], .nil, List.nil_prefix, hzero, rfl⟩
      · rename_i hid
        obtain ⟨⟨properties, afterTable⟩, htable, hlast⟩ := Option.bind_eq_some_iff.mp h
        obtain ⟨⟨tail, afterApps⟩, happs, heq⟩ := Option.bind_eq_some_iff.mp hlast
        cases heq
        have hskipped := good_of_readPropertyTable htable
        have hgood : ((Files.ready data pos wpos).readNumber 4).2.file.good = true := by
          by_contra hnot
          rw [Bool.not_eq_true] at hnot
          rw [skipHead_not_good (readNumber_not_good hnot 4)] at hskipped
          cases hskipped
        obtain ⟨appId, hlt, hidBytes, hread⟩ := readNumber_sound (by decide) hgood
        rw [hread] at hid hskipped htable ⊢
        have hhead := skipHead_sound hskipped
        rw [hhead] at htable
        obtain ⟨entries, tableBytes, next, hentries, htableBytes, rfl, rfl⟩ :=
          readPropertyTable_sound htable
        obtain ⟨apps, bytes, happsBytes, hbytes, hend, rfl⟩ := ih happs
        have hle := le_length_of_prefix htableBytes hentries.ne_nil
        have hheadLength :
            ((data.drop (pos + 4)).take (headSize magicNumber)).length = headSize magicNumber := by
          rw [List.length_take, List.length_drop]
          omega
        have hnat : (UInt32.ofNat appId).toNat = appId := UInt32.toNat_ofNat_of_lt' hlt
        refine ⟨⟨.ofNat appId, entries⟩ :: apps, _, .cons ?_ hheadLength hentries happsBytes,
          ?_, ?_, rfl⟩
        · rw [ne_eq, ← UInt32.toNat_inj, hnat]
          exact hid
        · rw [hnat, append_prefix_drop, append_prefix_drop, append_prefix_drop, length_toBytes,
            hheadLength]
          exact ⟨hidBytes, List.take_prefix _ _, htableBytes, hbytes⟩
        · simp only [List.length_append, length_toBytes, hheadLength]
          simp only [Nat.add_assoc] at hend ⊢
          exact hend

/-- Apps that are there are read up to their end, with fuel for their bytes. -/
theorem readApps_complete {lax : Prop} {apps : List App} {bytes : List UInt8}
    (h : AppsBytes widen magicNumber names lax apps bytes) (hbytes : bytes <+: data.drop pos)
    (hend : EndOfApps (data.drop (pos + bytes.length))) {fuel : Nat} (hfuel : bytes.length < fuel) :
    ∃ files, readApps widen magicNumber names fuel (.ready data pos wpos) =
      some (apps.map App.collect, files) := by
  induction h generalizing pos wpos fuel with
  | nil =>
      obtain ⟨fuel, rfl⟩ : ∃ n, fuel = n + 1 := ⟨fuel - 1, by omega⟩
      have hid : ((Files.ready data pos wpos).readNumber 4).1 = 0 := (readNumber_ready 4).trans hend
      refine ⟨((Files.ready data pos wpos).readNumber 4).2, ?_⟩
      rw [readApps_succ, if_pos hid]
      rfl
  | @cons appId entries head tableBytes apps restBytes hid hhead htable hrest ih =>
      simp only [List.length_append, length_toBytes, hhead] at hfuel hend
      obtain ⟨fuel, rfl⟩ : ∃ n, fuel = n + 1 := ⟨fuel - 1, by omega⟩
      rw [append_prefix_drop, append_prefix_drop, append_prefix_drop, length_toBytes, hhead]
        at hbytes
      obtain ⟨hidBytes, -, htableBytes, hrestBytes⟩ := hbytes
      have hle := le_length_of_prefix htableBytes htable.ne_nil
      have hread : (Files.ready data pos wpos).readNumber 4 = _ :=
        readNumber_complete (by decide) appId.toNat_lt hidBytes
      have hnot : appId.toNat ≠ 0 := fun h => hid (UInt32.toNat_inj.mp h)
      have hcount : 4 ≤ headSize magicNumber := by cases magicNumber <;> decide
      have hskip : skipHead magicNumber (Files.ready data (pos + 4) wpos) = _ :=
        skipHead_ready (by omega)
      have htableFuel : tableBytes.length ≤ fuel := by omega
      obtain ⟨next, htableRead⟩ :=
        readPropertyTable_complete htable htableBytes htableFuel wpos .nil
      obtain ⟨files, happs⟩ :
          ∃ files, readApps widen magicNumber names fuel (.ready data _ next) = some (_, files) :=
        ih hrestBytes (by simpa only [Nat.add_assoc] using hend) (by omega)
      refine ⟨files, ?_⟩
      rw [readApps_succ, hread, if_neg hnot, hskip, htableRead]
      simp only [Option.bind_some, happs, List.map_cons, App.collect,
        UInt32.ofNat_toNat]

end Utilpp.Steam.AppInfo

import Utilpp.Steam.AppInfoReader

/-!
# The library of an app info file

When `ReadLibraryCache` ends (`reads_iff`), and when the library that it returns is that of a
well-formed file (`library_iff`). The loop reads the apps as they are (`readApps_file`), but they do
not get into the map. The pool of strings stays empty, so that a file with a string table has to
have neither strings nor properties.
-/

namespace Utilpp.Steam.AppInfo

open Lib FileStream

/-! ## The files -/

theorem MagicNumber.ofValue_value (magicNumber : MagicNumber) :
    ofValue magicNumber.value = some magicNumber := by
  cases magicNumber <;> rfl

/-- The bytes of the strings of a string table. -/
def StringsBytes (pool : List Name) (bytes : List UInt8) : Prop :=
  ∃ lines : List (List UInt8), List.Forall₂ (IsLine some 0) pool lines ∧ bytes = lines.flatten

/-- The file lists these apps. -/
inductive FileBytes (widen : UInt8 → Option UInt32) (data : List UInt8) : List App → Prop where
  | inline {magicNumber universeNumber apps bytes} (hm : magicNumber.hasStringTable = false)
      (happs : AppsBytes widen magicNumber .inline False apps bytes)
      (hdata : toBytes 4 magicNumber.value ++
        (toBytes 4 universeNumber ++ (bytes ++ toBytes 4 0)) <+: data) :
      FileBytes widen data apps
  | stringTable {magicNumber universeNumber offset pool strings apps bytes}
      (hm : magicNumber.hasStringTable = true) (hoffset : offset < 2 ^ 63)
      (hpool : pool.length < 2 ^ 32) (hstrings : StringsBytes pool strings)
      (htable : toBytes 4 pool.length ++ strings <+: data.drop offset)
      (happs : AppsBytes widen magicNumber (.pool pool) False apps bytes)
      (hdata : toBytes 4 magicNumber.value ++
        (toBytes 4 universeNumber ++ (toBytes 8 offset ++ (bytes ++ toBytes 4 0))) <+: data) :
      FileBytes widen data apps

/-- A well-formed file lists an app once. -/
def WellFormed (widen : UInt8 → Option UInt32) (data : List UInt8) (apps : List App) : Prop :=
  FileBytes widen data apps ∧ (apps.map App.appId).Nodup

/-- Apps begin here, and the id behind them is zero as far as it is there. -/
def Records (widen : UInt8 → Option UInt32) (magicNumber : MagicNumber) (names : Names)
    (bytes : List UInt8) : Prop :=
  ∃ apps appsBytes behind, bytes = appsBytes ++ behind ∧
    AppsBytes widen magicNumber names True apps appsBytes ∧ EndOfApps behind

/-- Where the string table is. -/
def tableOffset (data : List UInt8) : Int :=
  (UInt64.ofNat (ofBytes ((data.drop 8).take 8))).toInt64.toInt

/-- The bytes that are read to an end: they have another magic number, or no string table and
apps up to an id that is zero, or an empty string table and apps without a property. A file that
is too short, or that does not have its string table, is read to an end, too: no app is read of
it. -/
def Ends (widen : UInt8 → Option UInt32) (data : List UInt8) : Prop :=
  ∀ magicNumber, MagicNumber.ofValue (ofBytes (data.take 4)) = some magicNumber →
    if magicNumber.hasStringTable then
      data.length < 16 ∨ tableOffset data < 0 ∨
        ofBytes ((data.drop (tableOffset data).toNat).take 4) = 0 ∧
          (data.length < (tableOffset data).toNat + 4 ∨
            Records widen magicNumber (.pool []) (data.drop 16))
    else data.length < 8 ∨ Records widen magicNumber .inline (data.drop 8)

variable {widen : UInt8 → Option UInt32} {data : List UInt8}

/-! ## The loops -/

variable {magicNumber : MagicNumber} {names : Names}

theorem readApps_iff {pos wpos : Nat} :
    (∃ fuel result, readApps widen magicNumber names fuel (.ready data pos wpos) = some result) ↔
      Records widen magicNumber names (data.drop pos) := by
  constructor
  · rintro ⟨fuel, ⟨result, files⟩, h⟩
    obtain ⟨apps, bytes, happs, ⟨behind, hbehind⟩, hend, -⟩ := readApps_sound h
    rw [← List.drop_drop, ← hbehind, List.drop_left] at hend
    exact ⟨apps, bytes, behind, hbehind.symm, happs, hend⟩
  · rintro ⟨apps, bytes, behind, hbehind, happs, hend⟩
    have hdrop : data.drop (pos + bytes.length) = behind := by
      rw [← List.drop_drop, hbehind, List.drop_left]
    obtain ⟨files, hread⟩ :
        ∃ files, readApps widen magicNumber names (bytes.length + 1) (.ready data pos wpos) =
          some (_, files) :=
      readApps_complete happs ⟨behind, hbehind.symm⟩ (hdrop ▸ hend) (Nat.lt_succ_self _)
    exact ⟨_, _, hread⟩

/-- With the strings of the file the loop reads its apps. -/
theorem readApps_file {front bytes : List UInt8} {apps : List App}
    (happs : AppsBytes widen magicNumber names False apps bytes)
    (hdata : front ++ (bytes ++ toBytes 4 0) <+: data) (wpos : Nat) :
    ∃ fuel files, readApps widen magicNumber names fuel (.ready data front.length wpos) =
      some (apps.map App.collect, files) := by
  obtain ⟨behind, rfl⟩ := hdata
  have hdrop : (front ++ (bytes ++ toBytes 4 0) ++ behind).drop front.length =
      bytes ++ (toBytes 4 0 ++ behind) := by
    rw [List.append_assoc, List.drop_left, List.append_assoc]
  have hend : EndOfApps ((front ++ (bytes ++ toBytes 4 0) ++ behind).drop
      (front.length + bytes.length)) := by
    rw [← List.drop_drop, hdrop, List.drop_left, EndOfApps,
      List.take_left' (length_toBytes 4 0), ofBytes_toBytes (by decide)]
  exact ⟨bytes.length + 1, readApps_complete happs ⟨_, hdrop.symm⟩ hend (Nat.lt_succ_self _)⟩

/-- No app is read from a stream with a flag. -/
theorem readApps_not_good {files : Files} (h : files.file.good = false) :
    ∃ fuel result, readApps widen magicNumber names fuel files = some result := by
  have hid : (files.readNumber 4).1 = 0 := by
    unfold Files.readNumber
    rw [read_of_not_good h]
    rfl
  refine ⟨1, ([], (files.readNumber 4).2), ?_⟩
  rw [readApps]
  dsimp only
  rw [if_pos hid]

/-- The first string is already put behind the end of the pool. -/
theorem readStrings_nil (count : Nat) (file : FileStream) :
    readStrings count [] file = if count = 0 then some ([], file) else none := by
  cases count with
  | zero => rfl
  | succ count =>
      rw [if_neg (Nat.succ_ne_zero count), readStrings, List.range_succ_eq_map, List.foldlM_cons]
      rfl

/-! ## The string table -/

/-- The position behind the offset of the table, the number of strings and the stream behind it. -/
def seekTable (file : FileStream) : Int × Nat × FileStream :=
  let offset := file.read 8
  let pos := offset.2.tellg
  let count := (pos.2.seekg (UInt64.ofNat (ofBytes offset.1)).toInt64.toInt).read 4
  (pos.1, ofBytes count.1, count.2)

theorem readStringTable_eq (file : FileStream) :
    readStringTable file =
      if (seekTable file).2.1 = 0 then
        some (⟨(UInt64.ofNat (ofBytes (file.read 8).1)).toInt64, .ofNat (seekTable file).2.1, []⟩,
          (seekTable file).2.2.seekg (seekTable file).1)
      else none := by
  show (readStrings (seekTable file).2.1 [] (seekTable file).2.2).bind
    (fun strings => some ((⟨(UInt64.ofNat (ofBytes (file.read 8).1)).toInt64,
      .ofNat (seekTable file).2.1, strings.1⟩ : StringTable),
      strings.2.seekg (seekTable file).1)) = _
  rw [readStrings_nil]
  split <;> rfl

theorem seekTable_not_good {file : FileStream} (h : (file.read 8).2.good = false) :
    (seekTable file).2.1 = 0 ∧ (seekTable file).2.2.fail = true := by
  unfold seekTable
  dsimp only
  rw [tellg_of_not_good h, read_of_not_good (good_of_fail (fail_seekg rfl _))]
  exact ⟨rfl, rfl⟩

/-- The offset is there. -/
theorem seekTable_ready (h : 16 ≤ data.length) :
    seekTable (ready data 8) =
      (16, ofBytes (((ready data 16).seekg (tableOffset data)).read 4).1,
        (((ready data 16).seekg (tableOffset data)).read 4).2) := by
  unfold seekTable
  dsimp only
  rw [read_ready h]
  rfl

theorem seekTable_neg (h : 16 ≤ data.length) (hoffset : tableOffset data < 0) :
    (seekTable (ready data 8)).2.1 = 0 ∧ (seekTable (ready data 8)).2.2.fail = true := by
  rw [seekTable_ready h, read_of_not_good (good_of_fail (fail_seekg_of_neg _ hoffset))]
  exact ⟨rfl, rfl⟩

theorem seekTable_nonneg (h : 16 ≤ data.length) (hoffset : 0 ≤ tableOffset data) :
    seekTable (ready data 8) =
      (16, ofBytes ((data.drop (tableOffset data).toNat).take 4),
        ((ready data (tableOffset data).toNat).read 4).2) := by
  rw [seekTable_ready h]
  generalize tableOffset data = offset at hoffset
  obtain ⟨n, rfl⟩ := Int.eq_ofNat_of_zero_le hoffset
  rw [seekg_ready, Int.toNat_natCast]
  simp [FileStream.read]

/-- The string table and the apps of a file are read to an end. -/
def TableEnds (widen : UInt8 → Option UInt32) (magicNumber : MagicNumber)
    (file wif : FileStream) : Prop :=
  ∃ table next, readStringTable file = some (table, next) ∧
    ∃ fuel result, readApps widen magicNumber (.pool table.stringPool) fuel ⟨next, wif⟩ =
      some result

theorem tableEnds_of_fail {file : FileStream} (hcount : (seekTable file).2.1 = 0)
    (hfail : (seekTable file).2.2.fail = true) (wif : FileStream) :
    TableEnds widen magicNumber file wif := by
  have hnot := good_of_fail (fail_seekg hfail (seekTable file).1)
  refine ⟨_, _, (readStringTable_eq file).trans (if_pos hcount), ?_⟩
  exact readApps_not_good hnot

/-- A table that is at its offset has to be empty. -/
theorem tableEnds_iff_of_ready (h : 16 ≤ data.length) (hoffset : 0 ≤ tableOffset data) :
    TableEnds widen magicNumber (ready data 8) (ready data 0) ↔
      ofBytes ((data.drop (tableOffset data).toNat).take 4) = 0 ∧
        (data.length < (tableOffset data).toNat + 4 ∨
          Records widen magicNumber (.pool []) (data.drop 16)) := by
  have hseek := seekTable_nonneg h hoffset
  by_cases hcount : ofBytes ((data.drop (tableOffset data).toNat).take 4) = 0
  · have hzero : (seekTable (ready data 8)).2.1 = 0 := by rw [hseek]; exact hcount
    rw [and_iff_right hcount]
    by_cases hle : (tableOffset data).toNat + 4 ≤ data.length
    · rw [or_iff_right (Nat.not_lt.mpr hle), ← readApps_iff, TableEnds, readStringTable_eq,
        if_pos hzero, hseek, read_ready hle]
      constructor
      · rintro ⟨table, next, heq, hread⟩
        cases heq
        exact hread
      · intro hread
        exact ⟨_, _, rfl, hread⟩
    · rw [iff_true_right (Or.inl (Nat.not_le.mp hle))]
      refine tableEnds_of_fail hzero ?_ _
      rw [hseek]
      exact fail_read_ready (Nat.not_le.mp hle) (by decide)
  · rw [iff_false_right (fun hright => hcount hright.1)]
    rintro ⟨table, next, heq, -⟩
    rw [readStringTable_eq, hseek, if_neg hcount] at heq
    cases heq

theorem tableEnds_iff :
    TableEnds widen magicNumber ((opened data).read 8).2 (opened data) ↔
      data.length < 16 ∨ tableOffset data < 0 ∨
        ofBytes ((data.drop (tableOffset data).toNat).take 4) = 0 ∧
          (data.length < (tableOffset data).toNat + 4 ∨
            Records widen magicNumber (.pool []) (data.drop 16)) := by
  by_cases hlength : data.length < 16
  · rw [iff_true_right (Or.inl hlength)]
    have hnot : (((ready data 0).read 8).2.read 8).2.good = false := by
      by_cases h : data.length < 8
      · have hheader : ((ready data 0).read 8).2.good = false :=
          good_of_fail (fail_read_ready (by omega) (by decide))
        rw [read_of_not_good hheader]
        exact good_of_fail rfl
      · rw [read_ready (by omega)]
        exact good_of_fail (fail_read_ready (by omega) (by decide))
    obtain ⟨hcount, hfail⟩ := seekTable_not_good hnot
    exact tableEnds_of_fail hcount hfail _
  rw [or_iff_right hlength, show opened data = ready data 0 from rfl, read_ready (by omega)]
  by_cases hoffset : tableOffset data < 0
  · rw [iff_true_right (Or.inl hoffset)]
    obtain ⟨hcount, hfail⟩ := seekTable_neg (by omega) hoffset
    exact tableEnds_of_fail hcount hfail _
  · rw [or_iff_right hoffset]
    exact tableEnds_iff_of_ready (by omega) (by omega)

/-! ## The library -/

theorem header_magic (data : List UInt8) :
    ((opened data).read 8).1.take 4 = data.take 4 := by
  show ((data.drop 0).take 8).take 4 = data.take 4
  rw [List.drop_zero, List.take_take]
  rfl

/-- What `ReadLibraryCache` does behind a header with a magic number. -/
theorem readLibraryCache_of_valid
    (hm : MagicNumber.ofValue (ofBytes (data.take 4)) = some magicNumber) (fuel : Nat) :
    readLibraryCache widen fuel data =
      (if magicNumber.hasStringTable then readStringTable ((opened data).read 8).2
        else some ({}, ((opened data).read 8).2)).bind fun table =>
        (readApps widen magicNumber
          (if magicNumber.hasStringTable then .pool table.1.stringPool else .inline) fuel
          ⟨table.2, opened data⟩).bind fun _ =>
          some (some
            ⟨magicNumber, .ofNat (ofBytes (((opened data).read 8).1.drop 4)), table.1, []⟩) := by
  unfold readLibraryCache
  dsimp only
  rw [header_magic, hm]
  cases magicNumber <;> rfl

/-- Another magic number. -/
theorem readLibraryCache_of_invalid (hm : MagicNumber.ofValue (ofBytes (data.take 4)) = none)
    (fuel : Nat) : readLibraryCache widen fuel data = some none := by
  unfold readLibraryCache
  dsimp only
  rw [header_magic, hm]

/-- A library has no apps. -/
theorem appInfoCacheMap_eq_nil {fuel : Nat} {library : CachedLibrary}
    (h : readLibraryCache widen fuel data = some (some library)) :
    library.appInfoCacheMap = [] := by
  cases hm : MagicNumber.ofValue (ofBytes (data.take 4)) with
  | none =>
      rw [readLibraryCache_of_invalid hm] at h
      cases h
  | some magicNumber =>
      rw [readLibraryCache_of_valid hm] at h
      obtain ⟨table, -, hrest⟩ := Option.bind_eq_some_iff.mp h
      obtain ⟨apps, -, heq⟩ := Option.bind_eq_some_iff.mp hrest
      cases heq
      rfl

/-- With a magic number a library is returned. -/
theorem readLibraryCache_ne_null
    (hm : MagicNumber.ofValue (ofBytes (data.take 4)) = some magicNumber) (fuel : Nat) :
    readLibraryCache widen fuel data ≠ some none := by
  intro h
  rw [readLibraryCache_of_valid hm] at h
  obtain ⟨table, -, hrest⟩ := Option.bind_eq_some_iff.mp h
  obtain ⟨apps, -, heq⟩ := Option.bind_eq_some_iff.mp hrest
  cases heq

/-- The reader ends, and takes no string that the pool does not have. -/
def Reads (widen : UInt8 → Option UInt32) (data : List UInt8) : Prop :=
  ∃ fuel result, readLibraryCache widen fuel data = some result

theorem reads_iff_of_valid
    (hm : MagicNumber.ofValue (ofBytes (data.take 4)) = some magicNumber) :
    Reads widen data ↔
      ∃ table file, (if magicNumber.hasStringTable then readStringTable ((opened data).read 8).2
          else some ({}, ((opened data).read 8).2)) = some (table, file) ∧
        ∃ fuel result, readApps widen magicNumber
          (if magicNumber.hasStringTable then .pool table.stringPool else .inline) fuel
          ⟨file, opened data⟩ = some result := by
  unfold Reads
  simp only [readLibraryCache_of_valid hm]
  constructor
  · rintro ⟨fuel, result, h⟩
    obtain ⟨⟨table, file⟩, hread, hrest⟩ := Option.bind_eq_some_iff.mp h
    obtain ⟨apps, happs, -⟩ := Option.bind_eq_some_iff.mp hrest
    exact ⟨table, file, hread, fuel, apps, happs⟩
  · rintro ⟨table, file, hread, fuel, apps, happs⟩
    simp only [hread, Option.bind_some]
    exact ⟨fuel, _, Option.bind_eq_some_iff.mpr ⟨apps, happs, rfl⟩⟩

/-- Without a string table the apps begin behind the header. -/
theorem inlineEnds_iff :
    (∃ fuel result, readApps widen magicNumber .inline fuel
      ⟨((opened data).read 8).2, opened data⟩ = some result) ↔
      data.length < 8 ∨ Records widen magicNumber .inline (data.drop 8) := by
  by_cases hlength : data.length < 8
  · rw [iff_true_right (Or.inl hlength)]
    refine readApps_not_good ?_
    exact good_of_fail (fail_read_ready (by omega) (by decide))
  · rw [or_iff_right hlength, show opened data = ready data 0 from rfl, read_ready (by omega)]
    exact readApps_iff

theorem reads_iff : Reads widen data ↔ Ends widen data := by
  unfold Ends
  cases hm : MagicNumber.ofValue (ofBytes (data.take 4)) with
  | none =>
      refine iff_of_true ⟨0, none, readLibraryCache_of_invalid hm 0⟩ ?_
      intro magicNumber heq
      cases heq
  | some magicNumber =>
      rw [reads_iff_of_valid hm]
      simp only [Option.some.injEq, forall_eq']
      split
      · rw [← tableEnds_iff]
        rfl
      · rw [← inlineEnds_iff]
        constructor
        · rintro ⟨table, file, heq, hread⟩
          cases heq
          exact hread
        · intro hread
          exact ⟨_, _, rfl, hread⟩

theorem FileBytes.magic {apps : List App} (h : FileBytes widen data apps) :
    ∃ magicNumber, MagicNumber.ofValue (ofBytes (data.take 4)) = some magicNumber := by
  have hbegin : ∀ {m : MagicNumber} {behind : List UInt8},
      toBytes 4 m.value ++ behind <+: data →
      MagicNumber.ofValue (ofBytes (data.take 4)) = some m := by
    intro m behind hdata
    have htake := List.prefix_iff_eq_take.mp ((List.prefix_append _ _).trans hdata)
    rw [length_toBytes] at htake
    rw [← htake, ofBytes_toBytes (by cases m <;> decide), MagicNumber.ofValue_value]
  cases h with
  | inline _ _ hdata => exact ⟨_, hbegin hdata⟩
  | stringTable _ _ _ _ _ _ hdata => exact ⟨_, hbegin hdata⟩

/-- The reader ends, and a well-formed file gives a library with the table of each app. -/
def Correct (widen : UInt8 → Option UInt32) (data : List UInt8) : Prop :=
  Reads widen data ∧ ∀ apps, WellFormed widen data apps →
    ∃ fuel library, readLibraryCache widen fuel data = some (some library) ∧
      ∀ app ∈ apps,
        library.appInfoCacheMap.lookup app.appId = some (app.propertyTable.collect .nil)

/-- The reader is right about a file without apps that is read to an end. -/
theorem library_iff (widen : UInt8 → Option UInt32) (data : List UInt8) :
    Correct widen data ↔
      Ends widen data ∧ ∀ apps, WellFormed widen data apps → apps = [] := by
  rw [Correct, ← reads_iff]
  refine and_congr_right fun hreads => forall_congr' fun apps => ?_
  refine imp_congr_right fun hformed => ?_
  constructor
  · rintro ⟨fuel, library, hread, happs⟩
    refine List.eq_nil_iff_forall_not_mem.mpr fun app hmem => ?_
    have hlookup := happs app hmem
    rw [appInfoCacheMap_eq_nil hread] at hlookup
    cases hlookup
  · rintro rfl
    obtain ⟨fuel, result, hread⟩ := hreads
    obtain ⟨magicNumber, hm⟩ := hformed.1.magic
    cases result with
    | none => exact absurd hread (readLibraryCache_ne_null hm fuel)
    | some library => exact ⟨fuel, library, hread, fun app hmem => absurd hmem List.not_mem_nil⟩

/-- An app without properties is not in the library. A string table with a string, or a file that
ends behind the id of an app, is not read to an end. -/
theorem not_library :
    ¬ Correct (fun b => some b.toUInt32)
      ([0x27, 0x44, 0x56, 0x07, 1, 0, 0, 0, 10, 0, 0, 0] ++ List.replicate 44 0 ++
        [8, 0, 0, 0, 0]) ∧
    ¬ Correct (fun b => some b.toUInt32)
      [0x29, 0x44, 0x56, 0x07, 1, 0, 0, 0, 20, 0, 0, 0, 0, 0, 0, 0, 0, 0, 0, 0, 1, 0, 0, 0, 0] ∧
    ¬ Correct (fun b => some b.toUInt32)
      [0x27, 0x44, 0x56, 0x07, 1, 0, 0, 0, 10, 0, 0, 0] := by
  refine ⟨?_, ?_, ?_⟩
  · rintro ⟨-, hlibrary⟩
    have happs : AppsBytes (fun b => some b.toUInt32) .v1 .inline False [⟨10, .nil⟩]
        (toBytes 4 10 ++ (List.replicate 44 0 ++ ([8] ++ []))) :=
      .cons (by decide) (by decide) .endOfTable .nil
    have hformed : WellFormed (fun b => some b.toUInt32)
        ([0x27, 0x44, 0x56, 0x07, 1, 0, 0, 0, 10, 0, 0, 0] ++ List.replicate 44 0 ++
          [8, 0, 0, 0, 0]) [⟨10, .nil⟩] :=
      ⟨@FileBytes.inline _ _ .v1 1 _ _ rfl happs (by decide), by decide⟩
    obtain ⟨fuel, library, hread, hmap⟩ := hlibrary _ hformed
    have hlookup := hmap _ (List.mem_singleton_self _)
    rw [appInfoCacheMap_eq_nil hread] at hlookup
    cases hlookup
  · rintro ⟨hreads, -⟩
    have hends := reads_iff.mp hreads .v3 (by decide)
    rw [if_pos (show MagicNumber.hasStringTable .v3 = true from rfl)] at hends
    obtain hlength | hoffset | ⟨hcount, -⟩ := hends
    · exact absurd hlength (by decide)
    · exact absurd hoffset (by decide)
    · exact absurd hcount (by decide)
  · rintro ⟨hreads, -⟩
    have hends := reads_iff.mp hreads .v1 (by decide)
    rw [if_neg (by decide)] at hends
    obtain hlength | ⟨apps, bytes, behind, hbytes, happs, hend⟩ := hends
    · exact absurd hlength (by decide)
    cases happs with
    | nil =>
        rw [List.nil_append] at hbytes
        subst hbytes
        have hid : ofBytes ([10, 0, 0, 0].take 4) = 0 := hend
        exact absurd hid (by decide)
    | cons _ hhead _ _ =>
        have hlength := congrArg List.length hbytes
        simp [hhead, headSize] at hlength

end Utilpp.Steam.AppInfo

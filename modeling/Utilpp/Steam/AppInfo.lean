import Utilpp.Lib.FileStream
import Utilpp.Lib.LittleEndian

/-!
# The reader of the app info cache

`FSteamLocalCacheHelper::ReadLibraryCache` over the bytes of the file. It keeps two streams on the
file, one of them for wide strings, whose bytes are converted one by one by the locale: `widen` is
a parameter. The reader is `none` while its fuel does not suffice, and where it goes on with what
nothing was written to or takes a string that `StringPool` does not have. A value that is not there
is made of the bytes that are: the source has something else in it then, but the type that is
read next is missing too.
-/

namespace Utilpp.Steam.AppInfo

open Lib FileStream

/-- `EMagicNumber` -/
inductive MagicNumber where
  | v1
  | v2
  | v3
  deriving DecidableEq, Repr

/-- The value of the enumerator. -/
def MagicNumber.value : MagicNumber → Nat
  | v1 => 123094055
  | v2 => 123094056
  | v3 => 123094057

/-- `IsMagicNumberValid`, with the enumerator. -/
def MagicNumber.ofValue (value : Nat) : Option MagicNumber :=
  if value = 123094055 then some v1
  else if value = 123094056 then some v2
  else if value = 123094057 then some v3
  else none

/-- `HasStringTable` -/
def MagicNumber.hasStringTable : MagicNumber → Bool
  | v3 => true
  | _ => false

/-- A `std::string`. -/
abbrev Name := List UInt8

/-- The alternatives of `SteamPropertyCache_t` that are not tables; a `float` is its bits. -/
inductive Value where
  | string (value : List UInt8)
  | wstring (value : List UInt32)
  | int32 (value : Int32)
  | float (bits : UInt32)
  | color (r g b : UInt8)
  | uint64 (value : UInt64)
  deriving DecidableEq, Repr

/-- `FSteamPropertyTable`: the entries in the order in which they were put in. -/
inductive PropertyTable where
  | nil
  | value (name : Name) (value : Value) (rest : PropertyTable)
  | table (name : Name) (child rest : PropertyTable)
  deriving DecidableEq, Repr

namespace PropertyTable

/-- The table has an entry for the name. -/
def has (name : Name) : PropertyTable → Bool
  | nil => false
  | value other _ rest => other = name || has name rest
  | table other _ rest => other = name || has name rest

/-- The entries of one table behind those of another. -/
def append : PropertyTable → PropertyTable → PropertyTable
  | nil, last => last
  | value name v rest, last => value name v (append rest last)
  | table name child rest, last => table name child (append rest last)

/-- `try_emplace` of an entry: a name that is there keeps its entry. -/
def tryEmplace (properties : PropertyTable) (name : Name) (entry : PropertyTable) :
    PropertyTable :=
  if properties.has name then properties else properties.append entry

end PropertyTable

/-- `SteamAppInfoCache_t` -/
structure App where
  appId : UInt32
  propertyTable : PropertyTable
  deriving DecidableEq, Repr

/-- `SteamAppInfoStringTable_t` -/
structure StringTable where
  stringTableOffset : Int64 := 0
  stringCount : UInt32 := 0
  stringPool : List Name := []
  deriving DecidableEq, Repr

/-- `SteamCachedLibrary_t` -/
structure CachedLibrary where
  magicNumber : MagicNumber
  universeNumber : UInt32
  stringTable : StringTable
  appInfoCacheMap : List (UInt32 × PropertyTable)
  deriving DecidableEq, Repr

/-- The streams `file` and `wif`. -/
structure Files where
  file : FileStream
  wif : FileStream
  deriving DecidableEq, Repr

/-- `file.read` of a number that is zero before. -/
def Files.readNumber (files : Files) (n : Nat) : Nat × Files :=
  let bytes := files.file.read n
  (ofBytes bytes.1, { files with file := bytes.2 })

/-- `std::getline(file, ..., '\0')` -/
def Files.getline (files : Files) : Name × Files :=
  let line := files.file.getline some 0
  (line.1, { files with file := line.2 })

/-- `file.seekg(file.tellg() + std::streamoff(n))` -/
def Files.skip (files : Files) (n : Nat) : Files :=
  let pos := files.file.tellg
  { files with file := pos.2.seekg (pos.1 + n) }

variable (widen : UInt8 → Option UInt32)

/-- A wide string, that is read from `wif` at the position of `file`. -/
def Files.getWideLine (files : Files) : List UInt32 × Files :=
  let pos := files.file.tellg
  let line := (files.wif.seekg pos.1).getline widen 0
  let next := line.2.tellg
  (line.1, { file := pos.2.seekg next.1, wif := next.2 })

/-- A `case` of `ReadPropertyTable` that is not the one of tables. Nothing is read for a type that
has no `case`. -/
def readValue (type : UInt8) (files : Files) : Option Value × Files :=
  if type = 1 then
    let line := files.getline
    (some (.string line.1), line.2)
  else if type = 5 then
    let line := files.getWideLine widen
    (some (.wstring line.1), line.2)
  else if type = 2 then
    let number := files.readNumber 4
    (some (.int32 (UInt32.ofNat number.1).toInt32), number.2)
  else if type = 3 then
    let number := files.readNumber 4
    (some (.float (.ofNat number.1)), number.2)
  else if type = 6 then
    let r := files.readNumber 1
    let g := r.2.readNumber 1
    let b := g.2.readNumber 1
    (some (.color (.ofNat r.1) (.ofNat g.1) (.ofNat b.1)), b.2)
  else if type = 7 then
    let number := files.readNumber 8
    (some (.uint64 (.ofNat number.1)), number.2)
  else (none, files)

/-- Where the names are: in front of the values, or in a table of strings. -/
inductive Names where
  | inline
  | pool (strings : List Name)
  deriving DecidableEq, Repr

/-- The name of a property. An index is a signed number without a value before it is read. -/
def readName (names : Names) (files : Files) : Option (Name × Files) :=
  match names with
  | .inline => some files.getline
  | .pool strings =>
      let index := files.file.read 4
      if index.1.length < 4 ∨ 2 ^ 31 ≤ ofBytes index.1 then none
      else (strings[ofBytes index.1]?).map fun name => (name, { files with file := index.2 })

/-- `ReadPropertyTable`. The type is a variable without a value, and the loop ends when it is that
of the end of a table. -/
def readPropertyTable (names : Names) :
    Nat → Files → PropertyTable → Option (PropertyTable × Files)
  | 0, _, _ => none
  | fuel + 1, files, properties =>
      let type := files.file.read 1
      match type.1 with
      | [] => none
      | type' :: _ =>
          let files := { files with file := type.2 }
          if type' = 8 then some (properties, files)
          else do
            let (name, files) ← readName names files
            if type' = 0 then do
              let (child, files) ← readPropertyTable names fuel files .nil
              readPropertyTable names fuel files
                (properties.tryEmplace name (.table name child .nil))
            else
              let value := readValue widen type' files
              readPropertyTable names fuel value.2
                (match value.1 with
                | some v => properties.tryEmplace name (.value name v .nil)
                | none => properties)

/-- What is skipped between the id of an app and its properties. -/
def skipHead (magicNumber : MagicNumber) (files : Files) : Files :=
  -- the count is not used
  let files := (files.readNumber 4).2
  let files := ((files.skip 16).skip 20).skip 4
  if magicNumber = .v2 ∨ magicNumber = .v3 then files.skip 20 else files

/-- The loop over the apps, with what `pSteamAppInfo` holds at the end of each iteration. -/
def readApps (magicNumber : MagicNumber) (names : Names) :
    Nat → Files → Option (List App × Files)
  | 0, _ => none
  | fuel + 1, files => do
      let appId := files.readNumber 4
      if appId.1 = 0 then some ([], appId.2)
      else do
        let (properties, files) ←
          readPropertyTable widen names fuel (skipHead magicNumber appId.2) .nil
        let (apps, files) ← readApps magicNumber names fuel files
        some (⟨.ofNat appId.1, properties⟩ :: apps, files)

/-- The loop that fills `StringPool`. -/
def readStrings (count : Nat) (stringPool : List Name) (file : FileStream) :
    Option (List Name × FileStream) :=
  (List.range count).foldlM (fun (stringPool, file) i =>
    if i < stringPool.length then
      let line := file.getline some 0
      some (stringPool.set i line.1, line.2)
    else none) (stringPool, file)

/-- The part of `ReadLibraryCache` that reads `StringTable` and goes back. -/
def readStringTable (file : FileStream) : Option (StringTable × FileStream) := do
  let offset := file.read 8
  let stringTableOffset := (UInt64.ofNat (ofBytes offset.1)).toInt64
  let pos := offset.2.tellg
  let count := (pos.2.seekg stringTableOffset.toInt).read 4
  -- `reserve` leaves the vector empty
  let (stringPool, file) ← readStrings (ofBytes count.1) [] count.2
  some (⟨stringTableOffset, .ofNat (ofBytes count.1), stringPool⟩, file.seekg pos.1)

/-- `FSteamLocalCacheHelper::ReadLibraryCache` on a file with these bytes; the inner `none` is the
null pointer. -/
def readLibraryCache (fuel : Nat) (data : List UInt8) : Option (Option CachedLibrary) :=
  let header := (opened data).read 8
  match MagicNumber.ofValue (ofBytes (header.1.take 4)) with
  | none => some none
  | some magicNumber => do
      let (stringTable, file) ←
        if magicNumber.hasStringTable then readStringTable header.2 else some ({}, header.2)
      let names := if magicNumber.hasStringTable then .pool stringTable.stringPool else .inline
      -- the apps are not put into the map
      let _ ← readApps widen magicNumber names fuel ⟨file, opened data⟩
      some (some
        { magicNumber := magicNumber
          universeNumber := .ofNat (ofBytes (header.1.drop 4))
          stringTable := stringTable
          appInfoCacheMap := [] })

end Utilpp.Steam.AppInfo

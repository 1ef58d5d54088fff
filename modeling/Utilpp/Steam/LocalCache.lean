import Utilpp.Lib.Transition
import Mathlib.Data.List.AList
import Mathlib.Logic.Function.Basic

/-!
# The cache of the Steam library

`FSteamLocalCacheHelper::Tick` takes new folders, removed folders and changed apps from three
queues, applies them to `SteamLibraryCacheInfo` and tells its listeners of every change. `processed`
is what one iteration of one of its three loops does. A listener builds its own picture of the
library from what it is told; it accepts a `Create` only for what it does not have and an `Update`
or `Delete` only for what it has.
-/

namespace Utilpp.Steam.LocalCache

open Lib

/-- `EDataOp` -/
inductive DataOp where
  | create
  | update
  | check
  | delete
  deriving DecidableEq, Repr

/-- `SteamLibraryAppUpdateInfo_t` -/
structure AppUpdateInfo where
  bytesToDownload : UInt64 := 0
  bytesDownloaded : UInt64 := 0
  bytesToStage : UInt64 := 0
  bytesStaged : UInt64 := 0
  deriving DecidableEq, Repr

/-- `SteamLibraryAppInfo_t` -/
structure AppInfo where
  appID : UInt32 := 0
  size : UInt64 := 0
  lastPlayed : UInt64 := 0
  stateFlags : UInt32 := 0
  updateInfo : AppUpdateInfo := {}
  name : String := ""
  installDir : String := ""
  deriving DecidableEq, Repr

/-- `SteamLibraryFolderInfo_t::Apps`: every app stands under its own id. -/
structure Apps where
  map : AList fun _ : UInt32 => AppInfo
  keyed : ∀ id info, map.lookup id = some info → info.appID = id

namespace Apps

/-- No apps. -/
def empty : Apps := ⟨∅, fun _ _ h => nomatch h⟩

/-- `Apps.insert_or_assign(pAppInfo->AppID, pAppInfo)` -/
def insertOrAssign (apps : Apps) (info : AppInfo) : Apps where
  map := apps.map.insert info.appID info
  keyed id info' h := by
    by_cases heq : id = info.appID
    · subst heq
      rw [AList.lookup_insert, Option.some.injEq] at h
      rw [← h]
    · rw [AList.lookup_insert_ne heq] at h
      exact apps.keyed id info' h

/-- `Apps.erase` -/
def erase (apps : Apps) (id : UInt32) : Apps where
  map := apps.map.erase id
  keyed id' info h := by
    by_cases heq : id' = id
    · subst heq
      exact nomatch (AList.lookup_erase id' apps.map).symm.trans h
    · rw [AList.lookup_erase_ne heq] at h
      exact apps.keyed id' info h

end Apps

/-- `SteamLibraryFolderInfo_t` -/
structure FolderInfo where
  apps : Apps
  path : String
  name : String
  totalSize : UInt64

/-- `SteamLibraryCacheInfo`: every folder stands under its own path. -/
structure CacheInfo where
  map : AList fun _ : String => FolderInfo
  keyed : ∀ path folder, map.lookup path = some folder → folder.path = path

namespace CacheInfo

/-- No folders. -/
def empty : CacheInfo := ⟨∅, fun _ _ h => nomatch h⟩

/-- The folder stands under its path. -/
def insert (cache : CacheInfo) (folder : FolderInfo) : CacheInfo where
  map := cache.map.insert folder.path folder
  keyed path folder' h := by
    by_cases heq : path = folder.path
    · subst heq
      rw [AList.lookup_insert, Option.some.injEq] at h
      rw [← h]
    · rw [AList.lookup_insert_ne heq] at h
      exact cache.keyed path folder' h

theorem lookup_insert (cache : CacheInfo) (folder : FolderInfo) :
    (cache.insert folder).map.lookup folder.path = some folder :=
  AList.lookup_insert ..

theorem lookup_insert_ne (cache : CacheInfo) {folder : FolderInfo} {path : String}
    (h : path ≠ folder.path) :
    (cache.insert folder).map.lookup path = cache.map.lookup path :=
  AList.lookup_insert_ne h

/-- `SteamLibraryCacheInfo.try_emplace` -/
def tryEmplace (cache : CacheInfo) (folder : FolderInfo) : CacheInfo :=
  match cache.map.lookup folder.path with
  | some _ => cache
  | none => cache.insert folder

end CacheInfo

/-- What the listeners are told. -/
inductive Notice where
  | folder (op : DataOp) (folder : FolderInfo)
  | app (op : DataOp) (folder : FolderInfo) (info : AppInfo)

/-- `AppInfoChangeEvent_t`: an app is deleted, or its information was read. -/
inductive AppChange where
  | delete (appID : UInt32)
  | put (info : AppInfo)

/-- An item of one of the queues. -/
inductive Item where
  | newFolder (folder : FolderInfo)
  | removeFolder (path : String)
  | appInfoChange (libraryPath : String) (change : AppChange)

/-- The cache, the three queues, and what the listeners were told so far. -/
structure LocalCacheHelper where
  steamLibraryCacheInfo : CacheInfo
  newSteamLibraryFolderInfoQueue : List FolderInfo
  removeSteamLibraryFolderInfoQueue : List String
  appInfoChangeEventQueue : List (String × AppChange)
  notices : List Notice

namespace LocalCacheHelper

/-- A helper that knows of no folder. -/
def init : LocalCacheHelper :=
  { steamLibraryCacheInfo := .empty, newSteamLibraryFolderInfoQueue := []
    removeSteamLibraryFolderInfoQueue := [], appInfoChangeEventQueue := [], notices := [] }

/-- The new cache and what is told of a change. -/
def tell (helper : LocalCacheHelper) (cache : CacheInfo) (notices : List Notice) :
    LocalCacheHelper :=
  { helper with steamLibraryCacheInfo := cache, notices := helper.notices ++ notices }

/-- What is told of a new folder. -/
def newFolderNotices (folder : FolderInfo) : List Notice :=
  .folder .create folder :: folder.apps.map.entries.map fun entry => .app .create folder entry.2

/-- The change of an app in a folder that is in the cache. -/
def changeApp (helper : LocalCacheHelper) (folder : FolderInfo) : AppChange → LocalCacheHelper
  | .delete appID =>
      match folder.apps.map.lookup appID with
      | none => helper
      | some info =>
          helper.tell
            (helper.steamLibraryCacheInfo.insert { folder with apps := folder.apps.erase appID })
            -- the source tells `Create` here, with the app that is erased
            [.app .create folder info]
  | .put info =>
      let folder' := { folder with apps := folder.apps.insertOrAssign info }
      let op :=
        match folder.apps.map.lookup info.appID with
        | none => .create
        | some _ => .update
      helper.tell (helper.steamLibraryCacheInfo.insert folder') [.app op folder' info]

/-- One iteration of one of the loops of `Tick`. A folder that is removed is told of through
references into the entry that was just erased, which is undefined. -/
def processed (helper : LocalCacheHelper) : Item → Option LocalCacheHelper
  | .newFolder folder =>
      some (helper.tell (helper.steamLibraryCacheInfo.tryEmplace folder) (newFolderNotices folder))
  | .removeFolder path =>
      match helper.steamLibraryCacheInfo.map.lookup path with
      | none => some helper
      -- the entry is erased before it is told of
      | some _ => none
  | .appInfoChange libraryPath change =>
      match helper.steamLibraryCacheInfo.map.lookup libraryPath with
      | none => some helper
      | some folder => some (helper.changeApp folder change)

/-- The items `Tick` takes from the queues, in its order. -/
def batch (helper : LocalCacheHelper) : List Item :=
  helper.newSteamLibraryFolderInfoQueue.map .newFolder ++
    helper.removeSteamLibraryFolderInfoQueue.map .removeFolder ++
    helper.appInfoChangeEventQueue.map fun event => .appInfoChange event.1 event.2

/-- The helper with empty queues. -/
def emptied (helper : LocalCacheHelper) : LocalCacheHelper :=
  { helper with
    newSteamLibraryFolderInfoQueue := [], removeSteamLibraryFolderInfoQueue := []
    appInfoChangeEventQueue := [] }

/-- `Tick` -/
def tick (helper : LocalCacheHelper) : Option LocalCacheHelper :=
  exec processed helper.emptied helper.batch

end LocalCacheHelper

/-- An item is put into its queue, or `Tick` runs. -/
inductive Event where
  | enqueue (item : Item)
  | tick

/-- The helper after one event. -/
def step (helper : LocalCacheHelper) : Event → Option LocalCacheHelper
  | .enqueue (.newFolder folder) =>
      some { helper with newSteamLibraryFolderInfoQueue :=
        helper.newSteamLibraryFolderInfoQueue ++ [folder] }
  | .enqueue (.removeFolder path) =>
      some { helper with removeSteamLibraryFolderInfoQueue :=
        helper.removeSteamLibraryFolderInfoQueue ++ [path] }
  | .enqueue (.appInfoChange libraryPath change) =>
      some { helper with appInfoChangeEventQueue :=
        helper.appInfoChangeEventQueue ++ [(libraryPath, change)] }
  | .tick => helper.tick

/-! ## The listener -/

/-- What a listener knows: name and size of each folder, and the apps of each folder. -/
structure Listener where
  folders : String → Option (String × UInt64)
  apps : String × UInt32 → Option AppInfo

namespace Listener

/-- A listener that was told nothing. -/
def empty : Listener := ⟨fun _ => none, fun _ => none⟩

/-- The listener after one notice, if it makes sense to it. -/
def apply (listener : Listener) : Notice → Option Listener
  | .folder op folder =>
      let set := fun value =>
        { listener with folders := Function.update listener.folders folder.path value }
      match op, listener.folders folder.path with
      | .create, none => some (set (some (folder.name, folder.totalSize)))
      | .update, some _ => some (set (some (folder.name, folder.totalSize)))
      | .delete, some _ => some (set none)
      | _, _ => none
  | .app op folder info =>
      let set := fun value =>
        { listener with apps := Function.update listener.apps (folder.path, info.appID) value }
      match op, listener.apps (folder.path, info.appID) with
      | .create, none => some (set (some info))
      | .update, some _ => some (set (some info))
      | .delete, some _ => some (set none)
      | _, _ => none

/-- The listener has exactly the folders of the cache and their apps. -/
structure Agrees (listener : Listener) (cache : CacheInfo) : Prop where
  folders : ∀ path, listener.folders path =
    (cache.map.lookup path).map fun folder => (folder.name, folder.totalSize)
  apps : ∀ path id, listener.apps (path, id) =
    (cache.map.lookup path).bind fun folder => folder.apps.map.lookup id

end Listener

end Utilpp.Steam.LocalCache

import Utilpp.Steam.LocalCache

/-!
# What a listener of the library cache knows

A listener that applies everything it is told has, after every `Tick`, the folders and apps of the
cache. The items for which `Tick` tells something else than it does are excluded by `Item.Fresh`: a
folder that is there already, the removal of a folder that is there, and the removal of an app that
is there.
-/

namespace Utilpp.Steam.LocalCache

open Lib

/-- The item is none of those that `Tick` tells the listeners wrongly of. -/
def Item.Fresh (helper : LocalCacheHelper) : Item → Prop
  | .newFolder folder => helper.steamLibraryCacheInfo.map.lookup folder.path = none
  | .removeFolder path => helper.steamLibraryCacheInfo.map.lookup path = none
  | .appInfoChange libraryPath (.delete appID) =>
      ∀ folder, helper.steamLibraryCacheInfo.map.lookup libraryPath = some folder →
        folder.apps.map.lookup appID = none
  | .appInfoChange _ (.put _) => True

/-- Everything that was told makes sense, and gives the cache. -/
def LocalCacheHelper.Told (helper : LocalCacheHelper) : Prop :=
  ∃ listener, helper.notices.foldlM Listener.apply .empty = some listener ∧
    listener.Agrees helper.steamLibraryCacheInfo

theorem told_init : LocalCacheHelper.init.Told :=
  ⟨.empty, rfl, ⟨fun _ => rfl, fun _ _ => rfl⟩⟩

namespace Listener

/-- A `Create` makes sense for a folder that the listener has not. -/
theorem apply_folder_create (listener : Listener) (folder : FolderInfo) :
    listener.apply (.folder .create folder) = (listener.folders folder.path).elim
      (some { listener with
        folders := Function.update listener.folders folder.path
          (some (folder.name, folder.totalSize)) })
      fun _ => none := by
  unfold apply
  dsimp only
  cases listener.folders folder.path <;> rfl

/-- A `Create` makes sense for an app that the listener has not. -/
theorem apply_app_create (listener : Listener) (folder : FolderInfo) (info : AppInfo) :
    listener.apply (.app .create folder info) = (listener.apps (folder.path, info.appID)).elim
      (some { listener with
        apps := Function.update listener.apps (folder.path, info.appID) (some info) })
      fun _ => none := by
  unfold apply
  dsimp only
  cases listener.apps (folder.path, info.appID) <;> rfl

/-- An `Update` makes sense for an app that the listener has. -/
theorem apply_app_update (listener : Listener) (folder : FolderInfo) (info : AppInfo) :
    listener.apply (.app .update folder info) = (listener.apps (folder.path, info.appID)).elim
      none
      fun _ => some { listener with
        apps := Function.update listener.apps (folder.path, info.appID) (some info) } := by
  unfold apply
  dsimp only
  cases listener.apps (folder.path, info.appID) <;> rfl

/-- The apps of a new folder are created one after another. -/
theorem apply_apps_create {folder : FolderInfo} {entries : List (Sigma fun _ : UInt32 => AppInfo)}
    (hnodup : entries.NodupKeys) (hkeyed : ∀ entry ∈ entries, entry.2.appID = entry.1)
    {listener : Listener} (hnew : ∀ id ∈ entries.keys, listener.apps (folder.path, id) = none) :
    ∃ listener',
      (entries.map fun entry => Notice.app .create folder entry.2).foldlM apply listener =
        some listener' ∧ listener'.folders = listener.folders ∧
      (∀ id, listener'.apps (folder.path, id) =
        (entries.dlookup id).or (listener.apps (folder.path, id))) ∧
      ∀ path, path ≠ folder.path → ∀ id, listener'.apps (path, id) = listener.apps (path, id) := by
  induction entries generalizing listener with
  | nil => exact ⟨listener, rfl, rfl, fun _ => rfl, fun _ _ _ => rfl⟩
  | cons entry entries ih =>
      obtain ⟨key, info⟩ := entry
      obtain ⟨hkey, hrest⟩ := List.nodupKeys_cons.mp hnodup
      obtain rfl : info.appID = key := hkeyed ⟨key, info⟩ List.mem_cons_self
      have hfirst : listener.apply (.app .create folder info) = some { listener with
          apps := Function.update listener.apps (folder.path, info.appID) (some info) } := by
        rw [apply_app_create, hnew info.appID (List.mem_cons_self ..)]
        rfl
      have hothers : ∀ id, id ≠ info.appID →
          Function.update listener.apps (folder.path, info.appID) (some info) (folder.path, id) =
            listener.apps (folder.path, id) := by
        intro id hne
        exact Function.update_of_ne (fun heq => hne (Prod.mk.inj heq).2) _ _
      obtain ⟨listener', hfold, hfolders, hthis, hother⟩ :=
        @ih hrest (fun e he => hkeyed e (List.mem_cons_of_mem _ he))
          { listener with
            apps := Function.update listener.apps (folder.path, info.appID) (some info) }
          (fun id hid => by
            show Function.update listener.apps (folder.path, info.appID) (some info) _ = none
            rw [hothers id fun heq => hkey (heq ▸ hid)]
            exact hnew id (List.mem_cons_of_mem _ hid))
      refine ⟨listener', ?_, hfolders, fun id => ?_, fun path hne id => ?_⟩
      · rw [List.map_cons, List.foldlM_cons, hfirst]
        exact hfold
      · rw [hthis id]
        show Option.or _ (Function.update listener.apps (folder.path, info.appID) (some info) _) = _
        by_cases heq : id = info.appID
        · rw [heq, List.dlookup_cons_eq, List.dlookup_eq_none.mpr hkey, Function.update_self]
          rfl
        · rw [List.dlookup_cons_ne _ _ heq, hothers id heq]
      · rw [hother path hne id]
        exact Function.update_of_ne (fun heq => hne (Prod.mk.inj heq).1) _ _

/-- A listener that learns of one folder agrees with the cache that has this folder. -/
theorem Agrees.insert {listener listener' : Listener} {cache : CacheInfo} {folder : FolderInfo}
    (h : listener.Agrees cache)
    (hfolder : listener'.folders folder.path = some (folder.name, folder.totalSize))
    (hfolders : ∀ path, path ≠ folder.path → listener'.folders path = listener.folders path)
    (happs : ∀ id, listener'.apps (folder.path, id) = folder.apps.map.lookup id)
    (hothers : ∀ path, path ≠ folder.path → ∀ id,
      listener'.apps (path, id) = listener.apps (path, id)) :
    listener'.Agrees (cache.insert folder) := by
  constructor
  · intro path
    by_cases heq : path = folder.path
    · rw [heq, hfolder, CacheInfo.lookup_insert]
      rfl
    · rw [hfolders path heq, CacheInfo.lookup_insert_ne cache heq]
      exact h.folders path
  · intro path id
    by_cases heq : path = folder.path
    · rw [heq, happs id, CacheInfo.lookup_insert]
      rfl
    · rw [hothers path heq id, CacheInfo.lookup_insert_ne cache heq]
      exact h.apps path id

end Listener

namespace LocalCacheHelper

theorem told_tell {helper : LocalCacheHelper} {cache : CacheInfo} {notices : List Notice}
    {listener listener' : Listener}
    (htold : helper.notices.foldlM Listener.apply .empty = some listener)
    (hnotices : notices.foldlM Listener.apply listener = some listener')
    (hagrees : listener'.Agrees cache) : (helper.tell cache notices).Told := by
  refine ⟨listener', ?_, hagrees⟩
  rw [tell, List.foldlM_append, htold]
  exact hnotices

/-- A new folder is told of with all its apps. -/
theorem Told.newFolder {helper : LocalCacheHelper} {folder : FolderInfo} (h : helper.Told)
    (hnew : helper.steamLibraryCacheInfo.map.lookup folder.path = none) :
    (helper.tell (helper.steamLibraryCacheInfo.tryEmplace folder)
      (newFolderNotices folder)).Told := by
  obtain ⟨listener, htold, hagrees⟩ := h
  have hfolder : listener.folders folder.path = none := by
    rw [hagrees.folders, hnew]
    rfl
  have hcreate : listener.apply (.folder .create folder) = some { listener with
      folders := Function.update listener.folders folder.path
        (some (folder.name, folder.totalSize)) } := by
    rw [Listener.apply_folder_create, hfolder]
    rfl
  obtain ⟨listener', hfold, hfolders, hthis, hother⟩ := @Listener.apply_apps_create folder
    folder.apps.map.entries folder.apps.map.nodupKeys
    (fun entry hentry => folder.apps.keyed entry.1 entry.2
      (List.mem_dlookup folder.apps.map.nodupKeys hentry))
    { listener with
      folders := Function.update listener.folders folder.path
        (some (folder.name, folder.totalSize)) }
    (fun id _ => by
      rw [hagrees.apps, hnew]
      rfl)
  have hnotices : (newFolderNotices folder).foldlM Listener.apply listener = some listener' := by
    rw [newFolderNotices, List.foldlM_cons, hcreate]
    exact hfold
  rw [CacheInfo.tryEmplace, hnew]
  refine told_tell htold hnotices (hagrees.insert ?_ (fun path hne => ?_) (fun id => ?_) hother)
  · rw [hfolders]
    exact Function.update_self ..
  · rw [hfolders]
    exact Function.update_of_ne hne ..
  · rw [hthis id, hagrees.apps, hnew]
    exact Option.or_none

/-- An app that was read is told of as new when the folder did not have it. -/
theorem Told.putApp {helper : LocalCacheHelper} {folder : FolderInfo} {info : AppInfo}
    (h : helper.Told)
    (hfolder : helper.steamLibraryCacheInfo.map.lookup folder.path = some folder) :
    (helper.changeApp folder (.put info)).Told := by
  obtain ⟨listener, htold, hagrees⟩ := h
  have happs : ∀ id, listener.apps (folder.path, id) = folder.apps.map.lookup id := by
    intro id
    rw [hagrees.apps, hfolder]
    rfl
  let folder' := { folder with apps := folder.apps.insertOrAssign info }
  let listener' := { listener with
    apps := Function.update listener.apps (folder.path, info.appID) (some info) }
  have hinsert : listener'.Agrees (helper.steamLibraryCacheInfo.insert folder') := by
    refine hagrees.insert ?_ (fun _ _ => rfl) (fun id => ?_) (fun path hne id => ?_)
    · show listener.folders folder.path = _
      rw [hagrees.folders, hfolder]
      rfl
    · show Function.update listener.apps (folder.path, info.appID) (some info) (folder.path, id) =
        (folder.apps.insertOrAssign info).map.lookup id
      by_cases heq : id = info.appID
      · rw [heq, Function.update_self]
        exact (AList.lookup_insert folder.apps.map).symm
      · rw [Function.update_of_ne fun hpair => heq (Prod.mk.inj hpair).2, happs]
        exact (AList.lookup_insert_ne heq).symm
    · exact Function.update_of_ne (fun hpair => hne (Prod.mk.inj hpair).1) _ _
  simp only [changeApp]
  cases hold : folder.apps.map.lookup info.appID with
  | none =>
      refine told_tell htold ?_ hinsert
      rw [List.foldlM_cons, Listener.apply_app_create, (happs info.appID).trans hold]
      rfl
  | some old =>
      refine told_tell htold ?_ hinsert
      rw [List.foldlM_cons, Listener.apply_app_update, (happs info.appID).trans hold]
      rfl

/-- An item that is none of those `Tick` tells wrongly of keeps the listeners informed. -/
theorem Told.processed {helper : LocalCacheHelper} {item : Item} (h : helper.Told)
    (hfresh : item.Fresh helper) :
    ∃ helper', helper.processed item = some helper' ∧ helper'.Told := by
  cases item with
  | newFolder folder => exact ⟨_, rfl, h.newFolder hfresh⟩
  | removeFolder path =>
      refine ⟨helper, ?_, h⟩
      rw [LocalCacheHelper.processed, show _ = none from hfresh]
  | appInfoChange libraryPath change =>
      rw [LocalCacheHelper.processed]
      cases hfolder : helper.steamLibraryCacheInfo.map.lookup libraryPath with
      | none => exact ⟨helper, rfl, h⟩
      | some folder =>
          cases change with
          | delete appID =>
              refine ⟨helper, ?_, h⟩
              show some (helper.changeApp folder (.delete appID)) = some helper
              rw [changeApp, hfresh folder hfolder]
          | put info =>
              obtain rfl := helper.steamLibraryCacheInfo.keyed libraryPath folder hfolder
              exact ⟨_, rfl, h.putApp hfolder⟩

/-- Some notice made no sense. -/
def Misled (helper : LocalCacheHelper) : Prop :=
  helper.notices.foldlM Listener.apply .empty = none

theorem Misled.not_told {helper : LocalCacheHelper} (h : helper.Misled) : ¬ helper.Told := by
  rintro ⟨listener, htold, -⟩
  exact nomatch h.symm.trans htold

theorem Misled.tell {helper : LocalCacheHelper} (h : helper.Misled) (cache : CacheInfo)
    (notices : List Notice) : (helper.tell cache notices).Misled := by
  show List.foldlM Listener.apply .empty (helper.notices ++ notices) = none
  rw [List.foldlM_append, show _ = none from h]
  rfl

/-- A notice that makes no sense is never made good. -/
theorem Misled.processed {helper helper' : LocalCacheHelper} {item : Item} (h : helper.Misled)
    (hstep : helper.processed item = some helper') : helper'.Misled := by
  cases item with
  | newFolder folder =>
      cases hstep
      exact h.tell ..
  | removeFolder path =>
      rw [LocalCacheHelper.processed] at hstep
      split at hstep
      · cases hstep
        exact h
      · cases hstep
  | appInfoChange libraryPath change =>
      rw [LocalCacheHelper.processed] at hstep
      split at hstep
      · cases hstep
        exact h
      · cases hstep
        cases change with
        | delete appID =>
            rw [changeApp]
            split
            · exact h
            · exact h.tell ..
        | put info => exact h.tell ..

/-- The first notice of a change that makes no sense misleads the listeners. -/
theorem misled_tell {helper : LocalCacheHelper} {cache : CacheInfo} {notice : Notice}
    {notices : List Notice} {listener : Listener}
    (htold : helper.notices.foldlM Listener.apply .empty = some listener)
    (hnotice : listener.apply notice = none) : (helper.tell cache (notice :: notices)).Misled := by
  show List.foldlM Listener.apply .empty (helper.notices ++ notice :: notices) = none
  rw [List.foldlM_append, htold]
  show List.foldlM Listener.apply listener (notice :: notices) = none
  rw [List.foldlM_cons, hnotice]
  rfl

/-- Every other item is undefined or misleads them. -/
theorem Told.processed_not_fresh {helper helper' : LocalCacheHelper} {item : Item} (h : helper.Told)
    (hfresh : ¬ item.Fresh helper) (hstep : helper.processed item = some helper') :
    helper'.Misled := by
  obtain ⟨listener, htold, hagrees⟩ := h
  cases item with
  | newFolder folder =>
      cases hstep
      obtain ⟨old, hold⟩ := Option.ne_none_iff_exists'.mp hfresh
      refine misled_tell htold ?_
      rw [Listener.apply_folder_create, hagrees.folders, hold]
      rfl
  | removeFolder path =>
      obtain ⟨old, hold⟩ := Option.ne_none_iff_exists'.mp hfresh
      rw [LocalCacheHelper.processed, hold] at hstep
      cases hstep
  | appInfoChange libraryPath change =>
      cases change with
      | put info => exact absurd trivial hfresh
      | delete appID =>
          simp only [Item.Fresh, not_forall] at hfresh
          obtain ⟨folder, hfolder, hpresent⟩ := hfresh
          obtain ⟨info, hinfo⟩ := Option.ne_none_iff_exists'.mp hpresent
          rw [LocalCacheHelper.processed, hfolder] at hstep
          cases hstep
          rw [changeApp, hinfo]
          obtain rfl := helper.steamLibraryCacheInfo.keyed libraryPath folder hfolder
          obtain rfl := folder.apps.keyed appID info hinfo
          refine misled_tell htold ?_
          rw [Listener.apply_app_create, hagrees.apps, hfolder, Option.bind_some, hinfo]
          rfl

end LocalCacheHelper

/-- Every item that this event processes is fresh when its turn comes. -/
def Event.Fresh (helper : LocalCacheHelper) : Event → Prop
  | .enqueue _ => True
  | .tick => Guarded LocalCacheHelper.processed Item.Fresh helper.emptied helper.batch

/-- Nothing is told when an item is put into its queue. -/
theorem step_enqueue {helper : LocalCacheHelper} (item : Item) :
    ∃ helper', step helper (.enqueue item) = some helper' ∧
      helper'.notices = helper.notices ∧
      helper'.steamLibraryCacheInfo = helper.steamLibraryCacheInfo := by
  cases item with
  | newFolder folder => exact ⟨_, rfl, rfl, rfl⟩
  | removeFolder path => exact ⟨_, rfl, rfl, rfl⟩
  | appInfoChange libraryPath change => exact ⟨_, rfl, rfl, rfl⟩

theorem told_step {helper : LocalCacheHelper} {event : Event} (h : helper.Told)
    (hfresh : event.Fresh helper) : ∃ helper', step helper event = some helper' ∧ helper'.Told := by
  cases event with
  | enqueue item =>
      obtain ⟨helper', hstep, hnotices, hcache⟩ := @step_enqueue helper item
      refine ⟨helper', hstep, ?_⟩
      rw [LocalCacheHelper.Told, hnotices, hcache]
      exact h
  | tick =>
      exact exec_defined (fun _ _ htold hfresh => htold.processed hfresh)
        (show helper.emptied.Told from h) hfresh

theorem misled_step {helper helper' : LocalCacheHelper} {event : Event} (h : helper.Misled)
    (hstep : step helper event = some helper') : helper'.Misled := by
  cases event with
  | enqueue item =>
      obtain ⟨helper'', hstep', hnotices, -⟩ := @step_enqueue helper item
      cases hstep.symm.trans hstep'
      rw [LocalCacheHelper.Misled, hnotices]
      exact h
  | tick =>
      have hitem : ∀ helper item helper', LocalCacheHelper.Misled helper → True →
          helper.processed item = some helper' → helper'.Misled :=
        fun _ _ _ hmisled _ => hmisled.processed
      exact exec_invariant hitem (show helper.emptied.Misled from h) (guarded_true ..) hstep

theorem step_not_fresh {helper helper' : LocalCacheHelper} {event : Event} (h : helper.Told)
    (hfresh : ¬ event.Fresh helper) (hstep : step helper event = some helper') :
    helper'.Misled := by
  cases event with
  | enqueue item => exact absurd trivial hfresh
  | tick =>
      exact exec_spoiled (fun _ _ htold hfresh => htold.processed hfresh)
        (fun _ _ _ htold => htold.processed_not_fresh)
        (fun _ _ _ hmisled => hmisled.processed) (show helper.emptied.Told from h) hfresh hstep

/-- A run of the helper is defined and tells a listener exactly what is in the cache if and only if
every item is fresh when its turn comes. -/
theorem events_tell_cache_iff (events : List Event) :
    (∃ helper, exec step .init events = some helper ∧ helper.Told) ↔
      Guarded step Event.Fresh .init events := by
  have hdefined : ∀ helper event, LocalCacheHelper.Told helper → Event.Fresh helper event →
      ∃ helper', step helper event = some helper' ∧ helper'.Told :=
    fun _ _ htold hfresh => told_step htold hfresh
  constructor
  · rintro ⟨helper, hrun, htold⟩
    by_contra hguard
    have hmisled := exec_spoiled hdefined (fun _ _ _ htold => step_not_fresh htold)
      (fun _ _ _ hmisled => misled_step hmisled) told_init hguard hrun
    exact hmisled.not_told htold
  · exact exec_defined hdefined told_init

/-- A library with one app. -/
def oneAppLibrary : FolderInfo :=
  { apps := Apps.empty.insertOrAssign { appID := 10, name := "app" }, path := "lib"
    name := "main", totalSize := 1000 }

/-- A folder that comes with its app, an app that is updated and one that is new. -/
example :
    (exec step .init [.enqueue (.newFolder oneAppLibrary), .tick,
      .enqueue (.appInfoChange "lib" (.put { appID := 10, size := 5 })),
      .enqueue (.appInfoChange "lib" (.put { appID := 20 })), .tick]).bind (fun helper =>
        (helper.notices.foldlM Listener.apply .empty).map fun listener =>
          ((listener.apps ("lib", 10)).map AppInfo.size, (listener.apps ("lib", 20)).isSome)) =
      some (some 5, true) := by
  decide

/-- An app that is deleted from the cache is told of as created, a folder that was added before is
told of as created once more, and the removal of a folder is undefined. -/
theorem library_events_mislead :
    (∃ helper, exec step .init [.enqueue (.newFolder oneAppLibrary), .tick,
        .enqueue (.appInfoChange "lib" (.delete 10)), .tick] = some helper ∧ ¬ helper.Told) ∧
      (∃ helper, exec step .init [.enqueue (.newFolder oneAppLibrary), .tick,
        .enqueue (.newFolder oneAppLibrary), .tick] = some helper ∧ ¬ helper.Told) ∧
      exec step .init [.enqueue (.newFolder oneAppLibrary), .tick,
        .enqueue (.removeFolder "lib"), .tick] = none := by
  have hmisled : ∀ events, (exec step .init events).any (fun helper =>
      (helper.notices.foldlM Listener.apply .empty).isNone) = true →
        ∃ helper, exec step .init events = some helper ∧ ¬ helper.Told := by
    intro events h
    obtain ⟨helper, hrun, hnone⟩ := Option.any_eq_true _ _ |>.mp h
    exact ⟨helper, hrun, LocalCacheHelper.Misled.not_told (Option.isNone_iff_eq_none.mp hnone)⟩
  refine ⟨hmisled _ (by decide), hmisled _ (by decide), ?_⟩
  exact Option.isNone_iff_eq_none.mp (by decide)

end Utilpp.Steam.LocalCache

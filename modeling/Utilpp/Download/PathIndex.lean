import Utilpp.Download.File
import Utilpp.Handle
import Utilpp.Lib.Transition
import Mathlib.Logic.Function.Basic

/-!
# The paths of the downloads

`FDownloader` keeps its tasks in `Files` and finds the task of a path in `FilePathView`. A path
enters the view when a task is added and when the server names its file, and leaves it when a task
with this path is removed. `AddTask` looks a path up before `Init` completes it and does not look at
what `InsertFilePath` returns, and `Tick` removes the entry of a path whoever it belongs to;
`TaskEvent.Apart` excludes the additions and removals where this matters.
-/

namespace Utilpp.Download

open Lib

/-- A task that did not fail. -/
def DownloadFile.Live (f : DownloadFile) : Prop := ¬ (f.status = .finished ∧ f.code ≠ .ok)

/-- The tasks of `FDownloader`, those that are to be removed, and the counter of their handles. -/
structure TaskTable where
  files : UInt32 → Option DownloadFile
  filePathView : String → Option UInt32
  requireRemoveFiles : List UInt32
  taskCount : UInt32

/-- What the server answers to `HEAD`. The name of the file stands in `Content-Disposition`, or is
the path of the URL; there is none when the header cannot be read. -/
structure HeadResponse where
  res : Bool
  responseCode : Int
  contentLength : Int
  url : String
  filename : Option String

namespace TaskTable

/-- A downloader without tasks. -/
def init : TaskTable :=
  { files := fun _ => none, filePathView := fun _ => none, requireRemoveFiles := [], taskCount := 0 }

/-- `InsertFilePath`: the handle that the path belongs to. -/
def insertFilePath (table : TaskTable) (path : String) (handle : UInt32) : UInt32 × TaskTable :=
  match table.filePathView path with
  | some other => (other, table)
  | none =>
      (handle, { table with filePathView := Function.update table.filePathView path (some handle) })

/-- `Files.try_emplace` -/
def emplace (table : TaskTable) (handle : UInt32) (f : DownloadFile) : TaskTable :=
  match table.files handle with
  | some _ => table
  | none => { table with files := Function.update table.files handle (some f) }

/-- The path is that of a task already. -/
def taken (table : TaskTable) (f : DownloadFile) : Bool :=
  f.path ≠ "" ∧ (table.filePathView f.path).isSome

/-- `AddTask` -/
def addTask (table : TaskTable) (fs : FileSystem) (f : DownloadFile) : TaskTable :=
  if table.taken f then table
  else
    -- the path is completed by `Init` only now, and `try_emplace` keeps an old task
    let (handle, taskCount) := drawID table.taskCount
    let added := { table with taskCount := taskCount }.emplace handle (f.init fs)
    if (f.init fs).path ≠ "" then (added.insertFilePath (f.init fs).path handle).2 else added

/-- `RemoveTask` -/
def removeTask (table : TaskTable) (handle : UInt32) : TaskTable :=
  if (table.files handle).isSome ∧ handle ∉ table.requireRemoveFiles then
    { table with
      requireRemoveFiles := table.requireRemoveFiles.orderedInsert (· ≤ ·) handle }
  else table

/-- The removal of one task in `Tick`. -/
def removeFile (table : TaskTable) (handle : UInt32) : TaskTable :=
  match table.files handle with
  | none => table
  | some f =>
      { table with
        files := Function.update table.files handle none
        -- the entry is erased whichever task it belongs to
        filePathView := Function.update table.filePathView f.path none }

/-- The `HEAD` request of an idle task is sent. -/
def start (f : DownloadFile) : DownloadFile :=
  if f.status = .idle then f.setStatus .init else f

/-- `Tick` removes tasks and starts the idle ones. -/
def tick (table : TaskTable) : TaskTable :=
  let removed := table.requireRemoveFiles.foldl removeFile table
  { removed with files := fun handle => (removed.files handle).map start, requireRemoveFiles := [] }

/-- A task with its handle gets new data. -/
def store (table : TaskTable) (handle : UInt32) (f : DownloadFile) : TaskTable :=
  { table with files := Function.update table.files handle (some f) }

/-- The end of the callback of `HEAD`, when the path of the task is known. -/
def beginDownload (f : DownloadFile) (isExist : Bool) : DownloadFile :=
  if !f.content && isExist then f.finish .fileExist "file exist"
  else if 0 < f.size then f.setStatus .downloadChunk
  else f.setStatus .download

/-- The callback of `HEAD` once the name of the file is known. -/
def named (table : TaskTable) (handle : UInt32) (f : DownloadFile) (filename : String)
    (isExist : Bool) : TaskTable :=
  let (updated, f) := f.updateOnlineFilename filename
  if updated then
    let (other, table) := table.insertFilePath f.path handle
    -- the path belongs to another task
    if other ≠ handle then table.store handle (f.finish .fileExist "filename exist")
    else table.store handle (beginDownload f isExist)
  else table.store handle (beginDownload f isExist)

/-- The callback of `HEAD` for a task that is waiting for it. -/
def onHead (table : TaskTable) (handle : UInt32) (f : DownloadFile) (response : HeadResponse)
    (isExist : Bool) : TaskTable :=
  if !response.res || response.contentLength == 0 then
    table.store handle (f.finish .serverError "net error")
  else if response.responseCode < 200 || 300 ≤ response.responseCode then
    table.store handle (f.finish .serverError "net error")
  else
    let f := { f.setFileSize response.contentLength with url := response.url }
    match response.filename with
    | none => table.store handle (f.finish .serverError "filename parse error")
    | some filename => table.named handle f filename isExist

end TaskTable

/-- Where a task comes from: a path to download to, a buffer, or the record of a download. -/
inductive TaskSource where
  | path (url path : String)
  | content (url : String)
  | record (data : DownloadFileDiskData) (workPath : String)

/-- The task that is added. -/
def TaskSource.file : TaskSource → DownloadFile
  | .path url target => { url := url, path := target }
  | .content url => { url := url, content := true }
  | .record data workPath => data.toFile workPath

/-- What happens to the tasks: one is added or is to be removed, `Tick` runs, the server answers
`HEAD`, the download of a file ends. -/
inductive TaskEvent where
  | add (fs : FileSystem) (source : TaskSource)
  | removeTask (handle : UInt32)
  | tick
  | head (handle : UInt32) (response : HeadResponse) (isExist : Bool)
  | finish (handle : UInt32) (err : EDownloadCode) (msg : String)

namespace TaskEvent

/-- The tasks after one event. -/
def step (table : TaskTable) : TaskEvent → Option TaskTable
  | .add fs source => some (table.addTask fs source.file)
  | .removeTask handle => some (table.removeTask handle)
  | .tick => some table.tick
  | .head handle response isExist =>
      match table.files handle with
      | none => some table
      | some f =>
          if f.status = .init then some (table.onHead handle f response isExist) else some table
  | .finish handle err msg =>
      match table.files handle with
      | none => some table
      | some f =>
          if f.status = .downloadChunk ∨ f.status = .download then
            some (table.store handle (f.finish err msg))
          else some table

/-- A task that is added gets a new handle and no path that is in the view already, and no live task
that stays has the path of one that `Tick` removes. -/
def Apart (table : TaskTable) : TaskEvent → Prop
  | .add fs source =>
      ¬ table.taken source.file →
        table.files (drawID table.taskCount).1 = none ∧
          ((source.file.init fs).path ≠ "" →
            table.filePathView (source.file.init fs).path = none)
  | .tick =>
      ∀ handle ∈ table.requireRemoveFiles, ∀ f, table.files handle = some f →
        ∀ other ∉ table.requireRemoveFiles, ∀ g, table.files other = some g →
          g.Live → g.path ≠ "" → g.path ≠ f.path
  | _ => True

end TaskEvent

namespace TaskTable

variable {table : TaskTable} {handle : UInt32} {f g : DownloadFile}

/-- No two live tasks have the same path, every live task with a path is found under it, and
whatever is found is a task. -/
structure OneTaskPerPath (table : TaskTable) : Prop where
  unique : ∀ handle other f g, table.files handle = some f → table.files other = some g →
    f.Live → g.Live → f.path ≠ "" → f.path = g.path → handle = other
  found : ∀ handle f, table.files handle = some f → f.Live → f.path ≠ "" →
    table.filePathView f.path = some handle
  task : ∀ path handle, table.filePathView path = some handle → (table.files handle).isSome

/-- Every live task with a path is found under it, and a task is found only under its own path. A
task that still waits for its path is not found under the empty one. -/
structure Indexed (table : TaskTable) : Prop where
  found : ∀ handle f, table.files handle = some f → f.Live → f.path ≠ "" →
    table.filePathView f.path = some handle
  entry : ∀ path handle, table.filePathView path = some handle →
    ∃ f, table.files handle = some f ∧ f.path = path ∧
      (path = "" → f.status ≠ .idle ∧ f.status ≠ .init)

theorem Indexed.oneTaskPerPath (h : table.Indexed) : table.OneTaskPerPath where
  unique handle other f g hf hg hlive hlive' hne hpath := by
    have hfound := h.found handle f hf hlive hne
    rw [hpath, h.found other g hg hlive' (hpath ▸ hne)] at hfound
    exact (Option.some.inj hfound).symm
  found := h.found
  task path handle hentry := by
    obtain ⟨f, hf, -, -⟩ := h.entry path handle hentry
    rw [hf]
    rfl

theorem indexed_init : init.Indexed where
  found _ _ h := nomatch h
  entry _ _ h := nomatch h

theorem files_store (other : UInt32) :
    (table.store handle f).files other = if other = handle then some f else table.files other :=
  Function.update_apply ..

/-- New data of a task that keeps its path. -/
theorem Indexed.store_same (h : table.Indexed) (hf : table.files handle = some f)
    (hpath : g.path = f.path) (hlive : f.Live) (hstatus : g.status ≠ .idle ∧ g.status ≠ .init) :
    (table.store handle g).Indexed := by
  constructor
  · intro other f' hf' hlive' hne
    rw [files_store] at hf'
    split at hf'
    · rename_i heq
      cases hf'
      rw [heq, hpath]
      exact h.found handle f hf hlive (hpath ▸ hne)
    · exact h.found other f' hf' hlive' hne
  · intro path other hentry
    obtain ⟨f', hf', hpath', hstatus'⟩ := h.entry path other hentry
    rw [files_store]
    split
    · rename_i heq
      subst heq
      cases hf.symm.trans hf'
      exact ⟨g, rfl, hpath.trans hpath', fun _ => hstatus⟩
    · exact ⟨f', hf', hpath', hstatus'⟩

/-- Data of a task that is not in the view and need not be. -/
theorem Indexed.store_unlisted (h : table.Indexed)
    (hfree : ∀ path, table.filePathView path ≠ some handle) (hg : g.Live → g.path = "") :
    (table.store handle g).Indexed := by
  constructor
  · intro other f' hf' hlive hne
    rw [files_store] at hf'
    split at hf'
    · cases hf'
      exact absurd (hg hlive) hne
    · exact h.found other f' hf' hlive hne
  · intro path other hentry
    obtain ⟨f', hf', hrest⟩ := h.entry path other hentry
    have hother : other ≠ handle := by
      rintro rfl
      exact hfree path hentry
    refine ⟨f', ?_, hrest⟩
    rw [files_store, if_neg hother]
    exact hf'

/-- Data of a task that is put into the view. -/
theorem Indexed.store_listed (h : table.Indexed)
    (hfree : ∀ path, table.filePathView path ≠ some handle)
    (hview : table.filePathView g.path = none)
    (hstatus : g.path = "" → g.status ≠ .idle ∧ g.status ≠ .init) :
    ({ table with
        filePathView := Function.update table.filePathView g.path (some handle) }.store
          handle g).Indexed := by
  constructor
  · intro other f' hf' hlive hne
    rw [files_store] at hf'
    show Function.update table.filePathView g.path (some handle) f'.path = some other
    split at hf'
    · rename_i heq
      cases hf'
      rw [heq, Function.update_self]
    · have hfound := h.found other f' hf' hlive hne
      have hpath : f'.path ≠ g.path := by
        intro heq
        rw [heq, hview] at hfound
        cases hfound
      rw [Function.update_of_ne hpath]
      exact hfound
  · intro path other hentry
    rw [files_store]
    by_cases hpath : path = g.path
    · subst hpath
      have hself : Function.update table.filePathView g.path (some handle) g.path = some handle :=
        Function.update_self ..
      have hother : handle = other := Option.some.inj (hself.symm.trans hentry)
      rw [if_pos hother.symm]
      exact ⟨g, rfl, rfl, hstatus⟩
    · have hold : table.filePathView path = some other := by
        rw [← hentry]
        exact (Function.update_of_ne hpath ..).symm
      have hother : other ≠ handle := by
        rintro rfl
        exact hfree path hold
      rw [if_neg hother]
      exact h.entry path other hold

/-! ## Adding a task -/

/-- A handle that has no task is not in the view. -/
theorem Indexed.unlisted (h : table.Indexed) (hnew : table.files handle = none) (path : String) :
    table.filePathView path ≠ some handle := by
  intro hentry
  obtain ⟨f, hf, -, -⟩ := h.entry path handle hentry
  exact nomatch hnew.symm.trans hf

theorem Indexed.addTask (h : table.Indexed) {fs : FileSystem} (hapart : ¬ table.taken f →
      table.files (drawID table.taskCount).1 = none ∧
        ((f.init fs).path ≠ "" → table.filePathView (f.init fs).path = none)) :
    (table.addTask fs f).Indexed := by
  unfold TaskTable.addTask
  split
  · exact h
  · rename_i htaken
    obtain ⟨hnew, hview⟩ := hapart htaken
    have hfree := h.unlisted hnew
    have hcounted : ({ table with taskCount := (drawID table.taskCount).2 } : TaskTable).Indexed :=
      ⟨h.found, h.entry⟩
    have hemplace : { table with taskCount := (drawID table.taskCount).2 }.emplace
        (drawID table.taskCount).1 (f.init fs) =
          { table with taskCount := (drawID table.taskCount).2 }.store
            (drawID table.taskCount).1 (f.init fs) := by
      simp only [emplace, hnew]
      rfl
    simp only [hemplace]
    split
    · rename_i hne
      have hinsert : ({ table with taskCount := (drawID table.taskCount).2 }.store
          (drawID table.taskCount).1 (f.init fs)).filePathView (f.init fs).path = none := hview hne
      rw [insertFilePath, hinsert]
      exact hcounted.store_listed hfree (hview hne) (fun hempty => absurd hempty hne)
    · rename_i hempty
      exact hcounted.store_unlisted hfree (fun _ => not_not.mp hempty)

/-! ## Removing tasks -/

theorem files_removeAll (handles : List UInt32) (table : TaskTable) (other : UInt32) :
    (handles.foldl removeFile table).files other =
      if other ∈ handles then none else table.files other := by
  induction handles generalizing table with
  | nil => rfl
  | cons handle handles ih =>
      have hone : (table.removeFile handle).files other =
          if other = handle then none else table.files other := by
        unfold removeFile
        split
        · rename_i hnone
          split
          · rename_i heq
            rw [heq, hnone]
          · rfl
        · exact Function.update_apply ..
      rw [List.foldl_cons, ih, hone]
      by_cases hmem : other ∈ handles
      · rw [if_pos hmem, if_pos (List.mem_cons_of_mem _ hmem)]
      · rw [if_neg hmem]
        by_cases heq : other = handle
        · rw [if_pos heq, if_pos (heq ▸ List.mem_cons_self)]
        · rw [if_neg heq, if_neg fun h => (List.mem_cons.mp h).elim heq hmem]

/-- What is still found after removals is what was found before under no path of a removed task. -/
theorem filePathView_removeAll (handles : List UInt32) (table : TaskTable) (path : String)
    (other : UInt32) :
    (handles.foldl removeFile table).filePathView path = some other ↔
      table.filePathView path = some other ∧
        ∀ handle ∈ handles, ∀ f, table.files handle = some f → f.path ≠ path := by
  induction handles generalizing table with
  | nil => simp
  | cons handle handles ih =>
      rw [List.foldl_cons, ih, removeFile]
      cases hfile : table.files handle with
      | none => simp [hfile]
      | some removed =>
          constructor
          · intro ⟨hview, hrest⟩
            have hne : path ≠ removed.path := by
              rintro rfl
              exact nomatch (Function.update_self ..).symm.trans hview
            refine ⟨(Function.update_of_ne hne ..).symm.trans hview, fun h hmem f hf => ?_⟩
            by_cases heq : h = handle
            · subst heq
              cases hfile.symm.trans hf
              exact hne.symm
            · exact hrest h (List.mem_of_ne_of_mem heq hmem) f
                ((Function.update_of_ne heq ..).trans hf)
          · intro ⟨hview, hrest⟩
            have hne : path ≠ removed.path :=
              (hrest handle List.mem_cons_self removed hfile).symm
            refine ⟨(Function.update_of_ne hne ..).trans hview, fun h hmem f hf => ?_⟩
            have heq : h ≠ handle := by
              rintro rfl
              exact nomatch (Function.update_self ..).symm.trans hf
            exact hrest h (List.mem_cons_of_mem _ hmem) f
              ((Function.update_of_ne heq ..).symm.trans hf)

theorem start_path (f : DownloadFile) : (start f).path = f.path := by
  unfold start
  split
  · rfl
  · rfl

/-- A task that is started was live and is. -/
theorem start_live (f : DownloadFile) : (start f).Live ↔ f.Live := by
  unfold start
  split
  · rename_i hidle
    simp [DownloadFile.Live, DownloadFile.setStatus, hidle]
  · rfl

theorem start_status (h : f.status ≠ .idle) : start f = f := if_neg h

theorem Indexed.tick (h : table.Indexed) (hapart : TaskEvent.Apart table .tick) :
    table.tick.Indexed := by
  constructor
  · intro handle f hf hlive hne
    obtain ⟨g, hg, rfl⟩ := Option.map_eq_some_iff.mp hf
    rw [files_removeAll] at hg
    split at hg
    · cases hg
    · rename_i hstays
      rw [start_path] at hne ⊢
      rw [start_live] at hlive
      refine (filePathView_removeAll ..).mpr ⟨h.found handle g hg hlive hne, ?_⟩
      intro other hmem removed hremoved
      exact (hapart other hmem removed hremoved handle hstays g hg hlive hne).symm
  · intro path handle hentry
    obtain ⟨hentry, hrest⟩ := (filePathView_removeAll ..).mp hentry
    obtain ⟨f, hf, hpath, hstatus⟩ := h.entry path handle hentry
    have hstays : handle ∉ table.requireRemoveFiles := fun hmem => hrest handle hmem f hf hpath
    refine ⟨start f, ?_, (start_path f).trans hpath, fun hempty => ?_⟩
    · show Option.map start _ = _
      rw [files_removeAll, if_neg hstays, hf]
      rfl
    · rw [start_status (hstatus hempty).1]
      exact hstatus hempty

/-! ## The answer to `HEAD` -/

theorem live_of_init (h : f.status = .init) : f.Live := by
  simp [DownloadFile.Live, h]

theorem beginDownload_path (isExist : Bool) : (beginDownload f isExist).path = f.path := by
  unfold beginDownload
  split
  · rfl
  · split
    · rfl
    · rfl

theorem beginDownload_status (isExist : Bool) :
    (beginDownload f isExist).status ≠ .idle ∧ (beginDownload f isExist).status ≠ .init := by
  unfold beginDownload
  split
  · exact ⟨nofun, nofun⟩
  · split
    · exact ⟨nofun, nofun⟩
    · exact ⟨nofun, nofun⟩

/-- A task that waits for its path is not in the view. -/
theorem Indexed.unlisted_waiting (h : table.Indexed) (hf : table.files handle = some f)
    (hstatus : f.status = .init) (hpath : f.path = "") (path : String) :
    table.filePathView path ≠ some handle := by
  intro hentry
  obtain ⟨g, hg, hpath', hwaits⟩ := h.entry path handle hentry
  cases hf.symm.trans hg
  exact (hwaits (hpath'.symm.trans hpath)).2 hstatus

theorem finish_not_live {err : EDownloadCode} (h : err ≠ .ok) (msg : String) :
    ¬ (f.finish err msg).Live := fun hlive => hlive ⟨rfl, h⟩

/-- The path is changed only when the task had none. -/
theorem updateOnlineFilename_cases (f : DownloadFile) (filename : String) :
    (∃ g, f.updateOnlineFilename filename = (false, g) ∧ g.path = f.path) ∨
      f.path = "" ∧ ∃ g, f.updateOnlineFilename filename = (true, g) := by
  unfold DownloadFile.updateOnlineFilename
  simp only []
  split
  · exact .inl ⟨_, rfl, rfl⟩
  · split
    · exact .inl ⟨_, rfl, rfl⟩
    · rename_i hempty
      exact .inr ⟨not_not.mp hempty, _, rfl⟩

theorem Indexed.named (h : table.Indexed) (hf : table.files handle = some f)
    (hstatus : f.status = .init) (hpath : g.path = f.path) (filename : String) (isExist : Bool) :
    (table.named handle g filename isExist).Indexed := by
  unfold TaskTable.named
  obtain ⟨g', hupdate, hpath'⟩ | ⟨hempty, g', hupdate⟩ := updateOnlineFilename_cases g filename
  · rw [hupdate]
    exact h.store_same hf ((beginDownload_path isExist).trans (hpath'.trans hpath))
      (live_of_init hstatus) (beginDownload_status isExist)
  · have hfree := h.unlisted_waiting hf hstatus (hpath.symm.trans hempty)
    rw [hupdate]
    obtain hview | ⟨other, hview⟩ := Option.eq_none_or_eq_some (table.filePathView g'.path)
    · simp only [if_true, insertFilePath, hview, ne_eq, not_true_eq_false, if_false]
      rw [← beginDownload_path isExist] at hview ⊢
      exact h.store_listed hfree hview fun _ => beginDownload_status isExist
    · have hother : other ≠ handle := by
        rintro rfl
        exact hfree g'.path hview
      simp only [if_true, insertFilePath, hview, ne_eq, hother, not_false_eq_true]
      exact h.store_unlisted hfree fun hlive =>
        (finish_not_live (show EDownloadCode.fileExist ≠ .ok from nofun) _ hlive).elim

/-- A task that fails keeps its entry. -/
theorem Indexed.store_finish (h : table.Indexed) (hf : table.files handle = some f)
    (hlive : f.Live) (hpath : g.path = f.path) (err : EDownloadCode) (msg : String) :
    (table.store handle (g.finish err msg)).Indexed :=
  h.store_same hf hpath hlive ⟨nofun, nofun⟩

theorem Indexed.onHead (h : table.Indexed) (hf : table.files handle = some f)
    (hstatus : f.status = .init) (response : HeadResponse) (isExist : Bool) :
    (table.onHead handle f response isExist).Indexed := by
  have hlive := live_of_init hstatus
  have hpath : ({ f.setFileSize response.contentLength with url := response.url } :
      DownloadFile).path = f.path := (f.setFileSize_frame _).1
  unfold TaskTable.onHead
  split
  · exact h.store_finish hf hlive rfl _ _
  · split
    · exact h.store_finish hf hlive rfl _ _
    · split
      · exact h.store_finish hf hlive hpath _ _
      · exact h.named hf hstatus hpath _ isExist

end TaskTable

open TaskTable

theorem TaskEvent.indexed_step {table table' : TaskTable} {event : TaskEvent} (h : table.Indexed)
    (hapart : event.Apart table) (hstep : event.step table = some table') : table'.Indexed := by
  cases event with
  | add fs source =>
      cases hstep
      exact h.addTask hapart
  | removeTask handle =>
      cases hstep
      unfold TaskTable.removeTask
      split
      · exact ⟨h.found, h.entry⟩
      · exact h
  | tick =>
      cases hstep
      exact h.tick hapart
  | head handle response isExist =>
      rw [TaskEvent.step] at hstep
      cases hf : table.files handle with
      | none =>
          rw [hf] at hstep
          cases hstep
          exact h
      | some f =>
          simp only [hf] at hstep
          split at hstep
          · rename_i hstatus
            cases hstep
            exact h.onHead hf hstatus response isExist
          · cases hstep
            exact h
  | finish handle err msg =>
      rw [TaskEvent.step] at hstep
      cases hf : table.files handle with
      | none =>
          rw [hf] at hstep
          cases hstep
          exact h
      | some f =>
          simp only [hf] at hstep
          split at hstep
          · rename_i hstatus
            cases hstep
            have hlive : f.Live := by
              rintro ⟨hfinished, -⟩
              rw [hfinished] at hstatus
              exact hstatus.elim nofun nofun
            exact h.store_finish hf hlive rfl err msg
          · cases hstep
            exact h

/-- In every state of a run whose additions and removals keep the paths apart there is one task for
every path. -/
theorem one_task_per_path {events : List TaskEvent} {table : TaskTable}
    (hapart : Guarded TaskEvent.step TaskEvent.Apart .init events)
    (hrun : exec TaskEvent.step .init events = some table) : table.OneTaskPerPath :=
  (exec_invariant (fun _ _ _ h hok hstep => TaskEvent.indexed_step h hok hstep) indexed_init
    hapart hrun).oneTaskPerPath

/-- The server has a file of 100 bytes. -/
def hundredBytes : HeadResponse :=
  { res := true, responseCode := 200, contentLength := 100, url := "u", filename := some "f" }

/-- A download to a directory that is named by the server, and one to a file. -/
def twoDownloads : List TaskEvent :=
  [.add rootFileSystem (.path "u" "/"), .tick, .head 0 hundredBytes false,
    .add rootFileSystem (.path "v" "g"), .tick]

theorem twoDownloads_one_task_per_path :
    ∃ table, exec TaskEvent.step .init twoDownloads = some table ∧ table.OneTaskPerPath := by
  have hapart : Guarded TaskEvent.step TaskEvent.Apart .init twoDownloads := by
    refine ⟨fun _ => ⟨rfl, fun _ => rfl⟩, fun _ h => ?_⟩
    cases h
    refine ⟨nofun, fun _ h => ?_⟩
    cases h
    refine ⟨trivial, fun _ h => ?_⟩
    cases h
    refine ⟨fun _ => ⟨rfl, fun _ => ?_⟩, fun _ h => ?_⟩
    · decide
    · cases h
      exact ⟨nofun, fun _ _ => trivial⟩
  exact ⟨_, rfl, one_task_per_path hapart rfl⟩

/-- A task that is not found under its path. -/
theorem not_oneTaskPerPath {table : TaskTable} {handle : UInt32} {path : String}
    {status : EFileTaskStatus}
    (hfile : (table.files handle).map (fun f => (f.path, f.status)) = some (path, status))
    (hne : path ≠ "") (hstatus : status ≠ .finished)
    (hview : table.filePathView path ≠ some handle) : ¬ table.OneTaskPerPath := by
  intro h
  obtain ⟨f, hf, hdata⟩ := Option.map_eq_some_iff.mp hfile
  cases hdata
  exact hview (h.found handle f hf (fun hfailed => hstatus hfailed.1) hne)

/-- A relative path is looked up before it is completed, so that two tasks have one path. A task
that failed because its file belongs to another takes the other's entry when it is removed. -/
theorem task_not_found :
    (∃ table, exec TaskEvent.step .init [.add rootFileSystem (.path "u" "f"),
        .add rootFileSystem (.path "u" "f")] = some table ∧ ¬ table.OneTaskPerPath) ∧
      ∃ table, exec TaskEvent.step .init [.add rootFileSystem (.path "u" "/f"),
        .add rootFileSystem (.path "u" "/"), .tick, .head 1 hundredBytes false,
        .removeTask 1, .tick] = some table ∧ ¬ table.OneTaskPerPath := by
  constructor
  · refine ⟨_, rfl, @not_oneTaskPerPath _ 1 "/f" .idle ?_ ?_ nofun ?_⟩
    · decide
    · decide
    · decide
  · refine ⟨_, rfl, @not_oneTaskPerPath _ 0 "/f" .init ?_ ?_ nofun ?_⟩
    · decide
    · decide
    · decide

end Utilpp.Download

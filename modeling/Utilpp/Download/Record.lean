import Utilpp.Download.File
import Utilpp.Lib.Transition
import Mathlib.Logic.Equiv.List

/-!
# The recovery record of a download

`SaveRecoveryInfo` writes the message of a download through the one handle of its record, and
`LoadDiskDataFile` builds a download from the first message of a record. A record is written where
the last write ended, so only the first message after the record was opened is ever read, and `Init`
has just cleared the message then. The record gives the download as it was last saved exactly when
nothing is saved after a change.
-/

namespace Utilpp.Download

open Lib

/-- Packed messages in a file: a message is read from the front whatever follows it. -/
structure Codec where
  encode : DownloadFileDiskData → List UInt8
  decode : List UInt8 → Option DownloadFileDiskData
  decode_encode : ∀ data rest, decode (encode data ++ rest) = some data

/-- Bytes written at an offset of a file. -/
def writeAt (file : List UInt8) (offset : Nat) (bytes : List UInt8) : List UInt8 :=
  file.take offset ++ bytes ++ file.drop (offset + bytes.length)

/-- What the record is to give back of a download. -/
def DownloadFile.diskData (f : DownloadFile) : DownloadFileDiskData :=
  { path := f.path, size := f.size, downloadSize := f.downloadSize, chunkNum := f.chunkNum
    chunksCompleteFlag := f.chunksCompleteFlag, url := f.url, status := f.status }

/-- A download with the record files of its id in all directories, the offset of the handle of its
own, and what the download was at the last `SaveRecoveryInfo`. -/
structure Recording where
  file : DownloadFile
  record : String → List UInt8
  offset : Nat
  saved : DownloadFileDiskData

namespace Recording

variable (codec : Codec) (fs : FileSystem)

/-- `SaveRecoveryInfo` -/
def saveRecoveryInfo (r : Recording) : Recording :=
  if r.file.content then r
  else
    let bytes := codec.encode r.file.messageBuilder
    -- the handle is not moved back to the front
    let written := writeAt (r.record r.file.workPath) r.offset bytes
    { r with
      record := Function.update r.record r.file.workPath written
      offset := r.offset + bytes.length
      saved := r.file.diskData }

/-- `AddTask`: `Init` opens the record at its front. -/
def addTask (record : String → List UInt8) (f : DownloadFile) : Recording :=
  saveRecoveryInfo codec
    { file := f.init fs, record := record, offset := 0, saved := (f.init fs).diskData }

/-- `LoadDiskDataFile` on the record of the download. -/
def loadDiskDataFile (r : Recording) : Option Recording :=
  let bytes := r.record r.file.workPath
  if bytes = [] then none
  else
    (codec.decode bytes).map fun data => addTask codec fs r.record (data.toFile r.file.workPath)

/-- The record gives back the download as it was last saved. -/
def RoundTrips (r : Recording) : Prop :=
  ∃ r', r.loadDiskDataFile codec fs = some r' ∧ r'.file.diskData = r.saved

end Recording

/-- What happens to a download with a record. The server may name another URL. -/
inductive RecordEvent where
  | setFileSize (size : Int)
  | setURL (url : String)
  | updateOnlineFilename (filename : String)
  | setStatus (status : EFileTaskStatus)
  | completeChunk (index : UInt32)
  | saveRecoveryInfo
  | restart

/-- The download after one event. A chunk is completed only within the flags. -/
def RecordEvent.step (codec : Codec) (fs : FileSystem) (r : Recording) :
    RecordEvent → Option Recording
  | .setFileSize size => some { r with file := r.file.setFileSize size }
  | .setURL url => some { r with file := { r.file with url := url } }
  | .updateOnlineFilename filename =>
      some { r with file := (r.file.updateOnlineFilename filename).2 }
  | .setStatus status => some { r with file := r.file.setStatus status }
  | .completeChunk index =>
      if index.toNat / 8 < r.file.chunksCompleteFlag.length then
        some { r with file := r.file.completeChunk index }
      else none
  | .saveRecoveryInfo => some (r.saveRecoveryInfo codec)
  | .restart => r.loadDiskDataFile codec fs

/-- Only a download that is as it was when it was last saved is saved again. -/
def RecordEvent.Unchanged (r : Recording) : RecordEvent → Prop
  | .saveRecoveryInfo => r.file.diskData = r.saved
  | _ => True

/-! ## Files -/

theorem writeAt_zero (file bytes : List UInt8) :
    writeAt file 0 bytes = bytes ++ file.drop bytes.length := by
  rw [writeAt, List.take_zero, List.nil_append, Nat.zero_add]

/-- A write behind the front of a file leaves the front alone. -/
theorem writeAt_append {front rest bytes : List UInt8} {offset : Nat}
    (h : front.length ≤ offset) :
    ∃ rest', writeAt (front ++ rest) offset bytes = front ++ rest' := by
  refine ⟨rest.take (offset - front.length) ++
    (bytes ++ (front ++ rest).drop (offset + bytes.length)), ?_⟩
  rw [writeAt, List.take_append, List.take_of_length_le h, List.append_assoc, List.append_assoc]

/-- A message is not empty: different messages would be read from the same file. -/
theorem Codec.encode_ne_nil (codec : Codec) (data : DownloadFileDiskData) :
    codec.encode data ≠ [] := by
  intro hnil
  have hall : ∀ other, other = data := by
    intro other
    have hread := codec.decode_encode data (codec.encode other ++ [])
    rw [hnil, List.nil_append, codec.decode_encode other []] at hread
    exact Option.some.inj hread
  have hsize := congrArg DownloadFileDiskData.size ((hall { size := 1 }).trans (hall {}).symm)
  exact absurd hsize (by decide)

/-! ## `Init` -/

namespace DownloadFile

variable {fs : FileSystem} {f : DownloadFile}

/-- `Init` changes nothing that is recorded but the path. -/
theorem init_diskData : (f.init fs).diskData = { f.diskData with path := (f.init fs).path } := by
  unfold init
  split
  · rfl
  · simp only []
    split
    · rfl
    · rfl

/-- `Init` resets the message to the URL and the path. -/
theorem init_messageBuilder (h : f.content = false) :
    (f.init fs).messageBuilder = { url := f.url, path := (f.init fs).path } := by
  rw [init, if_neg (by rw [h]; exact Bool.false_ne_true)]
  simp only []
  split
  · rfl
  · rfl

theorem init_content : (f.init fs).content = f.content := by
  unfold init
  split
  · rfl
  · simp only []
    split
    · rfl
    · rfl

theorem absolutePath_absolute (fs : FileSystem) (path : List Char) :
    PosixPath.isAbsolute (absolutePath fs path) := by
  unfold absolutePath
  split
  · assumption
  · exact PosixPath.isAbsolute_lexicallyNormal (PosixPath.isAbsolute_append fs.absolute path)

theorem init_path (h : f.content = false) :
    (f.init fs).path =
      if fs.isDirectory (absolutePath fs f.path.toList) ||
          PosixPath.endsWithSeparator (absolutePath fs f.path.toList) then ""
      else String.ofList (absolutePath fs f.path.toList) := by
  rw [init, if_neg (by rw [h]; exact Bool.false_ne_true)]
  simp only []
  split
  · rfl
  · rfl

/-- The path of a download is not changed when it is initialised again. -/
theorem init_path_init {g : DownloadFile} (hf : f.content = false) (hg : g.content = false)
    (hpath : g.path = (f.init fs).path) : (g.init fs).path = (f.init fs).path := by
  rw [init_path hf] at hpath
  rw [init_path hf, init_path hg]
  by_cases hdir : (fs.isDirectory (absolutePath fs f.path.toList) ||
      PosixPath.endsWithSeparator (absolutePath fs f.path.toList)) = true
  · rw [if_pos hdir] at hpath
    have hcurrent : fs.currentPath ≠ [] := by
      intro hnil
      have habsolute := fs.absolute
      rw [hnil] at habsolute
      cases habsolute
    have hend : PosixPath.endsWithSeparator (absolutePath fs g.path.toList) := by
      rw [hpath]
      exact PosixPath.endsWithSeparator_lexicallyNormal
        (PosixPath.isAbsolute_append fs.absolute _)
        (PosixPath.endsWithSeparator_append_nil hcurrent)
    rw [if_pos hdir, if_pos (by rw [hend, Bool.or_true])]
  · rw [if_neg hdir] at hpath
    have hsame : absolutePath fs g.path.toList = absolutePath fs f.path.toList := by
      rw [hpath, String.toList_ofList]
      exact if_pos (absolutePath_absolute fs _)
    rw [hsame]

end DownloadFile

namespace Recording

variable {codec : Codec} {fs : FileSystem}

theorem saveRecoveryInfo_file (r : Recording) : (r.saveRecoveryInfo codec).file = r.file := by
  unfold saveRecoveryInfo
  split
  · rfl
  · rfl

/-- The record of the download starts with a message that gives back what was last saved, and
nothing but the URL and the path was saved. -/
structure Sound (codec : Codec) (fs : FileSystem) (r : Recording) : Prop where
  plain : r.file.content = false
  fresh : r.saved = { url := r.saved.url, path := r.saved.path }
  front : ∃ data rest, r.record r.file.workPath = codec.encode data ++ rest ∧
    (codec.encode data).length ≤ r.offset ∧
    ((data.toFile r.file.workPath).init fs).diskData = r.saved

/-- The download that is loaded is the one of the first message. -/
theorem loadDiskDataFile_front {r : Recording} {data : DownloadFileDiskData} {rest : List UInt8}
    (h : r.record r.file.workPath = codec.encode data ++ rest) :
    r.loadDiskDataFile codec fs =
      some (addTask codec fs r.record (data.toFile r.file.workPath)) := by
  have hne : r.record r.file.workPath ≠ [] := by
    rw [h]
    exact List.append_ne_nil_of_left_ne_nil (codec.encode_ne_nil data) rest
  unfold loadDiskDataFile
  rw [if_neg hne, h, codec.decode_encode, Option.map_some]

theorem addTask_file (record : String → List UInt8) (f : DownloadFile) :
    (addTask codec fs record f).file = f.init fs :=
  saveRecoveryInfo_file _

theorem Sound.roundTrips {r : Recording} (h : Sound codec fs r) : RoundTrips codec fs r := by
  obtain ⟨data, rest, hrecord, -, hsaved⟩ := h.front
  refine ⟨_, loadDiskDataFile_front hrecord, ?_⟩
  rw [addTask_file]
  exact hsaved

/-- The message of a download that is added. -/
def newData (fs : FileSystem) (f : DownloadFile) : DownloadFileDiskData :=
  { url := f.url, path := (f.init fs).path }

/-- The message that is written when a download is added, and what is saved then. -/
theorem addTask_record (record : String → List UInt8) {f : DownloadFile} (h : f.content = false) :
    (∃ rest, (addTask codec fs record f).record (f.init fs).workPath =
        codec.encode (newData fs f) ++ rest) ∧
      (addTask codec fs record f).offset = (codec.encode (newData fs f)).length ∧
      (addTask codec fs record f).saved = (f.init fs).diskData := by
  have hplain : ¬ (f.init fs).content = true := by
    rw [DownloadFile.init_content, h]
    exact Bool.false_ne_true
  have hdata : (f.init fs).messageBuilder = newData fs f := DownloadFile.init_messageBuilder h
  rw [addTask, saveRecoveryInfo, if_neg hplain]
  simp only [hdata, Function.update_self, writeAt_zero, Nat.zero_add, and_self, and_true]
  exact ⟨_, rfl⟩

/-- The message of a new download gives back a download without progress. -/
theorem newData_loaded {f : DownloadFile} (h : f.content = false) (workPath : String) :
    (((newData fs f).toFile workPath).init fs).diskData = newData fs f := by
  have hpath : (((newData fs f).toFile workPath).init fs).path = (f.init fs).path :=
    DownloadFile.init_path_init h rfl rfl
  rw [DownloadFile.init_diskData, hpath]
  rfl

/-- A download without progress that is added can be loaded. -/
theorem addTask_sound (record : String → List UInt8) {f : DownloadFile} (h : f.content = false)
    (hnew : (f.init fs).diskData = newData fs f) : Sound codec fs (addTask codec fs record f) := by
  obtain ⟨⟨rest, hrecord⟩, hoffset, hsaved⟩ := @addTask_record codec fs record f h
  refine ⟨?_, ?_, newData fs f, rest, ?_, ?_, ?_⟩
  · rw [addTask_file, DownloadFile.init_content, h]
  · rw [hsaved, hnew]
    rfl
  · rw [addTask_file]
    exact hrecord
  · rw [hoffset]
  · rw [newData_loaded h, hsaved, hnew]

/-- Progress that a download has when it is added is lost. -/
theorem addTask_not_roundTrips (record : String → List UInt8) {f : DownloadFile}
    (h : f.content = false) (hold : (f.init fs).diskData ≠ newData fs f) :
    ¬ RoundTrips codec fs (addTask codec fs record f) := by
  obtain ⟨⟨rest, hrecord⟩, -, hsaved⟩ := @addTask_record codec fs record f h
  have hfront : (addTask codec fs record f).record (addTask codec fs record f).file.workPath =
      codec.encode (newData fs f) ++ rest := by
    rw [addTask_file]
    exact hrecord
  rintro ⟨r, hload, hdata⟩
  rw [loadDiskDataFile_front hfront] at hload
  cases hload
  rw [addTask_file, newData_loaded h, hsaved] at hdata
  exact hold hdata.symm

/-- The record is read in the same way while the download only changes in memory. -/
theorem Sound.withFile {r : Recording} (h : Sound codec fs r) {f : DownloadFile}
    (hplain : f.content = r.file.content) (hpath : f.workPath = r.file.workPath) :
    Sound codec fs { r with file := f } := by
  obtain ⟨data, rest, hrecord, hoffset, hsaved⟩ := h.front
  refine ⟨hplain.trans h.plain, h.fresh, data, rest, ?_, hoffset, ?_⟩
  · show r.record f.workPath = _
    rw [hpath, hrecord]
  · show ((data.toFile f.workPath).init fs).diskData = r.saved
    rw [hpath, hsaved]

/-- A message that is saved later stands behind the first one. -/
theorem saveRecoveryInfo_front {r : Recording} (h : Sound codec fs r) :
    ∃ data rest,
      (r.saveRecoveryInfo codec).record r.file.workPath = codec.encode data ++ rest ∧
      (codec.encode data).length ≤ (r.saveRecoveryInfo codec).offset ∧
      ((data.toFile r.file.workPath).init fs).diskData = r.saved ∧
      (r.saveRecoveryInfo codec).saved = r.file.diskData := by
  obtain ⟨data, rest, hrecord, hoffset, hsaved⟩ := h.front
  rw [saveRecoveryInfo, if_neg (by rw [h.plain]; exact Bool.false_ne_true)]
  obtain ⟨rest', hwritten⟩ :=
    @writeAt_append _ rest (codec.encode r.file.messageBuilder) _ hoffset
  refine ⟨data, rest', ?_, Nat.le_add_right_of_le hoffset, hsaved, rfl⟩
  show Function.update r.record r.file.workPath _ r.file.workPath = _
  rw [Function.update_self, hrecord, hwritten]

theorem Sound.save {r : Recording} (h : Sound codec fs r) (hsame : r.file.diskData = r.saved) :
    Sound codec fs (r.saveRecoveryInfo codec) := by
  obtain ⟨data, rest, hrecord, hoffset, hloaded, hsaved⟩ := saveRecoveryInfo_front h
  refine ⟨?_, ?_, data, rest, ?_, hoffset, ?_⟩
  · rw [saveRecoveryInfo_file]
    exact h.plain
  · rw [hsaved, hsame]
    exact h.fresh
  · rw [saveRecoveryInfo_file]
    exact hrecord
  · rw [saveRecoveryInfo_file, hloaded, hsaved, hsame]

/-- A change that is saved is not loaded. -/
theorem Sound.save_not_roundTrips {r : Recording} (h : Sound codec fs r)
    (hchanged : r.file.diskData ≠ r.saved) :
    ¬ RoundTrips codec fs (r.saveRecoveryInfo codec) := by
  obtain ⟨data, rest, hrecord, -, hloaded, hsaved⟩ := saveRecoveryInfo_front h
  have hfront : (r.saveRecoveryInfo codec).record (r.saveRecoveryInfo codec).file.workPath =
      codec.encode data ++ rest := by
    rw [saveRecoveryInfo_file]
    exact hrecord
  rintro ⟨r', hload, hdata⟩
  rw [loadDiskDataFile_front hfront] at hload
  cases hload
  rw [addTask_file, saveRecoveryInfo_file, hloaded, hsaved] at hdata
  exact hchanged hdata.symm

/-- The download that is loaded has only a URL and a path, and its record gives it back. -/
theorem Sound.restart {r r' : Recording} (h : Sound codec fs r)
    (hload : r.loadDiskDataFile codec fs = some r') : Sound codec fs r' := by
  obtain ⟨data, rest, hrecord, -, hsaved⟩ := h.front
  rw [loadDiskDataFile_front hrecord] at hload
  cases hload
  refine addTask_sound r.record rfl ?_
  rw [hsaved, h.fresh, ← hsaved, DownloadFile.init_diskData]
  rfl

end Recording

theorem DownloadFile.updateOnlineFilename_content (f : DownloadFile) (filename : String) :
    (f.updateOnlineFilename filename).2.content = f.content ∧
      (f.updateOnlineFilename filename).2.workPath = f.workPath := by
  unfold DownloadFile.updateOnlineFilename
  simp only []
  split
  · exact ⟨rfl, rfl⟩
  · split
    · exact ⟨rfl, rfl⟩
    · exact ⟨rfl, rfl⟩

namespace RecordEvent

open Recording

variable {codec : Codec} {fs : FileSystem}

theorem sound_step {r r' : Recording} {event : RecordEvent} (h : Sound codec fs r)
    (hok : event.Unchanged r) (hstep : event.step codec fs r = some r') : Sound codec fs r' := by
  cases event with
  | setFileSize size =>
      cases hstep
      obtain ⟨-, hpath, hplain, -, -⟩ := r.file.setFileSize_frame size
      exact h.withFile hplain hpath
  | setURL url =>
      cases hstep
      exact h.withFile rfl rfl
  | updateOnlineFilename filename =>
      cases hstep
      obtain ⟨hplain, hpath⟩ := r.file.updateOnlineFilename_content filename
      exact h.withFile hplain hpath
  | setStatus status =>
      cases hstep
      exact h.withFile rfl rfl
  | completeChunk index =>
      rw [RecordEvent.step] at hstep
      split at hstep
      · cases hstep
        exact h.withFile rfl rfl
      · cases hstep
  | saveRecoveryInfo =>
      cases hstep
      exact h.save hok
  | restart => exact h.restart hstep

theorem not_roundTrips_step {r : Recording} {event : RecordEvent} (h : Sound codec fs r)
    (hok : ¬ event.Unchanged r) :
    ∃ r', event.step codec fs r = some r' ∧ ¬ RoundTrips codec fs r' := by
  cases event with
  | saveRecoveryInfo => exact ⟨_, rfl, h.save_not_roundTrips hok⟩
  | restart => exact absurd trivial hok
  | setFileSize size => exact absurd trivial hok
  | setURL url => exact absurd trivial hok
  | updateOnlineFilename filename => exact absurd trivial hok
  | setStatus status => exact absurd trivial hok
  | completeChunk index => exact absurd trivial hok

end RecordEvent

open Recording

/-- A new download to a file. -/
def newDownload (url path : String) : DownloadFile := { url := url, path := path }

theorem newDownload_sound (codec : Codec) (fs : FileSystem) (record : String → List UInt8)
    (url path : String) : Sound codec fs (addTask codec fs record (newDownload url path)) := by
  refine addTask_sound record rfl ?_
  rw [DownloadFile.init_diskData]
  rfl

/-- In every state of the history of a download, restarts included, its record gives it back as it
was last saved if and only if it is never saved after a change. -/
theorem record_round_trips_iff (codec : Codec) (fs : FileSystem) (record : String → List UInt8)
    (url path : String) (events : List RecordEvent) :
    (∀ first, first <+: events → ∀ r, exec (RecordEvent.step codec fs)
        (addTask codec fs record (newDownload url path)) first = some r → RoundTrips codec fs r) ↔
      Guarded (RecordEvent.step codec fs) RecordEvent.Unchanged
        (addTask codec fs record (newDownload url path)) events :=
  exec_always_iff (fun _ h => h.roundTrips)
    (fun _ _ _ h hok hstep => RecordEvent.sound_step h hok hstep)
    (fun _ _ h hok => RecordEvent.not_roundTrips_step h hok)
    (newDownload_sound codec fs record url path) events

/-- The text of a string, as numbers. -/
def charCodes (text : String) : List Nat := text.toList.map Char.toNat

theorem charCodes_injective : Function.Injective charCodes := by
  intro a b h
  have hchars : Function.Injective Char.toNat := fun c d hcd => Char.ext (UInt32.toNat_inj.mp hcd)
  exact String.toList_inj.mp (hchars.list_map h)

instance DownloadFileDiskData.countable : Countable DownloadFileDiskData := by
  let fields := fun data : DownloadFileDiskData =>
    (charCodes data.path, data.size, data.downloadSize, data.chunkNum.toNat,
      data.chunksCompleteFlag.map BitVec.toNat, charCodes data.url, data.status.ctorIdx)
  have hinjective : Function.Injective fields := by
    rintro ⟨path, size, downloadSize, chunkNum, flags, url, status⟩
      ⟨path', size', downloadSize', chunkNum', flags', url', status'⟩ h
    simp only [fields, Prod.mk.injEq] at h
    obtain ⟨hpath, rfl, rfl, hnum, hflags, hurl, hstatus⟩ := h
    have hbits : Function.Injective (BitVec.toNat : BitVec 8 → Nat) :=
      fun _ _ => BitVec.eq_of_toNat_eq
    cases charCodes_injective hpath
    cases charCodes_injective hurl
    cases UInt32.toNat_inj.mp hnum
    cases hbits.list_map hflags
    cases status <;> cases status' <;> first | rfl | exact absurd hstatus (by decide)
  exact hinjective.countable

/-- There are encodings: the number of a message in unary, ended by a zero. -/
theorem codec_nonempty : Nonempty Codec := by
  obtain ⟨number, hnumber⟩ := exists_injective_nat DownloadFileDiskData
  classical
  refine ⟨{ encode := fun data => List.replicate (number data) 1 ++ [0]
            decode := fun bytes =>
              if h : ∃ data, number data = (bytes.takeWhile (· == 1)).length then some h.choose
              else none
            decode_encode := fun data rest => ?_ }⟩
  have hlength : ((List.replicate (number data) (1 : UInt8) ++ [0] ++ rest).takeWhile
      (· == 1)).length = number data := by
    rw [List.append_assoc, List.takeWhile_append_of_pos (by simp)]
    simp
  simp only [hlength]
  have hexists : ∃ data', number data' = number data := ⟨data, rfl⟩
  rw [dif_pos hexists, hnumber hexists.choose_spec]

/-- Whatever the encoding, the size that the server reported and that was saved is not loaded, and a
download that is added with its size, as a loaded one is, does not get it into its record. -/
theorem saved_size_not_loaded :
    Nonempty Codec ∧
    (¬ ∃ codec r, exec (RecordEvent.step codec rootFileSystem)
        (addTask codec rootFileSystem (fun _ => []) (newDownload "u" "/d/f"))
        [.setFileSize 100, .setStatus .downloadChunk, .saveRecoveryInfo] = some r ∧
          RoundTrips codec rootFileSystem r) ∧
      ¬ ∃ codec, RoundTrips codec rootFileSystem (addTask codec rootFileSystem (fun _ => [])
        ((newDownload "u" "/d/f").setFileSize 100)) := by
  refine ⟨codec_nonempty, ?_, ?_⟩
  · rintro ⟨codec, r, hrun, hround⟩
    have hsound := newDownload_sound codec rootFileSystem (fun _ => []) "u" "/d/f"
    have hsized := @RecordEvent.sound_step _ _ _ _ (.setFileSize 100) hsound trivial rfl
    have hstatus := @RecordEvent.sound_step _ _ _ _ (.setStatus .downloadChunk) hsized trivial rfl
    cases hrun
    refine hstatus.save_not_roundTrips (fun heq => ?_) hround
    have hzero := congrArg DownloadFileDiskData.size (heq.trans hsound.fresh)
    have hsize := (addTask codec rootFileSystem (fun _ => []) (newDownload "u" "/d/f")).file
      |>.setFileSize_size 100
    exact absurd (show (100 : Int) = 0 from hsize.symm.trans hzero) (by decide)
  · rintro ⟨codec, hround⟩
    refine addTask_not_roundTrips _ rfl (fun heq => ?_) hround
    have hsize := congrArg DownloadFileDiskData.size heq
    exact absurd hsize (by decide)

end Utilpp.Download

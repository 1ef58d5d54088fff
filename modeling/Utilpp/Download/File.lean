import Utilpp.Lib.BitList
import Utilpp.Lib.PosixPath

/-!
# A file to be downloaded

`FDownloadFile`: a download in chunks of 4 MiB with one bit for every chunk that is being
fetched (`ChunksDownloadFlag`) and one for every chunk that has been written
(`ChunksCompleteFlag`). The flags are byte arrays; `GetNotDownloadFilechunk` scans them byte by
byte. A download to a file keeps a second copy of its data in `MessageBuilder`, the message that is
written to its recovery record.
-/

namespace Utilpp.Download

open Lib

/-- `EFileTaskStatus`. -/
inductive EFileTaskStatus where
  | idle
  | init
  | downloadChunk
  | download
  | finished
  deriving DecidableEq, Repr

/-- `EDownloadCode`. -/
inductive EDownloadCode where
  | ok
  | fileExist
  | paramsError
  | internalError
  | finished
  | couldntConnect
  | timeout
  | sslConnectError
  | serverError
  deriving DecidableEq, Repr

/-- `DOWNLOAD_FILE_CHUNK_SIZE`. -/
def downloadFileChunkSize : Nat := 4194304

/-- `DownloadFileDiskData`, the message of the recovery record. -/
structure DownloadFileDiskData where
  path : String := ""
  size : Int := 0
  downloadSize : Nat := 0
  chunkNum : UInt32 := 0
  chunksCompleteFlag : List (BitVec 8) := []
  url : String := ""
  status : EFileTaskStatus := .idle
  deriving DecidableEq, Repr

/-- `FDownloadFile`. Requests are named by the chunk they fetch; `content` says that the data
go to memory. -/
structure DownloadFile where
  status : EFileTaskStatus := .idle
  code : EDownloadCode := .ok
  errorMsg : String := ""
  url : String := ""
  size : Int := 0
  downloadSize : Nat := 0
  chunkNum : UInt32 := 0
  chunksCompleteFlag : List (BitVec 8) := []
  chunksDownloadFlag : List (BitVec 8) := []
  requests : List Nat := []
  content : Bool := false
  path : String := ""
  workPath : String := ""
  fileName : String := ""
  messageBuilder : DownloadFileDiskData := {}
  deriving DecidableEq, Repr

/-- The download that `LoadDiskDataFile` hands to `AddTask`. -/
def DownloadFileDiskData.toFile (data : DownloadFileDiskData) (workPath : String) : DownloadFile :=
  { url := data.url, path := data.path, status := data.status, chunkNum := data.chunkNum
    downloadSize := data.downloadSize, chunksCompleteFlag := data.chunksCompleteFlag
    chunksDownloadFlag := data.chunksCompleteFlag, size := data.size, workPath := workPath }

/-- What `Init` asks the file system for. -/
structure FileSystem where
  currentPath : List Char
  isDirectory : List Char → Bool
  absolute : PosixPath.isAbsolute currentPath

/-- A file system whose current directory is the root. -/
def rootFileSystem : FileSystem :=
  { currentPath := ['/'], isDirectory := fun path => path == ['/'], absolute := rfl }

/-! ## Flags -/

/-- Sets the bit of a chunk. -/
def setFlag (flags : List (BitVec 8)) (index : Nat) : List (BitVec 8) :=
  flags.modify (index / 8) (· ||| 1#8 <<< (index % 8))

/-- Clears the bit of a chunk. -/
def clearFlag (flags : List (BitVec 8)) (index : Nat) : List (BitVec 8) :=
  flags.modify (index / 8) (· &&& ~~~(1#8 <<< (index % 8)))

/-- The lowest clear bit among the first `n` of a byte. -/
def firstClear (byte : BitVec 8) (n : Nat) : Option Nat :=
  (List.range n).find? fun j => !byte.getLsbD j

/-- The first byte that is not full, with its lowest clear bit. -/
def scanBytes : List (BitVec 8) → Nat → Option (Nat × Nat)
  | [], _ => none
  | byte :: bytes, i =>
      if byte = 255#8 then scanBytes bytes (i + 1)
      else
        match firstClear byte 8 with
        | some j => some (i, j)
        | none => scanBytes bytes (i + 1)

namespace DownloadFile

/-- `Finish`. -/
def finish (f : DownloadFile) (err : EDownloadCode) (msg : String := "") : DownloadFile :=
  { f with status := .finished, code := err, errorMsg := msg }

/-- `SetStatus`. -/
def setStatus (f : DownloadFile) (status : EFileTaskStatus) : DownloadFile :=
  { f with status := status, messageBuilder := { f.messageBuilder with status := status } }

/-- The path of a download as `Init` completes it. -/
def absolutePath (fs : FileSystem) (path : List Char) : List Char :=
  if PosixPath.isAbsolute path then path
  else PosixPath.lexicallyNormal (PosixPath.append fs.currentPath path)

/-- `Init`. A download to a directory gets its path when the server has named the file. -/
def init (fs : FileSystem) (f : DownloadFile) : DownloadFile :=
  if f.content then f
  else
    let path := absolutePath fs f.path.toList
    -- the message builder is a new one, so that only the URL and the path are in it
    if fs.isDirectory path || PosixPath.endsWithSeparator path then
      { f with path := "", workPath := String.ofList path, messageBuilder := { url := f.url } }
    else
      { f with
        path := String.ofList path
        workPath := String.ofList (PosixPath.parentPath path)
        messageBuilder := { url := f.url, path := String.ofList path } }

/-- `UpdateOnlineFilename`. -/
def updateOnlineFilename (f : DownloadFile) (filename : String) : Bool × DownloadFile :=
  let named := { f with fileName := filename }
  if f.content then (false, named)
  else if f.path ≠ "" then (false, named)
  else
    let path := String.ofList (PosixPath.append f.workPath.toList filename.toList)
    (true, { named with path := path, messageBuilder := { f.messageBuilder with path := path } })

/-- `SetFileSize`; `CEIL_INTEGER` is computed in 64 bits for the chunks, in 32 bits for the
bytes. -/
def setFileSize (f : DownloadFile) (size : Int) : DownloadFile :=
  if 0 < size then
    let chunkNum := UInt32.ofNat (1 + (size.toNat - 1) / downloadFileChunkSize)
    -- `CEIL_INTEGER(ChunkNum, CHAR_BIT)` on `uint32_t`
    let byteNum := (1 + (chunkNum - 1) / 8).toNat
    { f with
      size := size
      chunkNum := chunkNum
      chunksCompleteFlag := List.replicate byteNum 0
      chunksDownloadFlag := List.replicate byteNum 0
      messageBuilder :=
        if f.content then f.messageBuilder
        else
          { f.messageBuilder with
            size := size, chunkNum := chunkNum, chunksCompleteFlag := List.replicate byteNum 0 } }
  else { f with size := size }

/-- How many bits of the last byte are chunks. -/
def lastnum (f : DownloadFile) : UInt32 := if f.chunkNum % 8 = 0 then 8 else f.chunkNum % 8

/-- `GetNotDownloadFilechunk`: the index of the chunk that is taken and the file with its bit
set. -/
def getNotDownloadFilechunk (f : DownloadFile) : Option (UInt32 × DownloadFile) :=
  let flags := f.chunksDownloadFlag
  match scanBytes flags.dropLast 0 with
  | some (i, j) =>
      some (UInt32.ofNat (i * 8 + j),
        { f with chunksDownloadFlag := flags.modify i (· ||| 1#8 <<< j) })
  | none =>
      match firstClear (flags.getLastD 0) f.lastnum.toNat with
      | some j =>
          some (f.chunkNum - f.lastnum + UInt32.ofNat j,
            { f with chunksDownloadFlag := flags.modify (flags.length - 1) (· ||| 1#8 <<< j) })
      | none => none

/-- `RevertDownloadFilechunk`. -/
def revertDownloadFilechunk (f : DownloadFile) (index : UInt32) : DownloadFile :=
  { f with chunksDownloadFlag := clearFlag f.chunksDownloadFlag index.toNat }

/-- `IsAllChunkInDownload`. -/
def isAllChunkInDownload (f : DownloadFile) : Bool :=
  -- the bytes before the last one are not looked at
  f.chunksDownloadFlag.getLastD 0 == 255#8 >>> (8 - f.lastnum.toNat)

/-- `file_chunk_t::GetRange`. -/
def getRange (f : DownloadFile) (index : UInt32) : Int × Int :=
  let first : Int := downloadFileChunkSize * index.toNat
  (first, min (first + downloadFileChunkSize) f.size)

/-- `file_chunk_t::GetChunkSize`, the difference of two unsigned numbers. -/
def getChunkSize (f : DownloadFile) (index : UInt32) : Nat :=
  (((f.getRange index).2 - (f.getRange index).1) % 2 ^ 64).toNat

/-- `CompleteChunk` with the progress that `GenProgressData` counts. -/
def completeChunk (f : DownloadFile) (index : UInt32) : DownloadFile :=
  let flags := setFlag f.chunksCompleteFlag index.toNat
  let downloadSize := (f.downloadSize + f.getChunkSize index) % 2 ^ 64
  { f with
    chunksCompleteFlag := flags
    downloadSize := downloadSize
    messageBuilder :=
      { f.messageBuilder with chunksCompleteFlag := flags, downloadSize := downloadSize } }

theorem setFileSize_size (f : DownloadFile) (size : Int) : (f.setFileSize size).size = size := by
  unfold setFileSize
  split
  · rfl
  · rfl

/-- What `SetFileSize` leaves as it is. -/
theorem setFileSize_frame (f : DownloadFile) (size : Int) :
    (f.setFileSize size).path = f.path ∧ (f.setFileSize size).workPath = f.workPath ∧
      (f.setFileSize size).content = f.content ∧ (f.setFileSize size).requests = f.requests ∧
      (f.setFileSize size).downloadSize = f.downloadSize := by
  unfold setFileSize
  split
  · exact ⟨rfl, rfl, rfl, rfl, rfl⟩
  · exact ⟨rfl, rfl, rfl, rfl, rfl⟩

end DownloadFile

end Utilpp.Download

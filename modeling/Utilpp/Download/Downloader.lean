import Utilpp.Download.File
import Utilpp.Lib.Transition
import Mathlib.Logic.Function.Basic

/-!
# The downloader

`FDownloader` fetches the chunks of its files through HTTP requests into four buffers. `Tick` hands
every buffer whose chunks have all arrived to the IO thread and starts requests for chunks that
nobody fetches; `TickIO` writes the chunks of the buffers and counts them. Progress and the end of a
request are reported by callbacks, in any order with `Tick` and `TickIO`. Files, chunks and buffers
are objects that are shared between the queues, the requests and the callbacks; they are named by
numbers here. A request is named by the chunk that it fetches.
-/

namespace Utilpp.Download

open Lib

/-- `file_chunk_t`. `bufCursor` is an offset in the buffer. -/
structure FileChunk where
  chunkIndex : UInt32 := 0
  downloadSize : UInt32 := 0
  file : Nat := 0
  buf : Option Nat := none
  bufCursor : Nat := 0
  deriving DecidableEq, Repr

/-- `FDownloader`. `bufs` are the `ChunkList`s of the buffers, and `completed` are the chunks that
`CompleteChunk` was called for. -/
structure Downloader where
  files : Nat → DownloadFile
  fileCount : Nat
  tasks : List Nat
  requireRemoveFiles : List Nat
  chunks : Nat → FileChunk
  chunkCount : Nat
  bufs : Nat → List Nat
  bufPool : List Nat
  bufInIo : List Nat
  bufIoComplete : List Nat
  completed : List (Nat × UInt32)

namespace Downloader

/-- `ParallelChunkPerFile` -/
def parallelChunkPerFile : Nat := 3

/-- The size of a buffer, `BUF_CHUNK_NUM` chunks. -/
def bufLen : Nat := 3 * downloadFileChunkSize

/-- The downloader with its `BUF_NUM` buffers. -/
def init : Downloader :=
  { files := fun _ => {}, fileCount := 0, tasks := [], requireRemoveFiles := []
    chunks := fun _ => {}, chunkCount := 0, bufs := fun _ => [], bufPool := [0, 1, 2, 3]
    bufInIo := [], bufIoComplete := [], completed := [] }

/-- A file gets new data. -/
def setFile (d : Downloader) (f : Nat) (file : DownloadFile) : Downloader :=
  { d with files := Function.update d.files f file }

/-- `file_chunk_t::GetChunkSize` -/
def chunkSize (d : Downloader) (c : Nat) : Nat :=
  (d.files (d.chunks c).file).getChunkSize (d.chunks c).chunkIndex

/-! ## `Tick` -/

/-- All chunks of the buffer have arrived. -/
def isFull (d : Downloader) (b : Nat) : Bool :=
  d.bufs b ≠ [] ∧ ∀ c ∈ d.bufs b, (d.chunks c).downloadSize.toNat = d.chunkSize c

/-- `TransferBuf` -/
def transferBuf (d : Downloader) : Downloader :=
  { d with
    bufPool := d.bufPool.filter (fun b => !d.isFull b) ++ d.bufIoComplete
    bufInIo := d.bufInIo ++ d.bufPool.filter d.isFull
    -- `ChunkList.clear()`: what `TickIO` could not write is dropped here
    bufs := fun b => if b ∈ d.bufIoComplete then [] else d.bufs b
    bufIoComplete := [] }

/-- `FDownloadBuf::InsertInBuf`: the chunk `c` of `len` bytes goes into the first gap. The result is
the new `ChunkList` and the offset of the chunk. -/
def insertInBuf (d : Downloader) (len c : Nat) : List Nat → Nat → Option (List Nat × Nat)
  | [], cursor => if len ≤ bufLen - cursor then some ([c], cursor) else none
  | old :: rest, cursor =>
      if len ≤ (d.chunks old).bufCursor - cursor then some (c :: old :: rest, cursor)
      else
        (insertInBuf d len c rest ((d.chunks old).bufCursor + d.chunkSize old)).map
          fun result => (old :: result.1, result.2)

/-- `FDownloader::InsertInBuf`: the first buffer with room. -/
def placeChunk (d : Downloader) (len c : Nat) : List Nat → Option (Nat × List Nat × Nat)
  | [] => none
  | b :: pool =>
      match d.insertInBuf len c (d.bufs b) 0 with
      | some (list, cursor) => some (b, list, cursor)
      | none => placeChunk d len c pool

/-- A request for the chunk `index` of file `f` is made; the chunk is new, and stands in buffer
`b`. -/
def beginRequest (d : Downloader) (f : Nat) (file : DownloadFile) (index : UInt32) (b : Nat)
    (list : List Nat) (cursor : Nat) : Downloader :=
  { d with
    files := Function.update d.files f { file with requests := file.requests ++ [d.chunkCount] }
    chunks := Function.update d.chunks d.chunkCount
      { chunkIndex := index, file := f, buf := some b, bufCursor := cursor }
    chunkCount := d.chunkCount + 1
    bufs := Function.update d.bufs b list }

/-- The file is finished when its size has been written. -/
def finishWhenComplete (d : Downloader) (f : Nat) : Downloader :=
  if (d.files f).downloadSize = (d.files f).size then d.setFile f ((d.files f).finish .ok) else d

/-- The loop that starts requests for the chunks of a file. It ends with the third request at the
latest. -/
def fetch (f : Nat) : Nat → Downloader → Downloader
  | 0, d => d
  | fuel + 1, d =>
      let d := d.finishWhenComplete f
      -- `Finish` does not leave the loop
      if (d.files f).isAllChunkInDownload then d
      else if parallelChunkPerFile ≤ (d.files f).requests.length then d
      else
        match (d.files f).getNotDownloadFilechunk with
        | none => d
        | some (index, file) =>
            match d.placeChunk (file.getChunkSize index) d.chunkCount d.bufPool with
            -- no buffer has room for the chunk
            | none => d.setFile f (file.revertDownloadFilechunk index)
            | some (b, list, cursor) => fetch f fuel (d.beginRequest f file index b list cursor)

/-- What `Tick` does for one file. -/
def tickFile (d : Downloader) (f : Nat) : Downloader :=
  match (d.files f).status with
  | .idle => d.setFile f ((d.files f).setStatus .init)
  | .downloadChunk => fetch f (parallelChunkPerFile + 1) d
  | _ => d

/-- The removals of `Tick`. -/
def removeFiles (d : Downloader) : Downloader :=
  { d with
    tasks := d.tasks.filter (fun f => f ∉ d.requireRemoveFiles)
    requireRemoveFiles := [] }

/-- `Tick`. The files are visited in the order of the hash table, which is any order. -/
def tick (d : Downloader) (order : List Nat) : Option Downloader :=
  let d := d.transferBuf.removeFiles
  if order.Perm d.tasks then some (order.foldl tickFile d) else none

/-! ## `TickIO` -/

/-- `SaveDate` succeeds. A write to memory does; `fails` are the chunks whose write to a file
does not. -/
def saves (d : Downloader) (fails : List Nat) (c : Nat) : Bool :=
  -- `memcpy` into `Content` does not fail
  (d.files (d.chunks c).file).content || c ∉ fails

/-- `CompleteChunk` for a chunk of buffer `b`, which leaves the buffer. -/
def completeChunk (d : Downloader) (b c : Nat) : Downloader :=
  let chunk := d.chunks c
  { d with
    files := Function.update d.files chunk.file
      ((d.files chunk.file).completeChunk chunk.chunkIndex)
    bufs := Function.update d.bufs b ((d.bufs b).erase c)
    completed := d.completed ++ [(chunk.file, chunk.chunkIndex)] }

/-- One chunk of a buffer is written. -/
def saveChunk (fails : List Nat) (b : Nat) (d : Downloader) (c : Nat) : Downloader :=
  if d.saves fails c then d.completeChunk b c else d

/-- The buffer goes back to `Tick`. -/
def returnBuf (d : Downloader) (b : Nat) : Downloader :=
  { d with bufInIo := d.bufInIo.erase b, bufIoComplete := d.bufIoComplete ++ [b] }

/-- The chunks of one buffer are written, and the buffer goes back. -/
def saveBuf (fails : List Nat) (d : Downloader) (b : Nat) : Downloader :=
  ((d.bufs b).foldl (saveChunk fails b) d).returnBuf b

/-- `TickIO` -/
def tickIo (d : Downloader) (fails : List Nat) : Downloader :=
  d.bufInIo.foldl (saveBuf fails) d

/-! ## Callbacks -/

/-- `FDownloadBuf::RemoveChunk` -/
def removeChunk (d : Downloader) (b c : Nat) : Downloader :=
  if c ∈ d.bufs b then
    { d with
      bufs := Function.update d.bufs b ((d.bufs b).erase c)
      chunks := Function.update d.chunks c { d.chunks c with buf := none, bufCursor := 0 } }
  else d

/-- The request of a chunk is forgotten. -/
def eraseRequest (file : DownloadFile) (c : Nat) : DownloadFile :=
  { file with requests := file.requests.erase c }

/-- So many bytes of a chunk have arrived. -/
def setDownloadSize (d : Downloader) (c : Nat) (size : UInt32) : Downloader :=
  { d with chunks := Function.update d.chunks c { d.chunks c with downloadSize := size } }

/-- `OnRequestProgress` of the request for a chunk. -/
def progress (d : Downloader) (c : Nat) (newSize : UInt32) : Downloader :=
  if c ∈ (d.files (d.chunks c).file).requests then d.setDownloadSize c newSize else d

/-- The request of a chunk failed, or brought less than the chunk. -/
def failRequest (d : Downloader) (b c : Nat) : Downloader :=
  let f := (d.chunks c).file
  let file := eraseRequest (d.files f) c
  -- nothing asks whether `TickIO` has written the chunk already
  (d.setFile f (file.revertDownloadFilechunk (d.chunks c).chunkIndex)).removeChunk b c

/-- The request of a chunk brought the chunk. -/
def endRequest (d : Downloader) (c bytesRead : Nat) : Downloader :=
  let f := (d.chunks c).file
  (d.setFile f (eraseRequest (d.files f) c)).setDownloadSize c (UInt32.ofNat bytesRead)

/-- `OnProcessRequestComplete` of the request for a chunk. -/
def complete (d : Downloader) (c : Nat) (res : Bool) (bytesRead : Nat) : Option Downloader :=
  if c ∈ (d.files (d.chunks c).file).requests then
    if !res || bytesRead ≠ d.chunkSize c then
      (d.chunks c).buf.map fun b => d.failRequest b c
    else some (d.endRequest c bytesRead)
  else some d

end Downloader

/-- What the callback of `HEAD` makes of the name of the file. -/
inductive NameResult where
  | parseError
  | fileExist
  | free
  deriving DecidableEq, Repr

/-- What the callback of `HEAD` is told: no answer, or one with a length, an `int64_t`. -/
inductive HeadResult where
  | netError
  | answered (contentLength : { n : Int // n < 2 ^ 63 }) (name : NameResult)

/-- The file after the callback of `HEAD`. -/
def DownloadFile.onHead (file : DownloadFile) : HeadResult → DownloadFile
  | .netError => file.finish .serverError "net error"
  | .answered contentLength name =>
      if contentLength.val = 0 then file.finish .serverError "net error"
      else
        let file := file.setFileSize contentLength
        match name with
        | .parseError => file.finish .serverError "filename parse error"
        | .fileExist => file.finish .fileExist "file exist"
        | .free =>
            -- without a length the file is downloaded by one request
            if 0 < file.size then file.setStatus .downloadChunk else file.setStatus .download

/-- What happens to the downloader. `receive` and `finish` are the callbacks of a download whose
length the server does not tell. -/
inductive DownloadEvent where
  | addTask (url path : String) (content : Bool)
  | removeTask (f : Nat)
  | head (f : Nat) (result : HeadResult)
  | receive (f newSize : Nat)
  | finish (f : Nat) (res : Bool)
  | tick (order : List Nat)
  | tickIo (fails : List Nat)
  | progress (c : Nat) (newSize : UInt32)
  | complete (c : Nat) (res : Bool) (bytesRead : Nat)

namespace DownloadEvent

open Downloader

/-- `AddTask` -/
def addFile (d : Downloader) (file : DownloadFile) : Downloader :=
  { d with
    files := Function.update d.files d.fileCount file
    tasks := d.tasks ++ [d.fileCount]
    fileCount := d.fileCount + 1 }

/-- The downloader after one event. -/
def step (d : Downloader) : DownloadEvent → Option Downloader
  | .addTask url path content => some (addFile d { url := url, path := path, content := content })
  | .removeTask f =>
      if f ∈ d.tasks then some { d with requireRemoveFiles := f :: d.requireRemoveFiles }
      else some d
  | .head f result =>
      if f ∈ d.tasks ∧ (d.files f).status = .init then
        some (d.setFile f ((d.files f).onHead result))
      else some d
  | .receive f newSize =>
      if (d.files f).status = .download then
        some (d.setFile f { d.files f with downloadSize := newSize })
      else some d
  | .finish f res =>
      if (d.files f).status = .download then
        some (d.setFile f
          (if res then (d.files f).finish .ok else (d.files f).finish .serverError "net failed"))
      else some d
  | .tick order => d.tick order
  | .tickIo fails => some (d.tickIo fails)
  | .progress c newSize => some (d.progress c newSize)
  | .complete c res bytesRead => d.complete c res bytesRead

end DownloadEvent

end Utilpp.Download

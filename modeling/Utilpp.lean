import Utilpp.Handle
import Utilpp.Lib.CString
import Utilpp.Lib.LittleEndian
import Utilpp.Lib.Transition
import Utilpp.Message.Bounded
import Utilpp.Message.Build
import Utilpp.Message.Ordered
import Utilpp.Message.Stream
import Utilpp.Rpc.Processer
import Utilpp.Steam.PacketMsg
import Utilpp.Steam.RoundTrip
import Utilpp.Rpc.Matching
import Utilpp.Task.Integrity
import Utilpp.Lib.Modify
import Utilpp.Task.Entries
import Utilpp.Task.Removal
import Utilpp.Task.Lifecycle
import Utilpp.Task.Deadline
import Utilpp.Task.Interleaved
import Utilpp.Bits.BitVector
import Utilpp.Bits.Refinement
import Utilpp.Buffer.CharBuffer
import Utilpp.Buffer.Refinement
import Utilpp.Lib.Ownership
import Utilpp.Storage.Owners
import Utilpp.Storage.Publication
import Utilpp.Chain.Cancel
import Utilpp.Chain.Order
import Utilpp.Jrpc.Parser
import Utilpp.Jrpc.RoundTrip
import Utilpp.Download.File
import Utilpp.Http.Conservation
import Utilpp.Lib.Span
import Utilpp.Memory.Arena
import Utilpp.Memory.Placement
import Utilpp.Message.Channels
import Utilpp.Message.Total
import Utilpp.Steam.Client
import Utilpp.Steam.EventStream
import Utilpp.Steam.JobManager
import Utilpp.Steam.Multi
import Utilpp.Crypto.Aes
import Utilpp.Download.PathIndex
import Utilpp.Download.Record
import Utilpp.Download.Accounting
import Utilpp.Download.Conservation
import Utilpp.Download.Allocator
import Utilpp.Download.Buffer
import Utilpp.Download.Sizes
import Utilpp.Http.Ranges
import Utilpp.Jrpc.Accessors
import Utilpp.Lib.Cells
import Utilpp.Lib.Split
import Utilpp.Message.Unordered
import Utilpp.Path.InStep
import Utilpp.Rpc.Dispatch
import Utilpp.Bits.Batch
import Utilpp.Bits.Fields
import Utilpp.Buffer.Bounds
import Utilpp.Lib.FileStream
import Utilpp.Steam.AppInfo
import Utilpp.Steam.AppInfoLibrary
import Utilpp.Steam.Bounds
import Utilpp.Steam.SteamID
import Utilpp.Steam.Unpacking
import Utilpp.Lib.Adler32
import Utilpp.Hash.RollingAdler32
import Utilpp.Lib.Calendar
import Utilpp.Time.Timestamp
import Utilpp.Memory.Wrapping
import Utilpp.Buffer.Growth
import Utilpp.Buffer.Stream
import Utilpp.Download.InMemory
import Utilpp.File.FileBackedBuffer
import Utilpp.File.Merge
import Utilpp.File.DirtyRanges
import Utilpp.Lib.Regex
import Utilpp.Lib.SetMap
import Utilpp.Uri.ParseUrl
import Utilpp.Http.Reencode
import Utilpp.Lib.Crc
import Utilpp.Hash.ConstantHash
import Utilpp.Http.UrlEncoded
import Utilpp.Lib.Widths
import Utilpp.Http.ResponseBody
import Utilpp.Text.Hex
import Utilpp.Lib.Shell
import Utilpp.Text.ShellEscape
import Utilpp.Task.SlotCounter
import Utilpp.Path.PopAppend
import Utilpp.Time.DelayRecorder
import Utilpp.Lib.Unicode
import Utilpp.Text.StringConvert
import Utilpp.Delegate.Dispatch
import Utilpp.Handle.Uniqueness
import Utilpp.Crypto.Base64
import Utilpp.Lib.Patch
import Utilpp.Pe.Rva
import Utilpp.Pe.Image
import Utilpp.Pe.AddSection
import Utilpp.Path.IterateDir
import Utilpp.Path.Visits
import Utilpp.Path.Walks
import Utilpp.Steam.AuthSession
import Utilpp.Steam.LoginRuns
import Utilpp.Steam.LoginSafety
import Utilpp.Message.Server
import Utilpp.Message.StreamSessions
import Utilpp.Message.DatagramSessions
import Utilpp.Message.DatagramRouting
import Utilpp.Process.ChildProcess
import Utilpp.Process.ChildSchedule
import Utilpp.Process.ChildRuns
import Utilpp.Websocket.Endpoint
import Utilpp.Websocket.Delivery

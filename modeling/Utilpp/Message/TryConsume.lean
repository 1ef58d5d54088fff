import Utilpp.Message.Packet
import Mathlib.Algebra.Order.Group.Int
import Mathlib.Tactic.Ring

/-!
# The packet parser

`FMessageProcesser::TryConsume` as a function of the memory at `data` and of `len`. The
parser holds a pointer and a `uint32_t` count of bytes left, and it looks for header lines
with `strstr`, which does not know that count. So the memory is longer than `len` bytes, the
count is subtracted modulo `2 ^ 32`, and a search may leave the buffer or the mapped memory.

`Cursor.within left tail` is the cursor of a parser that has not left its buffer.
-/

namespace Utilpp.Message

open Lib

/-- Ways to leave `TryConsume` or `OnRead` other than by returning: a C++ exception, an endless
loop, or undefined behaviour (a read of unmapped memory, a vector index out of range, a null
pointer, an iterator moved past the end). -/
inductive Stop where
  | lengthError
  | stoi (error : StoiError)
  | diverge
  | badRead
  | badIndex
  | nullDeref
  | badIterator
  deriving DecidableEq, Repr

/-- The local variables `ptr` and `leftlen`. `ptr` is the memory from the pointer on. `wrapped`
is no variable of the program: it records that `leftlen` has wrapped below zero. -/
structure Cursor where
  ptr : List UInt8
  leftlen : Nat
  wrapped : Bool := false
  deriving DecidableEq

/-- `ConsumePtr`: its argument, `ptr` and `leftlen` are moved as `uint32_t` arithmetic does. -/
def Cursor.consumePtr (cur : Cursor) (len : Nat) : Cursor :=
  { ptr := cur.ptr.drop (len % 2 ^ 32)
    leftlen := (cur.leftlen + 2 ^ 32 - len % 2 ^ 32) % 2 ^ 32
    wrapped := cur.wrapped || decide (cur.leftlen < len % 2 ^ 32) }

/-- Parser steps; a step that does not return gives the reason and the cursor it stopped at. -/
abbrev Parse (α : Type) := Except (Stop × Cursor) α

/-- The three ways `ConsumeString` and `TryConsumeString` can end. -/
inductive Taken where
  | taken (cur : Cursor)
  | short (cur : Cursor)
  | mismatch (cur : Cursor)

/-- The common body of `ConsumeString` and `TryConsumeString`. Both return false on `short` and on
`mismatch`; only `ConsumeString` reports a mismatch as a parse error. -/
def consumeString (str : List UInt8) (cur : Cursor) : Parse Taken :=
  if cur.leftlen < str.length then .ok (.short cur)
  -- `leftlen` may promise more than there is
  else if cur.ptr.length < str.length then .error (.badRead, cur)
  else if cur.ptr.take str.length ≠ str then .ok (.mismatch cur)
  else .ok (.taken (cur.consumePtr str.length))

/-- How `FindHeader` ends: with a header line, with false, or with false and a parse error. The
lengths are `int32_t` differences of pointers. -/
inductive FoundHeader where
  | line (key : List UInt8) (keylen : Int) (value : List UInt8) (valuelen : Int) (cur : Cursor)
  | incomplete
  | malformed

/-- `FindHeader`. -/
def findHeader (cur : Cursor) : Parse FoundHeader :=
  match strstr messageEnd cur.ptr with
  | .unmapped => .error (.badRead, cur)
  | .absent => .ok .incomplete
  -- the search does not stop at `leftlen`
  | .found headend =>
      match strstr messageHeaderSeparator cur.ptr with
      | .unmapped => .error (.badRead, cur)
      | .absent => .ok .malformed
      | .found headSeparator =>
          if headend ≤ headSeparator then .ok .malformed
          else
            .ok (.line cur.ptr (Int.bmod headSeparator (2 ^ 32))
              (cur.ptr.drop (headSeparator + messageHeaderSeparator.length))
              (Int.bmod (headend - (headSeparator + messageHeaderSeparator.length)) (2 ^ 32))
              (cur.consumePtr (headend + messageEnd.length)))

/-- `std::string(ptr, len)`; a negative length converts to a `size_t` beyond `max_size`. -/
def makeString (ptr : List UInt8) (len : Int) : Except Stop (List UInt8) :=
  if len < 0 then .error .lengthError
  else if ptr.length < len.toNat then .error .badRead
  else .ok (ptr.take len.toNat)

/-- The body of the header loop after `FindHeader`: look the key up and store the value. -/
def readHeader (packet : MessagePacket) (key : List UInt8) (keylen : Int) (value : List UInt8)
    (valuelen : Int) : Except Stop MessagePacket :=
  match makeString key keylen with
  | .error stop => .error stop
  | .ok name =>
      match mapHeader name with
      -- an unknown header is skipped
      | none => .ok packet
      | some header =>
          match makeString value valuelen with
          | .error stop => .error stop
          | .ok text =>
              match stoi text with
              -- nothing catches what `std::stoi` throws
              | .error error => .error (.stoi error)
              | .ok number => .ok (packet.setHeader number header)

/-- How the header loop ends: at the empty line, or with `return result`. -/
inductive Headers where
  | complete (packet : MessagePacket) (cur : Cursor)
  | incomplete (cur : Cursor)
  | malformed (cur : Cursor)

/-- The header loop `while (!TryConsumeString(MessageEnd))`. -/
def readHeaders : Nat → MessagePacket → Cursor → Parse Headers
  | 0, _, cur => .error (.diverge, cur)
  | fuel + 1, packet, cur =>
      match consumeString messageEnd cur with
      | .error stop => .error stop
      | .ok (.taken next) => .ok (.complete packet next)
      | .ok _ =>
          match findHeader cur with
          | .error stop => .error stop
          | .ok .incomplete => .ok (.incomplete cur)
          | .ok .malformed => .ok (.malformed cur)
          | .ok (.line key keylen value valuelen next) =>
              match readHeader packet key keylen value valuelen with
              | .error stop => .error (stop, next)
              | .ok packet => readHeaders fuel packet next

/-- The copy of the body; `none` stands for `return result` on a body that is not complete. -/
def readContent (packet : MessagePacket) (cur : Cursor) : Parse (Option (MessagePacket × Cursor)) :=
  if 0 < packet.contentLength then
    if cur.leftlen < packet.contentLength then .ok none
    else if cur.ptr.length < packet.contentLength then .error (.badRead, cur)
    else
      .ok (some ({ packet with messageContent := cur.ptr.take packet.contentLength },
        cur.consumePtr packet.contentLength))
  else .ok (some (packet, cur))

/-- `ConsumeResult_t`. -/
structure ConsumeResult where
  result : EMessageError := .ok
  consumptionLength : Nat := 0
  messagePackets : List MessagePacket := []
  deriving DecidableEq, Repr

/-- The outer loop `while (leftlen > 0)`. -/
def consumeLoop : Nat → ConsumeResult → Cursor → Parse (ConsumeResult × Cursor)
  | 0, _, cur => .error (.diverge, cur)
  | fuel + 1, result, cur =>
      if cur.leftlen = 0 then .ok (result, cur)
      else
        match consumeString messageBegin cur with
        | .error stop => .error stop
        | .ok (.short stopped) => .ok (result, stopped)
        | .ok (.mismatch stopped) => .ok ({ result with result := .parseError }, stopped)
        | .ok (.taken started) =>
            match consumeString messageEnd started with
            | .error stop => .error stop
            | .ok (.short stopped) => .ok (result, stopped)
            | .ok (.mismatch stopped) => .ok ({ result with result := .parseError }, stopped)
            | .ok (.taken headers) =>
                match readHeaders fuel {} headers with
                | .error stop => .error stop
                | .ok (.incomplete stopped) => .ok (result, stopped)
                | .ok (.malformed stopped) => .ok ({ result with result := .parseError }, stopped)
                | .ok (.complete packet content) =>
                    match readContent packet content with
                    | .error stop => .error stop
                    -- the packet is parsed again when more bytes have come
                    | .ok none => .ok (result, content)
                    | .ok (some (packet, next)) =>
                        consumeLoop fuel
                          { result with
                            consumptionLength := (result.consumptionLength +
                              (cur.leftlen + 2 ^ 32 - next.leftlen) % 2 ^ 32) % 2 ^ 32
                            messagePackets := result.messagePackets ++ [packet] } next

/-- More iterations than there are addresses; only an endless loop needs as many. -/
def loopBound : Nat := 2 ^ 64

/-- `TryConsume` with the cursor it ends at. -/
def consume (memory : List UInt8) (len : Nat) : Parse (ConsumeResult × Cursor) :=
  consumeLoop loopBound {} { ptr := memory, leftlen := len }

/-- `FMessageProcesser::TryConsume(data, len)`, where `memory` is what can be read from `data`
on. -/
def tryConsume (memory : List UInt8) (len : Nat) : Except Stop ConsumeResult :=
  match consume memory len with
  | .error (stop, _) => .error stop
  | .ok (result, _) => .ok result

/-- Whether `leftlen` wraps below zero while `TryConsume(data, len)` runs. -/
def leftlenWraps (memory : List UInt8) (len : Nat) : Bool :=
  match consume memory len with
  | .error (_, cur) => cur.wrapped
  | .ok (_, cur) => cur.wrapped

end Utilpp.Message

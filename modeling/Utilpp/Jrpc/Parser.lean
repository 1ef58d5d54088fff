import Utilpp.Lib.Json.Schema
import Utilpp.Lib.Json.Value
import Utilpp.Rpc.Processer

/-!
# The JSON-RPC parser

`JRPCPaser`: `ToByte` writes requests and responses and `StaticParse` reads them. The document
of a message has its fixed members; `params` and `result` are JSON texts that the writers add
unchanged when the object ends. The reader decides between request and response by two
schemas. A typed accessor that is used on a value of another type is a fault.
-/

namespace Utilpp.Jrpc

open Lib Lib.Json

/-! ## Messages -/

/-- `JsonRPCRequest`. -/
structure JsonRPCRequest where
  id : Option UInt32
  method : List UInt8
  params : List UInt8
  deriving DecidableEq, Repr

/-- `JsonRPCResponse`; `optError` is unset until `SetError`. -/
structure JsonRPCResponse where
  id : Option UInt32 := none
  optError : Option Bool := none
  errorCode : Int64 := 0
  errorMsg : List UInt8 := []
  errorData : List UInt8 := []
  result : List UInt8 := []
  deriving DecidableEq

/-- `IsValiad`. -/
def JsonRPCResponse.isValiad (resp : JsonRPCResponse) : Bool := resp.optError.isSome

/-- `IsError`. -/
def JsonRPCResponse.isError (resp : JsonRPCResponse) : Bool := resp.optError.getD true

/-- `ParseResult`. -/
inductive ParseResult where
  | error (error : Rpc.ERPCParseError)
  | request (request : JsonRPCRequest)
  | response (response : JsonRPCResponse)
  deriving DecidableEq

def methodFieldStr : List UInt8 := ascii ['m', 'e', 't', 'h', 'o', 'd']

def paramsFieldStr : List UInt8 := ascii ['p', 'a', 'r', 'a', 'm', 's']

def resultFieldStr : List UInt8 := ascii ['r', 'e', 's', 'u', 'l', 't']

def idFieldStr : List UInt8 := ascii ['i', 'd']

def errorFieldStr : List UInt8 := ascii ['e', 'r', 'r', 'o', 'r']

def errorCodeFieldStr : List UInt8 := ascii ['c', 'o', 'd', 'e']

def errorMsgFieldStr : List UInt8 := ascii ['m', 'e', 's', 's', 'a', 'g', 'e']

def errorDataFieldStr : List UInt8 := ascii ['d', 'a', 't', 'a']

/-! ## Schemas -/

/-- The schema of `"id"` in both messages. -/
def idSchema : Schema (List UInt8) := .oneOf [.type .number, .type .string, .type .null]

/-- `ReqSchemaStr`. -/
def reqSchema : Schema (List UInt8) :=
  .all [.type .object,
    .property methodFieldStr (.type .string),
    .property paramsFieldStr (.not (.type .null)),
    .property idFieldStr idSchema,
    .required [methodFieldStr]]

/-- The schema of `"error"` in a response. -/
def errorSchema : Schema (List UInt8) :=
  .all [.type .object,
    .property errorCodeFieldStr (.type .number),
    .property errorMsgFieldStr (.type .string),
    .property errorDataFieldStr (.not (.type .null)),
    .required [errorCodeFieldStr, errorMsgFieldStr]]

/-- `RespondSchemaStr`. -/
def respondSchema : Schema (List UInt8) :=
  .all [.type .object,
    .property resultFieldStr (.all []),
    .property errorFieldStr errorSchema,
    .property idFieldStr idSchema,
    .oneOf [.required [resultFieldStr, idFieldStr], .required [errorFieldStr, idFieldStr]]]

variable (F : Doubles)

/-! ## Writing -/

/-- The number of an unsigned 32-bit integer. -/
def uintNumber {δ : Type} (n : UInt32) : Number δ :=
  .int ⟨n.toNat, by
    have := n.toNat_lt
    constructor <;> omega⟩

/-- The number of a signed 64-bit integer. -/
def int64Number {δ : Type} (n : Int64) : Number δ :=
  .int ⟨n.toInt, by
    have := n.le_toInt
    have := n.toInt_lt
    constructor <;> omega⟩

/-- The member `"id"`: null when the message has none. -/
def idNode : Option UInt32 → Document F
  | some id => .num (uintNumber id)
  | none => .null

/-- The document of a request. -/
def requestDoc (req : JsonRPCRequest) : Document F :=
  .obj [(methodFieldStr, .str req.method), (idFieldStr, idNode F req.id)]

/-- `MyJsonRPCRequestWriter::EndObject` adds the parameters, if there are any. -/
def requestEndObject (req : JsonRPCRequest) : Nat → List (List UInt8) := fun _ =>
  if req.params = [] then [] else [memberText paramsFieldStr req.params]

/-- `JRPCPaser::ToByte` of a request; the buffer is cleared first. -/
def requestToByte (req : JsonRPCRequest) (_buf : List UInt8) : List UInt8 :=
  render (numberText F) (requestEndObject req) 0 (requestDoc F req)

/-- The member `"error"`; empty data are left out. -/
def errNode (resp : JsonRPCResponse) : Document F :=
  .obj ([(errorCodeFieldStr, .num (int64Number resp.errorCode)),
    (errorMsgFieldStr, .str resp.errorMsg)] ++
      if resp.errorData = [] then [] else [(errorDataFieldStr, .str resp.errorData)])

/-- The document of a response. -/
def responseDoc (resp : JsonRPCResponse) : Document F :=
  .obj ((idFieldStr, idNode F resp.id) ::
    if resp.isError then [(errorFieldStr, errNode F resp)] else [])

/-- `MyJsonRPCResponseWriter::EndObject` adds the result at the end of the outermost object of a
successful response. -/
def responseEndObject (resp : JsonRPCResponse) : Nat → List (List UInt8) := fun depth =>
  if depth = 1 ∧ resp.isError = false then [memberText resultFieldStr resp.result] else []

/-- `JRPCPaser::ToByte` of a response; without an error flag the buffer stays as it is. -/
def responseToByte (resp : JsonRPCResponse) (buf : List UInt8) : List UInt8 :=
  if resp.isValiad then
    render (numberText F) (responseEndObject resp) 0 (responseDoc F resp)
  else buf

/-! ## Reading -/

/-- The accessors of a document value that require a type. -/
inductive Fault where
  | member
  | getUint
  | getInt64
  | getString
  deriving DecidableEq, Repr

variable {F}

/-- `operator[]`: the value of a member that must be there. -/
def member (doc : Document F) (key : List UInt8) : Except Fault (Document F) :=
  match doc.find key with
  | some v => .ok v
  | none => .error .member

/-- `IsNumber`. -/
def isNumber (doc : Document F) : Bool := decide (doc.jsonType = .number)

/-- `GetUint`. -/
def getUint : Document F → Except Fault UInt32
  | .num (.int n) =>
      if 0 ≤ n.val ∧ n.val < 2 ^ 32 then .ok (UInt32.ofNat n.val.toNat) else .error .getUint
  | _ => .error .getUint

/-- `GetInt64`. -/
def getInt64 : Document F → Except Fault Int64
  | .num (.int n) => if n.val < 2 ^ 63 then .ok (Int64.ofInt n.val) else .error .getInt64
  | _ => .error .getInt64

/-- The characters of a C string up to its NUL. -/
def cString (s : List UInt8) : List UInt8 := s.takeWhile (· != 0)

/-- `GetString`, as the caller uses it: up to the first NUL. -/
def getString : Document F → Except Fault (List UInt8)
  | .str s => .ok (cString s)
  | _ => .error .getString

/-- The id of a message, if `"id"` is a number. -/
def readID (doc : Document F) : Except Fault (Option UInt32) :=
  if isNumber doc then (getUint doc).map some else .ok none

/-- The request of a document that satisfies its schema. -/
def readRequest (doc : Document F) : Except Fault JsonRPCRequest := do
  let id ← match doc.find idFieldStr with
    | some node => readID node
    | none => .ok none
  -- the parameters are written again as JSON text
  let params := match doc.find paramsFieldStr with
    | some node => write F node
    | none => []
  let method ← getString (← member doc methodFieldStr)
  .ok { id, method, params }

/-- The error of a document that satisfies the schema of a response and has no result. -/
def readError (id : Option UInt32) (error : Document F) : Except Fault JsonRPCResponse := do
  let errorCode ← getInt64 (← member error errorCodeFieldStr)
  let errorMsg ← getString (← member error errorMsgFieldStr)
  let errorData ← match error.find errorDataFieldStr with
    | some node => getString node
    | none => .ok []
  .ok { id, optError := some true, errorCode, errorMsg, errorData }

/-- The response of a document that satisfies its schema. -/
def readResponse (doc : Document F) : Except Fault JsonRPCResponse := do
  let id ← readID (← member doc idFieldStr)
  match doc.find resultFieldStr with
  -- a result is looked for first, whatever the schema has matched
  | some node => .ok { id, optError := some false, result := cString (write F node) }
  | none => readError id (← member doc errorFieldStr)

variable (F)

/-- The text after a UTF-8 byte order mark. -/
def skipBom (data : List UInt8) : List UInt8 :=
  if [0xEF, 0xBB, 0xBF].isPrefixOf data then data.drop 3 else data

/-- `Document::Parse`: one value, then the end of the data or a NUL. -/
def parseDocument (data : List UInt8) : Option (Document F) := do
  let (v, rest) ← readValue ((skipBom data).length + 1) (skipBom data)
  -- text behind a NUL is not read
  if (skipWs rest).head?.getD 0 = 0 then Syntax.document F v else none

/-- `JRPCPaser::StaticParse`. -/
def staticParse (data : List UInt8) : Except Fault ParseResult :=
  match parseDocument F data with
  | none => .ok (.error .parseError)
  | some doc =>
      if reqSchema.accepts doc then (readRequest doc).map .request
      else if respondSchema.accepts doc then (readResponse doc).map .response
      else .ok (.error .invalidRequest)

end Utilpp.Jrpc

import Utilpp.Steam.PacketMsg

/-!
# The Steam client's message handler

`FSteamClient::OnWSDataReceived` parses a packet and acts on its message type. A `Multi` packet
carries other packets: each is handled by a call of the handler for itself, and then the `case`
falls through to the one of `ClientServerUnavailable`.

The body of a `Multi` packet is walked where the member `MsgMulti` keeps it, or in
`UncompressMessageBodyBuf` when it was compressed. A `Multi` packet inside uses the same members.
When it is part of what `MsgMulti` keeps, the string there is cleared before the packet is parsed
from it. This is undefined, as is everything else that comes out as `none`.

The message numbers, the protobuf messages, zlib, the database and the callbacks of jobs and
delegates come from outside and are parameters. `Rest` is the part of the client that only they
change: the job table, the request handles and what belongs to the user.
-/

namespace Utilpp.Steam

open Lib

/-- `ESteamClientLogStatus` -/
inductive LogStatus where
  | notConnect
  | connecting
  | logout
  | loggingon
  | logon
  | error
  deriving DecidableEq, Repr

/-- `ESteamClientAuthSessionStatus`, as far as the handler sets it. -/
inductive AuthSessionStatus where
  | unauthorized
  | other (status : Nat)
  deriving DecidableEq, Repr

/-- The variant `PublicIP`. -/
inductive PublicIP where
  | v4 (address : UInt32)
  | v6 (address : List UInt8)
  deriving DecidableEq, Repr

/-- `FSteamAuthSession`, as far as the handler uses it. -/
structure AuthSession where
  accountName : String
  refreshToken : String
  password : String
  authRequestFinished : Option Bool
  authSessionStatus : AuthSessionStatus
  deriving DecidableEq, Repr

/-- `FSteamClient`, as far as the handler uses it. -/
structure SteamClient (Rest : Type) where
  logStatus : LogStatus
  shouldReconnect : Bool
  sessionToken : Int64
  steamID : UInt64
  sessionID : Int32
  cellID : UInt32
  publicIP : PublicIP
  ipCountryCode : String
  heartBeatSec : Int32
  heartBeatSecCount : Rat
  authSession : AuthSession
  rest : Rest
  deriving DecidableEq, Repr

/-- `CMsgMulti` -/
structure CMsgMulti where
  sizeUnzipped : UInt32
  messageBody : List UInt8
  deriving DecidableEq, Repr

/-- `CMsgClientLogonResponse`, as far as it is read. -/
structure CMsgClientLogonResponse where
  eresult : Int32
  cellID : UInt32
  ipCountryCode : String
  publicIPv6 : Option (List UInt8)
  publicIPv4 : UInt32
  heartbeatSeconds : Int32
  deriving DecidableEq, Repr

/-- What comes from outside: the numbers of `EMsg` and `EResult`, protobuf, zlib, and the code that
the client calls back. -/
structure Environment (CMsgProtoBufHeader Rest : Type) where
  emsg : EMsg
  multi : UInt32
  clientServerUnavailable : UInt32
  clientSessionToken : UInt32
  jobHeartbeat : UInt32
  destJobFailed : UInt32
  serviceMethodResponse : UInt32
  serviceMethod : UInt32
  clientLogOnResponse : UInt32
  clientLoggedOff : UInt32
  ok : Int32
  tryAnotherCM : Int32
  serviceUnavailable : Int32
  protoBuf : ProtoBuf CMsgProtoBufHeader
  jobidTarget : CMsgProtoBufHeader → UInt64
  clientSessionid : CMsgProtoBufHeader → Int32
  steamid : CMsgProtoBufHeader → UInt64
  parseMulti : List UInt8 → Option CMsgMulti
  parseSessionToken : List UInt8 → Option UInt64
  parseLogonResponse : List UInt8 → Option CMsgClientLogonResponse
  parseLoggedOff : List UInt8 → Option Int32
  inflate : List UInt8 → UInt32 → Option (List UInt8)
  jobFailed : UInt64 → SteamClient Rest → Option (SteamClient Rest)
  jobCompleted : PacketMsg CMsgProtoBufHeader → List UInt8 → SteamClient Rest →
    Option (SteamClient Rest)
  triggerOnLogoutDelegates : SteamClient Rest → Option (SteamClient Rest)
  invalidateAccountCache : String → SteamClient Rest → Option (SteamClient Rest)

variable {CMsgProtoBufHeader Rest : Type}

/-- A length converted to an `int32_t`, as `Parse` takes it. -/
def int32 (len : Nat) : Int := Int.bmod len (2 ^ 32)

/-- `Reconnect(false)` -/
def SteamClient.reconnect (client : SteamClient Rest) : SteamClient Rest :=
  { client with shouldReconnect := true }

/-- `FSteamAuthSession::ClearCurrentAuth` -/
def SteamClient.clearCurrentAuth (client : SteamClient Rest) : SteamClient Rest :=
  { client with
    authSession :=
      { accountName := "", refreshToken := "", password := ""
        authRequestFinished := client.authSession.authRequestFinished.map fun _ => true
        authSessionStatus := .unauthorized } }

/-- `FSteamPacketMsg::GetTargetJobID` -/
def PacketMsg.getTargetJobID (jobidTarget : CMsgProtoBufHeader → UInt64)
    (msg : PacketMsg CMsgProtoBufHeader) : UInt64 :=
  match msg.header with
  | .protoBuf header => jobidTarget header
  | .extended header => header.targetJobID
  | .msg header => header.targetJobID

namespace Environment

variable (env : Environment CMsgProtoBufHeader Rest)

/-- `FSteamAuthSession::InvalidateCurrentAuth` -/
def invalidateCurrentAuth (client : SteamClient Rest) : Option (SteamClient Rest) :=
  if client.authSession.accountName = "" then some client
  else (env.invalidateAccountCache client.authSession.accountName client).map
    SteamClient.clearCurrentAuth

/-- The `case` of `ClientLogOnResponse`. -/
def onLogOnResponse (msg : PacketMsg CMsgProtoBufHeader) (body : List UInt8)
    (client : SteamClient Rest) : Option (SteamClient Rest) :=
  if !msg.bProtoBuf then some { client with logStatus := .error }
  else
    match msg.header with
    | .protoBuf header =>
        match env.parseLogonResponse body with
        | none => some { client with logStatus := .error }
        | some response =>
            if response.eresult = env.ok then
              some { client with
                sessionID := env.clientSessionid header
                steamID := env.steamid header
                cellID := response.cellID
                ipCountryCode := response.ipCountryCode
                publicIP :=
                  match response.publicIPv6 with
                  | some address => .v6 address
                  | none => .v4 response.publicIPv4
                heartBeatSec := response.heartbeatSeconds
                heartBeatSecCount := 0
                logStatus := .logon }
            else if response.eresult = env.tryAnotherCM ∨
                response.eresult = env.serviceUnavailable then
              some { client.reconnect with logStatus := .notConnect }
            else (env.invalidateCurrentAuth client).map fun client =>
              { client with logStatus := .logout }
    -- `std::get` of another header throws
    | _ => none

/-- The `case` of `ClientLoggedOff`. -/
def onLoggedOff (msg : PacketMsg CMsgProtoBufHeader) (body : List UInt8)
    (client : SteamClient Rest) : Option (SteamClient Rest) :=
  let client :=
    { client with
      logStatus := .logout, sessionID := 0, steamID := 0, cellID := 0, publicIP := .v4 0
      ipCountryCode := "" }
  let finish := fun client => (env.triggerOnLogoutDelegates client).map SteamClient.clearCurrentAuth
  if msg.bProtoBuf then
    match env.parseLoggedOff body with
    | none => some { client with logStatus := .error }
    | some eresult =>
        if eresult = env.tryAnotherCM ∨ eresult = env.serviceUnavailable then
          finish { client with shouldReconnect := true, logStatus := .notConnect }
        else finish client
  else finish client

/-- The `case` of `ClientServerUnavailable`. -/
def onServerUnavailable (client : SteamClient Rest) : SteamClient Rest :=
  { client.reconnect with logStatus := .notConnect }

/-- The `switch` over the message type, behind the `case` of `Multi`. -/
def onMessage (msg : PacketMsg CMsgProtoBufHeader) (body : Option (List UInt8))
    (client : SteamClient Rest) : Option (SteamClient Rest) :=
  if msg.msgType = env.clientServerUnavailable then some (onServerUnavailable client)
  else if msg.msgType = env.clientSessionToken then
    body.map fun body =>
      match env.parseSessionToken body with
      | none => client
      | some token => { client with sessionToken := token.toInt64 }
  else if msg.msgType = env.jobHeartbeat then some client
  else if msg.msgType = env.destJobFailed then
    env.jobFailed (msg.getTargetJobID env.jobidTarget) client
  else if msg.msgType = env.serviceMethodResponse then
    body.bind fun body => env.jobCompleted msg body client
  else if msg.msgType = env.serviceMethod then some client
  else if msg.msgType = env.clientLogOnResponse then
    body.bind fun body => env.onLogOnResponse msg body client
  else if msg.msgType = env.clientLoggedOff then
    body.bind fun body => env.onLoggedOff msg body client
  else some client

/-- `OnWSDataReceived` for a packet that is handled by `onMulti` when it is a `Multi` packet in
protobuf form. `OnSteamPackageReceived` takes no packet. -/
def receive (onMulti : Option (List UInt8) → SteamClient Rest → Option (SteamClient Rest))
    (client : SteamClient Rest) (content : List UInt8) (len : Int) : Option (SteamClient Rest) :=
  match parse env.emsg env.protoBuf content len with
  | .undefined => none
  | .failed => some client
  | .parsed msg bodyView =>
      if msg.msgType = env.multi then
        if !msg.bProtoBuf then some client else onMulti (bodyView.bytes content) client
      else env.onMessage msg (bodyView.bytes content) client

/-- The loop over the packets in the body of a `Multi` packet, each behind its length. A length
that is read behind the end, or a negative one, makes the behaviour undefined. Every iteration
consumes four bytes, so that the length of the body is fuel enough. -/
def walk (handle : SteamClient Rest → List UInt8 → Option (SteamClient Rest)) :
    Nat → SteamClient Rest → List UInt8 → Option (SteamClient Rest)
  | 0, client, _ => some client
  | fuel + 1, client, bytes =>
      if bytes = [] then some client
      else if bytes.length < 4 then none
      else
        let length := int32 (ofBytes (bytes.take 4))
        let rest := bytes.drop 4
        -- the last packet is cut off: the loop ends
        if length > rest.length then some client
        else if length < 0 then none
        else (handle client (rest.take length.toNat)).bind fun client =>
          walk handle fuel client (rest.drop length.toNat)

/-- The packets in the body of a `Multi` packet and, behind the loop, the `case` of
`ClientServerUnavailable`. -/
def onMessageBody (handle : SteamClient Rest → List UInt8 → Option (SteamClient Rest))
    (bytes : List UInt8) (client : SteamClient Rest) : Option (SteamClient Rest) :=
  -- there is no `break` behind the loop
  (walk handle bytes.length client bytes).map onServerUnavailable

/-- A packet inside the body of `MsgMulti`. Another `Multi` packet there destroys what is walked. -/
def receiveInside (client : SteamClient Rest) (content : List UInt8) :
    Option (SteamClient Rest) :=
  env.receive (fun _ _ => none) client content (int32 content.length)

/-- A `Multi` packet inside `UncompressMessageBodyBuf`. A compressed one there destroys what is
walked. -/
def onMultiUnzipped (body : Option (List UInt8)) (client : SteamClient Rest) :
    Option (SteamClient Rest) :=
  body.bind fun body =>
    match env.parseMulti body with
    | none => some client
    | some msgMulti =>
        -- `UncompressMessageBodyBuf` would be resized while it is walked
        if msgMulti.sizeUnzipped > 0 then none
        else onMessageBody env.receiveInside msgMulti.messageBody client

/-- A packet inside `UncompressMessageBodyBuf`. -/
def receiveUnzipped (client : SteamClient Rest) (content : List UInt8) :
    Option (SteamClient Rest) :=
  env.receive env.onMultiUnzipped client content (int32 content.length)

/-- The `case` of `Multi`. -/
def onMulti (body : Option (List UInt8)) (client : SteamClient Rest) : Option (SteamClient Rest) :=
  body.bind fun body =>
    match env.parseMulti body with
    | none => some client
    | some msgMulti =>
        if msgMulti.sizeUnzipped > 0 then
          match env.inflate msgMulti.messageBody msgMulti.sizeUnzipped with
          -- zlib reports an error
          | none => some client
          | some bytes => onMessageBody env.receiveUnzipped bytes client
        else onMessageBody env.receiveInside msgMulti.messageBody client

/-- `FSteamClient::OnWSDataReceived` -/
def onWSDataReceived (client : SteamClient Rest) (content : List UInt8) :
    Option (SteamClient Rest) :=
  env.receive env.onMulti client content (int32 content.length)

end Environment

end Utilpp.Steam

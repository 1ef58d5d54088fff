import Utilpp.Steam.Client
import Utilpp.Text.Hex
import Utilpp.Time.DelayRecorder

/-!
# The login of the Steam client

`FSteamAuthSession` gets a token for an account and a password: it asks for a public key, begins a
session with the encrypted password, polls until the session is confirmed, and keeps the token in a
database. `FSteamClient` connects and logs on with the token. What the server answers comes back
through jobs: a job is known by its number, and a callback is bound to the request handle that was
current when the job was added.

The protobuf messages, the encryption, the tokens and the numbers of jobs come from outside. A
delegate of the user is a call that is recorded; what it does in turn is an event of its own. The
database is the one of the program, and a statement fails while it is not available.
-/

namespace Utilpp.Steam

open Lib Time

/-! ## The status of a session -/

namespace AuthSessionStatus

/-- `WaittingConnection` -/
def waittingConnection : AuthSessionStatus := .other 1

/-- `GettingPasswordRSAPublicKey` -/
def gettingPasswordRSAPublicKey : AuthSessionStatus := .other 2

/-- `CreattingSeesion` -/
def creattingSeesion : AuthSessionStatus := .other 3

/-- `PollingAuthSessionStatus` -/
def pollingAuthSessionStatus : AuthSessionStatus := .other 4

/-- `Authenticated` -/
def authenticated : AuthSessionStatus := .other 5

/-- `Error` -/
def error : AuthSessionStatus := .other 6

end AuthSessionStatus

/-- `ESteamClientError` -/
inductive ESteamClientError where
  | ok
  | unknowError
  | invalidInput
  | notConnected
  | clientStatusError
  | alreadyRequested
  | requestErrFromServer
  | requestTimeout
  | responseParseErr
  | notLogin
  | alreadyLoggedin
  | accountLocked
  | noWallet
  | alreadyPurchased
  | cannotRedeemCodeFromClient
  | doesNotOwnRequiredApp
  | restrictedCountry
  | rateLimited
  | badActivationCode
  | duplicateActivationCode
  deriving DecidableEq

/-! ## Messages -/

/-- A message for the server, with what its body is made of. -/
inductive Message where
  | clientHello
  | clientHeartBeat
  | getPasswordRSAPublicKey (job : UInt64) (accountName : String)
  | beginAuthSessionViaCredentials (job : UInt64) (accountName : String)
      (encryptedPassword : List UInt8) (encryptionTimestamp : UInt64)
  | pollAuthSessionStatus (job clientID : UInt64) (requestID : List UInt8)
  | updateAuthSessionWithSteamGuardCode (job clientID steamID : UInt64) (code : String)
      (codeType : Int32)
  | clientLogon (accountName accessToken : String)
  | registerCDKey (job : UInt64) (sessionID : Int32) (steamID : UInt64) (activationCode : String)
  deriving DecidableEq

/-- `CAuthentication_GetPasswordRSAPublicKey_Response` -/
structure PasswordRSAPublicKeyResponse where
  publickeyExp : List UInt8
  publickeyMod : List UInt8
  timestamp : UInt64

/-- `CAuthentication_BeginAuthSessionViaCredentials_Response`, as far as it is used. -/
structure BeginAuthSessionResponse where
  clientID : UInt64
  steamid : UInt64
  requestID : List UInt8
  allowedConfirmations : List Int32

/-- `CAuthentication_PollAuthSessionStatus_Response`, as far as it is used. -/
structure PollAuthSessionStatusResponse where
  refreshToken : String
  newClientID : UInt64
  accessToken : String
  accountName : String

/-- `EPurchaseResultDetail`, as far as it is distinguished. -/
inductive EPurchaseResultDetail where
  | noDetail
  | accountLocked
  | alreadyPurchased
  | cannotRedeemCodeFromClient
  | doesNotOwnRequiredApp
  | noWallet
  | restrictedCountry
  | timeout
  | badActivationCode
  | duplicateActivationCode
  | rateLimited
  | other
  deriving DecidableEq

/-- The error that the delegate of `RegisterKey` gets. -/
def EPurchaseResultDetail.error : EPurchaseResultDetail → ESteamClientError
  | .accountLocked => .requestErrFromServer
  | .alreadyPurchased => .alreadyPurchased
  | .cannotRedeemCodeFromClient => .cannotRedeemCodeFromClient
  | .doesNotOwnRequiredApp => .doesNotOwnRequiredApp
  | .noWallet => .noWallet
  | .restrictedCountry => .restrictedCountry
  | .timeout => .requestTimeout
  | .badActivationCode => .badActivationCode
  | .duplicateActivationCode => .duplicateActivationCode
  | .noDetail => .ok
  | .rateLimited => .rateLimited
  | .other => .unknowError

/-- What the login takes from outside: whether a message can be serialised, the number that the
`n`-th call of `GetNextJobID` gives, the bodies of the answers, `header.eresult()`, the password
encrypted with a modulus and an exponent, and the expiry of a token in ticks of the clock, which
throws for a text that is no token. -/
structure AuthWire (CMsgProtoBufHeader : Type) where
  serializes : Message → Bool
  jobID : Nat → UInt64
  eresult : CMsgProtoBufHeader → Int32
  duplicateRequest : Int32
  parsePublicKey : List UInt8 → Option PasswordRSAPublicKeyResponse
  parseBeginAuthSession : List UInt8 → Option BeginAuthSessionResponse
  parsePollAuthSession : List UInt8 → Option PollAuthSessionStatusResponse
  parseUpdateGuardCode : List UInt8 → Bool
  parseRegisterCDKey : List UInt8 → Option EPurchaseResultDetail
  encrypt : List UInt8 → List UInt8 → String → Option (List UInt8)
  expiresAt : String → Option Int

/-! ## The state -/

/-- The callback of a job. -/
inductive JobKind where
  | getPasswordRSAPublicKey
  | beginAuthSession
  | pollAuthSessionStatus
  | updateSteamGuardCode
  | registerKey
  deriving DecidableEq

/-- A job with the number of the request handle that its callbacks are bound to. -/
structure AuthJob where
  id : UInt64
  kind : JobKind
  request : Nat
  deriving DecidableEq

/-- A row of an account. -/
structure UserRow where
  steamID : UInt64
  accountName : String
  accessToken : String
  refreshToken : Option String
  deriving DecidableEq

/-- The database: the table `steam_users` that the program makes, a table `STEAMUSER` if there is
one, and whether a statement can be executed now. -/
structure Database where
  steamUsers : List UserRow := []
  steamUser : Option (List UserRow) := none
  available : Bool := true

/-- The rest of the client and of its session. Request handles are numbered in the order in which
they are made, `requests` of them so far. `issued` records the accounts and tokens that the answers
to polls gave, and `fetches` counts the requests for the list of servers. -/
structure LoginState where
  jobs : List AuthJob := []
  sequentialCount : Nat := 0
  requests : Nat := 0
  authRequest : Nat := 0
  pollJobID : UInt64 := 0
  clientID : UInt64 := 0
  requestID : List UInt8 := []
  accessToken : String := ""
  allowedConfirmations : List Int32 := []
  guardCodeRequest : Option (Nat × Bool) := none
  database : Database := {}
  reconnectDelayRecorder : DelayRecorder := {}
  preLogStatus : LogStatus := .notConnect
  issued : List (String × String) := []
  fetches : Nat := 0
  sent : List Message := []
  delegateCalls : List (Nat × ESteamClientError) := []

/-- `FSteamClient` -/
abbrev LoginClient := SteamClient LoginState

namespace LoginClient

/-- `AuthSessionStatus`. -/
def status (client : LoginClient) : AuthSessionStatus := client.authSession.authSessionStatus

/-- A new status of the session. -/
def setStatus (client : LoginClient) (status : AuthSessionStatus) : LoginClient :=
  { client with authSession := { client.authSession with authSessionStatus := status } }

/-- `SendData`. -/
def send (client : LoginClient) (message : Message) : LoginClient :=
  { client with rest := { client.rest with sent := client.rest.sent ++ [message] } }

/-- `AddJob`. A job with a number that is in use is not added; nobody looks at the result. -/
def addJob (client : LoginClient) (job : AuthJob) : LoginClient :=
  if client.rest.jobs.any fun other => other.id == job.id then client
  else { client with rest := { client.rest with jobs := client.rest.jobs ++ [job] } }

/-- `OnRequestFinished`. -/
def onRequestFinished (client : LoginClient) (request : Nat) (err : ESteamClientError) :
    LoginClient :=
  { client with
    authSession :=
      { client.authSession with
        authRequestFinished :=
          if request = client.rest.authRequest then
            client.authSession.authRequestFinished.map fun _ => true
          else client.authSession.authRequestFinished }
    rest :=
      { client.rest with
        guardCodeRequest :=
          client.rest.guardCodeRequest.map fun guard =>
            (guard.1, if request = guard.1 then true else guard.2)
        delegateCalls := client.rest.delegateCalls ++ [(request, err)] } }

/-- `std::make_shared<SteamRequestHandle_t>()`. -/
def newRequest (client : LoginClient) : LoginClient :=
  { client with rest := { client.rest with requests := client.rest.requests + 1 } }

/-- `InvalidateAccountCache`. An exception of the database is caught. -/
def invalidateAccountCache (accountName : String) (client : LoginClient) : LoginClient :=
  let database := client.rest.database
  if database.available then
    { client with
      rest :=
        { client.rest with
          database :=
            { database with
              steamUsers :=
                database.steamUsers.filter fun row => row.accountName ≠ accountName } } }
  else client

/-- `UpdateAccountCache`. The statement names a table `STEAMUSER`. -/
def updateAccountCache (client : LoginClient) : Bool × LoginClient :=
  let database := client.rest.database
  match database.steamUser with
  | none => (false, client)
  | some rows =>
      if database.available then
        let row : UserRow :=
          { steamID := client.steamID, accountName := client.authSession.accountName
            accessToken := client.rest.accessToken
            refreshToken := some client.authSession.refreshToken }
        (true,
          { client with
            rest :=
              { client.rest with
                database :=
                  { database with
                    steamUser :=
                      some (row :: rows.filter fun old => old.steamID ≠ row.steamID) } } })
      else (false, client)

/-- The token in the database: `none` when the query throws, and otherwise the token of the row,
if there is one. -/
def selectRefreshToken (client : LoginClient) : Option (Option String) :=
  let database := client.rest.database
  if database.available then
    match database.steamUsers.find? fun row => row.accountName = client.authSession.accountName with
    | none => some none
    | some row => row.refreshToken.map some
  else none

end LoginClient

/-! ## The session -/

/-- How `ReadAccountCache` ends. -/
inductive CacheAnswer where
  | thrown
  | done (found : Bool)

/-- What a call gives to the user: an exception, or a request handle or the null pointer together
with an error code. -/
inductive CallAnswer where
  | thrown
  | handle (request : Option Nat) (err : ESteamClientError)

namespace AuthWire

variable {CMsgProtoBufHeader : Type} (wire : AuthWire CMsgProtoBufHeader)

/-- `GetNextJobID().GetValue()`. -/
def nextJobID (client : LoginClient) : UInt64 × LoginClient :=
  let count := client.rest.sequentialCount + 1
  (wire.jobID count, { client with rest := { client.rest with sequentialCount := count } })

/-- A message with the number of a new job; the job is added when the message could be sent. -/
def request (client : LoginClient) (message : UInt64 → Message) (kind : JobKind) (handle : Nat) :
    Option UInt64 × LoginClient :=
  let (job, client) := wire.nextJobID client
  if wire.serializes (message job) then
    (some job, (client.send (message job)).addJob ⟨job, kind, handle⟩)
  else (none, client)

/-- `ReadAccountCache`. A row without a token throws. -/
def readAccountCache (client : LoginClient) (now : Int) : CacheAnswer × LoginClient :=
  match client.selectRefreshToken with
  | none => (.done false, client)
  | some row =>
      let token := row.getD client.authSession.refreshToken
      let keep := fun (client : LoginClient) token =>
        { client with authSession := { client.authSession with refreshToken := token } }
      if token = "" then (.done false, keep client token)
      else
        match wire.expiresAt token with
        | none => (.thrown, keep client token)
        | some expires =>
            -- the clock counts in ticks, not in seconds
            if now + 60 * 5 > expires then
              (.done false, keep (client.invalidateAccountCache client.authSession.accountName) "")
            else (.done true, keep client token)

/-- The part of `BeginAuthSessionViaCredentials` behind its tests. -/
def beginAuthSession (client : LoginClient) (account password : String) (now : Int) :
    CallAnswer × LoginClient :=
  let handle := client.rest.requests
  let client := client.newRequest
  let client :=
    { client with
      authSession :=
        { client.authSession with
          accountName := account, password := password, authRequestFinished := some true }
      rest := { client.rest with authRequest := handle } }
  match wire.readAccountCache client now with
  | (.thrown, client) => (.thrown, client)
  | (.done true, client) => (.handle (some handle) .ok, client.setStatus .authenticated)
  | (.done false, client) =>
      (.handle (some handle) .ok,
        { client with
          authSession :=
            { client.authSession with
              authRequestFinished := some false
              authSessionStatus := .waittingConnection } })

/-- `BeginAuthSessionViaCredentials`. -/
def beginAuthSessionViaCredentials (client : LoginClient) (account password : String) (now : Int) :
    CallAnswer × LoginClient :=
  if client.authSession.accountName = account ∧ client.authSession.password = password ∧
      client.status = .authenticated then
    (.handle none .alreadyLoggedin, client)
  else if client.authSession.accountName = account ∧ client.authSession.password = password ∧
      client.status ≠ .unauthorized then
    (.handle (some client.rest.authRequest) .alreadyRequested, client)
  else wire.beginAuthSession client account password now

/-- The kind of guard code that is sent; zero is `k_EAuthSessionGuardType_Unknown`. -/
def guardType (allowed : List Int32) : Int32 :=
  if 2 ∈ allowed then 2 else if 3 ∈ allowed then 3 else 0

/-- `FSteamAuthSession::SendSteamGuardCode`. -/
def sendSteamGuardCode (client : LoginClient) (code : String) : CallAnswer × LoginClient :=
  if client.status ≠ .pollingAuthSessionStatus then (.handle none .clientStatusError, client)
  else
    match client.rest.guardCodeRequest with
    | some (handle, false) => (.handle (some handle) .alreadyRequested, client)
    | _ =>
        let codeType := guardType client.rest.allowedConfirmations
        if codeType = 0 then (.handle none .invalidInput, client)
        else
          let handle := client.rest.requests
          let message := fun job => Message.updateAuthSessionWithSteamGuardCode job
            client.rest.clientID client.steamID code codeType
          match wire.request client message .updateSteamGuardCode handle with
          | (none, client) => (.handle none .unknowError, client)
          | (some _, client) =>
              let client := client.newRequest
              (.handle (some handle) .ok,
                { client with
                  rest := { client.rest with guardCodeRequest := some (handle, false) } })

/-- `PollAuthSessionStatus`. -/
def pollAuthSessionStatus (client : LoginClient) : LoginClient :=
  if client.rest.pollJobID = 0 then
    let message := fun job => Message.pollAuthSessionStatus job client.rest.clientID
      client.rest.requestID
    match wire.request client message .pollAuthSessionStatus client.rest.authRequest with
    | (none, client) => client
    | (some job, client) => { client with rest := { client.rest with pollJobID := job } }
  else client

/-- `FSteamAuthSession::Tick`. -/
def tickSession (client : LoginClient) : LoginClient :=
  if client.status = .waittingConnection then
    if client.logStatus = .logout then
      let message := fun job => Message.getPasswordRSAPublicKey job client.authSession.accountName
      match wire.request client message .getPasswordRSAPublicKey client.rest.authRequest with
      | (none, client) => client
      | (some _, client) => client.setStatus .gettingPasswordRSAPublicKey
    else client
  else if client.status = .pollingAuthSessionStatus then
    -- `k_EAuthSessionGuardType_DeviceConfirmation`
    if 4 ∈ client.rest.allowedConfirmations then wire.pollAuthSessionStatus client else client
  else client

/-! ### Callbacks -/

/-- `OnGetPasswordRSAPublicKeyResponseInternal`. The bytes of the exponent go into a buffer as large
as the modulus. -/
def sendCredentials (client : LoginClient) (body : List UInt8) : Option (Bool × LoginClient) :=
  match wire.parsePublicKey body with
  | none => some (false, client)
  | some resp =>
      (Text.hexToBin resp.publickeyExp).bind fun exp =>
      if exp.2.length > resp.publickeyMod.length / 2 then none
      else if !exp.1 then some (false, client)
      else
        (Text.hexToBin resp.publickeyMod).map fun mod =>
        if !mod.1 then (false, client)
        else
          match wire.encrypt mod.2 exp.2 client.authSession.password with
          | none => (false, client)
          | some encrypted =>
              let message := fun job => Message.beginAuthSessionViaCredentials job
                client.authSession.accountName encrypted resp.timestamp
              match wire.request client message .beginAuthSession client.rest.authRequest with
              | (none, client) => (false, client)
              | (some _, client) => (true, client)

/-- `OnGetPasswordRSAPublicKeyResponse`. -/
def onGetPasswordRSAPublicKeyResponse (client : LoginClient) (body : List UInt8) :
    Option LoginClient :=
  match client.authSession.authRequestFinished with
  | none => none
  | some true => some client
  | some false =>
      (wire.sendCredentials client body).map fun (bres, client) =>
      if bres ∧ client.status = .gettingPasswordRSAPublicKey then
        client.setStatus .creattingSeesion
      else client.setStatus .unauthorized

variable (env : Environment CMsgProtoBufHeader LoginState)

/-- `OnBeginAuthSessionViaCredentialsResponseInternal`. -/
def readSession (client : LoginClient) (header : CMsgProtoBufHeader) (body : List UInt8) :
    Bool × LoginClient :=
  if wire.eresult header ≠ env.ok then
    (false,
      if client.authSession.accountName = "" then client
      else (client.invalidateAccountCache client.authSession.accountName).clearCurrentAuth)
  else
    match wire.parseBeginAuthSession body with
    | none => (false, client)
    | some resp =>
        (true,
          { client with
            steamID := resp.steamid
            rest :=
              { client.rest with
                clientID := resp.clientID, requestID := resp.requestID
                allowedConfirmations := resp.allowedConfirmations } })

/-- `OnBeginAuthSessionViaCredentialsResponse`. A header of another kind throws. -/
def onBeginAuthSessionViaCredentialsResponse (client : LoginClient)
    (msg : PacketMsg CMsgProtoBufHeader) (body : List UInt8) : Option LoginClient :=
  match client.authSession.authRequestFinished with
  | none => none
  | some true => some client
  | some false =>
      match msg.header with
      | .protoBuf header =>
          let (bres, client) := wire.readSession env client header body
          if bres ∧ client.status = .creattingSeesion then
            some (client.setStatus .pollingAuthSessionStatus)
          else
            some ((client.setStatus .unauthorized).onRequestFinished client.rest.authRequest
              .requestErrFromServer)
      | _ => none

/-- `OnPollAuthSessionStatusResponseInternal`. -/
def readToken (client : LoginClient) (header : CMsgProtoBufHeader) (body : List UInt8) :
    Bool × LoginClient :=
  if wire.eresult header ≠ env.ok then (false, client)
  else
    match wire.parsePollAuthSession body with
    | none => (false, client)
    | some resp =>
        let client :=
          { client with
            authSession := { client.authSession with refreshToken := resp.refreshToken }
            rest :=
              { client.rest with
                issued := client.rest.issued ++ [(resp.accountName, resp.refreshToken)] } }
        if resp.refreshToken = "" then (false, client)
        else
          (true,
            { client with
              authSession := { client.authSession with accountName := resp.accountName }
              rest :=
                { client.rest with
                  clientID := resp.newClientID, accessToken := resp.accessToken } })

/-- `OnPollAuthSessionStatusResponse`. -/
def onPollAuthSessionStatusResponse (client : LoginClient) (msg : PacketMsg CMsgProtoBufHeader)
    (body : List UInt8) : Option LoginClient :=
  match client.authSession.authRequestFinished with
  | none => none
  | some true => some client
  | some false =>
      match msg.header with
      | .protoBuf header =>
          let (bres, client) := wire.readToken env client header body
          let client := { client with rest := { client.rest with pollJobID := 0 } }
          if bres ∧ client.status = .pollingAuthSessionStatus then
            let (bres, client) := (client.setStatus .authenticated).updateAccountCache
            some (if bres then client else client.setStatus .error)
          else some client
      | _ => none

/-- `OnUpdateAuthSessionWithSteamGuardCodeResponse`. The end of the request is done when the
function is left. -/
def onUpdateAuthSessionWithSteamGuardCodeResponse (client : LoginClient)
    (msg : PacketMsg CMsgProtoBufHeader) (body : List UInt8) : Option LoginClient :=
  match client.rest.guardCodeRequest with
  | none => none
  | some (_, true) => some client
  | some (handle, false) =>
      match msg.header with
      | .protoBuf header =>
          let accepted := (wire.eresult header = env.ok ∨
            wire.eresult header = wire.duplicateRequest) ∧ wire.parseUpdateGuardCode body
          let client :=
            { client with rest := { client.rest with guardCodeRequest := some (handle, true) } }
          if accepted then
            some ((wire.pollAuthSessionStatus client).onRequestFinished handle .ok)
          else some (client.onRequestFinished handle .requestErrFromServer)
      | _ => none

/-- The callback of `RegisterKey`. -/
def onRegisterKeyResponse (client : LoginClient) (request : Nat) (body : List UInt8) :
    LoginClient :=
  match wire.parseRegisterCDKey body with
  | none => client.onRequestFinished request .requestErrFromServer
  | some detail => client.onRequestFinished request detail.error

/-- `CB` of a job. -/
def callback (client : LoginClient) (job : AuthJob) (msg : PacketMsg CMsgProtoBufHeader)
    (body : List UInt8) : Option LoginClient :=
  match job.kind with
  | .getPasswordRSAPublicKey => wire.onGetPasswordRSAPublicKeyResponse client body
  | .beginAuthSession => wire.onBeginAuthSessionViaCredentialsResponse env client msg body
  | .pollAuthSessionStatus => wire.onPollAuthSessionStatusResponse env client msg body
  | .updateSteamGuardCode =>
      wire.onUpdateAuthSessionWithSteamGuardCodeResponse env client msg body
  | .registerKey => some (wire.onRegisterKeyResponse client job.request body)

end AuthWire

namespace LoginClient

/-- `Jobs.find`. -/
def findJob (client : LoginClient) (id : UInt64) : Option AuthJob :=
  client.rest.jobs.find? fun job => job.id == id

/-- `Jobs.erase`. -/
def eraseJob (client : LoginClient) (id : UInt64) : LoginClient :=
  { client with
    rest := { client.rest with jobs := client.rest.jobs.filter fun job => job.id ≠ id } }

/-- `JobFailed`. `FailedCB` of every job is `OnRequestFinished`. -/
def jobFailed (id : UInt64) (client : LoginClient) : LoginClient :=
  match client.findJob id with
  | none => client
  | some job => (client.onRequestFinished job.request .requestErrFromServer).eraseJob id

end LoginClient

namespace AuthWire

variable {CMsgProtoBufHeader : Type} (wire : AuthWire CMsgProtoBufHeader)

/-- `JobCompleted`. -/
def jobCompleted (env : Environment CMsgProtoBufHeader LoginState)
    (msg : PacketMsg CMsgProtoBufHeader) (body : List UInt8) (client : LoginClient) :
    Option LoginClient :=
  match client.findJob (msg.getTargetJobID env.jobidTarget) with
  | none => some client
  | some job =>
      (wire.callback env client job msg body).map fun client => client.eraseJob job.id

/-- The environment of the message handler, with the jobs and the database of the session. -/
def environment (env : Environment CMsgProtoBufHeader LoginState) :
    Environment CMsgProtoBufHeader LoginState :=
  { env with
    jobFailed := fun id client => some (LoginClient.jobFailed id client)
    jobCompleted := fun msg body client => wire.jobCompleted env msg body client
    triggerOnLogoutDelegates := some
    invalidateAccountCache := fun name client =>
      some (LoginClient.invalidateAccountCache name client) }

/-! ## The client -/

/-- `HeartBeat`. It goes on when the connection is gone. -/
def heartBeat (client : LoginClient) : LoginClient :=
  if wire.serializes .clientHeartBeat then client.send .clientHeartBeat else client

/-- `Logon`. -/
def logon (client : LoginClient) : Bool × LoginClient :=
  let message := Message.clientLogon client.authSession.accountName client.authSession.refreshToken
  if wire.serializes message then (true, client.send message) else (false, client)

/-- The `switch` of `FSteamClient::Tick`; `fetching` is whether `Connect` gets a request. -/
def tickLogStatus (client : LoginClient) (delta : Rat) (fetching : Bool) : LoginClient :=
  match client.logStatus with
  | .notConnect =>
      if client.status ≠ .unauthorized ∧ client.status ≠ .error ∧ client.shouldReconnect then
        let client :=
          if client.status ≠ .authenticated then client.setStatus .waittingConnection else client
        { client with
          shouldReconnect := false
          logStatus := if fetching then .connecting else .error
          rest :=
            { client.rest with
              fetches := if fetching then client.rest.fetches + 1 else client.rest.fetches } }
      else client
  | .logout =>
      if client.status = .authenticated then
        let (bres, client) := wire.logon client
        { client with logStatus := if bres then .loggingon else .error }
      else client
  | .logon =>
      let client := if client.rest.preLogStatus ≠ .logon then wire.heartBeat client else client
      let count := client.heartBeatSecCount + delta
      if count > client.heartBeatSec.toInt then
        wire.heartBeat { client with heartBeatSecCount := 0 }
      else { client with heartBeatSecCount := count }
  | _ => client

/-- `FSteamClient::Tick`. -/
def tick (client : LoginClient) (delta : Rat) (fetching : Bool) : LoginClient :=
  let client := wire.tickLogStatus client delta fetching
  wire.tickSession { client with rest := { client.rest with preLogStatus := client.logStatus } }

/-- `FSteamClient::Login`. -/
def login (client : LoginClient) (account password : String) (now : Int) :
    CallAnswer × LoginClient :=
  match wire.beginAuthSessionViaCredentials client account password now with
  | (.handle (some request) err, client) =>
      (.handle (some request) err,
        if client.logStatus = .notConnect then client.reconnect else client)
  | (answer, client) => (answer, client)

/-- `RegisterKey`. -/
def registerKey (client : LoginClient) (key : String) : CallAnswer × LoginClient :=
  if client.logStatus ≠ .logon then (.handle none .notLogin, client)
  else
    let handle := client.rest.requests
    let message := fun job => Message.registerCDKey job client.sessionID client.steamID key
    match wire.request client message .registerKey handle with
    | (none, client) => (.handle none .ok, client)
    | (some _, client) => (.handle (some handle) .ok, client.newRequest)

/-- `OnConnected` of the websocket: `ClientHello`, and a disconnect when the socket says that it is
not connected. -/
def onConnected (client : LoginClient) (isConnected : Bool)
    (disconnect : LoginClient → LoginClient) : LoginClient :=
  let client := if wire.serializes .clientHello then client.send .clientHello else client
  if isConnected then { client with logStatus := .logout } else disconnect client

end AuthWire

namespace LoginClient

/-- `FSteamClient::Disconnect`. -/
def disconnect (client : LoginClient) : LoginClient :=
  let client := client.clearCurrentAuth
  { client with
    shouldReconnect := false
    rest :=
      { client.rest with reconnectDelayRecorder := client.rest.reconnectDelayRecorder.clear } }

/-- `OnDisconnected` of the websocket. -/
def onDisconnected (client : LoginClient) : LoginClient := { client with logStatus := .notConnect }

/-- The delay of `Reconnect(true)` in milliseconds. -/
def reconnectDelay (config : Int) : Int :=
  -- in microseconds: the least delay and the step are a thousand of them
  (if config * 1000 < 1000 then 1000 else config * 1000 + 1000) / 1000

/-- `Reconnect(true)`: the delegate sets `bShouldReconnect`. -/
def reconnectLater (client : LoginClient) (now : Nat) : LoginClient :=
  let recorder := client.rest.reconnectDelayRecorder
  { client with
    rest :=
      { client.rest with
        reconnectDelayRecorder :=
          recorder.setDelay (reconnectDelay recorder.getDelayConfig) (some 0) now } }

end LoginClient

/-- What the request for the list of servers gives: no answer, one that cannot be read, or the
number of servers. -/
inductive ListAnswer where
  | failed (now : Nat)
  | unreadable
  | servers (count : Nat)

/-- The callback of `GetCMListForConnect`. The first server of an empty list is taken as well. -/
def LoginClient.onFetched (client : LoginClient) (answer : ListAnswer) : Option LoginClient :=
  match answer with
  | .failed now => some { client.reconnectLater now with logStatus := .notConnect }
  | .unreadable => some { client.reconnect with logStatus := .notConnect }
  | .servers count => if count = 0 then none else some client

end Utilpp.Steam

import Utilpp.Steam.AuthSession
import Utilpp.Lib.Transition
import Mathlib.Logic.Relation

/-!
# Runs of the login

A run of the client is a sequence of calls of the user, ticks, packets and events of the connection.
What a run does to the account, its token and the status of the session is a sequence of moves of a
small abstract state, `LoginView`, and `step_cases` says so of every event. The results about runs
are proved of the moves.
-/

namespace Utilpp.Steam

open Lib Time Relation

/-! ## The packets of a message -/

namespace Environment

variable {CMsgProtoBufHeader Rest : Type} (env : Environment CMsgProtoBufHeader Rest)

/-- What one packet that is not a `Multi` packet does to the client. -/
inductive Effect : SteamClient Rest → SteamClient Rest → Prop where
  | serverUnavailable (client : SteamClient Rest) : Effect client (onServerUnavailable client)
  | sessionToken (client : SteamClient Rest) (token : Int64) :
      Effect client { client with sessionToken := token }
  | jobFailed (client client' : SteamClient Rest) (id : UInt64)
      (h : env.jobFailed id client = some client') : Effect client client'
  | jobCompleted (client client' : SteamClient Rest) (msg : PacketMsg CMsgProtoBufHeader)
      (body : List UInt8) (h : env.jobCompleted msg body client = some client') :
      Effect client client'
  | logOnResponse (client client' : SteamClient Rest) (msg : PacketMsg CMsgProtoBufHeader)
      (body : List UInt8) (h : env.onLogOnResponse msg body client = some client') :
      Effect client client'
  | loggedOff (client client' : SteamClient Rest) (msg : PacketMsg CMsgProtoBufHeader)
      (body : List UInt8) (h : env.onLoggedOff msg body client = some client') :
      Effect client client'

variable {env}

theorem onMessage_effect {msg : PacketMsg CMsgProtoBufHeader} {body : Option (List UInt8)}
    {client client' : SteamClient Rest} (h : env.onMessage msg body client = some client') :
    ReflTransGen env.Effect client client' := by
  rw [onMessage] at h
  split at h
  · cases h
    exact .single (.serverUnavailable client)
  split at h
  · obtain ⟨bytes, -, h⟩ := Option.map_eq_some_iff.mp h
    split at h
    · cases h
      exact .refl
    · cases h
      exact .single (.sessionToken client _)
  split at h
  · cases h
    exact .refl
  split at h
  · exact .single (.jobFailed client client' _ h)
  split at h
  · obtain ⟨bytes, -, h⟩ := Option.bind_eq_some_iff.mp h
    exact .single (.jobCompleted client client' msg bytes h)
  split at h
  · cases h
    exact .refl
  split at h
  · obtain ⟨bytes, -, h⟩ := Option.bind_eq_some_iff.mp h
    exact .single (.logOnResponse client client' msg bytes h)
  split at h
  · obtain ⟨bytes, -, h⟩ := Option.bind_eq_some_iff.mp h
    exact .single (.loggedOff client client' msg bytes h)
  · cases h
    exact .refl

/-- A packet has effects one after another when the packets inside it have. -/
theorem receive_effect
    {onMulti : Option (List UInt8) → SteamClient Rest → Option (SteamClient Rest)}
    (hmulti : ∀ body client client', onMulti body client = some client' →
      ReflTransGen env.Effect client client')
    {client client' : SteamClient Rest} {content : List UInt8} {len : Int}
    (h : env.receive onMulti client content len = some client') :
    ReflTransGen env.Effect client client' := by
  rw [receive] at h
  split at h
  · cases h
  · cases h
    exact .refl
  · split at h
    · split at h
      · cases h
        exact .refl
      · exact hmulti _ _ _ h
    · exact onMessage_effect h

theorem walk_effect {handle : SteamClient Rest → List UInt8 → Option (SteamClient Rest)}
    (hhandle : ∀ client content client', handle client content = some client' →
      ReflTransGen env.Effect client client')
    {fuel : Nat} {client client' : SteamClient Rest} {bytes : List UInt8}
    (h : walk handle fuel client bytes = some client') :
    ReflTransGen env.Effect client client' := by
  induction fuel generalizing client bytes with
  | zero =>
      cases h
      exact .refl
  | succ fuel ih =>
      rw [walk] at h
      split at h
      · cases h
        exact .refl
      split at h
      · cases h
      dsimp only at h
      split at h
      · cases h
        exact .refl
      split at h
      · cases h
      · obtain ⟨middle, hpacket, hrest⟩ := Option.bind_eq_some_iff.mp h
        exact (hhandle _ _ _ hpacket).trans (ih hrest)

theorem onMessageBody_effect {handle : SteamClient Rest → List UInt8 → Option (SteamClient Rest)}
    (hhandle : ∀ client content client', handle client content = some client' →
      ReflTransGen env.Effect client client')
    {client client' : SteamClient Rest} {bytes : List UInt8}
    (h : onMessageBody handle bytes client = some client') :
    ReflTransGen env.Effect client client' := by
  obtain ⟨middle, hwalk, rfl⟩ := Option.map_eq_some_iff.mp h
  exact (walk_effect hhandle hwalk).tail (.serverUnavailable middle)

theorem receiveInside_effect {client client' : SteamClient Rest} {content : List UInt8}
    (h : env.receiveInside client content = some client') :
    ReflTransGen env.Effect client client' :=
  receive_effect (fun _ _ _ hnone => by cases hnone) h

theorem onMultiUnzipped_effect {body : Option (List UInt8)} {client client' : SteamClient Rest}
    (h : env.onMultiUnzipped body client = some client') :
    ReflTransGen env.Effect client client' := by
  obtain ⟨bytes, -, h⟩ := Option.bind_eq_some_iff.mp h
  split at h
  · cases h
    exact .refl
  · split at h
    · cases h
    · exact onMessageBody_effect (fun _ _ _ => receiveInside_effect) h

theorem onMulti_effect {body : Option (List UInt8)} {client client' : SteamClient Rest}
    (h : env.onMulti body client = some client') : ReflTransGen env.Effect client client' := by
  obtain ⟨bytes, -, h⟩ := Option.bind_eq_some_iff.mp h
  split at h
  · cases h
    exact .refl
  · split at h
    · split at h
      · cases h
        exact .refl
      · exact onMessageBody_effect
          (fun _ _ _ => receive_effect fun _ _ _ => onMultiUnzipped_effect) h
    · exact onMessageBody_effect (fun _ _ _ => receiveInside_effect) h

/-- Whatever arrives, a message acts as packets that are no `Multi` packets do, one after
another. -/
theorem onWSDataReceived_effect {client client' : SteamClient Rest} {content : List UInt8}
    (h : env.onWSDataReceived client content = some client') :
    ReflTransGen env.Effect client client' :=
  receive_effect (fun _ _ _ => onMulti_effect) h

end Environment

/-! ## Events -/

/-- An event of a run. -/
inductive LoginEvent where
  | login (account password : String) (now : Int)
  | sendSteamGuardCode (code : String)
  | registerKey (key : String)
  | disconnect
  | tick (delta : Rat) (fetching : Bool)
  | fetched (answer : ListAnswer)
  | connected (isConnected : Bool)
  | disconnected
  | received (content : List UInt8)
  | databaseAvailable (available : Bool)

variable {CMsgProtoBufHeader : Type} (wire : AuthWire CMsgProtoBufHeader)
  (env : Environment CMsgProtoBufHeader LoginState)

/-- One event. -/
def AuthWire.step (client : LoginClient) : LoginEvent → Option LoginClient
  | .login account password now => some (wire.login client account password now).2
  | .sendSteamGuardCode code => some (wire.sendSteamGuardCode client code).2
  | .registerKey key => some (wire.registerKey client key).2
  | .disconnect => some client.disconnect
  | .tick delta fetching => some (wire.tick client delta fetching)
  | .fetched answer => client.onFetched answer
  | .connected isConnected => some (wire.onConnected client isConnected LoginClient.disconnect)
  | .disconnected => some client.onDisconnected
  | .received content => (wire.environment env).onWSDataReceived client content
  | .databaseAvailable available =>
      some { client with
        rest :=
          { client.rest with database := { client.rest.database with available := available } } }

/-! ## Moves -/

/-- The account and its token, the status of the session and what is sent for them. -/
structure LoginView where
  accountName : String
  refreshToken : String
  status : AuthSessionStatus
  pollJobID : UInt64
  jobs : List AuthJob
  database : Database
  issued : List (String × String)
  sent : List Message

/-- What the view shows of a client. -/
def LoginClient.view (client : LoginClient) : LoginView where
  accountName := client.authSession.accountName
  refreshToken := client.authSession.refreshToken
  status := client.status
  pollJobID := client.rest.pollJobID
  jobs := client.rest.jobs
  database := client.rest.database
  issued := client.rest.issued
  sent := client.rest.sent

/-- A message that neither logs on nor polls. -/
def Message.Plain : Message → Prop
  | .clientLogon _ _ => False
  | .pollAuthSessionStatus _ _ _ => False
  | _ => True

/-- A move of the session. -/
inductive Move (view : LoginView) : LoginView → Prop where
  | status (status : AuthSessionStatus) (h : status ≠ .authenticated) :
      Move view { view with status }
  | message (message : Message) (h : message.Plain) :
      Move view { view with sent := view.sent ++ [message] }
  | job (job : AuthJob) (h : job.kind ≠ .pollAuthSessionStatus) :
      Move view { view with jobs := view.jobs ++ [job] }
  | poll (job clientID : UInt64) (requestID : List UInt8) (jobs : List AuthJob)
      (h : view.pollJobID = 0) :
      Move view
        { view with
          pollJobID := job, jobs
          sent := view.sent ++ [.pollAuthSessionStatus job clientID requestID] }
  | drop (id : UInt64) : Move view { view with jobs := view.jobs.filter fun job => job.id ≠ id }
  | forget (accountName : String) :
      Move view
        { view with
          database :=
            { view.database with
              steamUsers :=
                view.database.steamUsers.filter fun row => row.accountName ≠ accountName } }
  | available (available : Bool) :
      Move view { view with database := { view.database with available } }
  | clear : Move view { view with accountName := "", refreshToken := "", status := .unauthorized }
  | refused (h : ∃ job ∈ view.jobs, job.kind = .pollAuthSessionStatus) :
      Move view { view with pollJobID := 0 }
  | empty (accountName : String) (h : ∃ job ∈ view.jobs, job.kind = .pollAuthSessionStatus) :
      Move view
        { view with
          refreshToken := "", issued := view.issued ++ [(accountName, "")], pollJobID := 0 }
  | token (accountName refreshToken : String)
      (h : ∃ job ∈ view.jobs, job.kind = .pollAuthSessionStatus) :
      Move view
        { view with
          accountName, refreshToken, pollJobID := 0
          issued := view.issued ++ [(accountName, refreshToken)] }
  | authenticated (rows rows' : List UserRow) (hrows : view.database.steamUser = some rows)
      (htoken : view.refreshToken ≠ "") :
      Move view
        { view with
          status := .authenticated
          database := { view.database with steamUser := some rows' } }
  | logon (h : view.status = .authenticated) :
      Move view
        { view with sent := view.sent ++ [.clientLogon view.accountName view.refreshToken] }

/-- The token that the database gives for an account. -/
def Database.cachedToken (database : Database) (account : String) : Option String :=
  if database.available then
    (database.steamUsers.find? fun row => row.accountName = account).bind UserRow.refreshToken
  else none

/-- The token that a login goes on with: the one in the database, or the one that is at hand. -/
def LoginView.TokenFor (view : LoginView) (account token : String) : Prop :=
  view.database.cachedToken account = some token ∨
    token = view.refreshToken ∧ view.database.cachedToken account = none

/-- What `Login` does. -/
inductive LoginMove (view : LoginView) (account : String) : LoginView → Prop where
  | same : LoginMove view account view
  | thrown (token : String) (h : view.TokenFor account token) :
      LoginMove view account { view with accountName := account, refreshToken := token }
  | waiting (token : String) (h : view.TokenFor account token) :
      LoginMove view account
        { view with
          accountName := account, refreshToken := token, status := .waittingConnection }
  | expired :
      LoginMove view account
        { view with
          accountName := account, refreshToken := "", status := .waittingConnection
          database :=
            { view.database with
              steamUsers :=
                view.database.steamUsers.filter fun row => row.accountName ≠ account } }
  | authenticated (token : String) (h : view.TokenFor account token) (htoken : token ≠ "") :
      LoginMove view account
        { view with accountName := account, refreshToken := token, status := .authenticated }

/-- Moves one after another. -/
abbrev Moves : LoginView → LoginView → Prop := ReflTransGen Move

namespace LoginClient

theorem setStatus_moves {client : LoginClient} {status : AuthSessionStatus}
    (h : status ≠ .authenticated) : Moves client.view (client.setStatus status).view :=
  .single (.status status h)

theorem view_addJob (client : LoginClient) (job : AuthJob) :
    ∃ jobs, (client.addJob job).view = { client.view with jobs } := by
  rw [addJob]
  split
  · exact ⟨client.rest.jobs, rfl⟩
  · exact ⟨client.rest.jobs ++ [job], rfl⟩

theorem addJob_moves {client : LoginClient} {job : AuthJob}
    (h : job.kind ≠ .pollAuthSessionStatus) : Moves client.view (client.addJob job).view := by
  rw [addJob]
  split
  · exact .refl
  · exact .single (.job job h)

theorem invalidateAccountCache_moves (accountName : String) (client : LoginClient) :
    Moves client.view (client.invalidateAccountCache accountName).view := by
  rw [invalidateAccountCache]
  split
  · exact .single (.forget accountName)
  · exact .refl

theorem clearCurrentAuth_moves (client : LoginClient) :
    Moves client.view (view client.clearCurrentAuth) :=
  .single .clear

theorem jobFailed_moves (id : UInt64) (client : LoginClient) :
    Moves client.view (LoginClient.jobFailed id client).view := by
  rw [jobFailed]
  split
  · exact .refl
  · exact .single (.drop id)

/-- A login without a readable token in the database goes on with the token at hand. -/
theorem selectRefreshToken_cases (client : LoginClient) :
    (client.selectRefreshToken = none ∧
        client.view.database.cachedToken client.view.accountName = none) ∨
      ∃ row, client.selectRefreshToken = some row ∧
        client.view.TokenFor client.view.accountName (row.getD client.view.refreshToken) := by
  show (client.selectRefreshToken = none ∧
      client.rest.database.cachedToken client.authSession.accountName = none) ∨
    ∃ row, client.selectRefreshToken = some row ∧
      (client.rest.database.cachedToken client.authSession.accountName = some _ ∨ _ ∧
        client.rest.database.cachedToken client.authSession.accountName = none)
  rw [selectRefreshToken, Database.cachedToken]
  by_cases havailable : client.rest.database.available
  · rw [if_pos havailable, if_pos havailable]
    cases hfind : client.rest.database.steamUsers.find? fun row =>
        row.accountName = client.authSession.accountName with
    | none => exact .inr ⟨none, rfl, .inr ⟨rfl, rfl⟩⟩
    | some row =>
        cases htoken : row.refreshToken with
        | none => exact .inl ⟨congrArg (Option.map some) htoken, htoken⟩
        | some token => exact .inr ⟨some token, congrArg (Option.map some) htoken, .inl htoken⟩
  · rw [if_neg havailable, if_neg havailable]
    exact .inl ⟨rfl, rfl⟩

end LoginClient

namespace AuthWire

/-- A request is sent and gets a job, or nothing happens but that its number is used up. -/
theorem request_cases (client : LoginClient) (message : UInt64 → Message) (kind : JobKind)
    (handle : Nat) :
    wire.request client message kind handle = (none, (wire.nextJobID client).2) ∨
      ∃ job, wire.request client message kind handle =
        (some job, ((wire.nextJobID client).2.send (message job)).addJob ⟨job, kind, handle⟩) := by
  rw [request]
  dsimp only
  split
  · exact .inr ⟨_, rfl⟩
  · exact .inl rfl

theorem request_moves (client : LoginClient) (message : UInt64 → Message) (kind : JobKind)
    (handle : Nat) (hmessage : ∀ job, (message job).Plain)
    (hkind : kind ≠ .pollAuthSessionStatus) :
    ∃ answer client', wire.request client message kind handle = (answer, client') ∧
      Moves client.view client'.view := by
  rcases wire.request_cases client message kind handle with hnone | ⟨job, hsome⟩
  · exact ⟨none, _, hnone, .refl⟩
  · have hsend : Moves client.view ((wire.nextJobID client).2.send (message job)).view :=
      .single (.message _ (hmessage job))
    exact ⟨some job, _, hsome, hsend.trans (LoginClient.addJob_moves hkind)⟩

theorem pollAuthSessionStatus_moves (client : LoginClient) :
    Moves client.view (wire.pollAuthSessionStatus client).view := by
  rw [pollAuthSessionStatus]
  split
  · next h =>
    have hzero : client.view.pollJobID = 0 := h
    dsimp only
    rcases wire.request_cases client
      (fun job => .pollAuthSessionStatus job client.rest.clientID client.rest.requestID)
      .pollAuthSessionStatus client.rest.authRequest with hnone | ⟨job, hsome⟩
    · rw [hnone]
      exact .refl
    · rw [hsome]
      obtain ⟨jobs, hjobs⟩ := LoginClient.view_addJob
        ((wire.nextJobID client).2.send
          (.pollAuthSessionStatus job client.rest.clientID client.rest.requestID))
        ⟨job, .pollAuthSessionStatus, client.rest.authRequest⟩
      generalize LoginClient.addJob _ _ = added at hjobs ⊢
      refine .single ?_
      show Move client.view { added.view with pollJobID := job }
      rw [hjobs]
      exact .poll job client.rest.clientID client.rest.requestID jobs hzero
  · exact .refl

theorem tickSession_moves (client : LoginClient) :
    Moves client.view (wire.tickSession client).view := by
  rw [tickSession]
  split
  · split
    · dsimp only
      obtain ⟨answer, client', hrequest, hmoves⟩ := wire.request_moves client
        (fun job => .getPasswordRSAPublicKey job client.authSession.accountName)
        .getPasswordRSAPublicKey client.rest.authRequest (fun _ => trivial) nofun
      rw [hrequest]
      cases answer with
      | none => exact hmoves
      | some job => exact hmoves.trans (LoginClient.setStatus_moves nofun)
    · exact .refl
  split
  · split
    · exact wire.pollAuthSessionStatus_moves client
    · exact .refl
  · exact .refl

theorem sendSteamGuardCode_moves (client : LoginClient) (code : String) :
    Moves client.view (wire.sendSteamGuardCode client code).2.view := by
  rw [sendSteamGuardCode]
  split
  · exact .refl
  split
  · exact .refl
  dsimp only
  split
  · exact .refl
  obtain ⟨answer, client', hrequest, hmoves⟩ := wire.request_moves client
    (fun job => .updateAuthSessionWithSteamGuardCode job client.rest.clientID client.steamID code
      (guardType client.rest.allowedConfirmations))
    .updateSteamGuardCode client.rest.requests (fun _ => trivial) nofun
  rw [hrequest]
  cases answer with
  | none => exact hmoves
  | some job => exact hmoves

theorem registerKey_moves (client : LoginClient) (key : String) :
    Moves client.view (wire.registerKey client key).2.view := by
  rw [registerKey]
  split
  · exact .refl
  dsimp only
  obtain ⟨answer, client', hrequest, hmoves⟩ := wire.request_moves client
    (fun job => .registerCDKey job client.sessionID client.steamID key)
    .registerKey client.rest.requests (fun _ => trivial) nofun
  rw [hrequest]
  cases answer with
  | none => exact hmoves
  | some job => exact hmoves

/-! ### The callbacks -/

theorem sendCredentials_moves {client client' : LoginClient} {body : List UInt8} {bres : Bool}
    (h : wire.sendCredentials client body = some (bres, client')) :
    Moves client.view client'.view := by
  rw [sendCredentials] at h
  split at h
  · cases h
    exact .refl
  · next resp _ =>
    obtain ⟨exp, -, h⟩ := Option.bind_eq_some_iff.mp h
    split at h
    · cases h
    split at h
    · cases h
      exact .refl
    obtain ⟨mod, -, h⟩ := Option.map_eq_some_iff.mp h
    split at h
    · cases h
      exact .refl
    split at h
    · cases h
      exact .refl
    · next encrypted _ =>
      dsimp only at h
      obtain ⟨answer, client'', hrequest, hmoves⟩ := wire.request_moves client
        (fun job => .beginAuthSessionViaCredentials job client.authSession.accountName encrypted
          resp.timestamp)
        .beginAuthSession client.rest.authRequest (fun _ => trivial) nofun
      rw [hrequest] at h
      cases answer with
      | none =>
          cases h
          exact hmoves
      | some job =>
          cases h
          exact hmoves

theorem onGetPasswordRSAPublicKeyResponse_moves {client client' : LoginClient}
    {body : List UInt8} (h : wire.onGetPasswordRSAPublicKeyResponse client body = some client') :
    Moves client.view client'.view := by
  rw [onGetPasswordRSAPublicKeyResponse] at h
  split at h
  · cases h
  · cases h
    exact .refl
  · obtain ⟨⟨bres, middle⟩, hsend, h⟩ := Option.map_eq_some_iff.mp h
    subst h
    refine (wire.sendCredentials_moves hsend).trans ?_
    dsimp only
    split
    · exact LoginClient.setStatus_moves nofun
    · exact LoginClient.setStatus_moves nofun

theorem readSession_moves (client : LoginClient) (header : CMsgProtoBufHeader)
    (body : List UInt8) : Moves client.view (wire.readSession env client header body).2.view := by
  rw [readSession]
  split
  · dsimp only
    split
    · exact .refl
    · exact (LoginClient.invalidateAccountCache_moves _ client).trans
        (LoginClient.clearCurrentAuth_moves _)
  · split
    · exact .refl
    · exact .refl

theorem onBeginAuthSessionViaCredentialsResponse_moves {client client' : LoginClient}
    {msg : PacketMsg CMsgProtoBufHeader} {body : List UInt8}
    (h : wire.onBeginAuthSessionViaCredentialsResponse env client msg body = some client') :
    Moves client.view client'.view := by
  rw [onBeginAuthSessionViaCredentialsResponse] at h
  split at h
  · cases h
  · cases h
    exact .refl
  split at h
  · next header _ =>
    dsimp only at h
    have hread := wire.readSession_moves env client header body
    split at h
    · cases h
      exact hread.trans (LoginClient.setStatus_moves nofun)
    · cases h
      exact hread.trans (LoginClient.setStatus_moves nofun)
  · cases h

/-- What an answer to a poll does before the status is looked at: it is refused, or a token is kept
for the account. -/
theorem readToken_moves {client : LoginClient} (header : CMsgProtoBufHeader) (body : List UInt8)
    (hjob : ∃ job ∈ client.view.jobs, job.kind = .pollAuthSessionStatus) :
    Moves client.view
        { (wire.readToken env client header body).2.view with pollJobID := 0 } ∧
      ((wire.readToken env client header body).1 = true →
        (wire.readToken env client header body).2.view.refreshToken ≠ "") := by
  rw [readToken]
  split
  · exact ⟨.single (.refused hjob), nofun⟩
  split
  · exact ⟨.single (.refused hjob), nofun⟩
  · next resp _ =>
    dsimp only
    split
    · next hempty =>
      refine ⟨?_, nofun⟩
      rw [hempty]
      exact .single (.empty resp.accountName hjob)
    · next htoken =>
      exact ⟨.single (.token resp.accountName resp.refreshToken hjob), fun _ => htoken⟩

/-- The database takes the token when there is a table for it, and otherwise nothing happens. -/
theorem updateAccountCache_cases (client : LoginClient) :
    client.updateAccountCache = (false, client) ∨
      ∃ rows rows' client', client.updateAccountCache = (true, client') ∧
        client.view.database.steamUser = some rows ∧
        client'.view =
          { client.view with
            database := { client.view.database with steamUser := some rows' } } := by
  rw [LoginClient.updateAccountCache]
  dsimp only
  split
  · exact .inl rfl
  · next rows hrows =>
    split
    · exact .inr ⟨rows, _, _, rfl, hrows, rfl⟩
    · exact .inl rfl

theorem onPollAuthSessionStatusResponse_moves {client client' : LoginClient}
    {msg : PacketMsg CMsgProtoBufHeader} {body : List UInt8}
    (hjob : ∃ job ∈ client.view.jobs, job.kind = .pollAuthSessionStatus)
    (h : wire.onPollAuthSessionStatusResponse env client msg body = some client') :
    Moves client.view client'.view := by
  rw [onPollAuthSessionStatusResponse] at h
  split at h
  · cases h
  · cases h
    exact .refl
  split at h
  · next header _ =>
    dsimp only at h
    obtain ⟨hread, htoken⟩ := wire.readToken_moves env header body hjob
    split at h
    · next hboth =>
      generalize hsecond : wire.readToken env client header body = answer at h hread htoken hboth
      obtain ⟨bres, middle⟩ := answer
      refine hread.trans ?_
      rcases updateAccountCache_cases (LoginClient.setStatus
        { middle with rest := { middle.rest with pollJobID := 0 } } .authenticated) with
        hfail | ⟨rows, rows', client'', hupdate, hrows, hview⟩
      · rw [hfail] at h
        cases h
        exact .single (.status .error nofun)
      · rw [hupdate] at h
        cases h
        rw [if_pos rfl, hview]
        exact .single (.authenticated rows rows' hrows (htoken hboth.1))
    · cases h
      exact hread
  · cases h

theorem onUpdateAuthSessionWithSteamGuardCodeResponse_moves {client client' : LoginClient}
    {msg : PacketMsg CMsgProtoBufHeader} {body : List UInt8}
    (h : wire.onUpdateAuthSessionWithSteamGuardCodeResponse env client msg body = some client') :
    Moves client.view client'.view := by
  rw [onUpdateAuthSessionWithSteamGuardCodeResponse] at h
  split at h
  · cases h
  · cases h
    exact .refl
  · next handle _ =>
    split at h
    · dsimp only at h
      split at h
      · cases h
        exact wire.pollAuthSessionStatus_moves
          { client with rest := { client.rest with guardCodeRequest := some (handle, true) } }
      · cases h
        exact .refl
    · cases h

theorem onRegisterKeyResponse_view (client : LoginClient) (request : Nat) (body : List UInt8) :
    (wire.onRegisterKeyResponse client request body).view = client.view := by
  rw [onRegisterKeyResponse]
  split
  · rfl
  · rfl

theorem jobCompleted_moves {client client' : LoginClient} {msg : PacketMsg CMsgProtoBufHeader}
    {body : List UInt8} (h : wire.jobCompleted env msg body client = some client') :
    Moves client.view client'.view := by
  rw [jobCompleted] at h
  split at h
  · cases h
    exact .refl
  · next job hfind =>
    obtain ⟨middle, hcall, rfl⟩ := Option.map_eq_some_iff.mp h
    have herase : Move middle.view (middle.eraseJob job.id).view := .drop job.id
    refine ReflTransGen.tail ?_ herase
    rw [callback] at hcall
    split at hcall
    · exact wire.onGetPasswordRSAPublicKeyResponse_moves hcall
    · exact wire.onBeginAuthSessionViaCredentialsResponse_moves env hcall
    · next hkind =>
      exact wire.onPollAuthSessionStatusResponse_moves env
        ⟨job, List.mem_of_find?_eq_some hfind, hkind⟩ hcall
    · exact wire.onUpdateAuthSessionWithSteamGuardCodeResponse_moves env hcall
    · cases hcall
      rw [onRegisterKeyResponse_view]

theorem onLogOnResponse_moves {client client' : LoginClient} {msg : PacketMsg CMsgProtoBufHeader}
    {body : List UInt8}
    (h : (wire.environment env).onLogOnResponse msg body client = some client') :
    Moves client.view client'.view := by
  rw [Environment.onLogOnResponse] at h
  split at h
  · cases h
    exact .refl
  split at h
  · split at h
    · cases h
      exact .refl
    split at h
    · cases h
      exact .refl
    split at h
    · cases h
      exact .refl
    · obtain ⟨middle, hinvalid, rfl⟩ := Option.map_eq_some_iff.mp h
      rw [Environment.invalidateCurrentAuth] at hinvalid
      split at hinvalid
      · cases hinvalid
        exact .refl
      · cases hinvalid
        exact (LoginClient.invalidateAccountCache_moves _ client).trans
          (LoginClient.clearCurrentAuth_moves _)
  · cases h

theorem onLoggedOff_moves {client client' : LoginClient} {msg : PacketMsg CMsgProtoBufHeader}
    {body : List UInt8} (h : (wire.environment env).onLoggedOff msg body client = some client') :
    Moves client.view client'.view := by
  rw [Environment.onLoggedOff] at h
  dsimp only at h
  split at h
  · split at h
    · cases h
      exact .refl
    split at h
    · cases h
      exact LoginClient.clearCurrentAuth_moves client
    · cases h
      exact LoginClient.clearCurrentAuth_moves client
  · cases h
    exact LoginClient.clearCurrentAuth_moves client

theorem effect_moves {client client' : LoginClient}
    (heffect : (wire.environment env).Effect client client') :
    Moves client.view client'.view := by
  cases heffect with
  | serverUnavailable => exact .refl
  | sessionToken token => exact .refl
  | jobFailed _ id h =>
      cases h
      exact LoginClient.jobFailed_moves id client
  | jobCompleted _ msg body h => exact wire.jobCompleted_moves env h
  | logOnResponse _ msg body h => exact wire.onLogOnResponse_moves env h
  | loggedOff _ msg body h => exact wire.onLoggedOff_moves env h

/-! ### The events -/

theorem heartBeat_moves (client : LoginClient) :
    Moves client.view (wire.heartBeat client).view := by
  rw [heartBeat]
  split
  · exact .single (.message .clientHeartBeat trivial)
  · exact .refl

theorem tickLogStatus_moves (client : LoginClient) (delta : Rat) (fetching : Bool) :
    Moves client.view (wire.tickLogStatus client delta fetching).view := by
  rw [tickLogStatus]
  split
  · split
    · show Moves client.view (LoginClient.view
        (if client.status ≠ .authenticated then client.setStatus .waittingConnection else client))
      split
      · exact LoginClient.setStatus_moves nofun
      · exact .refl
    · exact .refl
  · split
    · next h =>
      have hstatus : client.view.status = .authenticated := h
      rw [logon]
      dsimp only
      split
      · exact .single (.logon hstatus)
      · exact .refl
    · exact .refl
  · have hfirst : Moves client.view (LoginClient.view
        (if client.rest.preLogStatus ≠ .logon then wire.heartBeat client else client)) := by
      split
      · exact wire.heartBeat_moves client
      · exact .refl
    dsimp only
    generalize (if client.rest.preLogStatus ≠ .logon then wire.heartBeat client else client) =
      middle at hfirst ⊢
    split
    · exact hfirst.trans (wire.heartBeat_moves { middle with heartBeatSecCount := 0 })
    · exact hfirst
  · exact .refl

theorem tick_moves (client : LoginClient) (delta : Rat) (fetching : Bool) :
    Moves client.view (wire.tick client delta fetching).view := by
  rw [tick]
  refine (wire.tickLogStatus_moves client delta fetching).trans ?_
  exact wire.tickSession_moves
    { wire.tickLogStatus client delta fetching with
      rest :=
        { (wire.tickLogStatus client delta fetching).rest with
          preLogStatus := (wire.tickLogStatus client delta fetching).logStatus } }

theorem onConnected_moves (client : LoginClient) (isConnected : Bool) :
    Moves client.view (wire.onConnected client isConnected LoginClient.disconnect).view := by
  rw [onConnected]
  have hello : Moves client.view (LoginClient.view
      (if wire.serializes .clientHello then client.send .clientHello else client)) := by
    split
    · exact .single (.message .clientHello trivial)
    · exact .refl
  generalize (if wire.serializes .clientHello then client.send .clientHello else client) =
    middle at hello ⊢
  split
  · exact hello
  · exact hello.trans (LoginClient.clearCurrentAuth_moves middle)

theorem onFetched_view {client client' : LoginClient} {answer : ListAnswer}
    (h : client.onFetched answer = some client') : client'.view = client.view := by
  cases answer with
  | failed now =>
      cases h
      rfl
  | unreadable =>
      cases h
      rfl
  | servers count =>
      rw [LoginClient.onFetched] at h
      split at h
      · cases h
      · cases h
        rfl

theorem received_moves {client client' : LoginClient} {content : List UInt8}
    (h : (wire.environment env).onWSDataReceived client content = some client') :
    Moves client.view client'.view := by
  have heffect : ReflTransGen (wire.environment env).Effect client client' :=
    Environment.onWSDataReceived_effect h
  clear h
  induction heffect with
  | refl => exact .refl
  | tail _ hlast ih => exact ih.trans (wire.effect_moves env hlast)

/-- How `ReadAccountCache` ends and what is left of the token. -/
inductive CacheMove (view : LoginView) : CacheAnswer → LoginView → Prop where
  | kept (answer : CacheAnswer) (token : String) (h : view.TokenFor view.accountName token)
      (htoken : answer = .done true → token ≠ "") :
      CacheMove view answer { view with refreshToken := token }
  | expired :
      CacheMove view (.done false)
        { view with
          refreshToken := ""
          database :=
            { view.database with
              steamUsers :=
                view.database.steamUsers.filter fun row => row.accountName ≠ view.accountName } }

theorem readAccountCache_move (client : LoginClient) (now : Int) :
    CacheMove client.view (wire.readAccountCache client now).1
      (wire.readAccountCache client now).2.view := by
  rw [readAccountCache]
  rcases LoginClient.selectRefreshToken_cases client with ⟨hnone, hcached⟩ | ⟨row, hsome, hfor⟩
  · rw [hnone]
    exact .kept (.done false) client.view.refreshToken (.inr ⟨rfl, hcached⟩) nofun
  · rw [hsome]
    dsimp only
    by_cases hempty : row.getD client.authSession.refreshToken = ""
    · rw [if_pos hempty]
      exact .kept (.done false) _ hfor nofun
    rw [if_neg hempty]
    split
    · exact .kept .thrown _ hfor nofun
    split
    · have havailable : client.rest.database.available = true := by
        by_contra hnot
        rw [LoginClient.selectRefreshToken, if_neg hnot] at hsome
        cases hsome
      rw [LoginClient.invalidateAccountCache]
      dsimp only
      rw [if_pos havailable]
      exact .expired
    · exact .kept (.done true) _ hfor fun _ => hempty

theorem beginAuthSession_move (client : LoginClient) (account password : String) (now : Int) :
    LoginMove client.view account (wire.beginAuthSession client account password now).2.view := by
  rw [beginAuthSession]
  dsimp only
  generalize hstart : ({ client.newRequest with
      authSession :=
        { client.newRequest.authSession with
          accountName := account, password := password, authRequestFinished := some true }
      rest := { client.newRequest.rest with authRequest := client.rest.requests } } : LoginClient) =
    start
  have hview : LoginClient.view start = { client.view with accountName := account } := by
    rw [← hstart]
    rfl
  have hcache := wire.readAccountCache_move start now
  rw [hview] at hcache
  generalize wire.readAccountCache start now = answer at hcache ⊢
  obtain ⟨answer, after⟩ := answer
  generalize hafter : LoginClient.view after = view at hcache
  cases hcache with
  | kept _ token hfor htoken =>
      cases answer with
      | thrown =>
          show LoginMove client.view account after.view
          rw [hafter]
          exact .thrown token hfor
      | done found =>
          cases found with
          | false =>
              show LoginMove client.view account { after.view with status := .waittingConnection }
              rw [hafter]
              exact .waiting token hfor
          | true =>
              show LoginMove client.view account { after.view with status := .authenticated }
              rw [hafter]
              exact .authenticated token hfor (htoken rfl)
  | expired =>
      show LoginMove client.view account { after.view with status := .waittingConnection }
      rw [hafter]
      exact .expired

/-- A call of `Login` makes the move of a login. -/
theorem login_move (client : LoginClient) (account password : String) (now : Int) :
    LoginMove client.view account (wire.login client account password now).2.view := by
  have hbegin : LoginMove client.view account
      (wire.beginAuthSessionViaCredentials client account password now).2.view := by
    rw [beginAuthSessionViaCredentials]
    split
    · exact .same
    split
    · exact .same
    · exact wire.beginAuthSession_move client account password now
  rw [login]
  generalize wire.beginAuthSessionViaCredentials client account password now = answer at hbegin ⊢
  obtain ⟨_ | ⟨_ | request, err⟩, after⟩ := answer
  · exact hbegin
  · exact hbegin
  · dsimp only
    split
    · exact hbegin
    · exact hbegin

/-- A login that repeats the last one before the session is given up changes nothing there. -/
theorem login_repeated {client : LoginClient} {account password : String}
    (haccount : client.authSession.accountName = account)
    (hpassword : client.authSession.password = password) (hstatus : client.status ≠ .unauthorized)
    (now : Int) : (wire.login client account password now).2.view = client.view := by
  have hbegin : ∃ answer, wire.beginAuthSessionViaCredentials client account password now =
      (answer, client) := by
    rw [beginAuthSessionViaCredentials]
    split
    · exact ⟨_, rfl⟩
    · rw [if_pos ⟨haccount, hpassword, hstatus⟩]
      exact ⟨_, rfl⟩
  obtain ⟨answer, hanswer⟩ := hbegin
  rw [login, hanswer]
  split
  · next heq =>
    cases heq
    dsimp only
    split
    · rfl
    · rfl
  · next heq =>
    cases heq
    rfl

/-- An event is a call of `Login`, or it makes moves. -/
theorem step_cases {client client' : LoginClient} {event : LoginEvent}
    (h : wire.step env client event = some client') :
    (∃ account password now, event = .login account password now ∧
        LoginMove client.view account client'.view) ∨ Moves client.view client'.view := by
  cases event with
  | login account password now =>
      cases h
      exact .inl ⟨account, password, now, rfl, wire.login_move client account password now⟩
  | sendSteamGuardCode code =>
      cases h
      exact .inr (wire.sendSteamGuardCode_moves client code)
  | registerKey key =>
      cases h
      exact .inr (wire.registerKey_moves client key)
  | disconnect =>
      cases h
      exact .inr (LoginClient.clearCurrentAuth_moves client)
  | tick delta fetching =>
      cases h
      exact .inr (wire.tick_moves client delta fetching)
  | fetched answer =>
      rw [onFetched_view h]
      exact .inr .refl
  | connected isConnected =>
      cases h
      exact .inr (wire.onConnected_moves client isConnected)
  | disconnected =>
      cases h
      exact .inr .refl
  | received content => exact .inr (wire.received_moves env h)
  | databaseAvailable available =>
      cases h
      exact .inr (.single (.available available))

end AuthWire

end Utilpp.Steam

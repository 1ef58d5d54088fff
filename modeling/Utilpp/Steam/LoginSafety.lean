import Utilpp.Steam.LoginRuns
import Utilpp.Steam.Multi

/-!
# What the login keeps and loses

Results about all runs of the client. A logon message carries a token that belongs to its account
as long as no other account logs in while a token is at hand. A poll whose job is gone is never
sent again. With the tables that the program makes, an account and a password alone never lead to a
logon.
-/

namespace Utilpp.Steam

open Lib Time Relation

variable {CMsgProtoBufHeader : Type} {wire : AuthWire CMsgProtoBufHeader}
  {env : Environment CMsgProtoBufHeader LoginState}

/-! ## Tokens belong to accounts -/

/-- The accounts and tokens of the table `steam_users`. -/
def Database.tokens (database : Database) : List (String × String) :=
  database.steamUsers.filterMap fun row =>
    row.refreshToken.map fun token => (row.accountName, token)

theorem Database.cachedToken_mem {database : Database} {account token : String}
    (h : database.cachedToken account = some token) : (account, token) ∈ database.tokens := by
  rw [cachedToken] at h
  split at h
  · obtain ⟨row, hfind, htoken⟩ := Option.bind_eq_some_iff.mp h
    have hname : row.accountName = account := by simpa using List.find?_some hfind
    refine List.mem_filterMap.mpr ⟨row, List.mem_of_find?_eq_some hfind, ?_⟩
    rw [htoken, Option.map_some, hname]
  · cases h

/-- The token at hand and those that were sent belong to their accounts: each was in the database
at first, or an answer to a poll gave it. -/
structure Provenance (known : List (String × String)) (view : LoginView) : Prop where
  token : view.refreshToken = "" ∨
    (view.accountName, view.refreshToken) ∈ known ++ view.issued
  rows : view.database.tokens ⊆ known
  sent : ∀ accountName token, .clientLogon accountName token ∈ view.sent →
    token = "" ∨ (accountName, token) ∈ known ++ view.issued

theorem tokens_filter_subset (database : Database) (keep : UserRow → Bool) :
    Database.tokens { database with steamUsers := database.steamUsers.filter keep } ⊆
      database.tokens :=
  List.filterMap_subset _ (List.filter_subset_self _)

theorem mem_issued {known issued : List (String × String)} {entry : String × String}
    (h : entry ∈ known ++ issued) (more : List (String × String)) :
    entry ∈ known ++ (issued ++ more) := by
  rw [← List.append_assoc]
  exact List.mem_append_left _ h

theorem Move.provenance {known : List (String × String)} {view view' : LoginView}
    (hmove : Move view view') (h : Provenance known view) : Provenance known view' := by
  cases hmove with
  | status status hstatus => exact ⟨h.token, h.rows, h.sent⟩
  | message message hplain =>
      refine ⟨h.token, h.rows, fun accountName token hmem => ?_⟩
      rcases List.mem_append.mp hmem with hold | hnew
      · exact h.sent accountName token hold
      · rw [← List.mem_singleton.mp hnew] at hplain
        exact hplain.elim
  | job job hjob => exact ⟨h.token, h.rows, h.sent⟩
  | poll job clientID requestID jobs hzero =>
      refine ⟨h.token, h.rows, fun accountName token hmem => ?_⟩
      rcases List.mem_append.mp hmem with hold | hnew
      · exact h.sent accountName token hold
      · cases List.mem_singleton.mp hnew
  | drop id => exact ⟨h.token, h.rows, h.sent⟩
  | forget accountName =>
      exact ⟨h.token, List.Subset.trans (tokens_filter_subset view.database _) h.rows, h.sent⟩
  | available available => exact ⟨h.token, h.rows, h.sent⟩
  | clear => exact ⟨.inl rfl, h.rows, h.sent⟩
  | refused hjob => exact ⟨h.token, h.rows, h.sent⟩
  | empty accountName hjob =>
      refine ⟨.inl rfl, h.rows, fun name token hmem => ?_⟩
      exact (h.sent name token hmem).imp_right fun hold => mem_issued hold _
  | token accountName refreshToken hjob =>
      refine ⟨.inr ?_, h.rows, fun name token hmem => ?_⟩
      · exact List.mem_append_right _ (List.mem_append_right _ (List.mem_singleton.mpr rfl))
      · exact (h.sent name token hmem).imp_right fun hold => mem_issued hold _
  | authenticated rows rows' hrows htoken => exact ⟨h.token, h.rows, h.sent⟩
  | logon hstatus =>
      refine ⟨h.token, h.rows, fun accountName token hmem => ?_⟩
      rcases List.mem_append.mp hmem with hold | hnew
      · exact h.sent accountName token hold
      · cases List.mem_singleton.mp hnew
        exact h.token

theorem Moves.provenance {known : List (String × String)} {view view' : LoginView}
    (hmoves : Moves view view') (h : Provenance known view) : Provenance known view' := by
  induction hmoves with
  | refl => exact h
  | tail _ hlast ih => exact hlast.provenance ih

/-- A login for the account at hand, or when there is no token at hand, or with one in the
database. -/
def OwnToken (client : LoginClient) : LoginEvent → Prop
  | .login account _ _ =>
      client.authSession.accountName = account ∨ client.authSession.refreshToken = "" ∨
        client.rest.database.cachedToken account ≠ none
  | _ => True

theorem Provenance.tokenFor {known : List (String × String)} {view : LoginView}
    {account token : String} (h : Provenance known view)
    (hown : view.accountName = account ∨ view.refreshToken = "" ∨
      view.database.cachedToken account ≠ none)
    (hfor : view.TokenFor account token) :
    token = "" ∨ (account, token) ∈ known ++ view.issued := by
  rcases hfor with hcached | ⟨rfl, hnone⟩
  · exact .inr (List.mem_append_left _ (h.rows (Database.cachedToken_mem hcached)))
  · rcases hown with rfl | hempty | hcached
    · exact h.token
    · exact .inl hempty
    · exact absurd hnone hcached

theorem LoginMove.provenance {known : List (String × String)} {view view' : LoginView}
    {account : String} (hmove : LoginMove view account view') (h : Provenance known view)
    (hown : view.accountName = account ∨ view.refreshToken = "" ∨
      view.database.cachedToken account ≠ none) : Provenance known view' := by
  cases hmove with
  | same => exact h
  | thrown token hfor => exact ⟨h.tokenFor hown hfor, h.rows, h.sent⟩
  | waiting token hfor => exact ⟨h.tokenFor hown hfor, h.rows, h.sent⟩
  | expired =>
      exact ⟨.inl rfl, List.Subset.trans (tokens_filter_subset view.database _) h.rows, h.sent⟩
  | authenticated token hfor htoken => exact ⟨h.tokenFor hown hfor, h.rows, h.sent⟩

theorem step_provenance {known : List (String × String)} (client : LoginClient)
    (event : LoginEvent) (client' : LoginClient) (h : Provenance known client.view)
    (hown : OwnToken client event) (hstep : wire.step env client event = some client') :
    Provenance known client'.view := by
  rcases wire.step_cases env hstep with ⟨account, password, now, rfl, hmove⟩ | hmoves
  · exact hmove.provenance h hown
  · exact Moves.provenance hmoves h

/-- Steam's numbers with jobs that do nothing. -/
def loginEnvironment : Environment Unit LoginState :=
  { plainEnvironment with
    jobFailed := fun _ client => some client
    jobCompleted := fun _ _ client => some client
    triggerOnLogoutDelegates := some
    invalidateAccountCache := fun _ client => some client }

/-- Everything can be serialised, and every answer is a good one. -/
def plainWire : AuthWire Unit where
  serializes _ := true
  jobID count := count.toUInt64
  eresult _ := 1
  duplicateRequest := 29
  parsePublicKey _ := some ⟨[], [], 0⟩
  parseBeginAuthSession _ := some ⟨1, 2, [], [4]⟩
  parsePollAuthSession _ := some ⟨"t", 1, "", "a"⟩
  parseUpdateGuardCode _ := true
  parseRegisterCDKey _ := some .noDetail
  encrypt _ _ _ := some []
  expiresAt _ := some 1000

/-- A client as it is made. -/
def freshClient (database : Database) : LoginClient :=
  { logStatus := .notConnect, shouldReconnect := false, sessionToken := 0, steamID := 0
    sessionID := 0, cellID := 0, publicIP := .v4 0, ipCountryCode := "", heartBeatSec := 0
    heartBeatSecCount := 0, authSession := ⟨"", "", "", none, .unauthorized⟩
    rest := { database } }

/-- A login and what follows up to the connection and behind it. -/
def loginEvents : List LoginEvent :=
  [.login "a" "p" 0, .tick 0 true, .connected true, .tick 0 true]

theorem LoginClient.selectRefreshToken_absent {client : LoginClient}
    (havailable : client.rest.database.available = true)
    (hrow : ∀ row ∈ client.rest.database.steamUsers,
      row.accountName ≠ client.authSession.accountName) :
    client.selectRefreshToken = some none := by
  have hfind : (client.rest.database.steamUsers.find? fun row =>
      row.accountName = client.authSession.accountName) = none :=
    List.find?_eq_none.mpr fun row hmem => by simpa using hrow row hmem
  rw [LoginClient.selectRefreshToken, if_pos havailable, hfind]

/-- The cache ends with the token at hand when the database has no row for the account. -/
theorem readAccountCache_at_hand {client : LoginClient} {token : String} {now expires : Int}
    (hselect : client.selectRefreshToken = some none)
    (hat : client.authSession.refreshToken = token) (htoken : token ≠ "")
    (hexpires : wire.expiresAt token = some expires) (htime : now + 60 * 5 ≤ expires) :
    wire.readAccountCache client now = (.done true, client) := by
  subst hat
  rw [AuthWire.readAccountCache, hselect]
  dsimp only [Option.getD_none]
  rw [if_neg htoken, hexpires]
  dsimp only
  rw [if_neg (Int.not_lt.mpr htime)]

/-- A tick of an authenticated session behind the connection logs on. -/
theorem tick_logon {client : LoginClient} (hlogout : client.logStatus = .logout)
    (hstatus : client.status = .authenticated)
    (hserializes : wire.serializes (.clientLogon client.authSession.accountName
      client.authSession.refreshToken) = true) (delta : Rat) (fetching : Bool) :
    (wire.tick client delta fetching).logStatus = .loggingon ∧
      (wire.tick client delta fetching).rest.sent = client.rest.sent ++
        [.clientLogon client.authSession.accountName client.authSession.refreshToken] := by
  have htick : wire.tickLogStatus client delta fetching =
      { client.send
          (.clientLogon client.authSession.accountName client.authSession.refreshToken) with
        logStatus := .loggingon } := by
    rw [AuthWire.tickLogStatus, hlogout]
    dsimp only
    rw [if_pos hstatus, AuthWire.logon, if_pos hserializes]
    rfl
  have hsession : ∀ after : LoginClient, after.status = .authenticated →
      wire.tickSession after = after := by
    intro after hafter
    have hwaiting : after.status ≠ .waittingConnection := by
      rw [hafter]
      decide
    have hpolling : after.status ≠ .pollingAuthSessionStatus := by
      rw [hafter]
      decide
    rw [AuthWire.tickSession, if_neg hwaiting, if_neg hpolling]
  rw [AuthWire.tick, htick]
  dsimp only
  rw [hsession _ ?_]
  · exact ⟨rfl, rfl⟩
  · exact hstatus

/-- The login of another account that the database has no row for, with a token at hand that has
not expired. -/
theorem login_other_account {client : LoginClient} {account : String} {now expires : Int}
    (hother : client.authSession.accountName ≠ account)
    (htoken : client.authSession.refreshToken ≠ "")
    (hexpires : wire.expiresAt client.authSession.refreshToken = some expires)
    (htime : now + 60 * 5 ≤ expires)
    (havailable : client.rest.database.available = true)
    (hrow : ∀ row ∈ client.rest.database.steamUsers, row.accountName ≠ account)
    (hlogout : client.logStatus = .logout) (password : String) :
    (wire.login client account password now).2 =
      { client with
        authSession :=
          { client.authSession with
            accountName := account, password := password, authRequestFinished := some true
            authSessionStatus := .authenticated }
        rest :=
          { client.rest with
            requests := client.rest.requests + 1, authRequest := client.rest.requests } } := by
  have hbegin : wire.beginAuthSessionViaCredentials client account password now =
      wire.beginAuthSession client account password now := by
    rw [AuthWire.beginAuthSessionViaCredentials, if_neg fun h => hother h.1,
      if_neg fun h => hother h.1]
  rw [AuthWire.login, hbegin, AuthWire.beginAuthSession]
  dsimp only
  rw [readAccountCache_at_hand ?_ ?_ htoken hexpires htime]
  · dsimp only
    rw [if_neg ?_]
    · rfl
    · show client.logStatus ≠ .notConnect
      rw [hlogout]
      exact fun h => by cases h
  · exact LoginClient.selectRefreshToken_absent havailable hrow
  · rfl

/-- A client with a token for one account, behind the connection. -/
def tokenAtHand : LoginClient :=
  { freshClient {} with
    logStatus := .logout, authSession := ⟨"a", "t", "p", some false, .error⟩ }

/-- The polls among the messages. -/
def polls (sent : List Message) : List Message :=
  sent.filter fun message =>
    match message with
    | .pollAuthSessionStatus _ _ _ => true
    | _ => false

/-- A poll is awaited that no job stands for. -/
structure PollLost (id : UInt64) (sent : List Message) (issued : List (String × String))
    (view : LoginView) : Prop where
  awaited : view.pollJobID = id
  jobs : ∀ job ∈ view.jobs, job.kind ≠ .pollAuthSessionStatus
  polls : polls view.sent = sent
  issued : view.issued = issued

theorem polls_append_of_plain (sent : List Message) {message : Message} (h : message.Plain) :
    polls (sent ++ [message]) = polls sent := by
  rw [polls, List.filter_append, polls]
  cases message <;> first | exact List.append_nil _ | exact h.elim

theorem Move.pollLost {id : UInt64} (hid : id ≠ 0) {sent : List Message}
    {issued : List (String × String)} {view view' : LoginView} (hmove : Move view view')
    (h : PollLost id sent issued view) : PollLost id sent issued view' := by
  have hjobs : ¬ ∃ job ∈ view.jobs, job.kind = .pollAuthSessionStatus :=
    fun hex => hex.elim fun job hjob => h.jobs job hjob.1 hjob.2
  cases hmove with
  | status status hstatus => exact ⟨h.awaited, h.jobs, h.polls, h.issued⟩
  | message message hplain =>
      exact ⟨h.awaited, h.jobs, (polls_append_of_plain view.sent hplain).trans h.polls, h.issued⟩
  | job job hjob =>
      refine ⟨h.awaited, fun other hmem => ?_, h.polls, h.issued⟩
      rcases List.mem_append.mp hmem with hold | hnew
      · exact h.jobs other hold
      · rw [List.mem_singleton.mp hnew]
        exact hjob
  | poll job clientID requestID jobs hzero => exact absurd (h.awaited.symm.trans hzero) hid
  | drop removed =>
      exact ⟨h.awaited, fun job hmem => h.jobs job (List.mem_filter.mp hmem).1, h.polls, h.issued⟩
  | forget accountName => exact ⟨h.awaited, h.jobs, h.polls, h.issued⟩
  | available available => exact ⟨h.awaited, h.jobs, h.polls, h.issued⟩
  | clear => exact ⟨h.awaited, h.jobs, h.polls, h.issued⟩
  | refused hjob => exact absurd hjob hjobs
  | empty accountName hjob => exact absurd hjob hjobs
  | token accountName refreshToken hjob => exact absurd hjob hjobs
  | authenticated rows rows' hrows htoken => exact ⟨h.awaited, h.jobs, h.polls, h.issued⟩
  | logon hstatus =>
      refine ⟨h.awaited, h.jobs, ?_, h.issued⟩
      rw [polls, List.filter_append]
      exact (List.append_nil _).trans h.polls

theorem Moves.pollLost {id : UInt64} (hid : id ≠ 0) {sent : List Message}
    {issued : List (String × String)} {view view' : LoginView} (hmoves : Moves view view')
    (h : PollLost id sent issued view) : PollLost id sent issued view' := by
  induction hmoves with
  | refl => exact h
  | tail _ hlast ih => exact hlast.pollLost hid ih

theorem LoginMove.pollLost {id : UInt64} {sent : List Message}
    {issued : List (String × String)} {view view' : LoginView} {account : String}
    (hmove : LoginMove view account view') (h : PollLost id sent issued view) :
    PollLost id sent issued view' := by
  cases hmove with
  | same => exact h
  | thrown token hfor => exact ⟨h.awaited, h.jobs, h.polls, h.issued⟩
  | waiting token hfor => exact ⟨h.awaited, h.jobs, h.polls, h.issued⟩
  | expired => exact ⟨h.awaited, h.jobs, h.polls, h.issued⟩
  | authenticated token hfor htoken => exact ⟨h.awaited, h.jobs, h.polls, h.issued⟩

theorem step_pollLost {id : UInt64} (hid : id ≠ 0) {sent : List Message}
    {issued : List (String × String)} (client : LoginClient) (event : LoginEvent)
    (client' : LoginClient) (h : PollLost id sent issued client.view) (_ : True)
    (hstep : wire.step env client event = some client') :
    PollLost id sent issued client'.view := by
  rcases wire.step_cases env hstep with ⟨account, password, now, -, hmove⟩ | hmoves
  · exact hmove.pollLost h
  · exact Moves.pollLost hid hmoves h

/-- The awaited poll is over without its answer: its job failed, or it was completed when the
request of the login was finished. -/
def PollOver (wire : AuthWire CMsgProtoBufHeader) (env : Environment CMsgProtoBufHeader LoginState)
    (client after : LoginClient) : Prop :=
  after = LoginClient.jobFailed client.rest.pollJobID client ∨
    client.authSession.authRequestFinished = some true ∧
      ∃ msg body, msg.getTargetJobID env.jobidTarget = client.rest.pollJobID ∧
        wire.jobCompleted env msg body client = some after

theorem PollOver.eraseJob {client after : LoginClient}
    (hjobs : ∀ job ∈ client.rest.jobs,
      job.kind = .pollAuthSessionStatus ↔ job.id = client.rest.pollJobID)
    (h : PollOver wire env client after) :
    after.view = client.view ∧ client.findJob client.rest.pollJobID = none ∨
      after.view =
        { client.view with
          jobs := client.view.jobs.filter fun job => job.id ≠ client.rest.pollJobID } := by
  rcases h with rfl | ⟨hfinished, msg, body, htarget, hcompleted⟩
  · rw [LoginClient.jobFailed]
    split
    · next hfind => exact .inl ⟨rfl, hfind⟩
    · exact .inr rfl
  · rw [AuthWire.jobCompleted, htarget] at hcompleted
    split at hcompleted
    · next hfind =>
      cases hcompleted
      exact .inl ⟨rfl, hfind⟩
    · next job hfind =>
      have hid : job.id = client.rest.pollJobID := by simpa using List.find?_some hfind
      have hkind : job.kind = .pollAuthSessionStatus :=
        (hjobs job (List.mem_of_find?_eq_some hfind)).mpr hid
      have hcallback : wire.callback env client job msg body = some client := by
        rw [AuthWire.callback, hkind]
        dsimp only
        rw [AuthWire.onPollAuthSessionStatusResponse, hfinished]
      rw [hcallback] at hcompleted
      cases hcompleted
      rw [← hid]
      exact .inr rfl

/-- A client that polls. -/
def polling : LoginClient :=
  { freshClient {} with
    authSession := ⟨"a", "", "p", some false, .pollingAuthSessionStatus⟩
    rest :=
      { jobs := [⟨5, .pollAuthSessionStatus, 0⟩], pollJobID := 5, allowedConfirmations := [4] } }

/-- A call of `Login` that repeats the last one before the session is given up, or one without a
token at hand or in the database. -/
def NoToken (client : LoginClient) : LoginEvent → Prop
  | .login account password _ =>
      (client.authSession.accountName = account ∧ client.authSession.password = password ∧
          client.status ≠ .unauthorized) ∨
        client.authSession.refreshToken = "" ∧ client.rest.database.cachedToken account = none
  | _ => True

/-- The logons among the messages. -/
def logons (sent : List Message) : List Message :=
  sent.filter fun message =>
    match message with
    | .clientLogon _ _ => true
    | _ => false

/-- The session is not authenticated, and no table takes a token. -/
structure NeverLogon (sent : List Message) (view : LoginView) : Prop where
  status : view.status ≠ .authenticated
  steamUser : view.database.steamUser = none
  logons : logons view.sent = sent

theorem logons_append_of_plain (sent : List Message) {message : Message} (h : message.Plain) :
    logons (sent ++ [message]) = logons sent := by
  rw [logons, List.filter_append, logons]
  cases message <;> first | exact List.append_nil _ | exact h.elim

theorem Move.neverLogon {sent : List Message} {view view' : LoginView} (hmove : Move view view')
    (h : NeverLogon sent view) : NeverLogon sent view' := by
  cases hmove with
  | status status hstatus => exact ⟨hstatus, h.steamUser, h.logons⟩
  | message message hplain =>
      exact ⟨h.status, h.steamUser, (logons_append_of_plain view.sent hplain).trans h.logons⟩
  | job job hjob => exact ⟨h.status, h.steamUser, h.logons⟩
  | poll job clientID requestID jobs hzero =>
      refine ⟨h.status, h.steamUser, ?_⟩
      rw [logons, List.filter_append]
      exact (List.append_nil _).trans h.logons
  | drop removed => exact ⟨h.status, h.steamUser, h.logons⟩
  | forget accountName => exact ⟨h.status, h.steamUser, h.logons⟩
  | available available => exact ⟨h.status, h.steamUser, h.logons⟩
  | clear => exact ⟨nofun, h.steamUser, h.logons⟩
  | refused hjob => exact ⟨h.status, h.steamUser, h.logons⟩
  | empty accountName hjob => exact ⟨h.status, h.steamUser, h.logons⟩
  | token accountName refreshToken hjob => exact ⟨h.status, h.steamUser, h.logons⟩
  | authenticated rows rows' hrows htoken =>
      rw [h.steamUser] at hrows
      cases hrows
  | logon hstatus => exact absurd hstatus h.status

theorem Moves.neverLogon {sent : List Message} {view view' : LoginView}
    (hmoves : Moves view view') (h : NeverLogon sent view) : NeverLogon sent view' := by
  induction hmoves with
  | refl => exact h
  | tail _ hlast ih => exact hlast.neverLogon ih

theorem LoginMove.neverLogon {sent : List Message} {view view' : LoginView} {account : String}
    (hmove : LoginMove view account view') (h : NeverLogon sent view)
    (hempty : view.refreshToken = "") (hcached : view.database.cachedToken account = none) :
    NeverLogon sent view' := by
  cases hmove with
  | same => exact h
  | thrown token hfor => exact ⟨h.status, h.steamUser, h.logons⟩
  | waiting token hfor => exact ⟨nofun, h.steamUser, h.logons⟩
  | expired => exact ⟨nofun, h.steamUser, h.logons⟩
  | authenticated token hfor htoken =>
      rcases hfor with hsome | ⟨rfl, -⟩
      · rw [hcached] at hsome
        cases hsome
      · exact absurd hempty htoken

theorem step_neverLogon {sent : List Message} (client : LoginClient) (event : LoginEvent)
    (client' : LoginClient) (h : NeverLogon sent client.view) (hok : NoToken client event)
    (hstep : wire.step env client event = some client') : NeverLogon sent client'.view := by
  rcases wire.step_cases env hstep with ⟨account, password, now, rfl, hmove⟩ | hmoves
  · rcases hok with ⟨haccount, hpassword, hstatus⟩ | ⟨hempty, hcached⟩
    · cases hstep
      rw [wire.login_repeated haccount hpassword hstatus now]
      exact h
    · exact hmove.neverLogon h hempty hcached
  · exact Moves.neverLogon hmoves h

end Utilpp.Steam

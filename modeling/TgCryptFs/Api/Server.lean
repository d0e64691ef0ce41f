import TgCryptFs.Api.Routes
import TgCryptFs.Cli.KeyRecovery
import TgCryptFs.Deadman.DeadmanService

set_option autoImplicit false

/-!
# The API server

A request that a handler was found for is a task from then on. A handler runs from one await to
the next without any other, and at each of them it sees the state as all others have left it. The
requests to open, close and delete volumes are under way in `Api`.
-/
namespace TgCryptFs
open Library

structure VolumeSummary where
  volumeId : String
  displayName : String
  createdAt : ℤ
  mounted : Bool
  mountPoint : Option String
  blockCount : ℕ
  totalSize : ℕ
deriving DecidableEq

def Json.natural (n : ℕ) : Json := .number (.posInt n.toUInt64)

def Json.integer (n : ℤ) : Json :=
  if h : -2 ^ 63 ≤ n ∧ n < 0 then .number (.negInt n h) else Json.natural n.toNat

def VolumeSummary.toJson (v : VolumeSummary) : Json :=
  .object [("volume_id", .string v.volumeId), ("display_name", .string v.displayName),
    ("created_at", .integer v.createdAt), ("mounted", .bool v.mounted),
    ("mount_point", v.mountPoint.elim .null .string), ("block_count", .natural v.blockCount),
    ("total_size", .natural v.totalSize)]

/-- The map of mounted volumes is empty. -/
def VolumeService.list [ConfigCodec] (baseDir : Pieces) (fs : Fs) : Except ListError (List VolumeSummary) :=
  (listVolumes baseDir fs).map fun configs => configs.map fun config =>
    ⟨config.volumeId, config.displayName, 0, false, none, 0, 0⟩

/-- `SessionManager::list_open`: the keys are ids that have been inserted. -/
def Api.listOpen (api : Api) : List String :=
  (api.log.filterMap fun response => match response with
    | .opened session => some session.volumeId
    | _ => none).dedup.filter api.isOpen

structure SystemStatus where
  version : String
  telegramConnected : Bool
  volumesMounted : ℕ
  totalVolumes : ℕ
  cacheEntries : ℕ
  cacheSizeBytes : ℕ
  deadmanArmed : Bool
  uptimeSecs : ℕ
deriving DecidableEq

def SystemStatus.toJson (s : SystemStatus) : Json :=
  .object [("version", .string s.version), ("telegram_connected", .bool s.telegramConnected),
    ("volumes_mounted", .natural s.volumesMounted), ("total_volumes", .natural s.totalVolumes),
    ("cache_entries", .natural s.cacheEntries), ("cache_size_bytes", .natural s.cacheSizeBytes),
    ("deadman_armed", .bool s.deadmanArmed), ("uptime_secs", .natural s.uptimeSecs)]

section

variable [Primitives] [Postcard ShareRecord]

def SharingService.listShares (session : VolumeSession) (poisoned : Bool) (sql : Sql) (db : SharingDb) :
    Except ServiceError (List ShareRecord) :=
  if poisoned then .error (.internal "lock poisoned")
  else (SharingStore.listShares session.metaKey session.volumeId sql db.shares).mapError
    (.storage "list shares")

def SharingService.createShare (session : VolumeSession) (userId : String) (accessLevel : AccessLevel)
    (env : AcceptEnv) (db : SharingDb) : Except ServiceError ShareRecord × SharingDb :=
  match env.unixNow with
  | none => (.error (.internal "system clock error"), db)
  | some now =>
    let share := acceptedShare userId accessLevel now
    if env.poisoned then (.error (.internal "lock poisoned"), db)
    else
      match SharingStore.insertShare session.metaKey env.shareNonce session.volumeId share env.shareSql
        db.shares with
      | .error e => (.error (.storage "create share" e), db)
      | .ok shares => (.ok share, { db with shares })

end

def SharingService.revokeShare (poisoned : Bool) (userId : String) (sql : Sql) (db : SharingDb) :
    Except ServiceError Unit × SharingDb :=
  if poisoned then (.error (.internal "lock poisoned"), db)
  else
    match SharingStore.revokeShare userId sql db.shares with
    | .error e => (.error (.storage "revoke share" e), db)
    | .ok shares => (.ok (), { db with shares })

namespace Http

/-- The texts of the causes that errors quote, the operating system's and SQLite's among them. -/
class Causes where
  core : CoreError → String
  create : CreateError → String
  sentence : Sentence.EncodingError → String
  list : ListError → String
  delete : VolumeError → String
  row : RowError → String
  openDb : String
  removeFile : String

/-- `serde_json::from_value::<DeadmanConfig>`. -/
class DeadmanCodec where
  fromValue : Json → Except String DeadmanConfig

/-- `AppStateInner`, with the databases behind the connections of the sessions. -/
structure App where
  api : Api
  databases : Location → SharingDb
  deadman : DeadmanService
  /-- `session_path` of the Telegram configuration. -/
  sessionPath : Pieces

/-- What the world has for a handler at one of its steps. -/
structure Moment where
  /-- The database cannot be opened. -/
  fault : Bool
  uptimeSecs : ℕ
  chance : Chance
  accept : AcceptEnv
  invite : Handlers.CreateEnv
  now : ℕ
  configPath : String
  /-- What is in `deadman.json`, or the text of the error of reading it. -/
  configFile : Option (Except String DeadmanConfig)

namespace App

def fs (a : App) : Fs := a.api.fs

def withFs (a : App) (fs : Fs) : App := { a with api := { a.api with fs } }

/-- The database of the session has changed. -/
def withDatabase (a : App) (session : VolumeSession) (db : SharingDb) : App :=
  { a with databases := Function.update a.databases session.dir db }

end App

/-! ## Errors and answers -/

def ok (fields : List (String × Json)) : Response := ⟨200, some (.object fields)⟩

def created (fields : List (String × Json)) : Response := ⟨201, some (.object fields)⟩

def accepted (fields : List (String × Json)) : Response := ⟨202, some (.object fields)⟩

/-- `body.get(key).and_then(as_str)`, or the error with this text. -/
def requireStr (body : Json) (key message : String) : Except ApiError String :=
  match (body.get key).bind Json.asStr with
  | none => .error (.invalidArgument message)
  | some s => .ok s

/-- `format!("{:?}")`. -/
def debugAccess : AccessLevel → String
  | .readOnly => "ReadOnly"
  | .readWrite => "ReadWrite"
  | .admin => "Admin"

section

variable [Causes]

def sessionError : TgCryptFs.ApiError → ApiError
  | .sessionAlreadyOpen v => .sessionAlreadyOpen v
  | .sessionNotOpen v => .sessionNotOpen v
  | .volumeIsMounted v => .volumeIsMounted v
  | .crypto e => .crypto ("open volume: " ++ Causes.core e)
  | .openDb => .storage Causes.openDb
  | .deleteVolume e => .storage ("delete volume: " ++ Causes.delete e)

def serviceError : ServiceError → ApiError
  | .internal message => .internal message
  | .storage operation e => .storage (operation ++ ": " ++ Causes.row e)
  | .invalidArgument message => .invalidArgument message
  | .sessionNotOpen v => .sessionNotOpen v

def volumeError : VolumeServiceError → ApiError
  | .invalidArgument message => .invalidArgument message
  | .createVolume e => .crypto ("create volume: " ++ Causes.create e)
  | .encodeSentence e => .crypto ("encode sentence: " ++ Causes.sentence e)

/-- What the handlers `open`, `close` and `delete` answer. -/
def sessionResponse : ApiResponse → Response
  | .opened session => ok [("status", .string "opened"), ("volume_id", .string session.volumeId),
      ("display_name", .string session.displayName)]
  | .closed v => ok [("status", .string "closed"), ("volume_id", .string v)]
  | .deleted v => ok [("status", .string "deleted"), ("volume_id", .string v)]
  | .failed e => (sessionError e).intoResponse

end

def version : String := "0.1.2"

/-- `AuthService::has_session`. -/
def App.hasSession (a : App) : Bool := a.fs.existsAt a.sessionPath

section

variable [Causes]

/-- `AuthService::remove_session`. -/
def App.removeSession (a : App) : Except ApiError Unit × App :=
  if a.hasSession then
    match a.fs.removeFile a.sessionPath with
    | none => (.error (.io Causes.removeFile), a)
    | some fs => (.ok (), a.withFs fs)
  else (.ok (), a)

/-! ## Handlers that answer at once -/

def loginStart (a : App) : Response :=
  if a.hasSession then ok [("status", .string "authenticated")]
  else ok [("status", .string "not_authenticated"),
    ("message", .string "Use the CLI `tgcryptfs auth login` for interactive authentication")]

def authStatus (a : App) : Response := ok [("authenticated", .bool a.hasSession)]

def logout (a : App) : Response × App :=
  match a.removeSession with
  | (.error e, a) => (e.intoResponse, a)
  | (.ok _, a) => (ok [("status", .string "logged_out")], a)

structure CreateVolumeRequest where
  name : Option String
  password : String
  blockSize : Option ℕ

/-- The value of a field, if it is there. A field that is there twice is refused. -/
def uniqueField (fields : List (String × Json)) (key : String) : Option (Option Json) :=
  match fields.filter fun field => field.1 = key with
  | [] => some none
  | [field] => some (some field.2)
  | _ => none

def optionalString : Option Json → Option (Option String)
  | none | some .null => some none
  | some (.string s) => some (some s)
  | some _ => none

def optionalSize : Option Json → Option (Option ℕ)
  | none | some .null => some none
  | some (.number (.posInt n)) => some (some n.toNat)
  | some _ => none

/-- The derived `Deserialize`: from an object, or from a sequence of all fields. -/
def CreateVolumeRequest.fromValue : Json → Option CreateVolumeRequest
  | .object fields => do
    let name ← (uniqueField fields "name").bind optionalString
    let password ← ((← uniqueField fields "password").bind Json.asStr)
    let blockSize ← (uniqueField fields "block_size").bind optionalSize
    return ⟨name, password, blockSize⟩
  | .array [name, password, blockSize] => do
    return ⟨← optionalString (some name), ← password.asStr, ← optionalSize (some blockSize)⟩
  | _ => none

/-- The body of a request, or the answer to a body that is no JSON. -/
def withJson (body : Except ℕ Json) (a : App) (handler : Json → Response × App) : Response × App :=
  match body with
  | .error status => (⟨status, none⟩, a)
  | .ok json => handler json

section

variable [Primitives] [KeyDerivation] [ConfigCodec]

def createVolume (m : Moment) (body : Except ℕ Json) (a : App) : Response × App :=
  withJson body a fun json =>
    match CreateVolumeRequest.fromValue json with
    | none => (⟨422, none⟩, a)
    | some request =>
      match VolumeService.create m.chance request.name request.password a.api.baseDir a.fs with
      | (.error e, fs) => ((volumeError e).intoResponse, a.withFs fs)
      | (.ok response, fs) =>
        (created [("volume_id", .string response.volumeId), ("display_name", .string response.displayName),
          ("sentence_ref", .string response.sentenceRef)], a.withFs fs)

end

def mount (volumeId : String) (body : Except ℕ Json) (a : App) : Response × App :=
  withJson body a fun json =>
    match requireStr json "password" "password is required",
      requireStr json "mount_point" "mount_point is required" with
    | .error e, _ => (e.intoResponse, a)
    | .ok _, .error e => (e.intoResponse, a)
    | .ok _, .ok _ =>
      if a.api.isOpen volumeId then
        (accepted [("status", .string "mounting"), ("volume_id", .string volumeId), ("message", .string
          "Mount operation accepted. Use GET /api/v1/volumes/:id to check status.")], a)
      else ((ApiError.sessionNotOpen volumeId).intoResponse, a)

def unmount (volumeId : String) (a : App) : Response :=
  if a.api.isOpen volumeId then
    ok [("status", .string "unmounting"), ("volume_id", .string volumeId),
      ("message", .string "Unmount operation started.")]
  else (ApiError.sessionNotOpen volumeId).intoResponse

/-- `sessions.get`, and a call of the service on the session's database. -/
def withSession {α : Type} (a : App) (volumeId : String)
    (call : VolumeSession → SharingDb → Except ServiceError α × SharingDb) (answer : α → Response) :
    Response × App :=
  match a.api.sessions volumeId with
  | none => ((ApiError.sessionNotOpen volumeId).intoResponse, a)
  | some session =>
    match call session (a.databases session.dir) with
    | (.error e, db) => ((serviceError e).intoResponse, a.withDatabase session db)
    | (.ok x, db) => (answer x, a.withDatabase session db)

section

variable [Primitives] [Postcard ShareRecord]

def listShares (volumeId : String) (m : Moment) (a : App) : Response × App :=
  withSession a volumeId
    (fun session db => (SharingService.listShares session m.accept.poisoned m.accept.shareSql db, db))
    fun shares => ok [("volume_id", .string volumeId), ("shares", .array (shares.map fun s =>
      .object [("user_id", .string s.userId), ("display_name", .string s.displayName),
        ("access_level", .string (debugAccess s.accessLevel)), ("granted_at", .integer s.grantedAt),
        ("active", .bool s.active)]))]

def createShare (m : Moment) (body : Except ℕ Json) (a : App) : Response × App :=
  withJson body a fun json =>
    match requireStr json "volume_id" "volume_id is required",
      requireStr json "user_id" "user_id is required" with
    | .error e, _ => (e.intoResponse, a)
    | .ok _, .error e => (e.intoResponse, a)
    | .ok volumeId, .ok userId =>
      let access := ((json.get "access_level").bind Json.asStr).getD "read-only"
      match Handlers.accessLevel access with
      | none => ((ApiError.invalidArgument ("invalid access level: " ++ access)).intoResponse, a)
      | some level =>
        withSession a volumeId (fun session => SharingService.createShare session userId level m.accept)
          fun share => created [("status", .string "created"), ("volume_id", .string volumeId),
            ("user_id", .string share.userId), ("access_level", .string (debugAccess share.accessLevel)),
            ("granted_at", .integer share.grantedAt)]

end

def revokeShare (userId : String) (m : Moment) (body : Except ℕ Json) (a : App) : Response × App :=
  withJson body a fun json =>
    match requireStr json "volume_id" "volume_id is required in body" with
    | .error e => (e.intoResponse, a)
    | .ok volumeId =>
      withSession a volumeId
        (fun _ => SharingService.revokeShare m.accept.poisoned userId m.accept.shareSql)
        fun _ => ok [("status", .string "revoked"), ("user_id", .string userId),
          ("volume_id", .string volumeId)]

section

variable [Primitives] [Postcard ShareRecord] [Postcard Invite]

def createInvite (m : Moment) (body : Except ℕ Json) (a : App) : Response × App :=
  withJson body a fun json =>
    let session := ((json.get "volume_id").bind Json.asStr).bind a.api.sessions
    let db := session.elim ⟨Table.empty, Table.empty⟩ fun session => a.databases session.dir
    match Handlers.createInvite a.api.sessions json m.invite db with
    | (.error e, db) => ((serviceError e).intoResponse, session.elim a fun session => a.withDatabase session db)
    | (.ok invite, db) =>
      (created [("invite_id", .string invite.inviteId), ("volume_id", .string invite.volumeId),
        ("access_level", .string (debugAccess invite.accessLevel)), ("max_uses", .natural invite.maxUses.toNat),
        ("expires_at", .integer invite.expiresAt)],
        session.elim a fun session => a.withDatabase session db)

def acceptInvite (inviteId : String) (m : Moment) (body : Except ℕ Json) (a : App) : Response × App :=
  withJson body a fun json =>
    match requireStr json "volume_id" "volume_id is required",
      requireStr json "user_id" "user_id is required" with
    | .error e, _ => (e.intoResponse, a)
    | .ok _, .error e => (e.intoResponse, a)
    | .ok volumeId, .ok userId =>
      withSession a volumeId (fun session => SharingService.acceptInvite session inviteId userId m.accept)
        fun share => ok [("status", .string "accepted"), ("invite_id", .string inviteId),
          ("user_id", .string share.userId), ("access_level", .string (debugAccess share.accessLevel))]

end

def deadmanStatus (m : Moment) (a : App) : Response :=
  let status := a.deadman.status m.configPath m.configFile.isSome
  ok [("configured", .bool status.configured), ("armed", .bool status.armed),
    ("check_interval_secs", .natural status.checkIntervalSecs),
    ("grace_period_secs", .natural status.gracePeriodSecs), ("trigger_count", .natural status.triggerCount),
    ("config_path", .string status.configPath)]

/-- `DeadmanConfig::default()`. -/
def defaultConfig : DeadmanConfig := ⟨false, 300, 60, 3, [], default⟩

def loadConfigFromDisk (m : Moment) : Except ApiError DeadmanConfig :=
  match m.configFile with
  | none => .ok defaultConfig
  | some (.error message) => .error (.internal message)
  | some (.ok config) => .ok config

/-- A body that is no JSON counts as none. -/
def armConfig [DeadmanCodec] (m : Moment) (body : Except ℕ Json) : Except ApiError DeadmanConfig :=
  match body.toOption.bind fun json => json.get "config" with
  | none => loadConfigFromDisk m
  | some json =>
    match DeadmanCodec.fromValue json with
    | .error e => .error (.invalidArgument ("invalid config: " ++ e))
    | .ok config => .ok config

def arm [DeadmanCodec] (m : Moment) (body : Except ℕ Json) (a : App) : Response × App :=
  match armConfig m body with
  | .error e => (e.intoResponse, a)
  | .ok config =>
    match a.deadman.arm config m.now a.fs with
    | (.error e, deadman) => ((serviceError e).intoResponse, { a with deadman })
    | (.ok _, deadman) => (ok [("status", .string "armed"), ("message", .string
        "Deadman switch armed. Daemon running in background.")], { a with deadman })

def disarm (a : App) : Response × App :=
  match a.deadman.disarm with
  | (.error e, deadman) => ((serviceError e).intoResponse, { a with deadman })
  | (.ok _, deadman) => (ok [("status", .string "disarmed"), ("message", .string
      "Deadman switch disarmed. Daemon will stop at next check.")], { a with deadman })

end

/-! ## Tasks -/

/-- Where `system::status` is, with what it has counted. -/
inductive StatusPc where
  | volumes
  | sessions (total : ℕ)
  | cache (total mounted : ℕ)
  | deadman (total mounted : ℕ)
deriving DecidableEq

/-- Where `volume::info` is. -/
inductive InfoPc where
  | volumes
  | isOpen (summary : VolumeSummary)
  | get (summary : VolumeSummary)
deriving DecidableEq

inductive Task where
  /-- A request to open, close or delete a volume, under way in `Api`. -/
  | session
  | status (pc : StatusPc)
  /-- `volume::list`, with the volumes it has read. -/
  | list (volumes : Option (List VolumeSummary))
  | info (volumeId : String) (pc : InfoPc)
  /-- A handler that answers at once. -/
  | once (endpoint : Endpoint) (body : Except ℕ Json)

inductive Outcome where
  | goesOn (task : Task)
  | answers (response : Response)

section

variable [Primitives] [KeyDerivation] [ConfigCodec] [Causes]

def listError (e : ListError) : ApiError := .storage ("list volumes: " ++ Causes.list e)

/-- `system::status`. The cache is not counted yet. -/
def statusStep (m : Moment) (a : App) : StatusPc → Outcome
  | .volumes =>
    .goesOn (.status (.sessions ((VolumeService.list a.api.baseDir a.fs).toOption.getD []).length))
  | .sessions total => .goesOn (.status (.cache total a.api.listOpen.length))
  | .cache total mounted => .goesOn (.status (.deadman total mounted))
  | .deadman total mounted =>
    .answers ⟨200, some (SystemStatus.toJson
      ⟨version, a.hasSession, mounted, total, 0, 0, a.deadman.isArmed, m.uptimeSecs⟩)⟩

def listStep (a : App) : Option (List VolumeSummary) → Outcome
  | none =>
    match VolumeService.list a.api.baseDir a.fs with
    | .error e => .answers (listError e).intoResponse
    | .ok volumes => .goesOn (.list (some volumes))
  | some volumes =>
    .answers ⟨200, some (.array (volumes.map fun v =>
      if v.volumeId ∈ a.api.listOpen then { v with mounted := true }.toJson else v.toJson))⟩

/-- A session is never at a mount point. -/
def infoStep (volumeId : String) (a : App) : InfoPc → Outcome
  | .volumes =>
    match VolumeService.list a.api.baseDir a.fs with
    | .error e => .answers (listError e).intoResponse
    | .ok volumes =>
      match volumes.find? fun v => v.volumeId = volumeId with
      | none => .answers (ApiError.volumeNotFound volumeId).intoResponse
      | some summary => .goesOn (.info volumeId (.isOpen summary))
  | .isOpen summary =>
    if a.api.isOpen volumeId then .goesOn (.info volumeId (.get { summary with mounted := true }))
    else .answers ⟨200, some summary.toJson⟩
  | .get summary => .answers ⟨200, some { summary with
      mountPoint := if a.api.isOpen volumeId then none else summary.mountPoint }.toJson⟩

variable [Postcard ShareRecord] [Postcard Invite] [DeadmanCodec]

/-- The other endpoints do not come here. -/
def respond (endpoint : Endpoint) (body : Except ℕ Json) (m : Moment) (a : App) : Response × App :=
  match endpoint with
  | .version => (ok [("version", .string version)], a)
  | .loginStart => (loginStart a, a)
  | .logout => logout a
  | .authStatus => (authStatus a, a)
  | .createVolume => createVolume m body a
  | .mount volumeId => mount volumeId body a
  | .unmount volumeId => (unmount volumeId a, a)
  | .listShares volumeId => listShares volumeId m a
  | .createShare => createShare m body a
  | .revokeShare userId => revokeShare userId m body a
  | .createInvite => createInvite m body a
  | .acceptInvite inviteId => acceptInvite inviteId m body a
  | .deadmanStatus => (deadmanStatus m a, a)
  | .arm => arm m body a
  | .disarm => disarm a
  | .status | .listVolumes | .info _ | .openVolume _ | .closeVolume _ | .deleteVolume _ => (⟨500, none⟩, a)

/-- The directory where opening the database makes a new file. -/
def newDatabase (api : Api) (client : ℕ) : Option Location :=
  match api.requests client with
  | some (.open _ _ (.database result)) =>
    (api.fs.resolve result.paths.baseDir).filter fun d => (api.fs.kind (d ++ ["metadata.db"])).isNone
  | _ => none

/-- The request of the client goes on in `Api`. -/
def sessionStep (noise : Noise) (client : ℕ) (m : Moment) (a : App) : Outcome × App :=
  let api := a.api.step noise (.advance client m.fault)
  let databases := match newDatabase a.api client with
    | some d => if api.connections = a.api.connections then a.databases
      else Function.update a.databases d ⟨Table.empty, Table.empty⟩
    | none => a.databases
  let outcome := match api.requests client, api.log with
    | none, response :: _ => .answers (sessionResponse response)
    | _, _ => .goesOn .session
  (outcome, { a with api, databases })

def Task.run (noise : Noise) (client : ℕ) (m : Moment) (a : App) : Task → Outcome × App
  | .session => sessionStep noise client m a
  | .status pc => (statusStep m a pc, a)
  | .list volumes => (listStep a volumes, a)
  | .info volumeId pc => (infoStep volumeId a pc, a)
  | .once endpoint body =>
    match respond endpoint body m a with
    | (response, a) => (.answers response, a)

end

/-! ## The server -/

/-- A client is a connection, with one request at a time. -/
structure Server where
  auth : BearerAuth
  app : App
  tasks : ℕ → Option Task
  /-- What each client has been answered, the last first. -/
  answers : ℕ → List Response

/-- What clients do, and what changes the files, the databases and the daemons besides. -/
inductive ServerEvent where
  | request (client : ℕ) (r : Request)
  /-- The handler of the client's request goes on. -/
  | advance (client : ℕ) (m : Moment)
  | files (change : Fs → Fs)
  | database (d : Location) (change : SharingDb → SharingDb)
  | daemon (run : ℕ) (change : Daemon → Daemon)

namespace Server

def answer (s : Server) (client : ℕ) (response : Response) : Server :=
  { s with
    tasks := Function.update s.tasks client none
    answers := Function.update s.answers client (response :: s.answers client) }

def continueWith (s : Server) (client : ℕ) (task : Task) : Server :=
  { s with tasks := Function.update s.tasks client (some task) }

section

variable [Primitives] [KeyDerivation] [ConfigCodec] [Causes]

/-- The request becomes one of `Api`. -/
def enter (s : Server) (noise : Noise) (client : ℕ) (e : ApiEvent) : Server :=
  { s with app := { s.app with api := s.app.api.step noise e } }.continueWith client .session

/-- The handler is called with the body of the request. -/
def call (s : Server) (noise : Noise) (client : ℕ) (body : Except ℕ Json) : Endpoint → Server
  | .status => s.continueWith client (.status .volumes)
  | .listVolumes => s.continueWith client (.list none)
  | .info volumeId => s.continueWith client (.info volumeId .volumes)
  | .openVolume volumeId =>
    match body with
    | .error status => s.answer client ⟨status, none⟩
    | .ok json =>
      match requireStr json "password" "password is required" with
      | .error e => s.answer client e.intoResponse
      | .ok password => s.enter noise client (.open client volumeId password)
  | .closeVolume volumeId => s.enter noise client (.close client volumeId)
  | .deleteVolume volumeId => s.enter noise client (.delete client volumeId)
  | endpoint => s.continueWith client (.once endpoint body)

variable [Postcard ShareRecord] [Postcard Invite] [DeadmanCodec]

def step (noise : Noise) : ServerEvent → Server → Server
  | .request client r, s =>
    match s.tasks client with
    | some _ => s
    | none =>
      match dispatch (some s.auth) r with
      | .error response => s.answer client response
      | .ok endpoint => s.call noise client r.body endpoint
  | .advance client m, s =>
    match s.tasks client with
    | none => s
    | some task =>
      match task.run noise client m s.app with
      | (.goesOn task, app) => { s with app }.continueWith client task
      | (.answers response, app) => { s with app }.answer client response
  | .files change, s => { s with app := s.app.withFs (change s.app.fs) }
  | .database d change, s =>
    { s with app := { s.app with databases := Function.update s.app.databases d (change (s.app.databases d)) } }
  | .daemon run change, s =>
    { s with app := { s.app with deadman :=
      { s.app.deadman with runs := s.app.deadman.runs.modify run change } } }

end
end Server

section

open scoped Sample SampleVolume
open SampleVolume

namespace SampleServer

scoped instance causes : Causes where
  core _ := ""
  create _ := ""
  sentence _ := ""
  list _ := ""
  delete _ := ""
  row _ := ""
  openDb := ""
  removeFile := ""

scoped instance deadmanCodec : DeadmanCodec where
  fromValue _ := .ok defaultConfig

def noise : Noise := fun _ _ _ => 0

/-- A server for an unused directory. -/
noncomputable def server (token : String) : Server where
  auth := .new token
  app := ⟨Api.start ["", "v"] unusedDisk, fun _ => ⟨Table.empty, Table.empty⟩, .new, ["", "s"]⟩
  tasks _ := none
  answers _ := []

def moment : Moment where
  fault := false
  uptimeSecs := 5
  chance := chance
  accept := ⟨false, 7, some 7, Sample.zeroNonce, Sample.zeroNonce, .working, .working⟩
  invite := ⟨false, "i", 7, Sample.zeroNonce, .working⟩
  now := 7
  configPath := ""
  configFile := none

end SampleServer

end

end Http
end TgCryptFs

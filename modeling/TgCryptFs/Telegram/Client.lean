import TgCryptFs.Core.Crypto
import TgCryptFs.Library.Pool
import TgCryptFs.Library.Words

set_option autoImplicit false

/-!
# The Telegram client and its callers

Any number of calls on one `TelegramClient`. A call is polled up to its first await when it
comes in; after that each stretch between two awaits is one action. What grammers returns to
the requests of a stretch is a `Network`, and a call may be dropped at any await.
-/
namespace TgCryptFs
open Library

inductive TelegramError where
  | notConnected
  | authRequired
  | upload (text : String)
  | download (text : String)
  | messageNotFound (messageId : ℤ)
  | delete (text : String)
  | blockTooLarge (size max : ℕ)
  | session (text : String)
  | rateLimited (seconds : ℕ)
  | api (text : String)
  | io (text : String)
deriving DecidableEq, Repr

structure TelegramConfig where
  apiId : ℤ := 0
  apiHash : String := ""
  sessionPath : String := "tgcryptfs.session"
  maxUploadSize : ℕ := 50 * 1024 * 1024
  maxConcurrentUploads : ℕ := 3
  maxConcurrentDownloads : ℕ := 5
  maxRetries : ℕ := 3
  retryBaseDelayMs : ℕ := 1000
deriving DecidableEq, Repr

structure UploadResult where
  messageId : ℤ
  size : ℕ
deriving DecidableEq, Repr

structure DownloadResult where
  data : Bytes
  messageId : ℤ
deriving DecidableEq, Repr

inductive AuthState where
  | notAuthenticated | awaitingCode | awaitingPassword | authenticated
deriving DecidableEq, Repr

structure TransportStats where
  blocksUploaded : ℕ := 0
  blocksDownloaded : ℕ := 0
  bytesUploaded : ℕ := 0
  bytesDownloaded : ℕ := 0
  uploadErrors : ℕ := 0
  downloadErrors : ℕ := 0
  messagesDeleted : ℕ := 0
deriving DecidableEq, Repr

structure LoginToken where
  phone : String
  codeHash : String
deriving DecidableEq, Repr

structure PasswordToken where
  serial : ℕ
deriving DecidableEq, Repr

/-! ## What grammers returns -/

/-- A message of the account, with the content of its document. -/
structure SavedMessage where
  id : ℤ
  media : Option Bytes
deriving DecidableEq, Repr

inductive SignInAnswer where
  | user
  | passwordRequired (token : PasswordToken)
  | invalidCode
  | failed (text : String)
deriving DecidableEq, Repr

structure Network where
  loadSession : Except String Unit
  connect : Except String Unit
  isAuthorized : Except String Bool
  requestLoginCode : Except String LoginToken
  signIn : SignInAnswer
  checkPassword : Except String Unit
  saveToFile : Except String Unit
  uploadStream : Except String Unit
  getMe : Except String Unit
  sendMessage : Except String ℤ
  /-- What the iterators yield until they end. -/
  iterMessages : List (Except String SavedMessage)
  iterDownload : Bytes → List (Except String Bytes)
  deleteMessages : Except String Unit

/-! ## Under the lock on `inner` -/

def doUpload (net : Network) (inner : Bool) (data : Bytes) : Except TelegramError UploadResult :=
  if inner then do
    net.uploadStream.mapError fun e => .upload s!"upload stream: {e}"
    net.getMe.mapError fun e => .api s!"get_me: {e}"
    let id ← net.sendMessage.mapError fun e => .upload s!"send document: {e}"
    return { messageId := id, size := data.length }
  else .error .notConnected

/-- The search of `do_download`: the messages come newest first, and behind an older one than
    the wanted there is nothing to find. -/
def findMessage (messageId : ℤ) :
    List (Except String SavedMessage) → Except TelegramError (Option SavedMessage)
  | [] => .ok none
  | .error e :: _ => .error (.download s!"iter messages: {e}")
  | .ok msg :: rest =>
    if msg.id = messageId then .ok (some msg)
    else if msg.id < messageId then .ok none
    else findMessage messageId rest

def collectChunks : List (Except String Bytes) → Bytes → Except TelegramError Bytes
  | [], data => .ok data
  | .error e :: _, _ => .error (.download s!"download chunk: {e}")
  | .ok chunk :: rest, data => collectChunks rest (data ++ chunk)

def doDownload (net : Network) (inner : Bool) (messageId : ℤ) :
    Except TelegramError DownloadResult :=
  if inner then do
    net.getMe.mapError fun e => .api s!"get_me: {e}"
    let target ← findMessage messageId net.iterMessages
    let msg ← target.elim (.error (.messageNotFound messageId)) .ok
    let media ← msg.media.elim (.error (.download "message has no media")) .ok
    let data ← collectChunks (net.iterDownload media) []
    return { data := data, messageId := messageId }
  else .error .notConnected

def doDelete (net : Network) (inner : Bool) : Except TelegramError Unit :=
  if inner then do
    net.getMe.mapError fun e => .api s!"get_me: {e}"
    net.deleteMessages.mapError fun e => .delete s!"delete: {e}"
  else .error .notConnected

/-- `id as i32`: what `do_delete` asks to delete. -/
def wrapI32 (id : ℤ) : ℤ := id.bmod (2 ^ 32)

/-! ## The client -/

/-- The fields of the client. A semaphore is its free permits; `locked` is the mutex of
    `inner`, and `inner` says that there is a client in it. -/
structure TelegramClient where
  config : TelegramConfig
  uploadPermits : ℕ
  downloadPermits : ℕ
  stats : TransportStats
  connected : Bool
  inner : Bool
  locked : Bool
  passwordToken : Option PasswordToken
deriving DecidableEq, Repr

inductive TelegramCall where
  | connect
  | requestLoginCode (phone : String)
  | signIn (token : LoginToken) (code : String)
  | checkPassword (password : String)
  | saveSession
  | uploadBlock (data : Bytes) (filename : String)
  | downloadBlock (messageId : ℤ)
  | deleteMessage (messageId : ℤ)
  | deleteMessages (messageIds : List ℤ)
deriving DecidableEq, Repr

inductive TelegramReply where
  | auth (state : AuthState)
  | loginToken (token : LoginToken)
  | saved
  | uploaded (r : UploadResult)
  | downloaded (r : DownloadResult)
  | deleted
deriving DecidableEq, Repr

/-- The two semaphores, and the counters that go with each. -/
inductive Direction where
  | upload | download
deriving DecidableEq, Repr

/-- Where a call is, with the number of its attempts that failed. -/
inductive TelegramPhase where
  /-- `connect`: on the network. -/
  | connecting
  /-- `connect`: comes to store its client in `inner`. -/
  | storing (authorized : Bool)
  /-- Comes for a permit. -/
  | queued
  /-- Comes for the lock on `inner`. -/
  | waiting (failures : ℕ)
  | working (failures : ℕ)
  | sleeping (failures : ℕ) (delayMs : ℕ)
  | returned (failures : ℕ) (result : Except TelegramError TelegramReply)
  | panicked (failures : ℕ)
  | dropped (failures : ℕ)

structure TelegramTask where
  call : TelegramCall
  phase : TelegramPhase

inductive TelegramAction where
  | acquire
  | lock
  | answer (net : Network)
  | wake
  | drop

namespace TelegramCall

def direction : TelegramCall → Option Direction
  | uploadBlock _ _ => some .upload
  | downloadBlock _ => some .download
  | _ => none

end TelegramCall

namespace TelegramPhase

def failures : TelegramPhase → ℕ
  | connecting | storing _ | queued => 0
  | waiting n | working n | sleeping n _ | returned n _ | panicked n | dropped n => n

/-- Between the permit and the end of the call. -/
def inside : TelegramPhase → Bool
  | waiting _ | working _ | sleeping _ _ => true
  | _ => false

def isWorking : TelegramPhase → Bool
  | working _ => true
  | _ => false

def finished : TelegramPhase → Bool
  | returned _ _ | panicked _ | dropped _ => true
  | _ => false

end TelegramPhase

namespace TelegramTask

/-- The permits of a semaphore that the call holds. -/
def holds (d : Direction) (t : TelegramTask) : ℕ :=
  if t.call.direction = some d ∧ t.phase.inside then 1 else 0

def takesToken (t : TelegramTask) : Bool :=
  match t.call with
  | .checkPassword _ => t.phase.isWorking
  | _ => false

end TelegramTask

namespace TransportStats

/-- `fetch_add` wraps. -/
def fetchAdd (counter n : ℕ) : ℕ := (counter + n) % 2 ^ 64

def succeed (d : Direction) (bytes : ℕ) (s : TransportStats) : TransportStats :=
  match d with
  | .upload =>
    { s with
      blocksUploaded := fetchAdd s.blocksUploaded 1
      bytesUploaded := fetchAdd s.bytesUploaded bytes }
  | .download =>
    { s with
      blocksDownloaded := fetchAdd s.blocksDownloaded 1
      bytesDownloaded := fetchAdd s.bytesDownloaded bytes }

def fail (d : Direction) (s : TransportStats) : TransportStats :=
  match d with
  | .upload => { s with uploadErrors := fetchAdd s.uploadErrors 1 }
  | .download => { s with downloadErrors := fetchAdd s.downloadErrors 1 }

end TransportStats

namespace TelegramClient

def new (config : TelegramConfig) : TelegramClient where
  config := config
  uploadPermits := config.maxConcurrentUploads
  downloadPermits := config.maxConcurrentDownloads
  stats := {}
  connected := false
  inner := false
  locked := false
  passwordToken := none

def ensureConnected (c : TelegramClient) : Except TelegramError Unit :=
  if c.connected then .ok () else .error .notConnected

def validateUploadSize (c : TelegramClient) (size : ℕ) : Except TelegramError Unit :=
  if size > c.config.maxUploadSize then .error (.blockTooLarge size c.config.maxUploadSize)
  else .ok ()

def permits (d : Direction) (c : TelegramClient) : ℕ :=
  match d with
  | .upload => c.uploadPermits
  | .download => c.downloadPermits

def withPermits (d : Direction) (n : ℕ) (c : TelegramClient) : TelegramClient :=
  match d with
  | .upload => { c with uploadPermits := n }
  | .download => { c with downloadPermits := n }

/-- A permit is dropped. -/
def returnPermit (d : Direction) (c : TelegramClient) : TelegramClient :=
  c.withPermits d (c.permits d + 1)

/-- A checked stretch of a call: it comes to `next` unless its check fails. -/
def checked (check : Except TelegramError Unit) (next : TelegramPhase) : TelegramPhase :=
  match check with
  | .error e => .returned 0 (.error e)
  | .ok () => next

/-- A call up to its first await. -/
def enter (c : TelegramClient) (call : TelegramCall) : TelegramTask where
  call := call
  phase :=
    match call with
    | .connect => .connecting
    | .requestLoginCode _ | .signIn _ _ | .checkPassword _ | .saveSession => .waiting 0
    | .uploadBlock data _ =>
      checked (do c.ensureConnected; c.validateUploadSize data.length) .queued
    | .downloadBlock _ => checked c.ensureConnected .queued
    | .deleteMessage _ | .deleteMessages _ => checked c.ensureConnected (.waiting 0)

/-- `retry_base_delay_ms * 2u64.pow(attempt)`. -/
def retryDelay (build : Overflow) (config : TelegramConfig) (attempt : ℕ) : Option ℕ :=
  (build.powU64 2 attempt).bind fun p => build.mulU64 config.retryBaseDelayMs p

/-- An attempt of `upload_block` or `download_block` has ended: with the reply and the bytes to
    count, or with an error. The last error is the one that is returned. -/
def attempted (build : Overflow) (d : Direction) (n : ℕ)
    (r : Except TelegramError (TelegramReply × ℕ)) (c : TelegramClient) :
    TelegramClient × TelegramPhase :=
  match r with
  | .ok (reply, bytes) =>
    ({ c with stats := c.stats.succeed d bytes }.returnPermit d, .returned n (.ok reply))
  | .error e =>
    let c := { c with stats := c.stats.fail d }
    if n + 1 < c.config.maxRetries then
      match retryDelay build c.config n with
      | some delay => (c, .sleeping (n + 1) delay)
      | none => (c.returnPermit d, .panicked (n + 1))
    else (c.returnPermit d, .returned (n + 1) (.error e))

def deleted (count : ℕ) (r : Except TelegramError Unit) (c : TelegramClient) :
    TelegramClient × TelegramPhase :=
  match r with
  | .ok () =>
    ({ c with
        stats := { c.stats with
          messagesDeleted := TransportStats.fetchAdd c.stats.messagesDeleted count } },
      .returned 0 (.ok .deleted))
  | .error e => (c, .returned 0 (.error e))

def saveSessionInner (net : Network) : Except TelegramError Unit :=
  net.saveToFile.mapError fun e => .session s!"save session: {e}"

/-- A login that the server has accepted. -/
def authenticated (net : Network) (c : TelegramClient) :
    TelegramClient × Except TelegramError AuthState :=
  ({ c with connected := true }, (saveSessionInner net).map fun _ => .authenticated)

def requestLoginCode (net : Network) (c : TelegramClient) : Except TelegramError LoginToken :=
  if c.inner then net.requestLoginCode.mapError fun e => .api s!"request code: {e}"
  else .error .notConnected

def signIn (net : Network) (c : TelegramClient) :
    TelegramClient × Except TelegramError AuthState :=
  if c.inner then
    match net.signIn with
    | .user => c.authenticated net
    | .passwordRequired token => ({ c with passwordToken := some token }, .ok .awaitingPassword)
    | .invalidCode => (c, .error (.api "invalid verification code"))
    | .failed e => (c, .error (.api s!"sign in: {e}"))
  else (c, .error .notConnected)

def checkPassword (net : Network) (c : TelegramClient) :
    TelegramClient × Except TelegramError AuthState :=
  if c.inner then
    match c.passwordToken with
    | none => (c, .error (.api "no cached password token (call sign_in first)"))
    | some _ =>
      match net.checkPassword with
      | .ok () => { c with passwordToken := none }.authenticated net
      | .error e =>
        ({ c with passwordToken := none }, .error (.api s!"2FA password check failed: {e}"))
  else (c, .error .notConnected)

def saveSession (net : Network) (c : TelegramClient) : Except TelegramError Unit :=
  if c.inner then saveSessionInner net else .ok ()

/-- `connect` up to the lock on `inner`: whether the session is authorized. -/
def openSession (net : Network) : Except TelegramError Bool := do
  net.loadSession.mapError fun e => .session s!"load session: {e}"
  net.connect.mapError fun e => .api s!"connect: {e}"
  net.isAuthorized.mapError fun e => .api s!"auth check: {e}"

/-- What a call does under the lock on `inner`, and how it goes on. -/
def turn (build : Overflow) (net : Network) (call : TelegramCall) (n : ℕ) (c : TelegramClient) :
    TelegramClient × TelegramPhase :=
  match call with
  | .connect => (c, .returned n (.ok (.auth .notAuthenticated)))
  | .requestLoginCode _ => (c, .returned n ((c.requestLoginCode net).map .loginToken))
  | .signIn _ _ => ((c.signIn net).1, .returned n ((c.signIn net).2.map .auth))
  | .checkPassword _ => ((c.checkPassword net).1, .returned n ((c.checkPassword net).2.map .auth))
  | .saveSession => (c, .returned n ((c.saveSession net).map fun _ => .saved))
  | .uploadBlock data _ =>
    c.attempted build .upload n
      ((doUpload net c.inner data).map fun r => (.uploaded r, data.length))
  | .downloadBlock id =>
    c.attempted build .download n
      ((doDownload net c.inner id).map fun r => (.downloaded r, r.data.length))
  | .deleteMessage _ => c.deleted 1 (doDelete net c.inner)
  | .deleteMessages ids => c.deleted ids.length (doDelete net c.inner)

def unlocked (c : TelegramClient) : TelegramClient := { c with locked := false }

/-- The guards that a dropped future gives back. `check_password` has taken its token when it
    comes to the network. -/
def unwind (t : TelegramTask) (c : TelegramClient) : TelegramClient where
  config := c.config
  uploadPermits := c.uploadPermits + t.holds .upload
  downloadPermits := c.downloadPermits + t.holds .download
  stats := c.stats
  connected := c.connected
  inner := c.inner
  locked := c.locked && !t.phase.isWorking
  passwordToken := if t.takesToken && c.inner then none else c.passwordToken

/-- The error of a call that made no attempt. -/
def exhausted : Direction → TelegramError
  | .upload => .upload "all retries exhausted"
  | .download => .download "all retries exhausted"

/-- One action of a call, where it is the next one and can be done. -/
def advance (build : Overflow) (a : TelegramAction) (c : TelegramClient) (t : TelegramTask) :
    Option (TelegramClient × TelegramTask) :=
  match a with
  | .acquire =>
    match t.phase, t.call.direction with
    | .queued, some d =>
      if c.permits d = 0 then none
      else if c.config.maxRetries = 0 then
        some (c, { t with phase := .returned 0 (.error (exhausted d)) })
      else some (c.withPermits d (c.permits d - 1), { t with phase := .waiting 0 })
    | _, _ => none
  | .lock =>
    if c.locked then none
    else
      match t.phase, t.call with
      | .waiting n, _ => some ({ c with locked := true }, { t with phase := .working n })
      | .storing authorized, .connect =>
        some ({ c with inner := true }, { t with phase := .returned 0 (.ok (.auth
          (if authorized then .authenticated else .notAuthenticated))) })
      | _, _ => none
  | .answer net =>
    match t.phase, t.call with
    | .connecting, .connect =>
      match openSession net with
      | .error e => some (c, { t with phase := .returned 0 (.error e) })
      | .ok authorized =>
        some ({ c with connected := c.connected || authorized },
          { t with phase := .storing authorized })
    | .working n, call =>
      some ((c.turn build net call n).1.unlocked, { t with phase := (c.turn build net call n).2 })
    | _, _ => none
  | .wake =>
    match t.phase with
    | .sleeping n _ => some (c, { t with phase := .waiting n })
    | _ => none
  | .drop =>
    if t.phase.finished then none
    else some (c.unwind t, { t with phase := .dropped t.phase.failures })

/-- A network on which nothing succeeds. -/
def unreachable : Network where
  loadSession := .error "unreachable"
  connect := .error "unreachable"
  isAuthorized := .error "unreachable"
  requestLoginCode := .error "unreachable"
  signIn := .failed "unreachable"
  checkPassword := .error "unreachable"
  saveToFile := .error "unreachable"
  uploadStream := .error "unreachable"
  getMe := .error "unreachable"
  sendMessage := .error "unreachable"
  iterMessages := [.error "unreachable"]
  iterDownload := fun _ => [.error "unreachable"]
  deleteMessages := .error "unreachable"

/-- One that does all that is asked, with `id` for a message that is sent. -/
def answering (id : ℤ) (messages : List SavedMessage) : Network where
  loadSession := .ok ()
  connect := .ok ()
  isAuthorized := .ok true
  requestLoginCode := .ok ⟨"", ""⟩
  signIn := .user
  checkPassword := .ok ()
  saveToFile := .ok ()
  uploadStream := .ok ()
  getMe := .ok ()
  sendMessage := .ok id
  iterMessages := messages.map .ok
  iterDownload := fun media => [.ok media]
  deleteMessages := .ok ()

/-- The states of a client and of the calls on it. -/
abbrev Reachable (build : Overflow) (config : TelegramConfig) :
    Pool TelegramClient TelegramTask → Prop :=
  Pool.Reachable enter (advance build) (new config)

end TelegramClient
end TgCryptFs

import TgCryptFs.Library.Results
import TgCryptFs.Telegram.Client

set_option autoImplicit false

/-!
# What one action of a call does

Every action of `advance` as one case, with all that it changes in the client and where the
call is after it.
-/
namespace TgCryptFs
open Library

namespace TelegramReply

/-- What the byte counters count. -/
def bytes : TelegramReply → ℕ
  | uploaded r => r.size
  | downloaded r => r.data.length
  | _ => 0

end TelegramReply

namespace TelegramCall

/-- The messages that a call asks to delete. -/
def requested : TelegramCall → List ℤ
  | deleteMessage id => [id]
  | deleteMessages ids => ids
  | _ => []

/-- The messages that a successful call counts as deleted. -/
def deletions (call : TelegramCall) : ℕ := call.requested.length

/-- The reply is one to this transfer. -/
def AnsweredBy : TelegramCall → TelegramReply → Prop
  | uploadBlock data _, reply => ∃ r, reply = .uploaded r ∧ r.size = data.length
  | downloadBlock id, reply => ∃ r, reply = .downloaded r ∧ r.messageId = id
  | _, _ => False

end TelegramCall

namespace TelegramClient

/-- What one action does to the client and to its call. -/
inductive Effect (build : Overflow) (c : TelegramClient) (call : TelegramCall) :
    TelegramPhase → TelegramClient → TelegramPhase → Prop where
  | acquired {d : Direction} (hd : call.direction = some d) (hfree : 0 < c.permits d)
      (hretry : 0 < c.config.maxRetries) :
      Effect build c call .queued (c.withPermits d (c.permits d - 1)) (.waiting 0)
  | exhausted {d : Direction} (hd : call.direction = some d) (hretry : c.config.maxRetries = 0) :
      Effect build c call .queued c (.returned 0 (.error (exhausted d)))
  | locked {n : ℕ} (hfree : c.locked = false) :
      Effect build c call (.waiting n) { c with locked := true } (.working n)
  | stored {authorized : Bool} {state : AuthState} (hcall : call = .connect)
      (hfree : c.locked = false) :
      Effect build c call (.storing authorized) { c with inner := true }
        (.returned 0 (.ok (.auth state)))
  | offline {e : TelegramError} (hcall : call = .connect) :
      Effect build c call .connecting c (.returned 0 (.error e))
  | opened {authorized : Bool} :
      Effect build c call .connecting { c with connected := c.connected || authorized }
        (.storing authorized)
  | succeeded {d : Direction} {n : ℕ} {reply : TelegramReply} (hd : call.direction = some d)
      (hreply : call.AnsweredBy reply) :
      Effect build c call (.working n)
        ({ c with stats := c.stats.succeed d reply.bytes }.returnPermit d).unlocked
        (.returned n (.ok reply))
  | retrying {d : Direction} {n ms : ℕ} (hd : call.direction = some d)
      (hmore : n + 1 < c.config.maxRetries) (hdelay : retryDelay build c.config n = some ms) :
      Effect build c call (.working n) { c with stats := c.stats.fail d }.unlocked
        (.sleeping (n + 1) ms)
  | panicked {d : Direction} {n : ℕ} (hd : call.direction = some d)
      (hmore : n + 1 < c.config.maxRetries) (hdelay : retryDelay build c.config n = none) :
      Effect build c call (.working n)
        ({ c with stats := c.stats.fail d }.returnPermit d).unlocked (.panicked (n + 1))
  | failed {d : Direction} {n : ℕ} {e : TelegramError} (hd : call.direction = some d)
      (hlast : c.config.maxRetries ≤ n + 1) :
      Effect build c call (.working n)
        ({ c with stats := c.stats.fail d }.returnPermit d).unlocked
        (.returned (n + 1) (.error e))
  | deleted {n : ℕ} (hd : call.direction = none) :
      Effect build c call (.working n)
        { c with
          stats := { c.stats with
            messagesDeleted :=
              TransportStats.fetchAdd c.stats.messagesDeleted call.deletions } }.unlocked
        (.returned 0 (.ok .deleted))
  | refused {n : ℕ} {e : TelegramError} (hd : call.direction = none) :
      Effect build c call (.working n) c.unlocked (.returned 0 (.error e))
  | answered {n : ℕ} {connected : Bool} {token : Option PasswordToken}
      {r : Except TelegramError TelegramReply} (hd : call.direction = none)
      (hdel : call.deletions = 0) :
      Effect build c call (.working n)
        { c with connected := connected, passwordToken := token }.unlocked (.returned n r)
  | woke {n ms : ℕ} : Effect build c call (.sleeping n ms) c (.waiting n)
  | dropped {phase : TelegramPhase} (h : phase.finished = false) :
      Effect build c call phase (c.unwind ⟨call, phase⟩) (.dropped phase.failures)

theorem doUpload_eq_ok {net : Network} {inner : Bool} {data : Bytes} {r : UploadResult}
    (h : doUpload net inner data = .ok r) :
    net.uploadStream = .ok () ∧ net.getMe = .ok () ∧ net.sendMessage = .ok r.messageId ∧
      r.size = data.length := by
  unfold doUpload at h
  split at h
  · obtain ⟨⟨⟩, hstream, h⟩ := bind_eq_ok.1 h
    obtain ⟨⟨⟩, hme, h⟩ := bind_eq_ok.1 h
    obtain ⟨id, hsend, h⟩ := bind_eq_ok.1 h
    cases h
    exact ⟨mapError_eq_ok.1 hstream, mapError_eq_ok.1 hme, mapError_eq_ok.1 hsend, rfl⟩
  · cases h

theorem doDownload_eq_ok {net : Network} {inner : Bool} {id : ℤ} {r : DownloadResult}
    (h : doDownload net inner id = .ok r) :
    r.messageId = id ∧ ∃ msg media, findMessage id net.iterMessages = .ok (some msg) ∧
      msg.media = some media ∧ collectChunks (net.iterDownload media) [] = .ok r.data := by
  unfold doDownload at h
  split at h
  · obtain ⟨-, -, h⟩ := bind_eq_ok.1 h
    obtain ⟨target, hfind, h⟩ := bind_eq_ok.1 h
    obtain ⟨msg, hmsg, h⟩ := bind_eq_ok.1 h
    obtain ⟨media, hmedia, h⟩ := bind_eq_ok.1 h
    obtain ⟨data, hdata, h⟩ := bind_eq_ok.1 h
    cases h
    rw [elim_error_eq_ok.1 hmsg] at hfind
    exact ⟨rfl, msg, media, hfind, elim_error_eq_ok.1 hmedia, hdata⟩
  · cases h

section

variable {build : Overflow} {c : TelegramClient} {call : TelegramCall}

theorem effect_attempted {d : Direction} {n : ℕ} (hd : call.direction = some d)
    {r : Except TelegramError (TelegramReply × ℕ)}
    (hr : ∀ reply bytes, r = .ok (reply, bytes) → call.AnsweredBy reply ∧ bytes = reply.bytes) :
    Effect build c call (.working n) (c.attempted build d n r).1.unlocked
      (c.attempted build d n r).2 := by
  unfold attempted
  cases r with
  | ok x =>
    obtain ⟨reply, bytes⟩ := x
    obtain ⟨hreply, rfl⟩ := hr reply bytes rfl
    exact .succeeded hd hreply
  | error e =>
    dsimp only
    split
    · rename_i hmore
      cases hdelay : retryDelay build c.config n with
      | some ms => exact .retrying hd hmore hdelay
      | none => exact .panicked hd hmore hdelay
    · rename_i hlast
      exact .failed hd (Nat.le_of_not_lt hlast)

theorem effect_answered {n : ℕ} {r : Except TelegramError TelegramReply}
    (hd : call.direction = none) (hdel : call.deletions = 0) :
    Effect build c call (.working n) c.unlocked (.returned n r) := by
  have h : Effect build c call (.working n)
      { c with connected := c.connected, passwordToken := c.passwordToken }.unlocked
      (.returned n r) := .answered hd hdel
  exact h

theorem effect_deleted {n : ℕ} (hd : call.direction = none) (r : Except TelegramError Unit) :
    Effect build c call (.working n) (c.deleted call.deletions r).1.unlocked
      (c.deleted call.deletions r).2 := by
  cases r with
  | ok u => exact .deleted hd
  | error e => exact .refused hd

theorem signIn_eq (net : Network) (c : TelegramClient) :
    ∃ connected token,
      (c.signIn net).1 = { c with connected := connected, passwordToken := token } := by
  unfold signIn
  split
  · cases net.signIn with
    | user => exact ⟨true, c.passwordToken, rfl⟩
    | passwordRequired token => exact ⟨c.connected, some token, rfl⟩
    | invalidCode => exact ⟨c.connected, c.passwordToken, rfl⟩
    | failed e => exact ⟨c.connected, c.passwordToken, rfl⟩
  · exact ⟨c.connected, c.passwordToken, rfl⟩

theorem checkPassword_eq (net : Network) (c : TelegramClient) :
    ∃ connected token,
      (c.checkPassword net).1 = { c with connected := connected, passwordToken := token } := by
  unfold checkPassword
  split
  · cases c.passwordToken with
    | none => exact ⟨c.connected, _, rfl⟩
    | some token =>
      cases net.checkPassword with
      | ok u => exact ⟨true, none, rfl⟩
      | error e => exact ⟨c.connected, none, rfl⟩
  · exact ⟨c.connected, c.passwordToken, rfl⟩

theorem effect_turn (net : Network) (n : ℕ) :
    Effect build c call (.working n) (c.turn build net call n).1.unlocked
      (c.turn build net call n).2 := by
  cases call with
  | connect => exact effect_answered rfl rfl
  | requestLoginCode phone => exact effect_answered rfl rfl
  | signIn token code =>
    obtain ⟨connected, token', h⟩ := signIn_eq net c
    rw [turn, h]
    exact .answered rfl rfl
  | checkPassword password =>
    obtain ⟨connected, token', h⟩ := checkPassword_eq net c
    rw [turn, h]
    exact .answered rfl rfl
  | saveSession => exact effect_answered rfl rfl
  | uploadBlock data filename =>
    refine effect_attempted rfl fun reply bytes h => ?_
    cases hr : doUpload net c.inner data with
    | error e => rw [hr] at h; cases h
    | ok r =>
      rw [hr] at h
      cases h
      have hsize := (doUpload_eq_ok hr).2.2.2
      exact ⟨⟨r, rfl, hsize⟩, hsize.symm⟩
  | downloadBlock id =>
    refine effect_attempted rfl fun reply bytes h => ?_
    cases hr : doDownload net c.inner id with
    | error e => rw [hr] at h; cases h
    | ok r =>
      rw [hr] at h
      cases h
      exact ⟨⟨r, rfl, (doDownload_eq_ok hr).1⟩, rfl⟩
  | deleteMessage id => exact effect_deleted rfl (doDelete net c.inner)
  | deleteMessages ids => exact effect_deleted rfl (doDelete net c.inner)

end

/-- One lemma for all that an action does. -/
theorem effect_advance {build : Overflow} {a : TelegramAction} {c c' : TelegramClient}
    {t t' : TelegramTask} (h : advance build a c t = some (c', t')) :
    ∃ call phase phase', t = ⟨call, phase⟩ ∧ t' = ⟨call, phase'⟩ ∧
      Effect build c call phase c' phase' := by
  obtain ⟨call, phase⟩ := t
  suffices hcall : t'.call = call ∧ Effect build c call phase c' t'.phase from
    ⟨call, phase, t'.phase, rfl, by rw [← hcall.1], hcall.2⟩
  cases a with
  | acquire =>
    cases phase with
    | queued =>
      cases hd : call.direction with
      | none => simp [advance, hd] at h
      | some d =>
        simp only [advance, hd] at h
        split at h
        · cases h
        · rename_i hfree
          split at h
          · rename_i hretry
            cases h
            exact ⟨rfl, .exhausted hd hretry⟩
          · rename_i hretry
            cases h
            exact ⟨rfl, .acquired hd (Nat.pos_of_ne_zero hfree) (Nat.pos_of_ne_zero hretry)⟩
    | _ => cases h
  | lock =>
    rw [advance] at h
    split at h
    · cases h
    · rename_i hfree
      have hfree := Bool.eq_false_iff.2 hfree
      cases phase with
      | waiting n => cases h; exact ⟨rfl, .locked hfree⟩
      | storing authorized =>
        cases call with
        | connect => cases h; exact ⟨rfl, .stored rfl hfree⟩
        | _ => cases h
      | _ => cases h
  | answer net =>
    cases phase with
    | connecting =>
      cases call with
      | connect =>
        cases hopen : openSession net with
        | error e => simp only [advance, hopen] at h; cases h; exact ⟨rfl, .offline rfl⟩
        | ok authorized => simp only [advance, hopen] at h; cases h; exact ⟨rfl, .opened⟩
      | _ => cases h
    | working n => cases h; exact ⟨rfl, effect_turn net n⟩
    | _ => cases h
  | wake =>
    cases phase with
    | sleeping n ms => cases h; exact ⟨rfl, .woke⟩
    | _ => cases h
  | drop =>
    rw [advance] at h
    split at h
    · cases h
    · rename_i hlive
      cases h
      exact ⟨rfl, .dropped (Bool.eq_false_iff.2 hlive)⟩

end TelegramClient

end TgCryptFs

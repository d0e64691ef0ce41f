import TgCryptFs.Telegram.Effects

set_option autoImplicit false

/-!
# How far a call has come

What the phase of a call says about its attempts, whatever the other calls do.
-/
namespace TgCryptFs
open Library

namespace TelegramClient

section

variable {build : Overflow} {c c' : TelegramClient} {call : TelegramCall}
  {phase phase' : TelegramPhase}

/-- The attempts that a call has. -/
def limit (config : TelegramConfig) (call : TelegramCall) : ℕ :=
  if call.direction = none then 1 else config.maxRetries

/-- The errors of a transfer before its first attempt. -/
inductive EarlyError (config : TelegramConfig) (call : TelegramCall) : TelegramError → Prop where
  | notConnected : EarlyError config call .notConnected
  | tooLarge {data : Bytes} {filename : String} (hcall : call = .uploadBlock data filename)
      (h : config.maxUploadSize < data.length) :
      EarlyError config call (.blockTooLarge data.length config.maxUploadSize)
  | exhausted {d : Direction} (hd : call.direction = some d) (h : config.maxRetries = 0) :
      EarlyError config call (exhausted d)

def Attempts (build : Overflow) (config : TelegramConfig) (call : TelegramCall) :
    TelegramPhase → Prop
  | .waiting n | .working n => n < limit config call
  | .sleeping n ms =>
    0 < n ∧ n < limit config call ∧ retryDelay build config (n - 1) = some ms
  | .panicked n => 0 < n ∧ n < limit config call ∧ retryDelay build config (n - 1) = none
  | .returned n (.ok reply) =>
    call.direction ≠ none → n < limit config call ∧ call.AnsweredBy reply
  | .returned n (.error e) =>
    call.direction ≠ none → n = 0 ∧ EarlyError config call e ∨ 0 < n ∧ n = limit config call
  | .dropped n => n = 0 ∨ n < limit config call
  | .connecting | .storing _ => call = .connect
  | .queued => call.direction ≠ none

structure WellPhased (build : Overflow) (config : TelegramConfig) (t : TelegramTask) : Prop where
  attempts : Attempts build config t.call t.phase
  fits : ∀ data filename, t.call = .uploadBlock data filename →
    (∀ e, t.phase ≠ .returned 0 (.error e)) → data.length ≤ config.maxUploadSize

theorem limit_of_direction {config : TelegramConfig} {d : Direction}
    (hd : call.direction = some d) : limit config call = config.maxRetries :=
  if_neg (by rw [hd]; nofun)

theorem attempts_checked {config : TelegramConfig} {check : Except TelegramError Unit}
    {next : TelegramPhase} (hnext : Attempts build config call next)
    (hcheck : ∀ e, check = .error e → call.direction ≠ none → EarlyError config call e) :
    Attempts build config call (checked check next) := by
  cases check with
  | ok u => exact hnext
  | error e => exact fun hd => .inl ⟨rfl, hcheck e rfl hd⟩

theorem ensureConnected_eq_error {e : TelegramError} (h : c.ensureConnected = .error e) :
    e = .notConnected := by
  unfold ensureConnected at h
  split at h
  · cases h
  · exact (Except.error.inj h).symm

theorem wellPhased_enter (c : TelegramClient) (call : TelegramCall) :
    WellPhased build c.config (enter c call) := by
  have hconn : ∀ e, c.ensureConnected = .error e → EarlyError c.config call e := fun e h =>
    ensureConnected_eq_error h ▸ .notConnected
  cases call with
  | connect => exact ⟨rfl, nofun⟩
  | requestLoginCode | signIn | checkPassword | saveSession => exact ⟨Nat.one_pos, nofun⟩
  | downloadBlock id => exact ⟨attempts_checked nofun fun e h _ => hconn e h, nofun⟩
  | deleteMessage | deleteMessages =>
    exact ⟨attempts_checked Nat.one_pos fun e _ hd => absurd rfl hd, nofun⟩
  | uploadBlock data filename =>
    cases hcheck : c.ensureConnected with
    | error e =>
      have henter : enter c (.uploadBlock data filename) =
          ⟨.uploadBlock data filename, .returned 0 (.error e)⟩ := by
        rw [enter, hcheck]
        rfl
      rw [henter]
      exact ⟨fun _ => .inl ⟨rfl, hconn e hcheck⟩, fun _ _ _ h => absurd rfl (h e)⟩
    | ok u =>
      by_cases hsize : c.config.maxUploadSize < data.length
      · have henter : enter c (.uploadBlock data filename) = ⟨.uploadBlock data filename,
            .returned 0 (.error (.blockTooLarge data.length c.config.maxUploadSize))⟩ := by
          rw [enter, hcheck, validateUploadSize, if_pos hsize]
          rfl
        rw [henter]
        exact ⟨fun _ => .inl ⟨rfl, .tooLarge rfl hsize⟩, fun _ _ _ h => absurd rfl (h _)⟩
      · have henter : enter c (.uploadBlock data filename) =
            ⟨.uploadBlock data filename, .queued⟩ := by
          rw [enter, hcheck, validateUploadSize, if_neg hsize]
          rfl
        rw [henter]
        refine ⟨nofun, fun data' _ heq _ => ?_⟩
        cases heq
        exact Nat.le_of_not_lt hsize

theorem attempts_effect (h : Effect build c call phase c' phase')
    (hphase : Attempts build c.config call phase) : Attempts build c.config call phase' := by
  cases h with
  | acquired hd _ hretry => exact Nat.lt_of_lt_of_eq hretry (limit_of_direction hd).symm
  | exhausted hd hretry => exact fun _ => .inl ⟨rfl, .exhausted hd hretry⟩
  | locked => exact hphase
  | stored hcall | offline hcall => exact fun hd => absurd (by rw [hcall]; rfl) hd
  | opened => exact hphase
  | succeeded hd hreply => exact fun _ => ⟨hphase, hreply⟩
  | retrying hd hmore hdelay =>
    exact ⟨Nat.succ_pos _, (limit_of_direction hd).symm ▸ hmore, hdelay⟩
  | panicked hd hmore hdelay =>
    exact ⟨Nat.succ_pos _, (limit_of_direction hd).symm ▸ hmore, hdelay⟩
  | @failed d n e hd hlast =>
    rw [Attempts, limit_of_direction hd] at hphase
    exact fun _ => .inr ⟨Nat.succ_pos _, by rw [limit_of_direction hd]; omega⟩
  | deleted hd | refused hd => exact fun h => absurd hd h
  | @answered n connected token r hd =>
    cases r with
    | ok reply => exact fun h => absurd hd h
    | error e => exact fun h => absurd hd h
  | woke => exact hphase.2.1
  | @dropped phase hlive =>
    cases phase with
    | connecting | storing | queued => exact .inl rfl
    | waiting n | working n => exact .inr hphase
    | sleeping n ms => exact .inr hphase.2.1
    | _ => cases hlive

theorem live_of_effect (h : Effect build c call phase c' phase') : phase.finished = false := by
  cases h with
  | dropped hlive => exact hlive
  | _ => rfl

theorem config_effect (h : Effect build c call phase c' phase') : c'.config = c.config := by
  cases h with
  | @acquired d | @succeeded d | @panicked d | @failed d => cases d <;> rfl
  | _ => rfl

theorem kept (build : Overflow) (config : TelegramConfig) :
    Pool.Kept enter (advance build) (·.config = config) (WellPhased build config) where
  enter c call hc := hc ▸ wellPhased_enter c call
  advance a c t c' t' hc ht h := by
    subst hc
    obtain ⟨call, phase, phase', rfl, rfl, heffect⟩ := effect_advance h
    refine ⟨config_effect heffect, attempts_effect heffect ht.attempts, ?_⟩
    refine fun data filename heq _ => ht.fits data filename heq fun e hphase => ?_
    have hlive := live_of_effect heffect
    rw [show phase = _ from hphase] at hlive
    cases hlive

end

end TelegramClient
end TgCryptFs

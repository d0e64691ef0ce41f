import TgCryptFs.Telegram.Transfers

set_option autoImplicit false

/-!
# Every call comes to its end

However the calls interleave, each has a bounded number of actions, and while one is not at
its end some call can go on without being dropped.
-/
namespace TgCryptFs
open Library

namespace TelegramAction

def isDrop : TelegramAction → Bool
  | drop => true
  | _ => false

end TelegramAction

namespace TelegramClient

/-- The actions that a call can still do: three for each attempt that is left to it. -/
def budget (config : TelegramConfig) (t : TelegramTask) : ℕ :=
  match t.phase with
  | .connecting => 2
  | .storing _ => 1
  | .queued => 3 * limit config t.call + 1
  | .waiting n => 3 * (limit config t.call - n)
  | .working n => 3 * (limit config t.call - n) - 1
  | .sleeping n _ => 3 * (limit config t.call - n) + 1
  | .returned _ _ | .panicked _ | .dropped _ => 0

section

variable {build : Overflow} {config : TelegramConfig} {c c' : TelegramClient}
  {call : TelegramCall} {phase phase' : TelegramPhase}

theorem budget_pos (hphase : Attempts build config call phase) (hlive : phase.finished = false) :
    0 < budget config ⟨call, phase⟩ := by
  cases phase with
  | connecting | storing => exact Nat.succ_pos _
  | queued | sleeping => exact Nat.succ_pos _
  | waiting n | working n =>
    have hlt : n < limit config call := hphase
    simp only [budget]
    omega
  | _ => cases hlive

theorem budget_effect (h : Effect build c call phase c' phase')
    (hphase : Attempts build c.config call phase) :
    budget c.config ⟨call, phase'⟩ < budget c.config ⟨call, phase⟩ := by
  have hpos := budget_pos hphase (live_of_effect h)
  cases h with
  | acquired | opened | woke => exact Nat.lt_succ_self _
  | @locked n =>
    have hlt : n < limit c.config call := hphase
    simp only [budget]
    omega
  | @retrying d n ms hd hmore =>
    have hlimit : limit c.config call = c.config.maxRetries := limit_of_direction hd
    simp only [budget, hlimit]
    omega
  | _ => exact hpos

theorem budget_le (t : TelegramTask) : budget config t ≤ 3 * max config.maxRetries 1 + 1 := by
  have hlimit : limit config t.call ≤ max config.maxRetries 1 := by
    unfold limit
    split
    · exact Nat.le_max_right _ _
    · exact Nat.le_max_left _ _
  unfold budget
  split <;> omega

theorem budget_advance {a : TelegramAction} {t t' : TelegramTask} (hc : c.config = config)
    (ht : WellPhased build config t) (h : advance build a c t = some (c', t')) :
    budget config t' < budget config t := by
  obtain ⟨call, phase, phase', rfl, rfl, heffect⟩ := effect_advance h
  subst hc
  exact budget_effect heffect ht.attempts

end

section

variable {build : Overflow} {config : TelegramConfig} {p : Pool TelegramClient TelegramTask}

theorem admitted_act {i : ℕ} {a : TelegramAction} {t : TelegramTask}
    (ht : p.workers[i]? = some t) (h : (advance build a p.shared t).isSome) :
    Pool.admitted enter (advance build) (.act i a) p := by
  obtain ⟨⟨c', t'⟩, hadv⟩ := Option.isSome_iff_exists.1 h
  rw [Pool.admitted, Pool.next_act ht hadv]
  rfl

/-- Who is under the lock or sleeps can go on, and so can who waits for the lock if it is free. -/
theorem exists_act_inside {i : ℕ} {t : TelegramTask} (ht : p.workers[i]? = some t)
    (hinside : t.phase.inside) (hfree : p.shared.locked = false) :
    ∃ a, a.isDrop = false ∧ Pool.admitted enter (advance build) (.act i a) p := by
  obtain ⟨call, phase⟩ := t
  cases phase with
  | waiting n => exact ⟨.lock, rfl, admitted_act ht (by rw [advance, hfree]; rfl)⟩
  | working n => exact ⟨.answer unreachable, rfl, admitted_act ht rfl⟩
  | sleeping n ms => exact ⟨.wake, rfl, admitted_act ht rfl⟩
  | _ => cases hinside

theorem exists_act (h : Reachable build config p) (hmax : ∀ d, 0 < maxConcurrent d config)
    (hlive : ∃ t ∈ p.workers, ¬ t.phase.finished) :
    ∃ i a, a.isDrop = false ∧ Pool.admitted enter (advance build) (.act i a) p := by
  cases hlocked : p.shared.locked with
  | true =>
    have hlocks := locks_balance h
    rw [freeLocks, hlocked, if_pos rfl, Nat.zero_add] at hlocks
    obtain ⟨i, ⟨call, phase⟩, ht, hpos⟩ :=
      Pool.exists_of_tally_pos (hlocks ▸ Nat.one_pos : 0 < p.tally TelegramTask.locks)
    cases phase with
    | working n => exact ⟨i, .answer unreachable, rfl, admitted_act ht rfl⟩
    | _ => cases hpos
  | false =>
    obtain ⟨t, hmem, hlive⟩ := hlive
    obtain ⟨i, ht⟩ := List.getElem?_of_mem hmem
    have hwell := ((kept build config).reachable rfl h).2 t hmem
    obtain ⟨call, phase⟩ := t
    cases phase with
    | connecting =>
      obtain rfl : call = .connect := hwell.attempts
      exact ⟨i, .answer unreachable, rfl, admitted_act ht rfl⟩
    | storing authorized =>
      obtain rfl : call = .connect := hwell.attempts
      exact ⟨i, .lock, rfl, admitted_act ht (by rw [advance, hlocked]; rfl)⟩
    | waiting | working | sleeping => exact ⟨i, exists_act_inside ht rfl hlocked⟩
    | queued =>
      obtain ⟨d, hd⟩ := Option.ne_none_iff_exists'.1 hwell.attempts
      by_cases hpermits : p.shared.permits d = 0
      · -- All the permits are held, and a holder goes on.
        have hheld := permits_balance h d
        rw [hpermits, Nat.zero_add] at hheld
        obtain ⟨j, t', ht', hpos⟩ := Pool.exists_of_tally_pos (hheld ▸ hmax d)
        have hinside : t'.phase.inside := by
          unfold TelegramTask.holds at hpos
          split at hpos
          · rename_i hholds
            exact hholds.2
          · cases hpos
        exact ⟨j, exists_act_inside ht' hinside hlocked⟩
      · refine ⟨i, .acquire, rfl, admitted_act ht ?_⟩
        simp only [advance, hd, if_neg hpermits]
        split <;> rfl
    | _ => exact absurd rfl hlive

theorem retryDelay_of_lt {n : ℕ} (hpow : n < 64) (h : config.retryBaseDelayMs * 2 ^ n < 2 ^ 64) :
    retryDelay build config n = some (config.retryBaseDelayMs * 2 ^ n) := by
  rw [retryDelay, Overflow.powU64_of_lt (Nat.pow_lt_pow_right Nat.one_lt_two hpow),
    Option.bind_some, Overflow.mulU64_of_lt h]

theorem retryDelay_eq_none {n : ℕ} (h : retryDelay build config n = none) :
    build = .panics ∧ (64 ≤ n ∨ 2 ^ 64 ≤ config.retryBaseDelayMs * 2 ^ n) := by
  by_cases hpow : n < 64
  · rw [retryDelay, Overflow.powU64_of_lt (Nat.pow_lt_pow_right Nat.one_lt_two hpow),
      Option.bind_some, Overflow.mulU64_panics_iff] at h
    exact ⟨h.1, .inr h.2⟩
  · refine ⟨?_, .inl (Nat.le_of_not_lt hpow)⟩
    cases hq : build.powU64 2 n with
    | none => exact (Overflow.powU64_panics_iff.1 hq).1
    | some q =>
      rw [retryDelay, hq, Option.bind_some] at h
      exact (Overflow.mulU64_panics_iff.1 h).1

/-- How a transfer ends, in every interleaving: a reply within `max_retries` attempts, an
    error before the first attempt or after the last of them, and a panic only where the
    delay of a build with overflow checks does not fit. Its pauses double. -/
theorem outcome_of_transfer (h : Reachable build config p) {t : TelegramTask}
    (ht : t ∈ p.workers) (hd : t.call.direction ≠ none) :
    (∀ n reply, t.phase = .returned n (.ok reply) →
      n < config.maxRetries ∧ t.call.AnsweredBy reply ∧
        ∀ data filename, t.call = .uploadBlock data filename →
          data.length ≤ config.maxUploadSize) ∧
    (∀ n e, t.phase = .returned n (.error e) →
      n = 0 ∧ EarlyError config t.call e ∨ 0 < n ∧ n = config.maxRetries) ∧
    (∀ n ms, t.phase = .sleeping n ms → 0 < n ∧ n < config.maxRetries ∧
      (n ≤ 64 → config.retryBaseDelayMs * 2 ^ (n - 1) < 2 ^ 64 →
        ms = config.retryBaseDelayMs * 2 ^ (n - 1))) ∧
    ∀ n, t.phase = .panicked n → n < config.maxRetries ∧ build = .panics ∧
      (64 < n ∨ 2 ^ 64 ≤ config.retryBaseDelayMs * 2 ^ (n - 1)) := by
  obtain ⟨hwell, hfits⟩ := ((kept build config).reachable rfl h).2 t ht
  have hlimit : limit config t.call = config.maxRetries := if_neg hd
  refine ⟨fun n reply hphase => ?_, fun n e hphase => ?_, fun n ms hphase => ?_,
    fun n hphase => ?_⟩ <;> rw [hphase, Attempts] at hwell
  · obtain ⟨hlt, hreply⟩ := hwell hd
    refine ⟨hlimit ▸ hlt, hreply, fun data filename hcall => ?_⟩
    apply hfits data filename hcall
    intro e he
    rw [hphase] at he
    cases he
  · exact hlimit ▸ hwell hd
  · obtain ⟨hpos, hlt, hdelay⟩ := hwell
    refine ⟨hpos, hlimit ▸ hlt, fun hn hfits => ?_⟩
    rw [retryDelay_of_lt (by omega) hfits] at hdelay
    exact (Option.some.inj hdelay).symm
  · obtain ⟨hpos, hlt, hdelay⟩ := hwell
    obtain ⟨hbuild, hover⟩ := retryDelay_eq_none hdelay
    exact ⟨hlimit ▸ hlt, hbuild, hover.imp (fun h => by omega) id⟩

end

theorem outcome_of_transfer_sample :
    ∃ reply, TelegramCall.AnsweredBy (.uploadBlock [1, 2] "00.srb1") reply :=
  let task : TelegramTask :=
    ⟨.uploadBlock [1, 2] "00.srb1", .returned 1 (.ok (.uploaded ⟨7, 2⟩))⟩
  have htask : task ∈ sampleState.workers := List.mem_cons_of_mem _ List.mem_cons_self
  ⟨_, ((outcome_of_transfer sampleState_reachable htask nofun).1 _ _ rfl).2.1⟩

end TelegramClient
end TgCryptFs

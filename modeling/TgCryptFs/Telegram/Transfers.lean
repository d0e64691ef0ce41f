import TgCryptFs.Telegram.Attempts

set_option autoImplicit false

/-!
# Permits, the lock and the counters

What holds of the client in any interleaving of its calls: no permit is lost or doubled, one
call at most talks to Telegram, and the counters count what happened.
-/
namespace TgCryptFs
open Library

/-! ## What a call has of the client, and what it counts for -/

namespace TelegramPhase

/-- The reply of a call that has returned one. -/
def outcome : TelegramPhase → Option TelegramReply
  | returned _ (.ok reply) => some reply
  | _ => none

end TelegramPhase

namespace TelegramTask

def locks (t : TelegramTask) : ℕ := if t.phase.isWorking then 1 else 0

def failed (d : Direction) (t : TelegramTask) : ℕ :=
  if t.call.direction = some d then t.phase.failures else 0

/-- What the replies of one direction count for. -/
def counts (d : Direction) (f : TelegramReply → ℕ) (t : TelegramTask) : ℕ :=
  if t.call.direction = some d then t.phase.outcome.elim 0 f else 0

def succeeded (d : Direction) : TelegramTask → ℕ := counts d fun _ => 1

def moved (d : Direction) : TelegramTask → ℕ := counts d TelegramReply.bytes

def deletions (t : TelegramTask) : ℕ := t.phase.outcome.elim 0 fun _ => t.call.deletions

end TelegramTask

namespace TransportStats

def blocks (d : Direction) (s : TransportStats) : ℕ :=
  match d with
  | .upload => s.blocksUploaded
  | .download => s.blocksDownloaded

def bytes (d : Direction) (s : TransportStats) : ℕ :=
  match d with
  | .upload => s.bytesUploaded
  | .download => s.bytesDownloaded

def errors (d : Direction) (s : TransportStats) : ℕ :=
  match d with
  | .upload => s.uploadErrors
  | .download => s.downloadErrors

variable (d d' : Direction) (n : ℕ) (s : TransportStats)

theorem blocks_succeed : (s.succeed d n).blocks d' =
    if d = d' then fetchAdd (s.blocks d') 1 else s.blocks d' := by
  cases d <;> cases d' <;> rfl

theorem bytes_succeed : (s.succeed d n).bytes d' =
    if d = d' then fetchAdd (s.bytes d') n else s.bytes d' := by
  cases d <;> cases d' <;> rfl

theorem errors_succeed : (s.succeed d n).errors d' = s.errors d' := by
  cases d <;> cases d' <;> rfl

theorem blocks_fail : (s.fail d).blocks d' = s.blocks d' := by
  cases d <;> cases d' <;> rfl

theorem bytes_fail : (s.fail d).bytes d' = s.bytes d' := by
  cases d <;> cases d' <;> rfl

theorem errors_fail : (s.fail d).errors d' =
    if d = d' then fetchAdd (s.errors d') 1 else s.errors d' := by
  cases d <;> cases d' <;> rfl

theorem messagesDeleted_succeed : (s.succeed d n).messagesDeleted = s.messagesDeleted := by
  cases d <;> rfl

theorem messagesDeleted_fail : (s.fail d).messagesDeleted = s.messagesDeleted := by
  cases d <;> rfl

end TransportStats

namespace TelegramClient

section

variable {build : Overflow} {c c' : TelegramClient} {call : TelegramCall}
  {phase phase' : TelegramPhase}

@[simp] theorem permits_unlocked (d : Direction) : c.unlocked.permits d = c.permits d := by
  cases d <;> rfl

@[simp] theorem permits_withPermits (d d' : Direction) (n : ℕ) :
    (c.withPermits d n).permits d' = if d = d' then n else c.permits d' := by
  cases d <;> cases d' <;> rfl

@[simp] theorem permits_returnPermit (d d' : Direction) :
    (c.returnPermit d).permits d' = c.permits d' + if d = d' then 1 else 0 := by
  cases d <;> cases d' <;> rfl

@[simp] theorem permits_update (d : Direction) (stats : TransportStats)
    (connected inner locked : Bool) (token : Option PasswordToken) :
    ({ c with
        stats := stats, connected := connected, inner := inner, locked := locked
        passwordToken := token } : TelegramClient).permits d = c.permits d := by
  cases d <;> rfl

theorem permits_unwind (t : TelegramTask) (d : Direction) :
    (c.unwind t).permits d = c.permits d + t.holds d := by
  cases d <;> rfl

/-- A call that begins or ends holding a permit has taken or returned it. -/
theorem holds_effect (h : Effect build c call phase c' phase') (d : Direction) :
    c'.permits d + TelegramTask.holds d ⟨call, phase'⟩ =
      c.permits d + TelegramTask.holds d ⟨call, phase⟩ := by
  cases h with
  | @acquired d' hd hfree =>
    simp only [TelegramTask.holds, hd, permits_withPermits, TelegramPhase.inside]
    by_cases heq : d' = d
    · subst heq
      simp only [if_true, true_and, Bool.false_eq_true, and_false, if_false]
      omega
    · simp [heq]
  | @succeeded d' _ _ hd | @panicked d' _ hd | @failed d' _ _ hd =>
    by_cases heq : d' = d <;> simp [TelegramTask.holds, TelegramPhase.inside, hd, heq]
  | @dropped phase =>
    have hnone : TelegramTask.holds d ⟨call, .dropped phase.failures⟩ = 0 := by
      simp [TelegramTask.holds, TelegramPhase.inside]
    rw [permits_unwind, hnone, Nat.add_zero]
  | exhausted hd | retrying hd | deleted hd | refused hd | answered hd =>
    simp [TelegramTask.holds, TelegramPhase.inside, hd]
  | locked | stored | offline | opened | woke =>
    simp [TelegramTask.holds, TelegramPhase.inside]

/-- The lock as something that is there once. -/
def freeLocks (c : TelegramClient) : ℕ := if c.locked then 0 else 1

theorem freeLocks_unlocked : c.unlocked.freeLocks = 1 := rfl

theorem freeLocks_withPermits (d : Direction) (n : ℕ) :
    (c.withPermits d n).freeLocks = c.freeLocks := by
  cases d <;> rfl

theorem freeLocks_unwind (t : TelegramTask) :
    (c.unwind t).freeLocks = if t.phase.isWorking then 1 else c.freeLocks := by
  cases hworking : t.phase.isWorking <;> simp [unwind, freeLocks, hworking]

theorem locks_effect (h : Effect build c call phase c' phase')
    (hroom : c.freeLocks + TelegramTask.locks ⟨call, phase⟩ ≤ 1) :
    c'.freeLocks + TelegramTask.locks ⟨call, phase'⟩ =
      c.freeLocks + TelegramTask.locks ⟨call, phase⟩ := by
  cases h with
  | locked hfree => simp [freeLocks, hfree, TelegramTask.locks, TelegramPhase.isWorking]
  | @dropped phase =>
    have hnone : TelegramTask.locks ⟨call, .dropped phase.failures⟩ = 0 := rfl
    rw [freeLocks_unwind, hnone]
    simp only [TelegramTask.locks] at hroom ⊢
    split <;> simp_all
  | succeeded | retrying | panicked | failed | deleted | refused | answered =>
    simp only [TelegramTask.locks, TelegramPhase.isWorking, if_true, freeLocks_unlocked] at hroom ⊢
    simp only [Bool.false_eq_true, if_false]
    omega
  | acquired => rw [freeLocks_withPermits]; rfl
  | exhausted | stored | offline | opened | woke => rfl

@[simp] theorem stats_unlocked : c.unlocked.stats = c.stats := rfl

@[simp] theorem stats_withPermits (d : Direction) (n : ℕ) :
    (c.withPermits d n).stats = c.stats := by
  cases d <;> rfl

@[simp] theorem stats_returnPermit (d : Direction) : (c.returnPermit d).stats = c.stats := by
  cases d <;> rfl

theorem outcome_of_live (h : phase.finished = false) : phase.outcome = none := by
  cases phase <;> first | rfl | cases h

/-- The ways in which an action moves the counters. -/
theorem stats_effect (h : Effect build c call phase c' phase') :
    (c'.stats = c.stats ∧ (call.direction = none ∨ phase'.failures = phase.failures) ∧
      (phase'.outcome = phase.outcome ∨ call.direction = none ∧ call.deletions = 0)) ∨
    (∃ d reply, call.direction = some d ∧ c'.stats = c.stats.succeed d reply.bytes ∧
      phase'.failures = phase.failures ∧ phase.outcome = none ∧ phase'.outcome = some reply) ∨
    (∃ d, call.direction = some d ∧ c'.stats = c.stats.fail d ∧
      phase'.failures = phase.failures + 1 ∧ phase.outcome = none ∧ phase'.outcome = none) ∨
    (call.direction = none ∧ phase.outcome = none ∧ phase'.outcome = some .deleted ∧
      c'.stats = { c.stats with
        messagesDeleted := TransportStats.fetchAdd c.stats.messagesDeleted call.deletions }) := by
  cases h with
  | acquired => exact .inl ⟨stats_withPermits _ _, .inr rfl, .inl rfl⟩
  | exhausted | locked | offline | opened | woke => exact .inl ⟨rfl, .inr rfl, .inl rfl⟩
  | stored hcall => exact .inl ⟨rfl, .inr rfl, .inr (hcall ▸ ⟨rfl, rfl⟩)⟩
  | succeeded hd => exact .inr (.inl ⟨_, _, hd, by simp, rfl, rfl, rfl⟩)
  | retrying hd => exact .inr (.inr (.inl ⟨_, hd, rfl, rfl, rfl, rfl⟩))
  | panicked hd | failed hd => exact .inr (.inr (.inl ⟨_, hd, by simp, rfl, rfl, rfl⟩))
  | deleted hd => exact .inr (.inr (.inr ⟨hd, rfl, rfl, rfl⟩))
  | refused hd => exact .inl ⟨rfl, .inl hd, .inl rfl⟩
  | answered hd hdel => exact .inl ⟨rfl, .inl hd, .inr ⟨hd, hdel⟩⟩
  | dropped hlive =>
    exact .inl ⟨rfl, .inr rfl, .inl (outcome_of_live hlive).symm⟩

end

/-! ## In every interleaving -/

/-- What a counter has to do with a quantity of the calls: the one moves as the other does. -/
def Follows (g : ℕ) (f : ℕ) (g' : ℕ) (f' : ℕ) : Prop :=
  f ≤ f' ∧ (g < 2 ^ 64 → g' = (g + (f' - f)) % 2 ^ 64)

theorem Follows.same {g f g' f' : ℕ} (hg : g' = g) (hf : f' = f) : Follows g f g' f' := by
  subst hg hf
  refine ⟨Nat.le_refl _, fun hlt => ?_⟩
  rw [Nat.sub_self, Nat.add_zero, Nat.mod_eq_of_lt hlt]

theorem Follows.added {g g' n f' : ℕ} (hg : g' = TransportStats.fetchAdd g n) (hf : f' = n) :
    Follows g 0 g' f' :=
  ⟨Nat.zero_le _, fun _ => by rw [hg, hf, Nat.sub_zero, TransportStats.fetchAdd]⟩

section

variable {build : Overflow} {c c' : TelegramClient} {call : TelegramCall}
  {phase phase' : TelegramPhase}

/-- A counter that only a success in its direction moves. -/
theorem follows_counts {d : Direction} {g : TransportStats → ℕ} {f : TelegramReply → ℕ}
    (hsucceed : ∀ d' reply s, g (s.succeed d' reply.bytes) =
      if d' = d then TransportStats.fetchAdd (g s) (f reply) else g s)
    (hfail : ∀ d' s, g (s.fail d') = g s)
    (hdeleted : ∀ (s : TransportStats) n, g { s with messagesDeleted := n } = g s)
    (h : Effect build c call phase c' phase') :
    Follows (g c.stats) (TelegramTask.counts d f ⟨call, phase⟩)
      (g c'.stats) (TelegramTask.counts d f ⟨call, phase'⟩) := by
  obtain ⟨hs, -, hout⟩ | ⟨d', reply, hd, hs, -, hnone, hsome⟩ | ⟨d', hd, hs, -, hnone, hnone'⟩ |
    ⟨hd, -, -, hs⟩ := stats_effect h
  · obtain hout | ⟨hd, -⟩ := hout
    · exact .same (by rw [hs]) (by simp only [TelegramTask.counts, hout])
    · exact .same (by rw [hs]) (by simp [TelegramTask.counts, hd])
  · rw [hs, hsucceed]
    by_cases heq : d' = d
    · subst heq
      simp only [TelegramTask.counts, hd, hnone, hsome, if_true, Option.elim_none,
        Option.elim_some]
      exact .added rfl rfl
    · rw [if_neg heq]
      exact .same rfl (by simp [TelegramTask.counts, hd, heq])
  · rw [hs, hfail]
    exact .same rfl (by simp only [TelegramTask.counts, hnone, hnone'])
  · exact .same (by rw [hs]; exact hdeleted _ _) (by simp [TelegramTask.counts, hd])

theorem follows_errors (h : Effect build c call phase c' phase') (d : Direction) :
    Follows (c.stats.errors d) (TelegramTask.failed d ⟨call, phase⟩)
      (c'.stats.errors d) (TelegramTask.failed d ⟨call, phase'⟩) := by
  obtain ⟨hs, hfail, -⟩ | ⟨d', reply, hd, hs, hfail, -⟩ | ⟨d', hd, hs, hfail, -⟩ |
    ⟨hd, -, -, hs⟩ := stats_effect h
  · obtain hd | hfail := hfail
    · exact .same (by rw [hs]) (by simp [TelegramTask.failed, hd])
    · exact .same (by rw [hs]) (by simp only [TelegramTask.failed, hfail])
  · rw [hs, TransportStats.errors_succeed]
    exact .same rfl (by simp only [TelegramTask.failed, hfail])
  · rw [hs, TransportStats.errors_fail]
    by_cases heq : d' = d
    · subst heq
      simp only [TelegramTask.failed, hd, hfail, if_true]
      refine ⟨Nat.le_succ _, fun _ => ?_⟩
      rw [Nat.add_sub_cancel_left, TransportStats.fetchAdd]
    · rw [if_neg heq]
      exact .same rfl (by simp [TelegramTask.failed, hd, heq])
  · rw [hs]
    exact .same (by cases d <;> rfl) (by simp [TelegramTask.failed, hd])

theorem follows_deletions (h : Effect build c call phase c' phase') :
    Follows c.stats.messagesDeleted (TelegramTask.deletions ⟨call, phase⟩)
      c'.stats.messagesDeleted (TelegramTask.deletions ⟨call, phase'⟩) := by
  have htransfer : ∀ {d : Direction}, call.direction = some d → call.deletions = 0 := by
    intro d hd
    cases call <;> first | rfl | cases hd
  obtain ⟨hs, -, hout⟩ | ⟨d', reply, hd, hs, -, hnone, hsome⟩ | ⟨d', hd, hs, -, hnone, hnone'⟩ |
    ⟨hd, hnone, hsome, hs⟩ := stats_effect h
  · obtain hout | ⟨-, hdel⟩ := hout
    · exact .same (by rw [hs]) (by simp only [TelegramTask.deletions, hout])
    · have hzero : ∀ phase, TelegramTask.deletions ⟨call, phase⟩ = 0 := fun phase => by
        rw [TelegramTask.deletions, hdel]
        cases phase.outcome <;> rfl
      exact .same (by rw [hs]) (by rw [hzero, hzero])
  · rw [hs, TransportStats.messagesDeleted_succeed]
    exact .same rfl (by simp [TelegramTask.deletions, hnone, hsome, htransfer hd])
  · rw [hs, TransportStats.messagesDeleted_fail]
    exact .same rfl (by simp only [TelegramTask.deletions, hnone, hnone'])
  · rw [hs]
    simp only [TelegramTask.deletions, hnone, hsome, Option.elim_none, Option.elim_some]
    exact .added rfl rfl

/-- A call that comes in has nothing and has done nothing. -/
structure Fresh (t : TelegramTask) : Prop where
  outcome : t.phase.outcome = none
  failures : t.phase.failures = 0
  idle : t.phase.isWorking = false
  outside : t.call.direction ≠ none → t.phase.inside = false

theorem fresh_checked {check : Except TelegramError Unit} {next : TelegramPhase}
    (h : Fresh ⟨call, next⟩) : Fresh ⟨call, checked check next⟩ := by
  cases check with
  | ok u => exact h
  | error e => exact ⟨rfl, rfl, rfl, fun _ => rfl⟩

theorem fresh_enter (c : TelegramClient) (call : TelegramCall) : Fresh (enter c call) := by
  cases call with
  | connect => exact ⟨rfl, rfl, rfl, fun _ => rfl⟩
  | requestLoginCode | signIn | checkPassword | saveSession =>
    exact ⟨rfl, rfl, rfl, fun h => absurd rfl h⟩
  | uploadBlock | downloadBlock => exact fresh_checked ⟨rfl, rfl, rfl, fun _ => rfl⟩
  | deleteMessage | deleteMessages => exact fresh_checked ⟨rfl, rfl, rfl, fun h => absurd rfl h⟩

end

namespace Fresh

variable {t : TelegramTask}

theorem holds_eq (h : Fresh t) (d : Direction) : t.holds d = 0 := by
  refine if_neg ?_
  rintro ⟨hd, hinside⟩
  rw [h.outside (by rw [hd]; nofun)] at hinside
  cases hinside

theorem locks_eq (h : Fresh t) : t.locks = 0 := by
  rw [TelegramTask.locks, h.idle]
  rfl

theorem counts_eq (h : Fresh t) (d : Direction) (f : TelegramReply → ℕ) : t.counts d f = 0 := by
  rw [TelegramTask.counts, h.outcome, Option.elim_none, ite_self]

theorem failed_eq (h : Fresh t) (d : Direction) : t.failed d = 0 := by
  rw [TelegramTask.failed, h.failures, ite_self]

theorem deletions_eq (h : Fresh t) : t.deletions = 0 := by
  rw [TelegramTask.deletions, h.outcome]
  rfl

end Fresh

section

variable {build : Overflow} {config : TelegramConfig} {p : Pool TelegramClient TelegramTask}

/-- The permits of a semaphore at the start. -/
def maxConcurrent (d : Direction) (config : TelegramConfig) : ℕ :=
  match d with
  | .upload => config.maxConcurrentUploads
  | .download => config.maxConcurrentDownloads

theorem permits_balance (h : Reachable build config p) (d : Direction) :
    p.shared.permits d + p.tally (TelegramTask.holds d) = maxConcurrent d config := by
  have hbalance := (kept build config).balance rfl (g := permits d) (f := TelegramTask.holds d)
    (fun c call _ => (fresh_enter c call).holds_eq d)
    (fun a c t c' t' _ _ _ hadv => by
      obtain ⟨call, phase, phase', rfl, rfl, heffect⟩ := effect_advance hadv
      exact holds_effect heffect d) h
  rw [hbalance]
  cases d <;> rfl

theorem locks_balance (h : Reachable build config p) :
    p.shared.freeLocks + p.tally TelegramTask.locks = 1 :=
  (kept build config).balance rfl (g := freeLocks) (f := TelegramTask.locks)
    (fun c call _ => (fresh_enter c call).locks_eq)
    (fun a c t c' t' _ _ hroom hadv => by
      obtain ⟨call, phase, phase', rfl, rfl, heffect⟩ := effect_advance hadv
      exact locks_effect heffect hroom) h

theorem counter_of_follows {g : TransportStats → ℕ} {f : TelegramTask → ℕ} (hstart : g {} = 0)
    (henter : ∀ t, Fresh t → f t = 0)
    (hfollows : ∀ (c c' : TelegramClient) (call : TelegramCall) (phase phase' : TelegramPhase),
      Effect build c call phase c' phase' →
        Follows (g c.stats) (f ⟨call, phase⟩) (g c'.stats) (f ⟨call, phase'⟩))
    (h : Reachable build config p) : g p.shared.stats = p.tally f % 2 ^ 64 :=
  (kept build config).counter rfl (g := fun c => g c.stats) hstart
    (fun c call _ => henter _ (fresh_enter c call))
    (fun a c t c' t' _ _ hadv => by
      obtain ⟨call, phase, phase', rfl, rfl, heffect⟩ := effect_advance hadv
      exact hfollows _ _ _ _ _ heffect) (by decide) h

/-- In every interleaving of calls, dropped ones among them: the free permits and those that
    calls hold are the configured ones, one call at most works under the lock and the lock is
    held for it alone, and the counters count, up to their wrap, the transfers that returned
    a reply, their bytes, the attempts that failed and the messages deleted. -/
theorem accounts_exact (h : Reachable build config p) (d : Direction) :
    p.shared.permits d + p.tally (TelegramTask.holds d) = maxConcurrent d config ∧
      p.tally TelegramTask.locks = (if p.shared.locked then 1 else 0) ∧
      p.shared.stats.blocks d = p.tally (TelegramTask.succeeded d) % 2 ^ 64 ∧
      p.shared.stats.bytes d = p.tally (TelegramTask.moved d) % 2 ^ 64 ∧
      p.shared.stats.errors d = p.tally (TelegramTask.failed d) % 2 ^ 64 ∧
      p.shared.stats.messagesDeleted = p.tally TelegramTask.deletions % 2 ^ 64 := by
  refine ⟨permits_balance h d, ?_, ?_, ?_, ?_, ?_⟩
  · have hlocks := locks_balance h
    unfold freeLocks at hlocks
    split at hlocks <;> rename_i hlocked <;> simp only [hlocked] <;> simp <;> omega
  · refine counter_of_follows (by cases d <;> rfl) (fun t ht => ht.counts_eq d _) ?_ h
    exact fun c c' call phase phase' => follows_counts
      (fun d' reply s => TransportStats.blocks_succeed d' d _ s)
      (fun d' s => TransportStats.blocks_fail d' d s) (fun _ _ => by cases d <;> rfl)
  · refine counter_of_follows (by cases d <;> rfl) (fun t ht => ht.counts_eq d _) ?_ h
    exact fun c c' call phase phase' => follows_counts
      (fun d' reply s => TransportStats.bytes_succeed d' d _ s)
      (fun d' s => TransportStats.bytes_fail d' d s) (fun _ _ => by cases d <;> rfl)
  · exact counter_of_follows (by cases d <;> rfl) (fun t ht => ht.failed_eq d)
      (fun c c' call phase phase' heffect => follows_errors heffect d) h
  · exact counter_of_follows (g := (·.messagesDeleted)) rfl (fun t ht => ht.deletions_eq)
      (fun c c' call phase phase' => follows_deletions) h

end

/-- A client is connected, and a block goes up at the second attempt. -/
def sampleEvents : List (PoolEvent TelegramCall TelegramAction) :=
  [.enter .connect, .act 0 (.answer (answering 7 [])), .act 0 .lock,
    .enter (.uploadBlock [1, 2] "00.srb1"), .act 1 .acquire, .act 1 .lock,
    .act 1 (.answer unreachable), .act 1 .wake, .act 1 .lock, .act 1 (.answer (answering 7 []))]

def sampleState : Pool TelegramClient TelegramTask :=
  Runs.runAll (Pool.step enter (advance .panics)) sampleEvents ⟨new {}, []⟩

theorem sampleState_reachable : Reachable .panics {} sampleState :=
  Runs.of_admits sampleEvents .start ⟨rfl, rfl, rfl, rfl, rfl, rfl, rfl, rfl, rfl, rfl, trivial⟩

theorem accounts_exact_sample :
    sampleState.shared.uploadPermits + sampleState.tally (TelegramTask.holds .upload) = 3 ∧
      sampleState.shared.stats.uploadErrors =
        sampleState.tally (TelegramTask.failed .upload) % 2 ^ 64 :=
  have h := accounts_exact sampleState_reachable .upload
  ⟨h.1, h.2.2.2.2.1⟩

end TelegramClient
end TgCryptFs

import TgCryptFs.Deadman.Daemon

set_option autoImplicit false

/-!
# Disarming during the grace period

The flags are read at the head of each round of the grace loop and not after its last
sleep, and a grace period of zero has no round at all. A disarm that comes while another
round is still to come is always heeded.
-/
namespace TgCryptFs
open Library

namespace Daemon

/-- The check that is running may still report, or the trigger has fired and the grace period
    is not over. -/
def inWindow (d : Daemon) : Bool :=
  match d.pc with
  | .check | .evaluating => true
  | .grace start _ | .graceArmed start _ | .graceShutdown start _ | .graceSleep start _ _ =>
    d.now < start + d.gracePeriod
  | _ => false

/-- The check has reported no trigger. -/
def quiet (d : Daemon) : Bool :=
  match d.pc with
  | .sleeping _ => true
  | _ => false

/-- The destruction has not begun. -/
def Spared (d : Daemon) : Prop :=
  match d.pc with
  | .destroying _ | .done (.destroyed _) | .panicked => False
  | _ => True

end Daemon

namespace DaemonEvent

def disarms : DaemonEvent → Bool
  | .disarmController | .disarm | .signalShutdown => true
  | _ => false

/-- The event sets the shutdown flag. -/
def stops (d : Daemon) : DaemonEvent → Bool
  | .disarm => d.armed
  | .signalShutdown => true
  | _ => false

end DaemonEvent

/-- The daemon reads the flags once more before the grace period is over. -/
def Daemon.Heeds (d : Daemon) (e : DaemonEvent) : Prop :=
  match d.pc with
  | .check | .evaluating => 0 < d.gracePeriod
  -- only the shutdown flag is still to be read in this round
  | .graceShutdown start _ => d.now < start + d.gracePeriod →
      e.stops d = true ∨ d.now + Daemon.nanosPerSec < start + d.gracePeriod
  | .graceSleep start wake _ => d.now < start + d.gracePeriod → wake < start + d.gracePeriod
  | _ => True

/-- A daemon, and whether it was disarmed in time: since the check now running began, or since
    the trigger fired and before the end of the grace period. -/
structure Watched where
  daemon : Daemon
  inTime : Bool

namespace Watched

def step (noise : Noise) (shell : Shell) (e : DaemonEvent) (w : Watched) : Watched :=
  let d := w.daemon.step noise shell e
  ⟨d, (w.inTime || e.disarms && w.daemon.inWindow) && !d.quiet⟩

/-- A disarm comes before the flags are read again, a sleep that is due within the grace period
    ends within it, and what was disarmed in time is not armed again. -/
def Heeded (e : DaemonEvent) (w : Watched) : Prop :=
  match e with
  | .next _ => True
  | .arm => w.inTime = false
  | .tick elapsed =>
    match w.daemon.pc with
    | .graceSleep start wake _ => w.inTime = true → wake < start + w.daemon.gracePeriod →
        w.daemon.now + elapsed < start + w.daemon.gracePeriod
    | _ => True
  | e => w.daemon.Heeds e

end Watched

namespace Daemon

variable {noise : Noise} {shell : Shell} {d : Daemon}

/-- A flag is down. -/
def Down (d : Daemon) : Prop := d.armed = false ∨ d.shutdown = true

/-- The clock does not run back behind the start of the grace period. -/
def Timed (d : Daemon) : Prop :=
  match d.pc with
  | .grace start _ | .graceArmed start _ | .graceShutdown start _ | .graceSleep start _ _ =>
    start ≤ d.now
  | _ => True

/-- The daemon is going to read a flag that is down before the grace period is over. -/
def Pending (d : Daemon) : Prop :=
  match d.pc with
  | .check | .evaluating => d.Down ∧ 0 < d.gracePeriod
  | .grace start _ => d.Down ∧ d.now < start + d.gracePeriod
  | .graceArmed _ _ => d.Down
  | .graceShutdown start _ => d.shutdown = true ∨
      d.armed = false ∧ d.now + nanosPerSec < start + d.gracePeriod
  | .graceSleep start wake _ => d.Down ∧ d.now < start + d.gracePeriod ∧
      wake < start + d.gracePeriod
  | .done outcome => ∀ reason, outcome ≠ .destroyed reason
  | _ => False

theorem Pending.spared (h : d.Pending) : d.Spared := by
  unfold Pending at h
  unfold Spared
  split
  · simp_all
  · simp_all
  · simp_all
  · trivial

theorem timed_next (result : TriggerResult) (h : d.Timed) : (next noise shell result d).Timed := by
  obtain ⟨config, armed, state, shutdown, now, pc, fs, progress⟩ := d
  cases pc with
  | evaluating =>
    cases result with
    | fired reason => exact le_refl now
    | ok => trivial
    | error message => trivial
  | grace start reason =>
    unfold next
    dsimp only
    split
    · exact h
    · trivial
  | graceArmed start reason =>
    cases armed with
    | true => exact h
    | false => trivial
  | graceShutdown start reason =>
    cases shutdown with
    | true => trivial
    | false => exact h
  | graceSleep start wake reason =>
    unfold next
    dsimp only
    split
    · exact h
    · exact h
  | loop => cases shutdown <;> trivial
  | armedCheck => cases armed <;> trivial
  | check => cases armed <;> trivial
  | sleeping wake =>
    unfold next
    dsimp only
    split <;> trivial
  | destroying reason =>
    unfold next
    dsimp only
    split <;> trivial
  | done outcome => trivial
  | panicked => trivial

/-- What is pending stays so until the daemon has gone back to sleep or has returned. -/
theorem pending_next (result : TriggerResult) (ht : d.Timed) (h : d.Pending) :
    (next noise shell result d).Pending ∨ (next noise shell result d).quiet = true := by
  obtain ⟨config, armed, state, shutdown, now, pc, fs, progress⟩ := d
  cases pc with
  | check =>
    cases armed with
    | true => exact .inl h
    | false => exact .inr rfl
  | evaluating =>
    cases result with
    | fired reason => exact .inl ⟨h.1, Nat.lt_add_of_pos_right h.2⟩
    | ok => exact .inr rfl
    | error message => exact .inr rfl
  | grace start reason =>
    have hlt : now - start < config.gracePeriodSecs * nanosPerSec := by
      have hle : start ≤ now := ht
      have hend : now < start + config.gracePeriodSecs * nanosPerSec := h.2
      omega
    unfold next
    dsimp only
    split
    · exact .inl h.1
    · rename_i hge
      exact absurd hlt hge
  | graceArmed start reason =>
    cases armed with
    | true => exact .inl (.inl (h.resolve_left fun h => by cases h))
    | false => exact .inl fun reason h => by cases h
  | graceShutdown start reason =>
    cases shutdown with
    | true => exact .inl fun reason h => by cases h
    | false =>
      have hle : start ≤ now := ht
      obtain ⟨harmed, hend⟩ := h.resolve_left fun h => by cases h
      have hend : now + nanosPerSec < start + config.gracePeriodSecs * nanosPerSec := hend
      refine .inl ⟨.inl harmed, ?_, ?_⟩
      · change now < start + config.gracePeriodSecs * nanosPerSec
        omega
      · change now + min nanosPerSec (config.gracePeriodSecs * nanosPerSec - (now - start)) < _
        exact (Nat.add_le_add_left (Nat.min_le_left _ _) now).trans_lt hend
  | graceSleep start wake reason =>
    unfold next
    dsimp only
    split
    · exact .inl h
    · exact .inl ⟨h.1, h.2.1⟩
  | done outcome => exact .inl h
  | loop => exact h.elim
  | armedCheck => exact h.elim
  | sleeping wake => exact h.elim
  | destroying reason => exact h.elim
  | panicked => exact h.elim

theorem pending_tick {elapsed : ℕ} (h : d.Pending) (hw : Watched.Heeded (.tick elapsed) ⟨d, true⟩) :
    (tick elapsed d).Pending := by
  obtain ⟨config, armed, state, shutdown, now, pc, fs, progress⟩ := d
  cases pc with
  | graceSleep start wake reason => exact ⟨h.1, hw rfl h.2.2, h.2.2⟩
  | evaluating => exact h
  | sleeping wake => exact h.elim
  | _ => exact h

theorem timed_tick (elapsed : ℕ) (h : d.Timed) : (tick elapsed d).Timed := by
  obtain ⟨config, armed, state, shutdown, now, pc, fs, progress⟩ := d
  cases pc with
  | graceSleep start wake reason => exact Nat.le_add_right_of_le h
  | _ => exact h

/-- What a disarm leaves: the same place and time, and a flag down. -/
structure Disarmed (d d' : Daemon) : Prop where
  config : d'.config = d.config
  now : d'.now = d.now
  pc : d'.pc = d.pc
  down : d'.Down
  shutdown : d.shutdown = true → d'.shutdown = true
  armed : d.armed = false → d'.armed = false

theorem disarmed_step {e : DaemonEvent} (he : e.disarms = true) :
    Disarmed d (step noise shell e d) := by
  obtain ⟨config, armed, state, shutdown, now, pc, fs, progress⟩ := d
  cases e with
  | disarmController =>
    cases armed with
    | true => exact ⟨rfl, rfl, rfl, .inl rfl, id, fun _ => rfl⟩
    | false => exact ⟨rfl, rfl, rfl, .inl rfl, id, id⟩
  | disarm =>
    cases armed with
    | true => exact ⟨rfl, rfl, rfl, .inl rfl, fun _ => rfl, fun _ => rfl⟩
    | false => exact ⟨rfl, rfl, rfl, .inl rfl, id, id⟩
  | signalShutdown => exact ⟨rfl, rfl, rfl, .inr rfl, fun _ => rfl, id⟩
  | next result => cases he
  | tick elapsed => cases he
  | arm => cases he

theorem Disarmed.timed {d' : Daemon} (h : Disarmed d d') (ht : d.Timed) : d'.Timed := by
  unfold Timed at ht ⊢
  rw [h.pc, h.now]
  exact ht

/-- A disarm in time is going to be seen. -/
theorem Disarmed.pending {d' : Daemon} (h : Disarmed d d') {e : DaemonEvent}
    (hstop : e.stops d = true → d'.shutdown = true) (hheeds : d.Heeds e)
    (hin : d.inWindow = true) : d'.Pending := by
  have hgrace : d'.gracePeriod = d.gracePeriod := by
    rw [gracePeriod, gracePeriod, h.config]
  unfold Pending
  rw [h.pc, h.now, hgrace]
  obtain ⟨config, armed, state, shutdown, now, pc, fs, progress⟩ := d
  cases pc with
  | check => exact ⟨h.down, hheeds⟩
  | evaluating => exact ⟨h.down, hheeds⟩
  | grace start reason => exact ⟨h.down, of_decide_eq_true hin⟩
  | graceArmed start reason => exact h.down
  | graceShutdown start reason =>
    rcases h.down with harmed | hshut
    · exact (hheeds (of_decide_eq_true hin)).imp hstop fun hend => ⟨harmed, hend⟩
    · exact .inl hshut
  | graceSleep start wake reason =>
    exact ⟨h.down, of_decide_eq_true hin, hheeds (of_decide_eq_true hin)⟩
  | _ => cases hin

theorem Disarmed.pending_of_pending {d' : Daemon} (h : Disarmed d d') (hp : d.Pending) :
    d'.Pending := by
  have hgrace : d'.gracePeriod = d.gracePeriod := by
    rw [gracePeriod, gracePeriod, h.config]
  unfold Pending
  rw [h.pc, h.now, hgrace]
  obtain ⟨config, armed, state, shutdown, now, pc, fs, progress⟩ := d
  cases pc with
  | check => exact ⟨h.down, hp.2⟩
  | evaluating => exact ⟨h.down, hp.2⟩
  | grace start reason => exact ⟨h.down, hp.2⟩
  | graceArmed start reason => exact h.down
  | graceShutdown start reason => exact hp.imp h.shutdown fun hp => ⟨h.armed hp.1, hp.2⟩
  | graceSleep start wake reason => exact ⟨h.down, hp.2⟩
  | done outcome => exact hp
  | _ => exact hp.elim

theorem shutdown_of_stops {e : DaemonEvent} (h : e.stops d = true) :
    (step noise shell e d).shutdown = true := by
  cases e with
  | disarm =>
    have harmed : d.armed = true := h
    change (disarm d).shutdown = true
    rw [disarm, if_pos harmed]
  | signalShutdown => rfl
  | _ => cases h

theorem timed_arm (h : d.Timed) : d.arm.Timed := by
  obtain ⟨config, armed, state, shutdown, now, pc, fs, progress⟩ := d
  cases armed <;> exact h

theorem Heeds.of_heeded {e : DaemonEvent} {inTime : Bool} (he : e.disarms = true)
    (h : Watched.Heeded e ⟨d, inTime⟩) : d.Heeds e := by
  cases e with
  | disarmController => exact h
  | disarm => exact h
  | signalShutdown => exact h
  | _ => cases he

theorem timed_step (e : DaemonEvent) (h : d.Timed) : (step noise shell e d).Timed := by
  cases e with
  | next result => exact timed_next result h
  | tick elapsed => exact timed_tick elapsed h
  | arm => exact timed_arm h
  | disarmController => exact (disarmed_step rfl).timed h
  | disarm => exact (disarmed_step rfl).timed h
  | signalShutdown => exact (disarmed_step rfl).timed h

end Daemon

namespace Watched

variable {noise : Noise} {shell : Shell}

/-- Where a daemon was disarmed in time, it is going to see it. -/
structure Inv (w : Watched) : Prop where
  timed : w.daemon.Timed
  pending : w.inTime = true → w.daemon.Pending

theorem inv_step (e : DaemonEvent) (w : Watched) (h : w.Inv) (he : Heeded e w) :
    (step noise shell e w).Inv := by
  refine ⟨Daemon.timed_step e h.timed, fun hin => ?_⟩
  obtain ⟨hset, hquiet⟩ := Bool.and_eq_true_iff.1 hin
  rw [Bool.or_eq_true, Bool.and_eq_true_iff] at hset
  obtain ⟨d, inTime⟩ := w
  by_cases hdis : e.disarms = true
  · have hd := @Daemon.disarmed_step noise shell d e hdis
    rcases hset with hset | ⟨-, hwin⟩
    · exact hd.pending_of_pending (h.pending hset)
    · exact hd.pending Daemon.shutdown_of_stops (.of_heeded hdis he) hwin
  · have hset : inTime = true := hset.resolve_right fun h => hdis h.1
    subst hset
    cases e with
    | next result =>
      rcases Daemon.pending_next result h.timed (h.pending rfl) with hp | hq
      · exact hp
      · rw [show (Daemon.step noise shell (.next result) d).quiet = true from hq] at hquiet
        cases hquiet
    | tick elapsed => exact Daemon.pending_tick (h.pending rfl) he
    | arm => cases he
    | _ => exact absurd rfl hdis

end Watched

/-- Disarmed in time, the daemon destroys nothing, in every run in which the flags are still to
    be read when it is disarmed. -/
theorem disarmed_in_time_spares {noise : Noise} {shell : Shell} {config : DeadmanConfig} {now : ℕ}
    {fs : Fs} {w : Watched}
    (h : Runs (Watched.step noise shell) Watched.Heeded ⟨Daemon.new config now fs, false⟩ w) :
    w.inTime = true → w.daemon.Spared := by
  have hinv : w.Inv := by
    refine h.invariant Watched.Inv ?_ fun e w hw he => Watched.inv_step e w hw he
    exact ⟨trivial, fun h => by cases h⟩
  exact fun hin => (hinv.pending hin).spared

namespace Sample

def watched (gracePeriodSecs : ℕ) : Watched :=
  ⟨Daemon.new { deadmanConfig with gracePeriodSecs := gracePeriodSecs } 0 mountedDisk, false⟩

/-- The trigger fires, the daemon reads its flags and goes to sleep; the service disarms it
    `elapsed` later, and the daemon wakes up when its second is over. -/
def disarmEvents (elapsed : ℕ) : List DaemonEvent :=
  [.arm, .next .ok, .next .ok, .next .ok, .next (.fired "custom command exited with code 1"),
    .next .ok, .next .ok, .next .ok, .tick elapsed, .signalShutdown,
    .tick (Daemon.nanosPerSec - elapsed), .next .ok, .next .ok, .next .ok, .next .ok]

def watchedStep : DaemonEvent → Watched → Watched :=
  Watched.step (fun _ _ _ => 0) fun _ fs => (some 0, fs)

end Sample

theorem disarmed_in_time_spares_of_long_grace :
    (Runs.runAll Sample.watchedStep (Sample.disarmEvents 200000000) (Sample.watched 5)).inTime = true ∧
    (Runs.runAll Sample.watchedStep (Sample.disarmEvents 200000000) (Sample.watched 5)).daemon.Spared := by
  have hin : (Runs.runAll Sample.watchedStep (Sample.disarmEvents 200000000)
      (Sample.watched 5)).inTime = true := by
    decide +kernel
  refine ⟨hin, disarmed_in_time_spares (Runs.of_admits _ .start ?_) hin⟩
  refine ⟨rfl, trivial, trivial, trivial, trivial, trivial, trivial, trivial, fun h => ?_, fun _ => ?_,
    fun _ _ => ?_, trivial, trivial, trivial, trivial, trivial⟩
  · cases h
  · decide +kernel
  · decide +kernel

theorem disarmed_in_last_second_destroys :
    (Runs.runAll Sample.watchedStep (Sample.disarmEvents 500000000) (Sample.watched 1)).inTime = true ∧
    (Runs.runAll Sample.watchedStep (Sample.disarmEvents 500000000) (Sample.watched 1)).daemon.pc =
      .done (.destroyed "custom command exited with code 1") := by
  decide +kernel

end TgCryptFs

import TgCryptFs.Deadman.Hooks
import TgCryptFs.Store.MetaStores

set_option autoImplicit false

/-!
# Missed heartbeats

The evaluator leaves the check-in times to the daemon, and the daemon leaves them to the
evaluator. A heartbeat that is overdue is noticed only if some other trigger fires.
-/
namespace TgCryptFs
open Library TriggerEvaluator

/-- A daemon beside the store in which the check-ins of its volume are kept. -/
structure WatchedHeartbeat where
  daemon : Daemon
  deadmen : Deadmen
  volumeId : String

inductive HeartbeatEvent where
  | daemon (e : CheckEvent)
  /-- `update_last_check`, of this volume or another. -/
  | checkIn (volumeId : String) (timestamp : ℤ)

namespace WatchedHeartbeat

def lastCheck (s : WatchedHeartbeat) : Option ℤ :=
  (s.deadmen.find s.volumeId).bind DeadmanRow.lastCheck

variable (noise : Noise) (shell : Shell)

def step : HeartbeatEvent → WatchedHeartbeat → WatchedHeartbeat
  | .daemon e, s => { s with daemon := s.daemon.checkedStep noise shell e }
  | .checkIn volumeId timestamp, s =>
    { s with deadmen := DeadmanStore.updateLastCheck volumeId timestamp s.deadmen }

/-- The wall clock in nanoseconds. It stood at `epoch` when the clock of the daemon stood at zero. -/
def wallClock (epoch : ℤ) (s : WatchedHeartbeat) : ℤ := epoch + s.daemon.now

/-- The trigger is an active heartbeat, and its timeout has passed since the last check-in. -/
def Overdue (epoch : ℤ) (s : WatchedHeartbeat) (config : TriggerConfig) : Prop :=
  config.active = true ∧ ∃ timeoutSecs timestamp, config.params = .heartbeat timeoutSecs ∧
    s.lastCheck = some timestamp ∧
    (timestamp + timeoutSecs) * Daemon.nanosPerSec < s.wallClock epoch

/-- If the trigger is active, it is a heartbeat within its timeout. -/
def InTime (epoch : ℤ) (s : WatchedHeartbeat) (config : TriggerConfig) : Prop :=
  config.active = true → ∃ timeoutSecs timestamp, config.params = .heartbeat timeoutSecs ∧
    s.lastCheck = some timestamp ∧
    s.wallClock epoch ≤ (timestamp + timeoutSecs) * Daemon.nanosPerSec

/-- A check that is over with what its triggers `met` goes by the check-ins. -/
structure Heeded (epoch : ℤ) (met : ℕ → Surroundings) (s : WatchedHeartbeat) : Prop where
  fires : (∃ config ∈ s.daemon.config.triggers, s.Overdue epoch config) →
    ∃ reason, evaluateAll met s.daemon.config.triggers = .fired reason ∧
      (step noise shell (.daemon (.next met)) s).daemon.pc = .grace s.daemon.now reason
  spares : (∀ config ∈ s.daemon.config.triggers, s.InTime epoch config) →
    ∀ reason, evaluateAll met s.daemon.config.triggers ≠ .fired reason

/-- Every check of a run does. -/
def HeedsCheckIns (epoch : ℤ) (e : HeartbeatEvent) (s : WatchedHeartbeat) : Prop :=
  ∀ met, e = .daemon (.next met) → s.daemon.pc = .evaluating → Heeded noise shell epoch met s

/-- Where a check finds a heartbeat overdue, another trigger fires. -/
def AnotherFires (epoch : ℤ) (e : HeartbeatEvent) (s : WatchedHeartbeat) : Prop :=
  ∀ met, e = .daemon (.next met) → s.daemon.pc = .evaluating →
    (∃ config ∈ s.daemon.config.triggers, s.Overdue epoch config) →
      Somewhere Fires met s.daemon.config.triggers

variable {noise : Noise} {shell : Shell} {epoch : ℤ} {met : ℕ → Surroundings} {s : WatchedHeartbeat}

/-- Heartbeats within their timeouts never fire, nor do those that are overdue. -/
theorem not_fires_of_inTime (h : ∀ config ∈ s.daemon.config.triggers, s.InTime epoch config) :
    ¬ Somewhere Fires met s.daemon.config.triggers := by
  rintro ⟨i, config, hc, hactive, hfires⟩
  obtain ⟨timeoutSecs, timestamp, hparams, -, -⟩ := h config (List.mem_of_getElem? hc) hactive
  rw [hparams] at hfires
  exact hfires

theorem heeded_iff (h : s.daemon.pc = .evaluating) : Heeded noise shell epoch met s ↔
    ((∃ config ∈ s.daemon.config.triggers, s.Overdue epoch config) →
      Somewhere Fires met s.daemon.config.triggers) := by
  constructor
  · intro hheeded hover
    obtain ⟨reason, hall, -⟩ := hheeded.fires hover
    exact evaluateAll_fired_iff.1 ⟨reason, hall⟩
  · intro hanother
    refine ⟨fun hover => ?_, fun hin reason hall => ?_⟩
    · obtain ⟨reason, hall⟩ := evaluateAll_fired_iff.2 (hanother hover)
      have hstep : (step noise shell (.daemon (.next met)) s).daemon =
          s.daemon.next noise shell (evaluateAll met s.daemon.config.triggers) := rfl
      refine ⟨reason, hall, ?_⟩
      rw [hstep, hall]
      exact Daemon.pc_next_fired reason h
    · exact not_fires_of_inTime hin (evaluateAll_fired_iff.1 ⟨reason, hall⟩)

/-! ## The last check-in -/

/-- The time of a check-in of the volume. -/
def checkInOf (volumeId : String) : HeartbeatEvent → Option ℤ
  | .checkIn volumeId' timestamp => if volumeId' = volumeId then some timestamp else none
  | .daemon _ => none

theorem find_step (e : HeartbeatEvent) :
    (step noise shell e s).deadmen.find s.volumeId = (s.deadmen.find s.volumeId).map fun row =>
      { row with lastCheck := (checkInOf s.volumeId e).or row.lastCheck } := by
  cases e with
  | daemon e =>
    change s.deadmen.find s.volumeId = _
    cases s.deadmen.find s.volumeId <;> rfl
  | checkIn volumeId timestamp =>
    change (DeadmanStore.updateLastCheck volumeId timestamp s.deadmen).find s.volumeId = _
    rw [DeadmanStore.updateLastCheck, Table.find_modify]
    by_cases h : volumeId = s.volumeId
    · subst h
      rw [Function.update_self, checkInOf, if_pos rfl]
      rfl
    · rw [Function.update_of_ne (Ne.symm h), checkInOf, if_neg h]
      cases s.deadmen.find s.volumeId <;> rfl

theorem volumeId_step (e : HeartbeatEvent) : (step noise shell e s).volumeId = s.volumeId := by
  cases e <;> rfl

/-- What the store holds of a volume it knows is the last of the check-ins. -/
theorem lastCheck_runAll (es : List HeartbeatEvent) (h : (s.deadmen.find s.volumeId).isSome = true) :
    (Runs.runAll (step noise shell) es s).lastCheck =
      (es.filterMap (checkInOf s.volumeId)).getLast?.or s.lastCheck := by
  induction es generalizing s with
  | nil => rfl
  | cons e es ih =>
    have hrow : ((step noise shell e s).deadmen.find (step noise shell e s).volumeId).isSome = true := by
      rw [volumeId_step, find_step, Option.isSome_map]
      exact h
    have hlast : (step noise shell e s).lastCheck = (checkInOf s.volumeId e).or s.lastCheck := by
      rw [lastCheck, lastCheck, volumeId_step, find_step]
      obtain ⟨row, hfind⟩ := Option.isSome_iff_exists.1 h
      rw [hfind]
      rfl
    change (Runs.runAll (step noise shell) es (step noise shell e s)).lastCheck = _
    rw [ih hrow, hlast, volumeId_step, List.filterMap_cons]
    cases checkInOf s.volumeId e with
    | none => rfl
    | some timestamp =>
      dsimp only
      rw [List.getLast?_cons]
      cases (es.filterMap (checkInOf s.volumeId)).getLast? <;> rfl

end WatchedHeartbeat

/-- The checks of a run go by the check-ins exactly where another trigger fires whenever a
    heartbeat is overdue. -/
theorem checkIns_heeded_iff {noise : Noise} {shell : Shell} (epoch : ℤ) {config : DeadmanConfig}
    {now : ℕ} {fs : Fs} {deadmen : Deadmen} {volumeId : String} (es : List HeartbeatEvent) :
    Runs.Admits (WatchedHeartbeat.step noise shell)
        (WatchedHeartbeat.HeedsCheckIns noise shell epoch) es
        ⟨Daemon.new config now fs, deadmen, volumeId⟩ ↔
      Runs.Admits (WatchedHeartbeat.step noise shell) (WatchedHeartbeat.AnotherFires epoch) es
        ⟨Daemon.new config now fs, deadmen, volumeId⟩ := by
  refine Runs.admits_congr (fun e s => ?_) es _
  refine forall_congr' fun met => forall_congr' fun _ => forall_congr' fun hpc => ?_
  exact WatchedHeartbeat.heeded_iff hpc

namespace Sample

def heartbeatTriggers : List TriggerConfig := [⟨true, .heartbeat 60⟩]

def heartbeatStart : WatchedHeartbeat where
  daemon := Daemon.new { deadmanConfig with triggers := heartbeatTriggers }
    (100 * Daemon.nanosPerSec) mountedDisk
  deadmen := ⟨[⟨"v", [], true, none⟩], by decide, by decide⟩
  volumeId := "v"

/-- A check-in at zero, and a check a hundred seconds later. -/
def silentEvents : List HeartbeatEvent :=
  [.checkIn "v" 0, .daemon .arm, .daemon (.next fun _ => unreachable),
    .daemon (.next fun _ => unreachable), .daemon (.next fun _ => unreachable),
    .daemon (.next fun _ => unreachable)]

end Sample

theorem silence_unheeded :
    ¬ Runs.Admits (WatchedHeartbeat.step (fun _ _ _ => 0) fun _ fs => (some 0, fs))
      (WatchedHeartbeat.HeedsCheckIns (fun _ _ _ => 0) (fun _ fs => (some 0, fs)) 0)
      Sample.silentEvents Sample.heartbeatStart := by
  rintro ⟨-, -, -, -, -, h, -⟩
  have hheeded := h (fun _ => Sample.unreachable) rfl rfl
  obtain ⟨reason, hfired, -⟩ := hheeded.fires
    ⟨_, List.mem_cons_self, rfl, 60, 0, rfl, rfl, by decide +kernel⟩
  cases hfired

end TgCryptFs

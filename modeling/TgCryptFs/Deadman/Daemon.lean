import TgCryptFs.Deadman.Destroy
import TgCryptFs.Library.Runs

set_option autoImplicit false

/-!
# The deadman daemon

`run` with every load of a flag as a step of its own, so that the controller and the API may
act between any two of them. The clock counts nanoseconds and moves while the daemon sleeps
or waits for a check.
-/
namespace TgCryptFs
open Library

inductive OsEventType where
  | userLogin (username : String)
  | shutdown
  | processStart (name : String)
  | usbInsert
deriving DecidableEq

inductive TriggerParams where
  | heartbeat (timeoutSecs : ℕ)
  | networkCheck (host : String) (port timeoutSecs : ℕ)
  | rpcCheck (url : String) (expectedStatus timeoutSecs : ℕ)
  | osEvent (eventType : OsEventType)
  | custom (command : String) (timeoutSecs : ℕ)
deriving DecidableEq

structure TriggerConfig where
  active : Bool
  params : TriggerParams
deriving DecidableEq

structure DeadmanConfig where
  enabled : Bool
  checkIntervalSecs : ℕ
  gracePeriodSecs : ℕ
  maxMissedChecks : ℕ
  triggers : List TriggerConfig
  destruction : DestructionConfig
deriving DecidableEq

inductive TriggerResult where
  | ok
  | fired (reason : String)
  | error (message : String)
deriving DecidableEq

inductive DeadmanState where
  | disarmed
  | armed
  | gracePeriod (reason : String) (remainingSecs : ℕ)
  | destroying
  | destroyed
deriving DecidableEq

inductive DaemonOutcome where
  | shutdown
  | destroyed (reason : String)
  | disarmed
deriving DecidableEq

/-- Where `run` is. -/
inductive DaemonPc where
  | loop
  | armedCheck
  /-- `check` has been called and has not looked at the flag yet. -/
  | check
  | evaluating
  | sleeping (wake : ℕ)
  /-- The condition of the grace loop. -/
  | grace (start : ℕ) (reason : String)
  | graceArmed (start : ℕ) (reason : String)
  | graceShutdown (start : ℕ) (reason : String)
  | graceSleep (start wake : ℕ) (reason : String)
  | destroying (reason : String)
  | done (outcome : DaemonOutcome)
  | panicked
deriving DecidableEq

/-- `DeadmanDaemon` with its controller, the clock and the disk. -/
structure Daemon where
  config : DeadmanConfig
  armed : Bool
  state : DeadmanState
  shutdown : Bool
  now : ℕ
  pc : DaemonPc
  fs : Fs
  progress : Option DestructionProgress

namespace Daemon

def nanosPerSec : ℕ := 1000000000

def checkInterval (d : Daemon) : ℕ := d.config.checkIntervalSecs * nanosPerSec

def gracePeriod (d : Daemon) : ℕ := d.config.gracePeriodSecs * nanosPerSec

def new (config : DeadmanConfig) (now : ℕ) (fs : Fs) : Daemon where
  config := config
  armed := false
  state := .disarmed
  shutdown := false
  now := now
  pc := .loop
  fs := fs
  progress := none

/-- `DeadmanController::arm`. -/
def arm (d : Daemon) : Daemon := if d.armed then d else { d with armed := true, state := .armed }

/-- `DeadmanController::disarm`, which fails when nothing is armed. -/
def disarmController (d : Daemon) : Daemon :=
  if d.armed then { d with armed := false, state := .disarmed } else d

/-- `DeadmanDaemon::disarm`. -/
def disarm (d : Daemon) : Daemon :=
  if d.armed then { d.disarmController with shutdown := true } else d

/-- The flag `DeadmanService::disarm` sets. -/
def signalShutdown (d : Daemon) : Daemon := { d with shutdown := true }

/-- The next step of `run`. A check ends with `result`; a sleep that is not over goes on. -/
def next (noise : Noise) (shell : Shell) (result : TriggerResult) (d : Daemon) : Daemon :=
  match d.pc with
  | .loop => if d.shutdown then { d with pc := .done .shutdown } else { d with pc := .armedCheck }
  | .armedCheck =>
    if d.armed then { d with pc := .check } else { d with pc := .sleeping (d.now + d.checkInterval) }
  | .check =>
    if d.armed then { d with pc := .evaluating }
    else { d with pc := .sleeping (d.now + d.checkInterval) }
  | .evaluating =>
    match result with
    | .fired reason => { d with pc := .grace d.now reason }
    | _ => { d with pc := .sleeping (d.now + d.checkInterval) }
  | .sleeping wake => if d.now < wake then d else { d with pc := .loop }
  | .grace start reason =>
    if d.now - start < d.gracePeriod then { d with pc := .graceArmed start reason }
    else { d with pc := .destroying reason }
  | .graceArmed start reason =>
    if d.armed then { d with pc := .graceShutdown start reason } else { d with pc := .done .disarmed }
  | .graceShutdown start reason =>
    if d.shutdown then { d with pc := .done .disarmed }
    else
      let remaining := d.gracePeriod - (d.now - start)
      { d with pc := .graceSleep start (d.now + min nanosPerSec remaining) reason }
  | .graceSleep start wake reason => if d.now < wake then d else { d with pc := .grace start reason }
  | .destroying reason =>
    match DestructionExecutor.execute noise shell d.config.destruction none none d.fs with
    | (none, fs') => { d with fs := fs', pc := .panicked }
    | (some progress, fs') =>
      { d with fs := fs', progress := some progress, pc := .done (.destroyed reason) }
  | .done _ => d
  | .panicked => d

/-- Time passes while the daemon waits. -/
def tick (elapsed : ℕ) (d : Daemon) : Daemon :=
  match d.pc with
  | .evaluating | .sleeping _ | .graceSleep _ _ _ => { d with now := d.now + elapsed }
  | _ => d

end Daemon

inductive DaemonEvent where
  | next (result : TriggerResult)
  | tick (elapsed : ℕ)
  | arm
  | disarmController
  | disarm
  | signalShutdown
deriving DecidableEq

namespace Daemon

variable (noise : Noise) (shell : Shell)

def step : DaemonEvent → Daemon → Daemon
  | .next result => next noise shell result
  | .tick elapsed => tick elapsed
  | .arm => arm
  | .disarmController => disarmController
  | .disarm => disarm
  | .signalShutdown => signalShutdown

variable {noise : Noise} {shell : Shell}

/-- No step of the daemon touches a file: the destruction gets no paths. -/
theorem fs_step (e : DaemonEvent) (d : Daemon) : (step noise shell e d).fs = d.fs := by
  cases e with
  | next result =>
    change (next noise shell result d).fs = d.fs
    unfold next
    split
    case h_10 =>
      have hfs := @DestructionExecutor.execute_none noise shell d.config.destruction d.fs
      split
      · rename_i he
        rw [he] at hfs
        exact hfs
      · rename_i he
        rw [he] at hfs
        exact hfs
    all_goals first
      | rfl
      | (split <;> rfl)
  | tick elapsed =>
    change (tick elapsed d).fs = d.fs
    unfold tick
    split <;> rfl
  | arm =>
    change (arm d).fs = d.fs
    unfold arm
    split <;> rfl
  | disarmController =>
    change (disarmController d).fs = d.fs
    unfold disarmController
    split <;> rfl
  | disarm =>
    change (disarm d).fs = d.fs
    unfold disarm disarmController
    split <;> rfl
  | signalShutdown => rfl

theorem fs_runs {admitted : DaemonEvent → Daemon → Prop} {d₀ d : Daemon}
    (h : Runs (step noise shell) admitted d₀ d) : d.fs = d₀.fs := by
  refine h.invariant (fun d => d.fs = d₀.fs) rfl fun e d hd _ => ?_
  rw [fs_step, hd]

/-- `run` has returned `Destroyed` and no phase has recorded an error. -/
def DestroyedCleanly (d : Daemon) : Prop :=
  (∃ reason, d.pc = .done (.destroyed reason)) ∧
    ∃ progress, d.progress = some progress ∧ progress.errors = []

end Daemon

/-- When `run` has destroyed, the database is gone exactly when there was none before, and so is
    the cache. -/
theorem destroyed_gone_iff {noise : Noise} {shell : Shell} {config : DeadmanConfig} {now : ℕ}
    {fs : Fs} {d : Daemon} (base : Pieces)
    (h : Runs (Daemon.step noise shell) (fun _ _ => True) (Daemon.new config now fs) d) :
    d.DestroyedCleanly →
    (.shredDatabase ∈ config.destruction.phases → config.destruction.shredMetadataDb = true →
      (d.fs.existsAt (VolumePaths.new base).dbPath = false ↔
        fs.existsAt (VolumePaths.new base).dbPath = false)) ∧
    (.wipeCache ∈ config.destruction.phases → config.destruction.wipeCache = true →
      (d.fs.existsAt (VolumePaths.new base).cacheDir = false ↔
        fs.existsAt (VolumePaths.new base).cacheDir = false)) := by
  intro _
  have hfs : d.fs = fs := Daemon.fs_runs h
  rw [hfs]
  exact ⟨fun _ _ => Iff.rfl, fun _ _ => Iff.rfl⟩

namespace Sample

/-- A trigger that fires at once, no grace period, and the default destruction. -/
def deadmanConfig : DeadmanConfig where
  enabled := true
  checkIntervalSecs := 300
  gracePeriodSecs := 0
  maxMissedChecks := 3
  triggers := [⟨true, .custom "false" 5⟩]
  destruction := default

/-- A volume with a database and a cache. -/
def mountedDisk : Fs :=
  FileSystem.ofEntries
    [([], .dir), (["v"], .dir), (["v", "metadata.db"], .file 0), (["v", "cache"], .dir),
      (["v", "cache", "00"], .file 1)]
    (fun _ => [1, 2, 3]) (by decide +kernel) (by decide) (by decide +kernel)

/-- Armed, and then through the loop until the destruction is over. -/
def destructionEvents : List DaemonEvent :=
  [.arm, .next .ok, .next .ok, .next .ok, .next (.fired "custom command exited with code 1"),
    .next .ok, .next .ok]

def destroyedDaemon : Daemon :=
  Runs.runAll (Daemon.step (fun _ _ _ => 0) (fun _ fs => (some 0, fs))) destructionEvents
    (Daemon.new deadmanConfig 0 mountedDisk)

theorem destroyedDaemon_runs :
    Runs (Daemon.step (fun _ _ _ => 0) (fun _ fs => (some 0, fs))) (fun _ _ => True)
      (Daemon.new deadmanConfig 0 mountedDisk) destroyedDaemon :=
  Runs.of_admits _ .start (Runs.admits_of_forall _ (fun _ _ _ => trivial) _)

theorem destroyedDaemon_cleanly : destroyedDaemon.DestroyedCleanly :=
  ⟨⟨"custom command exited with code 1", by decide +kernel⟩,
    ⟨4, 4, none, []⟩, by decide +kernel, rfl⟩

end Sample

theorem destroyed_gone_of_stale : ∃ progress, Sample.destroyedDaemon.progress = some progress ∧
    progress.errors = [] ∧
    (Sample.destroyedDaemon.fs.existsAt (VolumePaths.new ["", "w"]).dbPath = false ↔
      Sample.mountedDisk.existsAt (VolumePaths.new ["", "w"]).dbPath = false) := by
  obtain ⟨progress, hp, he⟩ := Sample.destroyedDaemon_cleanly.2
  exact ⟨progress, hp, he, (destroyed_gone_iff ["", "w"] Sample.destroyedDaemon_runs
    Sample.destroyedDaemon_cleanly).1 (by decide) rfl⟩

theorem destroyed_keeps_database :
    Runs (Daemon.step (fun _ _ _ => 0) (fun _ fs => (some 0, fs))) (fun _ _ => True)
      (Daemon.new Sample.deadmanConfig 0 Sample.mountedDisk) Sample.destroyedDaemon ∧
    Sample.destroyedDaemon.DestroyedCleanly ∧
    .shredDatabase ∈ Sample.deadmanConfig.destruction.phases ∧
    Sample.deadmanConfig.destruction.shredMetadataDb = true ∧
    ¬ Sample.destroyedDaemon.fs.existsAt (VolumePaths.new ["", "v"]).dbPath = false ∧
    .wipeCache ∈ Sample.deadmanConfig.destruction.phases ∧
    Sample.deadmanConfig.destruction.wipeCache = true ∧
    ¬ Sample.destroyedDaemon.fs.existsAt (VolumePaths.new ["", "v"]).cacheDir = false :=
  ⟨Sample.destroyedDaemon_runs, Sample.destroyedDaemon_cleanly, by decide, rfl, by decide +kernel,
    by decide, rfl, by decide +kernel⟩

end TgCryptFs

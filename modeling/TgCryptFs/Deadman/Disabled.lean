import TgCryptFs.Deadman.DeadmanService
import TgCryptFs.Deadman.Hooks

set_option autoImplicit false

/-!
# A disabled deadman

`enabled` is shown by the listings and read by nothing else. A disabled deadman that is armed
checks its triggers and destroys like any other, so that all that spares the volume is a list
without a trigger that can fire.
-/
namespace TgCryptFs
open Library

/-- What is loaded where no configuration is saved. -/
instance : Inhabited DeadmanConfig where
  default :=
    { enabled := false
      checkIntervalSecs := 300
      gracePeriodSecs := 60
      maxMissedChecks := 3
      triggers := []
      destruction := default }

namespace TriggerConfig

/-- An active trigger of a kind whose evaluation may report. -/
def mayFire (config : TriggerConfig) : Bool :=
  config.active &&
    match config.params with
    | .networkCheck _ _ _ | .custom _ _ => true
    | _ => false

end TriggerConfig

namespace TriggerEvaluator

/-- Nothing answers and no command ends. -/
def silent : Surroundings where
  connect _ _ := .timedOut
  runCommand _ _ := .timedOut
  quoted s := s

theorem Fires.mayFire {s : Surroundings} {config : TriggerConfig} (h : Fires s config) :
    config.mayFire = true := by
  obtain ⟨active, params⟩ := config
  obtain ⟨hactive, hparams⟩ := h
  cases params with
  | networkCheck host port timeoutSecs => exact Bool.and_eq_true_iff.2 ⟨hactive, rfl⟩
  | custom command timeoutSecs => exact Bool.and_eq_true_iff.2 ⟨hactive, rfl⟩
  | heartbeat timeoutSecs => exact hparams.elim
  | rpcCheck url expectedStatus timeoutSecs => exact hparams.elim
  | osEvent eventType => exact hparams.elim

theorem fires_silent {config : TriggerConfig} (h : config.mayFire = true) : Fires silent config := by
  obtain ⟨active, params⟩ := config
  obtain ⟨hactive, hparams⟩ := Bool.and_eq_true_iff.1 h
  cases params with
  | networkCheck host port timeoutSecs => exact ⟨hactive, ConnectOutcome.noConfusion⟩
  | custom command timeoutSecs => exact ⟨hactive, .inl rfl⟩
  | heartbeat timeoutSecs => cases hparams
  | rpcCheck url expectedStatus timeoutSecs => cases hparams
  | osEvent eventType => cases hparams

variable {configs : List TriggerConfig}

theorem not_somewhere_fires (h : ∀ config ∈ configs, config.mayFire = false)
    (met : ℕ → Surroundings) : ¬ Somewhere Fires met configs := by
  rintro ⟨i, config, hc, hfires⟩
  have hmay := h config (List.mem_of_getElem? hc)
  rw [hfires.mayFire] at hmay
  cases hmay

theorem evaluateAll_silent (h : ∃ config ∈ configs, config.mayFire = true) :
    ∃ reason, evaluateAll (fun _ => silent) configs = .fired reason := by
  obtain ⟨config, hmem, hmay⟩ := h
  obtain ⟨i, hi⟩ := List.mem_iff_getElem?.1 hmem
  exact evaluateAll_fired_iff.2 ⟨i, config, hi, fires_silent hmay⟩

end TriggerEvaluator

/-! ## One daemon -/

namespace Daemon

/-- The destruction is due, or `run` has returned from it. -/
def Destroys (d : Daemon) : Prop :=
  match d.pc with
  | .destroying _ | .done (.destroyed _) => True
  | _ => False

/-- No trigger has fired. A panic may have come all the same. -/
def Unfired (d : Daemon) : Prop := d.triggered = true → d.pc = .panicked

/-- No trigger of the daemon can fire. -/
def Harmless (d : Daemon) : Prop := ∀ config ∈ d.config.triggers, config.mayFire = false

variable {noise : Noise} {shell : Shell} {d : Daemon}

theorem Unfired.not_destroys (h : d.Unfired) : ¬ d.Destroys := by
  intro hd
  unfold Destroys at hd
  unfold Unfired triggered at h
  split at hd
  · rename_i hpc
    rw [hpc] at h
    cases h rfl
  · rename_i hpc
    rw [hpc] at h
    cases h rfl
  · exact hd

theorem unfired_checkedStep (e : CheckEvent) (hd : d.Harmless) (h : d.Unfired) :
    (checkedStep noise shell e d).Unfired := by
  intro hfired
  by_cases hcheck : ∃ met, e = .next met ∧ d.pc = .evaluating
  · obtain ⟨met, rfl, hpc⟩ := hcheck
    exact absurd ((triggered_check_iff hpc).1 hfired)
      (TriggerEvaluator.not_somewhere_fires hd met)
  · rw [triggered_checkedStep fun met he hpc => hcheck ⟨met, he, hpc⟩] at hfired
    have hpc := h hfired
    cases e with
    | next met =>
      change (next noise shell _ d).pc = .panicked
      unfold next
      rw [hpc]
      exact hpc
    | tick elapsed => exact (pc_step (e := .tick elapsed) nofun).trans hpc
    | arm => exact (pc_step (e := .arm) nofun).trans hpc
    | disarmController => exact (pc_step (e := .disarmController) nofun).trans hpc
    | disarm => exact (pc_step (e := .disarm) nofun).trans hpc
    | signalShutdown => exact (pc_step (e := .signalShutdown) nofun).trans hpc

theorem unfired_panic (h : d.Unfired) : (panic d).Unfired := by
  intro hfired
  unfold panic at hfired ⊢
  split at hfired
  · rename_i hpc
    have hpanicked := h hfired
    rw [hpc] at hpanicked
    cases hpanicked
  · rfl

/-- The steps of `run` and the time that passes in it. -/
def Own : CheckEvent → Prop
  | .next _ | .tick _ => True
  | _ => False

theorem config_runs {admitted : CheckEvent → Daemon → Prop} {d₀ : Daemon}
    (h : Runs (checkedStep noise shell) admitted d₀ d) : d.config = d₀.config :=
  h.invariant (fun d' => d'.config = d₀.config) rfl fun e _ hd _ => (config_checkedStep e).trans hd

/-- The next step of `run` where a check, if one is over with it, finds nothing that answers. -/
abbrev silentNext : CheckEvent := .next fun _ => TriggerEvaluator.silent

/-- Undisturbed, `run` gets from `d₀` to `d`. -/
abbrev Comes (noise : Noise) (shell : Shell) (d₀ d : Daemon) : Prop :=
  Runs (checkedStep noise shell) (fun e _ => Own e) d₀ d

theorem checkedStep_silentNext : checkedStep noise shell silentNext d = next noise shell
    (TriggerEvaluator.evaluateAll (fun _ => TriggerEvaluator.silent) d.config.triggers) d := rfl

section

variable {start wake : ℕ} {reason : String}

theorem silentNext_grace (hgrace : d.now - start < d.gracePeriod) :
    checkedStep noise shell silentNext { d with pc := .grace start reason } =
      { d with pc := .graceArmed start reason } := by
  rw [checkedStep_silentNext]
  unfold next
  exact if_pos hgrace

theorem silentNext_grace_over (hgrace : ¬ d.now - start < d.gracePeriod) :
    checkedStep noise shell silentNext { d with pc := .grace start reason } =
      { d with pc := .destroying reason } := by
  rw [checkedStep_silentNext]
  unfold next
  exact if_neg hgrace

theorem silentNext_graceArmed (harmed : d.armed = true) :
    checkedStep noise shell silentNext { d with pc := .graceArmed start reason } =
      { d with pc := .graceShutdown start reason } := by
  rw [checkedStep_silentNext]
  unfold next
  exact if_pos harmed

theorem silentNext_graceShutdown (hshutdown : d.shutdown = false) :
    ∃ wake ≤ d.now + d.gracePeriod,
      checkedStep noise shell silentNext { d with pc := .graceShutdown start reason } =
        { d with pc := .graceSleep start wake reason } := by
  have hwake : min nanosPerSec (d.gracePeriod - (d.now - start)) ≤ d.gracePeriod :=
    (min_le_right _ _).trans (Nat.sub_le _ _)
  refine ⟨_, Nat.add_le_add_left hwake d.now, ?_⟩
  rw [checkedStep_silentNext]
  unfold next
  exact if_neg (ne_true_of_eq_false hshutdown)

theorem silentNext_graceSleep (hwake : wake ≤ d.now) :
    checkedStep noise shell silentNext { d with pc := .graceSleep start wake reason } =
      { d with pc := .grace start reason } := by
  rw [checkedStep_silentNext]
  unfold next
  exact if_neg (not_lt.2 hwake)

end

/-- The command line arms first. -/
theorem runs_of_comes {config : DeadmanConfig} {now : ℕ} {fs : Fs}
    (h : Comes noise shell (new config now fs).arm d) :
    Runs (checkedStep noise shell) (fun _ _ => True) (new config now fs) d := by
  induction h with
  | start => exact Runs.start.next_eq .arm trivial rfl
  | next _ _ ih => exact ih.next trivial

/-- A grace period that nobody ends comes to its end: here in one round, with a sleep as long as
    the whole period. -/
theorem destroys_of_grace {d₀ : Daemon} {reason : String} (harmed : d.armed = true)
    (hshutdown : d.shutdown = false) (h : Comes noise shell d₀ { d with pc := .grace d.now reason }) :
    ∃ d', Comes noise shell d₀ d' ∧ d'.Destroys := by
  by_cases hgrace : d.now - d.now < d.gracePeriod
  · have hround : Comes noise shell d₀ { d with pc := .graceArmed d.now reason } :=
      h.next_eq silentNext trivial (silentNext_grace hgrace)
    have hflag : Comes noise shell d₀ { d with pc := .graceShutdown d.now reason } :=
      hround.next_eq silentNext trivial (silentNext_graceArmed harmed)
    obtain ⟨wake, hwake, hround⟩ :=
      @silentNext_graceShutdown noise shell d d.now reason hshutdown
    have hsleep : Comes noise shell d₀ { d with pc := .graceSleep d.now wake reason } :=
      hflag.next_eq silentNext trivial hround
    let late : Daemon := { d with now := d.now + d.gracePeriod }
    have htick : Comes noise shell d₀ { late with pc := .graceSleep d.now wake reason } :=
      hsleep.next_eq (.tick d.gracePeriod) trivial rfl
    have hawake : Comes noise shell d₀ { late with pc := .grace d.now reason } :=
      htick.next_eq silentNext trivial (silentNext_graceSleep (d := late) hwake)
    have hover : ¬ late.now - d.now < late.gracePeriod := by
      have hperiod : late.gracePeriod = d.gracePeriod := by rw [gracePeriod, gracePeriod]
      have hnow : late.now = d.now + d.gracePeriod := rfl
      omega
    have hend : Comes noise shell d₀ { late with pc := .destroying reason } :=
      hawake.next_eq silentNext trivial (silentNext_grace_over (d := late) hover)
    exact ⟨_, hend, trivial⟩
  · have hend : Comes noise shell d₀ { d with pc := .destroying reason } :=
      h.next_eq silentNext trivial (silentNext_grace_over hgrace)
    exact ⟨_, hend, trivial⟩

/-- An armed run with a trigger that can fire may come to destroy. -/
theorem exists_destroys {config : DeadmanConfig} (now : ℕ) (fs : Fs)
    (h : ∃ trigger ∈ config.triggers, trigger.mayFire = true) :
    ∃ d, Comes noise shell (new config now fs).arm d ∧ d.Destroys := by
  obtain ⟨reason, hfired⟩ := TriggerEvaluator.evaluateAll_silent h
  let armed : Daemon := ⟨config, true, .armed, false, now, .loop, fs, none⟩
  have hloop : Comes noise shell armed { armed with pc := .armedCheck } :=
    Runs.start.next_eq silentNext trivial rfl
  have hcheck : Comes noise shell armed { armed with pc := .check } :=
    hloop.next_eq silentNext trivial rfl
  have hevaluating : Comes noise shell armed { armed with pc := .evaluating } :=
    hcheck.next_eq silentNext trivial rfl
  have hgrace : Comes noise shell armed { armed with pc := .grace now reason } := by
    refine hevaluating.next_eq silentNext trivial ?_
    rw [checkedStep_silentNext, hfired]
    rfl
  exact destroys_of_grace rfl rfl hgrace

end Daemon

/-! ## The runs of the service -/

inductive ServiceCheckEvent where
  | arm (config : DeadmanConfig) (now : ℕ) (fs : Fs)
  | disarm
  /-- A step of the run with this number. If a check is over with it, `met` is what its triggers
      met. -/
  | next (run : ℕ) (met : ℕ → Surroundings)
  | tick (run elapsed : ℕ)
  | panic (run : ℕ)

namespace DeadmanService

def triggersOf (s : DeadmanService) (run : ℕ) : List TriggerConfig :=
  (s.runs[run]?.map fun d => d.config.triggers).getD []

end DeadmanService

def ServiceCheckEvent.serviceEvent (s : DeadmanService) : ServiceCheckEvent → ServiceEvent
  | .arm config now fs => .arm config now fs
  | .disarm => .disarm
  | .next run met => .next run (TriggerEvaluator.evaluateAll met (s.triggersOf run))
  | .tick run elapsed => .tick run elapsed
  | .panic run => .panic run

namespace DeadmanService

def checkedStep (noise : Noise) (shell : Shell) (e : ServiceCheckEvent) (s : DeadmanService) :
    DeadmanService :=
  s.step noise shell (e.serviceEvent s)

variable {noise : Noise} {shell : Shell} {s : DeadmanService}

/-- No run has fired whose triggers cannot. -/
def Spares (s : DeadmanService) : Prop := ∀ d ∈ s.runs, d.Harmless → d.Unfired

theorem Spares.modify (h : s.Spares) (run : ℕ) {f : Daemon → Daemon}
    (hconfig : ∀ d, (f d).config = d.config)
    (hf : ∀ d, s.runs[run]? = some d → d.Harmless → d.Unfired → (f d).Unfired) :
    Spares { s with runs := s.runs.modify run f } := by
  intro d' hd' hharmless
  obtain ⟨k, hk⟩ := List.mem_iff_getElem?.1 hd'
  obtain ⟨d, hd, rfl⟩ := getElem?_modify_eq_some.1 hk
  split
  · rename_i hrun
    subst hrun
    rw [if_pos rfl, Daemon.Harmless, hconfig] at hharmless
    exact hf d hd hharmless (h d (List.mem_of_getElem? hd) hharmless)
  · rename_i hrun
    rw [if_neg hrun] at hharmless
    exact h d (List.mem_of_getElem? hd) hharmless

theorem config_panic (d : Daemon) : (Daemon.panic d).config = d.config := by
  unfold Daemon.panic
  split <;> rfl

theorem spares_checkedStep (e : ServiceCheckEvent) (h : s.Spares) :
    (checkedStep noise shell e s).Spares := by
  cases e with
  | arm config now fs =>
    change (s.arm config now fs).2.Spares
    unfold arm
    split
    · exact h
    · intro d hd hharmless
      rcases List.mem_append.1 hd with hd | hd
      · exact h d hd hharmless
      · rw [List.mem_singleton.1 hd]
        intro hfired
        cases hfired
  | disarm =>
    change s.disarm.2.Spares
    unfold disarm
    split
    · exact h
    · refine h.modify _ (f := Daemon.signalShutdown) (fun _ => rfl) fun d _ hd hu => ?_
      exact @Daemon.unfired_checkedStep noise shell d .signalShutdown hd hu
  | next run met =>
    refine h.modify run (fun d => Daemon.config_next _) fun d hd hharmless hu => ?_
    have htriggers : s.triggersOf run = d.config.triggers := by
      rw [triggersOf, hd]
      rfl
    rw [htriggers]
    exact Daemon.unfired_checkedStep (.next met) hharmless hu
  | tick run elapsed =>
    refine h.modify run (fun d => ?_) fun d _ hharmless hu => ?_
    · exact @Daemon.config_step noise shell d (.tick elapsed)
    · exact @Daemon.unfired_checkedStep noise shell d (.tick elapsed) hharmless hu
  | panic run => exact h.modify run config_panic fun d _ _ hu => Daemon.unfired_panic hu

/-- What a run comes to by itself it comes to as the first run of a service. -/
theorem runs_of_comes {config : DeadmanConfig} {now : ℕ} {fs : Fs} {d : Daemon}
    (h : Daemon.Comes noise shell (Daemon.new config now fs).arm d) :
    ∃ s, Runs (checkedStep noise shell) (fun _ _ => True) new s ∧ s.runs = [d] := by
  induction h with
  | start => exact ⟨_, Runs.start.next (e := .arm config now fs) trivial, rfl⟩
  | @next d e _ he ih =>
    obtain ⟨s, hs, hruns⟩ := ih
    cases e with
    | next met =>
      refine ⟨_, hs.next (e := .next 0 met) trivial, ?_⟩
      change s.runs.modify 0 (Daemon.next noise shell
        (TriggerEvaluator.evaluateAll met (s.triggersOf 0))) = _
      rw [triggersOf, hruns]
      rfl
    | tick elapsed =>
      refine ⟨_, hs.next (e := .tick 0 elapsed) trivial, ?_⟩
      change s.runs.modify 0 (Daemon.tick elapsed) = _
      rw [hruns]
      rfl
    | _ => exact he.elim

end DeadmanService

/-! ## What spares the volume -/

/-- However often it is armed and disarmed and whatever its checks meet, a disabled deadman never
    destroys if and only if none of its triggers can fire, be it run by the command line or by
    the service. -/
theorem disabled_never_destroys_iff (noise : Noise) (shell : Shell) (config : DeadmanConfig)
    (now : ℕ) (fs : Fs) : config.enabled = false →
    ((∀ d, Runs (Daemon.checkedStep noise shell) (fun _ _ => True) (Daemon.new config now fs) d →
        ¬ d.Destroys) ↔ ∀ trigger ∈ config.triggers, trigger.mayFire = false) ∧
    ((∀ s, Runs (DeadmanService.checkedStep noise shell) (fun _ _ => True) .new s →
        ∀ d ∈ s.runs, d.config = config → ¬ d.Destroys) ↔
      ∀ trigger ∈ config.triggers, trigger.mayFire = false) := by
  intro _
  have hharmless : (¬ ∃ trigger ∈ config.triggers, trigger.mayFire = true) →
      ∀ trigger ∈ config.triggers, trigger.mayFire = false := fun h trigger hmem =>
    Bool.not_eq_true _ ▸ fun hmay => h ⟨trigger, hmem, hmay⟩
  refine ⟨⟨fun h => hharmless fun hmay => ?_, fun h d hruns => ?_⟩,
    fun h => hharmless fun hmay => ?_, fun h s hruns d hd hconfig => ?_⟩
  · obtain ⟨d, hcomes, hd⟩ := @Daemon.exists_destroys noise shell config now fs hmay
    exact h d (Daemon.runs_of_comes hcomes) hd
  · refine Daemon.Unfired.not_destroys (hruns.invariant (fun d => d.config = config ∧ d.Unfired)
      ⟨rfl, fun hfired => by cases hfired⟩ fun e d hd _ => ?_).2
    have hd' : d.Harmless := by
      rw [Daemon.Harmless, hd.1]
      exact h
    exact ⟨(Daemon.config_checkedStep e).trans hd.1, Daemon.unfired_checkedStep e hd' hd.2⟩
  · obtain ⟨d, hcomes, hd⟩ := @Daemon.exists_destroys noise shell config now fs hmay
    obtain ⟨s, hs, hruns⟩ := DeadmanService.runs_of_comes hcomes
    refine h s hs d ?_ (Daemon.config_runs hcomes) hd
    rw [hruns]
    exact List.mem_singleton_self d
  · have hspares := hruns.invariant DeadmanService.Spares (fun d hd => by cases hd)
      fun e s hs _ => DeadmanService.spares_checkedStep e hs
    refine (hspares d hd ?_).not_destroys
    rw [Daemon.Harmless, hconfig]
    exact h

namespace Sample

/-- The deadman is disabled; its command does not end well. -/
def disabledConfig : DeadmanConfig := { deadmanConfig with enabled := false }

/-- Armed, and then through the loop with checks that find nothing that answers. -/
def disabledEvents : List CheckEvent := .arm :: List.replicate 6 Daemon.silentNext

/-- The same as the first run of the service. -/
def disabledRunEvents : List ServiceCheckEvent :=
  .arm disabledConfig 0 mountedDisk :: List.replicate 6 (.next 0 fun _ => TriggerEvaluator.silent)

def checkedStep : CheckEvent → Daemon → Daemon :=
  Daemon.checkedStep (fun _ _ _ => 0) fun _ fs => (some 0, fs)

def serviceCheckedStep : ServiceCheckEvent → DeadmanService → DeadmanService :=
  DeadmanService.checkedStep (fun _ _ _ => 0) fun _ fs => (some 0, fs)

end Sample

theorem default_never_destroys : (default : DeadmanConfig).enabled = false ∧
    ¬ (Runs.runAll Sample.checkedStep Sample.disabledEvents
      (Daemon.new default 0 Sample.mountedDisk)).Destroys :=
  ⟨rfl, (disabled_never_destroys_iff (fun _ _ _ => 0) (fun _ fs => (some 0, fs)) default 0
    Sample.mountedDisk rfl).1.2 (fun _ hmem => by cases hmem) _
    (Runs.of_admits _ .start (Runs.admits_of_forall _ (fun _ _ _ => trivial) _))⟩

/-- The volume's deadman is disabled and destroys all the same. -/
theorem disabled_destroys : Sample.disabledConfig.enabled = false ∧
    (∃ d, Runs Sample.checkedStep (fun _ _ => True)
        (Daemon.new Sample.disabledConfig 0 Sample.mountedDisk) d ∧
      d.pc = .done (.destroyed "custom command timed out after 5s")) ∧
    ∃ s, Runs Sample.serviceCheckedStep (fun _ _ => True) .new s ∧
      s.runs.map (fun d => (d.config, d.pc)) =
        [(Sample.disabledConfig, .done (.destroyed "custom command timed out after 5s"))] := by
  have hdaemon : Runs Sample.checkedStep (fun _ _ => True)
      (Daemon.new Sample.disabledConfig 0 Sample.mountedDisk)
      (Runs.runAll Sample.checkedStep Sample.disabledEvents
        (Daemon.new Sample.disabledConfig 0 Sample.mountedDisk)) :=
    Runs.of_admits _ .start (Runs.admits_of_forall _ (fun _ _ _ => trivial) _)
  have hservice : Runs Sample.serviceCheckedStep (fun _ _ => True) DeadmanService.new
      (Runs.runAll Sample.serviceCheckedStep Sample.disabledRunEvents DeadmanService.new) :=
    Runs.of_admits _ .start (Runs.admits_of_forall _ (fun _ _ _ => trivial) _)
  exact ⟨rfl, ⟨_, hdaemon, by decide +kernel⟩, ⟨_, hservice, by decide +kernel⟩⟩

end TgCryptFs

import TgCryptFs.Deadman.Hooks

set_option autoImplicit false

/-!
# Checks that tell nothing

`max_missed_checks` is read by nothing. The grace period begins after that many checks in a row
where, of those at which a trigger is in error and none fires, none is so late in its row.
-/
namespace TgCryptFs
open Library TriggerEvaluator

/-- A daemon, and how many checks in a row have not established that every active trigger is
    satisfied. -/
structure CountedChecks where
  daemon : Daemon
  missed : ℕ

namespace CountedChecks

variable (noise : Noise) (shell : Shell)

def step (e : CheckEvent) (s : CountedChecks) : CountedChecks where
  daemon := s.daemon.checkedStep noise shell e
  missed :=
    match s.daemon.pc, e with
    | .evaluating, .next met => if allOk met s.daemon.config.triggers then 0 else s.missed + 1
    | _, _ => s.missed

/-- After `max_missed_checks` such checks the daemon no longer monitors. -/
def Alert (s : CountedChecks) : Prop :=
  0 < s.daemon.config.maxMissedChecks → s.daemon.config.maxMissedChecks ≤ s.missed →
    s.daemon.triggered = true

/-- A trigger fires, or none is in error, or the row is not long enough yet. -/
def Told (e : CheckEvent) (s : CountedChecks) : Prop :=
  match e with
  | .next met =>
    s.daemon.pc = .evaluating → 0 < s.daemon.config.maxMissedChecks →
      Somewhere Fires met s.daemon.config.triggers ∨
        ¬ Somewhere Fails met s.daemon.config.triggers ∨
        s.missed + 1 < s.daemon.config.maxMissedChecks
  | _ => True

variable {noise : Noise} {shell : Shell} {s : CountedChecks}

theorem config_step (e : CheckEvent) :
    (step noise shell e s).daemon.config = s.daemon.config := Daemon.config_checkedStep e

/-- Outside a check nothing is counted and nothing fires. -/
theorem alert_step_of_not_check {e : CheckEvent}
    (h : ∀ met, e = .next met → s.daemon.pc ≠ .evaluating) :
    (step noise shell e s).Alert ↔ s.Alert := by
  have hmissed : (step noise shell e s).missed = s.missed := by
    unfold step
    dsimp only
    split
    · rename_i met hpc
      exact absurd hpc (h met rfl)
    · rfl
  have htriggered : (step noise shell e s).daemon.triggered = s.daemon.triggered :=
    Daemon.triggered_checkedStep h
  rw [Alert, Alert, config_step, hmissed, htriggered]

theorem missed_check {met : ℕ → Surroundings} (h : s.daemon.pc = .evaluating) :
    (step noise shell (.next met) s).missed =
      if allOk met s.daemon.config.triggers then 0 else s.missed + 1 := by
  unfold step
  rw [h]

theorem alert_check_iff {met : ℕ → Surroundings} (h : s.daemon.pc = .evaluating) :
    (step noise shell (.next met) s).Alert ↔ Told (.next met) s := by
  have htriggered : (step noise shell (.next met) s).daemon.triggered = true ↔
      Somewhere Fires met s.daemon.config.triggers := Daemon.triggered_check_iff h
  rw [Alert, config_step, htriggered, missed_check h]
  change _ ↔ (_ → _)
  rw [forall_prop_of_true h]
  refine forall_congr' fun hmax => ?_
  by_cases hfires : Somewhere Fires met s.daemon.config.triggers
  · exact ⟨fun _ => .inl hfires, fun _ _ => hfires⟩
  · by_cases hfails : Somewhere Fails met s.daemon.config.triggers
    · have hmissed : allOk met s.daemon.config.triggers ≠ true := fun h => (allOk_iff.1 h).2 hfails
      rw [if_neg hmissed]
      constructor
      · intro halert
        refine .inr (.inr (Nat.lt_of_not_le fun hle => ?_))
        exact hfires (halert hle)
      · intro htold hle
        rcases htold with hf | hf | hlt
        · exact hf
        · exact absurd hfails hf
        · omega
    · rw [if_pos (allOk_iff.2 ⟨hfires, hfails⟩)]
      exact ⟨fun _ => .inr (.inl hfails), fun _ hle => by omega⟩

theorem alert_step_iff (e : CheckEvent) (h : s.Alert) :
    (step noise shell e s).Alert ↔ Told e s := by
  by_cases hcheck : ∃ met, e = .next met ∧ s.daemon.pc = .evaluating
  · obtain ⟨met, rfl, hpc⟩ := hcheck
    exact alert_check_iff hpc
  · have hnot : ∀ met, e = .next met → s.daemon.pc ≠ .evaluating :=
      fun met he hpc => hcheck ⟨met, he, hpc⟩
    rw [alert_step_of_not_check hnot]
    refine ⟨fun _ => ?_, fun _ => h⟩
    cases e with
    | next met => exact fun hpc => absurd hpc (hnot met rfl)
    | _ => trivial

end CountedChecks

/-- What one evaluation reports of its errors, and what a run makes of those that follow one
    another. -/
theorem errors_noticed_iff {noise : Noise} {shell : Shell} {met : ℕ → Surroundings}
    {configs : List TriggerConfig} {config : DeadmanConfig} {now : ℕ} {fs : Fs}
    (es : List CheckEvent) :
    (Faithful met configs (evaluateAll met configs) ↔
      Somewhere Fires met configs ∨ ¬ Somewhere Fails met configs) ∧
    (Runs.Throughout (CountedChecks.step noise shell) CountedChecks.Alert es
        ⟨Daemon.new config now fs, 0⟩ ↔
      Runs.Admits (CountedChecks.step noise shell) CountedChecks.Told es
        ⟨Daemon.new config now fs, 0⟩) := by
  refine ⟨faithful_iff, ?_⟩
  have hstart : CountedChecks.Alert ⟨Daemon.new config now fs, 0⟩ := fun hpos hle =>
    absurd hpos (Nat.not_lt_of_le hle)
  exact Runs.throughout_iff_admits (J := fun _ => True) (fun _ _ _ => trivial)
    (fun e s _ h => CountedChecks.alert_step_iff e h) es trivial hstart

namespace Sample

def rpcTriggers : List TriggerConfig := [⟨true, .rpcCheck "localhost:8080/health" 200 10⟩]

/-- One round of the loop, the sleep before it included. -/
def checkRound : List CheckEvent :=
  [.tick (300 * Daemon.nanosPerSec), .next fun _ => unreachable, .next fun _ => unreachable,
    .next fun _ => unreachable, .next fun _ => unreachable, .next fun _ => unreachable]

def roundsEvents : List CheckEvent :=
  [.arm, .next fun _ => unreachable, .next fun _ => unreachable, .next fun _ => unreachable,
    .next fun _ => unreachable] ++ checkRound ++ checkRound

def uncheckedDaemon : CountedChecks :=
  Runs.runAll (CountedChecks.step (fun _ _ _ => 0) fun _ fs => (some 0, fs)) roundsEvents
    ⟨Daemon.new { deadmanConfig with triggers := rpcTriggers } 0 mountedDisk, 0⟩

end Sample

theorem rpcTriggers_unnoticed :
    (evaluate Sample.unreachable ⟨true, .rpcCheck "localhost:8080/health" 200 10⟩ =
        .error "RPC checks require HTTP client (not yet implemented)" ∧
      evaluateAll (fun _ => Sample.unreachable) Sample.rpcTriggers = .ok ∧
      ¬ Faithful (fun _ => Sample.unreachable) Sample.rpcTriggers
        (evaluateAll (fun _ => Sample.unreachable) Sample.rpcTriggers)) ∧
    Runs (CountedChecks.step (fun _ _ _ => 0) fun _ fs => (some 0, fs)) (fun _ _ => True)
      ⟨Daemon.new { Sample.deadmanConfig with triggers := Sample.rpcTriggers } 0
        Sample.mountedDisk, 0⟩ Sample.uncheckedDaemon ∧
    Sample.uncheckedDaemon.daemon.config.maxMissedChecks = 3 ∧
    Sample.uncheckedDaemon.missed = 3 ∧ ¬ Sample.uncheckedDaemon.Alert := by
  have hmissed : Sample.uncheckedDaemon.missed = 3 := by decide +kernel
  have hmax : Sample.uncheckedDaemon.daemon.config.maxMissedChecks = 3 := by decide +kernel
  have hquiet : Sample.uncheckedDaemon.daemon.triggered = false := by decide +kernel
  refine ⟨⟨rfl, rfl, fun h => ?_⟩, Runs.of_admits _ .start (Runs.admits_of_forall _
    (fun _ _ _ => trivial) _), hmax, hmissed, fun h => ?_⟩
  · cases h.ok rfl _ ⟨0, _, rfl, rfl, rfl⟩
  · have htriggered := h (by omega) (by omega)
    rw [hquiet] at htriggered
    cases htriggered

end TgCryptFs

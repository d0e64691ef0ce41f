import TgCryptFs.Deadman.Daemon

set_option autoImplicit false

/-!
# Evaluating the triggers

A trigger whose state cannot be determined is passed over like one that is satisfied, and
`run` does not count the checks that told nothing. A check is faithful where a trigger fires or
none is in error.
-/
namespace TgCryptFs
open Library

/-- What a connection attempt comes to within its timeout. -/
inductive ConnectOutcome where
  | established
  | failed (error : String)
  | timedOut
deriving DecidableEq

/-- What a command comes to within its timeout. A signal leaves no exit code. -/
inductive CommandOutcome where
  | exited (code : Option ℤ)
  | failed (error : String)
  | timedOut
deriving DecidableEq

/-- What a trigger meets when it is evaluated. -/
structure Surroundings where
  connect : (addr : String) → (timeoutSecs : ℕ) → ConnectOutcome
  runCommand : (command : String) → (timeoutSecs : ℕ) → CommandOutcome
  /-- `{:?}` of a string. -/
  quoted : String → String

namespace TriggerEvaluator

def evalHeartbeat (_timeoutSecs : ℕ) : TriggerResult := .ok

def evalNetwork (s : Surroundings) (host : String) (port timeoutSecs : ℕ) : TriggerResult :=
  let addr := host ++ ":" ++ toString port
  match s.connect addr timeoutSecs with
  | .established => .ok
  | .failed e => .fired ("network check failed: " ++ addr ++ ": " ++ e)
  | .timedOut => .fired ("network check timed out: " ++ addr)

def evalRpc (_url : String) (_expectedStatus _timeoutSecs : ℕ) : TriggerResult :=
  .error "RPC checks require HTTP client (not yet implemented)"

/-- `{:?}` of an event type. -/
def debugEvent (s : Surroundings) : OsEventType → String
  | .userLogin username => "UserLogin \x7b username: " ++ s.quoted username ++ " \x7d"
  | .shutdown => "Shutdown"
  | .processStart name => "ProcessStart \x7b name: " ++ s.quoted name ++ " \x7d"
  | .usbInsert => "UsbInsert"

def evalOsEvent (s : Surroundings) (eventType : OsEventType) : TriggerResult :=
  .error ("OS event monitoring not yet implemented for " ++ debugEvent s eventType)

def evalCustom (s : Surroundings) (command : String) (timeoutSecs : ℕ) : TriggerResult :=
  match s.runCommand command timeoutSecs with
  | .exited code =>
    if code = some 0 then .ok
    else .fired ("custom command exited with code " ++ toString (code.getD (-1)))
  | .failed e => .error ("failed to execute command: " ++ e)
  | .timedOut => .fired ("custom command timed out after " ++ toString timeoutSecs ++ "s")

def evaluate (s : Surroundings) (config : TriggerConfig) : TriggerResult :=
  if config.active = false then .ok
  else
    match config.params with
    | .heartbeat timeoutSecs => evalHeartbeat timeoutSecs
    | .networkCheck host port timeoutSecs => evalNetwork s host port timeoutSecs
    | .rpcCheck url expectedStatus timeoutSecs => evalRpc url expectedStatus timeoutSecs
    | .osEvent eventType => evalOsEvent s eventType
    | .custom command timeoutSecs => evalCustom s command timeoutSecs

/-- The triggers one after the other, each in surroundings of its own. -/
def evaluateAll (met : ℕ → Surroundings) : List TriggerConfig → TriggerResult
  | [] => .ok
  | config :: configs =>
    match evaluate (met 0) config with
    | .fired reason => .fired reason
    | _ => evaluateAll (fun i => met (i + 1)) configs

/-! ## What becomes of a trigger -/

/-- The host is not reached, or the command does not end well. -/
def Fires (s : Surroundings) (config : TriggerConfig) : Prop :=
  config.active = true ∧
    match config.params with
    | .networkCheck host port timeoutSecs =>
      s.connect (host ++ ":" ++ toString port) timeoutSecs ≠ .established
    | .custom command timeoutSecs =>
      s.runCommand command timeoutSecs = .timedOut ∨
        ∃ code, s.runCommand command timeoutSecs = .exited code ∧ code ≠ some 0
    | _ => False

/-- There is nothing to ask, or the command does not start. -/
def Fails (s : Surroundings) (config : TriggerConfig) : Prop :=
  config.active = true ∧
    match config.params with
    | .rpcCheck _ _ _ | .osEvent _ => True
    | .custom command timeoutSecs => ∃ e, s.runCommand command timeoutSecs = .failed e
    | _ => False

theorem evalNetwork_fired_iff {s : Surroundings} {host : String} {port timeoutSecs : ℕ} :
    (∃ reason, evalNetwork s host port timeoutSecs = .fired reason) ↔
      s.connect (host ++ ":" ++ toString port) timeoutSecs ≠ .established := by
  unfold evalNetwork
  dsimp only
  split
  · rename_i hc
    exact ⟨nofun, fun h => absurd hc h⟩
  · rename_i hc
    exact ⟨fun _ h => (nomatch h.symm.trans hc), fun _ => ⟨_, rfl⟩⟩
  · rename_i hc
    exact ⟨fun _ h => (nomatch h.symm.trans hc), fun _ => ⟨_, rfl⟩⟩

theorem evalNetwork_ne_error (s : Surroundings) (host : String) (port timeoutSecs : ℕ)
    (message : String) : evalNetwork s host port timeoutSecs ≠ .error message := by
  unfold evalNetwork
  dsimp only
  split <;> nofun

theorem evalCustom_fired_iff {s : Surroundings} {command : String} {timeoutSecs : ℕ} :
    (∃ reason, evalCustom s command timeoutSecs = .fired reason) ↔
      s.runCommand command timeoutSecs = .timedOut ∨
        ∃ code, s.runCommand command timeoutSecs = .exited code ∧ code ≠ some 0 := by
  unfold evalCustom
  cases s.runCommand command timeoutSecs with
  | exited code => by_cases hcode : code = some 0 <;> simp [hcode]
  | failed e => simp
  | timedOut => simp

theorem evalCustom_error_iff {s : Surroundings} {command : String} {timeoutSecs : ℕ} :
    (∃ message, evalCustom s command timeoutSecs = .error message) ↔
      ∃ e, s.runCommand command timeoutSecs = .failed e := by
  unfold evalCustom
  cases s.runCommand command timeoutSecs with
  | exited code => by_cases hcode : code = some 0 <;> simp [hcode]
  | failed e => simp
  | timedOut => simp

theorem evaluate_fired_iff {s : Surroundings} {config : TriggerConfig} :
    (∃ reason, evaluate s config = .fired reason) ↔ Fires s config := by
  obtain ⟨active, params⟩ := config
  cases active with
  | false => exact ⟨nofun, fun h => by cases h.1⟩
  | true =>
    rw [Fires, and_iff_right rfl]
    cases params with
    | heartbeat timeoutSecs => exact ⟨nofun, nofun⟩
    | networkCheck host port timeoutSecs => exact evalNetwork_fired_iff
    | rpcCheck url expectedStatus timeoutSecs => exact ⟨nofun, nofun⟩
    | osEvent eventType => exact ⟨nofun, nofun⟩
    | custom command timeoutSecs => exact evalCustom_fired_iff

theorem evaluate_error_iff {s : Surroundings} {config : TriggerConfig} :
    (∃ message, evaluate s config = .error message) ↔ Fails s config := by
  obtain ⟨active, params⟩ := config
  cases active with
  | false => exact ⟨nofun, fun h => by cases h.1⟩
  | true =>
    rw [Fails, and_iff_right rfl]
    cases params with
    | heartbeat timeoutSecs => exact ⟨nofun, nofun⟩
    | networkCheck host port timeoutSecs =>
      exact ⟨fun h => evalNetwork_ne_error s host port timeoutSecs h.choose h.choose_spec, nofun⟩
    | rpcCheck url expectedStatus timeoutSecs => exact ⟨fun _ => trivial, fun _ => ⟨_, rfl⟩⟩
    | osEvent eventType => exact ⟨fun _ => trivial, fun _ => ⟨_, rfl⟩⟩
    | custom command timeoutSecs => exact evalCustom_error_iff

/-! ## What becomes of the list -/

/-- An active trigger of the list evaluates to `result`. -/
def Evaluated (met : ℕ → Surroundings) (configs : List TriggerConfig) (result : TriggerResult) :
    Prop :=
  ∃ i config, configs[i]? = some config ∧ config.active = true ∧ evaluate (met i) config = result

/-- Some trigger of the list is, where it stands, as `P` says. -/
def Somewhere (P : Surroundings → TriggerConfig → Prop) (met : ℕ → Surroundings)
    (configs : List TriggerConfig) : Prop :=
  ∃ i config, configs[i]? = some config ∧ P (met i) config

/-- `result` is what the triggers say together. -/
structure Faithful (met : ℕ → Surroundings) (configs : List TriggerConfig)
    (result : TriggerResult) : Prop where
  fired : (∃ reason, result = .fired reason) ↔ ∃ reason, Evaluated met configs (.fired reason)
  ok : result = .ok → ∀ r, Evaluated met configs r → r = .ok
  error : (¬ ∃ reason, Evaluated met configs (.fired reason)) →
    ¬ (∀ r, Evaluated met configs r → r = .ok) → ∃ message, result = .error message

variable {met : ℕ → Surroundings} {configs : List TriggerConfig}

theorem somewhere_cons {P : Surroundings → TriggerConfig → Prop} {config : TriggerConfig} :
    Somewhere P met (config :: configs) ↔
      P (met 0) config ∨ Somewhere P (fun i => met (i + 1)) configs := by
  constructor
  · rintro ⟨i, c, hc, hP⟩
    cases i with
    | zero => exact .inl (Option.some.inj hc ▸ hP)
    | succ i => exact .inr ⟨i, c, hc, hP⟩
  · rintro (hP | ⟨i, c, hc, hP⟩)
    · exact ⟨0, config, rfl, hP⟩
    · exact ⟨i + 1, c, hc, hP⟩

theorem evaluated_fired_iff :
    (∃ reason, Evaluated met configs (.fired reason)) ↔ Somewhere Fires met configs := by
  constructor
  · rintro ⟨reason, i, config, hc, -, he⟩
    exact ⟨i, config, hc, evaluate_fired_iff.1 ⟨reason, he⟩⟩
  · rintro ⟨i, config, hc, hfires⟩
    obtain ⟨reason, he⟩ := evaluate_fired_iff.2 hfires
    exact ⟨reason, i, config, hc, hfires.1, he⟩

theorem evaluated_error_iff :
    (∃ message, Evaluated met configs (.error message)) ↔ Somewhere Fails met configs := by
  constructor
  · rintro ⟨message, i, config, hc, -, he⟩
    exact ⟨i, config, hc, evaluate_error_iff.1 ⟨message, he⟩⟩
  · rintro ⟨i, config, hc, hfails⟩
    obtain ⟨message, he⟩ := evaluate_error_iff.2 hfails
    exact ⟨message, i, config, hc, hfails.1, he⟩

/-- All active triggers are satisfied where none fires and none is in error. -/
theorem evaluated_ok_iff : (∀ r, Evaluated met configs r → r = .ok) ↔
    ¬ Somewhere Fires met configs ∧ ¬ Somewhere Fails met configs := by
  rw [← evaluated_fired_iff, ← evaluated_error_iff]
  constructor
  · intro h
    refine ⟨fun ⟨reason, hr⟩ => ?_, fun ⟨message, hm⟩ => ?_⟩
    · cases h _ hr
    · cases h _ hm
  · rintro ⟨hfired, herror⟩ r hr
    cases r with
    | ok => rfl
    | fired reason => exact absurd ⟨reason, hr⟩ hfired
    | error message => exact absurd ⟨message, hr⟩ herror

theorem evaluateAll_fired_iff :
    (∃ reason, evaluateAll met configs = .fired reason) ↔ Somewhere Fires met configs := by
  induction configs generalizing met with
  | nil => exact ⟨nofun, fun ⟨_, _, hc, _⟩ => by cases hc⟩
  | cons config configs ih =>
    rw [somewhere_cons, ← ih, ← evaluate_fired_iff, evaluateAll]
    split
    · rename_i reason he
      exact ⟨fun _ => .inl ⟨reason, he⟩, fun _ => ⟨reason, rfl⟩⟩
    · rename_i hnot
      exact ⟨.inr, fun h => h.resolve_left fun ⟨reason, he⟩ => hnot reason he⟩

/-- No error comes through. -/
theorem evaluateAll_ne_error (message : String) : evaluateAll met configs ≠ .error message := by
  induction configs generalizing met with
  | nil => nofun
  | cons config configs ih =>
    rw [evaluateAll]
    split
    · nofun
    · exact ih

theorem evaluateAll_ok_iff : evaluateAll met configs = .ok ↔ ¬ Somewhere Fires met configs := by
  rw [← evaluateAll_fired_iff]
  cases h : evaluateAll met configs with
  | ok => exact ⟨fun _ => nofun, fun _ => rfl⟩
  | fired reason => exact ⟨nofun, fun hnot => absurd ⟨reason, rfl⟩ hnot⟩
  | error message => exact absurd h (evaluateAll_ne_error message)

theorem faithful_iff : Faithful met configs (evaluateAll met configs) ↔
    Somewhere Fires met configs ∨ ¬ Somewhere Fails met configs := by
  constructor
  · intro h
    by_cases hfires : Somewhere Fires met configs
    · exact .inl hfires
    · exact .inr (evaluated_ok_iff.1 (h.ok (evaluateAll_ok_iff.2 hfires))).2
  · intro h
    refine ⟨evaluateAll_fired_iff.trans evaluated_fired_iff.symm, fun hok => ?_, fun hfired hok => ?_⟩
    · have hfires := evaluateAll_ok_iff.1 hok
      exact evaluated_ok_iff.2 ⟨hfires, h.resolve_left hfires⟩
    · rw [evaluated_fired_iff] at hfired
      exact absurd (evaluated_ok_iff.2 ⟨hfired, h.resolve_left hfired⟩) hok

/-- No trigger is in error and none fires. -/
def allOk (met : ℕ → Surroundings) : List TriggerConfig → Bool
  | [] => true
  | config :: configs =>
    decide (evaluate (met 0) config = .ok) && allOk (fun i => met (i + 1)) configs

theorem allOk_iff : allOk met configs = true ↔
    ¬ Somewhere Fires met configs ∧ ¬ Somewhere Fails met configs := by
  induction configs generalizing met with
  | nil => exact ⟨fun _ => ⟨fun ⟨_, _, hc, _⟩ => (nomatch hc), fun ⟨_, _, hc, _⟩ => (nomatch hc)⟩,
      fun _ => rfl⟩
  | cons config configs ih =>
    rw [allOk, Bool.and_eq_true, decide_eq_true_iff, ih, somewhere_cons, somewhere_cons,
      ← evaluate_fired_iff, ← evaluate_error_iff]
    cases h : evaluate (met 0) config with
    | ok => simp
    | fired reason => simp
    | error message => simp

end TriggerEvaluator

/-! ## The daemon with its evaluator -/

inductive CheckEvent where
  /-- The next step of `run`. If a check is over with it, `met` is what its triggers met. -/
  | next (met : ℕ → Surroundings)
  | tick (elapsed : ℕ)
  | arm
  | disarmController
  | disarm
  | signalShutdown

def CheckEvent.daemonEvent (d : Daemon) : CheckEvent → DaemonEvent
  | .next met => .next (TriggerEvaluator.evaluateAll met d.config.triggers)
  | .tick elapsed => .tick elapsed
  | .arm => .arm
  | .disarmController => .disarmController
  | .disarm => .disarm
  | .signalShutdown => .signalShutdown

namespace Daemon

def checkedStep (noise : Noise) (shell : Shell) (e : CheckEvent) (d : Daemon) : Daemon :=
  d.step noise shell (e.daemonEvent d)

/-- The trigger has fired. -/
def triggered (d : Daemon) : Bool :=
  match d.pc with
  | .grace _ _ | .graceArmed _ _ | .graceShutdown _ _ | .graceSleep _ _ _ | .destroying _
  | .done (.destroyed _) | .done .disarmed | .panicked => true
  | _ => false

variable {noise : Noise} {shell : Shell} {d : Daemon}

theorem config_next (result : TriggerResult) : (next noise shell result d).config = d.config := by
  unfold next
  split
  case h_10 => split <;> rfl
  all_goals first
    | rfl
    | (split <;> rfl)

theorem config_step (e : DaemonEvent) : (step noise shell e d).config = d.config := by
  cases e with
  | next result => exact config_next result
  | tick elapsed =>
    change (tick elapsed d).config = d.config
    unfold tick
    split <;> rfl
  | arm =>
    change (arm d).config = d.config
    unfold arm
    split <;> rfl
  | disarmController =>
    change (disarmController d).config = d.config
    unfold disarmController
    split <;> rfl
  | disarm =>
    change (disarm d).config = d.config
    unfold disarm disarmController
    split <;> rfl
  | signalShutdown => rfl

/-- Only its own steps move the daemon on. -/
theorem pc_step {e : DaemonEvent} (h : ∀ result, e ≠ .next result) :
    (step noise shell e d).pc = d.pc := by
  cases e with
  | next result => exact absurd rfl (h result)
  | tick elapsed =>
    change (tick elapsed d).pc = d.pc
    unfold tick
    split <;> rfl
  | arm =>
    change (arm d).pc = d.pc
    unfold arm
    split <;> rfl
  | disarmController =>
    change (disarmController d).pc = d.pc
    unfold disarmController
    split <;> rfl
  | disarm =>
    change (disarm d).pc = d.pc
    unfold disarm disarmController
    split <;> rfl
  | signalShutdown => rfl

theorem triggered_congr {d' : Daemon} (h : d'.pc = d.pc) : d'.triggered = d.triggered := by
  unfold triggered
  rw [h]

/-- A check is the only step that triggers the daemon, and no step takes that back. -/
theorem triggered_next (result : TriggerResult) (h : d.pc ≠ .evaluating) :
    (next noise shell result d).triggered = d.triggered := by
  obtain ⟨config, armed, state, shutdown, now, pc, fs, progress⟩ := d
  cases pc with
  | evaluating => exact absurd rfl h
  | loop => cases shutdown <;> rfl
  | armedCheck => cases armed <;> rfl
  | check => cases armed <;> rfl
  | graceArmed start reason => cases armed <;> rfl
  | graceShutdown start reason => cases shutdown <;> rfl
  | sleeping wake =>
    unfold next
    dsimp only
    split <;> rfl
  | grace start reason =>
    unfold next
    dsimp only
    split <;> rfl
  | graceSleep start wake reason =>
    unfold next
    dsimp only
    split <;> rfl
  | destroying reason =>
    unfold next
    dsimp only
    split <;> rfl
  | done outcome => rfl
  | panicked => rfl

theorem pc_next_fired (reason : String) (h : d.pc = .evaluating) :
    (next noise shell (.fired reason) d).pc = .grace d.now reason := by
  obtain ⟨config, armed, state, shutdown, now, pc, fs, progress⟩ := d
  cases h
  rfl

theorem pc_next_ok (h : d.pc = .evaluating) :
    (next noise shell .ok d).pc = .sleeping (d.now + d.checkInterval) := by
  obtain ⟨config, armed, state, shutdown, now, pc, fs, progress⟩ := d
  cases h
  rfl

variable {met : ℕ → Surroundings}

/-- A check triggers the daemon where a trigger fires. -/
theorem triggered_check_iff (h : d.pc = .evaluating) :
    (checkedStep noise shell (.next met) d).triggered = true ↔
      TriggerEvaluator.Somewhere TriggerEvaluator.Fires met d.config.triggers := by
  rw [← TriggerEvaluator.evaluateAll_fired_iff]
  change (next noise shell (TriggerEvaluator.evaluateAll met d.config.triggers) d).triggered = true ↔ _
  cases hall : TriggerEvaluator.evaluateAll met d.config.triggers with
  | ok =>
    rw [triggered, pc_next_ok h]
    exact ⟨nofun, nofun⟩
  | fired reason =>
    rw [triggered, pc_next_fired reason h]
    exact ⟨fun _ => ⟨reason, rfl⟩, fun _ => rfl⟩
  | error message => exact absurd hall (TriggerEvaluator.evaluateAll_ne_error message)

/-- No other step changes whether it is. -/
theorem triggered_checkedStep {e : CheckEvent} (h : ∀ met, e = .next met → d.pc ≠ .evaluating) :
    (checkedStep noise shell e d).triggered = d.triggered := by
  cases e with
  | next met => exact triggered_next _ (h met rfl)
  | _ => exact triggered_congr (pc_step nofun)

theorem config_checkedStep (e : CheckEvent) : (checkedStep noise shell e d).config = d.config :=
  config_step _

end Daemon

namespace Sample

/-- Nothing answers and no command starts. -/
def unreachable : Surroundings where
  connect _ _ := .timedOut
  runCommand _ _ := .failed "No such file or directory (os error 2)"
  quoted s := s

end Sample
end TgCryptFs

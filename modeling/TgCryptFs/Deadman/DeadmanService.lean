import TgCryptFs.Api.Sharing
import TgCryptFs.Deadman.Daemon

set_option autoImplicit false

/-!
# The deadman service and the runs it has spawned

The service keeps one `DaemonState` and signals its run by the shutdown flag alone; a run is
never asked whether it has returned, and it never writes the controller's state. So what the
service reports is right until a trigger fires or an unsignalled run panics.
-/
namespace TgCryptFs
open Library

structure DaemonState where
  config : DeadmanConfig
  /-- The run that the shutdown handle and the task handle belong to. -/
  run : ℕ
deriving DecidableEq

/-- `DeadmanService` with all runs spawned so far, those that were disarmed included. -/
structure DeadmanService where
  state : Option DaemonState
  runs : List Daemon

structure DeadmanStatus where
  configured : Bool
  armed : Bool
  checkIntervalSecs : ℕ
  gracePeriodSecs : ℕ
  triggerCount : ℕ
  configPath : String
deriving DecidableEq

namespace DeadmanService

def new : DeadmanService := ⟨none, []⟩

/-- The daemon is new, so that its own `arm` cannot fail. -/
def arm (config : DeadmanConfig) (now : ℕ) (fs : Fs) (s : DeadmanService) :
    Except ServiceError Unit × DeadmanService :=
  match s.state with
  | some _ => (.error (.invalidArgument "deadman is already armed"), s)
  | none =>
    (.ok (), ⟨some ⟨config, s.runs.length⟩, s.runs ++ [(Daemon.new config now fs).arm]⟩)

def disarm (s : DeadmanService) : Except ServiceError Unit × DeadmanService :=
  match s.state with
  | none => (.error (.invalidArgument "deadman is not armed"), s)
  | some d => (.ok (), ⟨none, s.runs.modify d.run Daemon.signalShutdown⟩)

def isArmed (s : DeadmanService) : Bool := s.state.isSome

def status (configPath : String) (configExists : Bool) (s : DeadmanService) : DeadmanStatus :=
  match s.state with
  | some d => ⟨true, true, d.config.checkIntervalSecs, d.config.gracePeriodSecs,
      d.config.triggers.length, configPath⟩
  | none => ⟨configExists, false, 0, 0, 0, configPath⟩

end DeadmanService

namespace Daemon

/-- A panic unwinds the task wherever it is. -/
def panic (d : Daemon) : Daemon :=
  match d.pc with
  | .done _ => d
  | _ => { d with pc := .panicked }

def monitoring (d : Daemon) : Bool :=
  match d.pc with
  | .loop | .armedCheck | .check | .evaluating | .sleeping _ => true
  | _ => false

def inGrace (d : Daemon) : Bool :=
  match d.pc with
  | .grace _ _ | .graceArmed _ _ | .graceShutdown _ _ | .graceSleep _ _ _ => true
  | _ => false

/-- The run may still come to destroy, and nobody has told it to stop. -/
def watching (d : Daemon) : Bool := (d.monitoring || d.inGrace) && !d.shutdown

end Daemon

inductive ServiceEvent where
  | arm (config : DeadmanConfig) (now : ℕ) (fs : Fs)
  | disarm
  /-- A step of the run with this number. -/
  | next (run : ℕ) (result : TriggerResult)
  | tick (run elapsed : ℕ)
  | panic (run : ℕ)

namespace DeadmanService

def step (noise : Noise) (shell : Shell) : ServiceEvent → DeadmanService → DeadmanService
  | .arm config now fs, s => (s.arm config now fs).2
  | .disarm, s => s.disarm.2
  | .next run result, s => { s with runs := s.runs.modify run (Daemon.next noise shell result) }
  | .tick run elapsed, s => { s with runs := s.runs.modify run (Daemon.tick elapsed) }
  | .panic run, s => { s with runs := s.runs.modify run Daemon.panic }

/-- What the service and the controllers report is what the runs are doing. -/
structure Reported (s : DeadmanService) : Prop where
  armed : s.isArmed = true ↔ ∃ d ∈ s.runs, d.watching = true
  status : ∀ configPath configExists,
    (s.status configPath configExists).armed = true ↔ ∃ d ∈ s.runs, d.watching = true
  arm : ∀ config now fs, (s.arm config now fs).1 = .ok () ↔ ¬ ∃ d ∈ s.runs, d.watching = true
  grace : ∀ d ∈ s.runs, d.inGrace = true →
    ∃ reason remainingSecs, d.state = .gracePeriod reason remainingSecs
  destroying : ∀ d ∈ s.runs, ∀ reason, d.pc = .destroying reason → d.state = .destroying
  destroyed : ∀ d ∈ s.runs, ∀ reason, d.pc = .done (.destroyed reason) → d.state = .destroyed

/-- No check reports that a trigger has fired, and no run panics before it is told to stop. -/
def Calm (e : ServiceEvent) (s : DeadmanService) : Prop :=
  match e with
  | .next run result => ∀ d, s.runs[run]? = some d → d.pc = .evaluating →
      ∀ reason, result ≠ .fired reason
  | .panic run => ∀ d, s.runs[run]? = some d → d.shutdown = true
  | _ => True

end DeadmanService

namespace Daemon

variable {noise : Noise} {shell : Shell} {d : Daemon}

/-- Nothing has fired, and a run that has ended was told to. -/
def Calm (d : Daemon) : Prop :=
  match d.pc with
  | .loop | .armedCheck | .check | .evaluating | .sleeping _ => True
  | .done .shutdown | .done .disarmed | .panicked => d.shutdown = true
  | _ => False

/-- What one spawned run never changes: nobody disarms its controller, and the run itself
    writes no flag and no state. -/
structure SameFlags (d d' : Daemon) : Prop where
  armed : d'.armed = d.armed
  state : d'.state = d.state
  shutdown : d'.shutdown = d.shutdown

theorem sameFlags_next (result : TriggerResult) : d.SameFlags (next noise shell result d) := by
  unfold next
  split
  case h_10 => split <;> exact ⟨rfl, rfl, rfl⟩
  all_goals first
    | exact ⟨rfl, rfl, rfl⟩
    | (split <;> exact ⟨rfl, rfl, rfl⟩)

theorem sameFlags_tick (elapsed : ℕ) : d.SameFlags (tick elapsed d) := by
  unfold tick
  split <;> exact ⟨rfl, rfl, rfl⟩

theorem sameFlags_panic : d.SameFlags (panic d) := by
  unfold panic
  split <;> exact ⟨rfl, rfl, rfl⟩

/-- A run leaves the calm where its check reports a trigger, and nowhere else. -/
theorem calm_next_iff (result : TriggerResult) (harmed : d.armed = true) (h : d.Calm) :
    (next noise shell result d).Calm ↔
      (d.pc = .evaluating → ∀ reason, result ≠ .fired reason) := by
  obtain ⟨config, armed, state, shutdown, now, pc, fs, progress⟩ := d
  subst harmed
  cases pc with
  | loop => cases shutdown <;> simp [next, Calm]
  | armedCheck => simp [next, Calm]
  | check => simp [next, Calm]
  | evaluating => cases result <;> simp [next, Calm]
  | sleeping wake =>
    unfold next
    dsimp only
    split <;> simp [Calm]
  | done outcome => exact iff_of_true h nofun
  | panicked => exact iff_of_true h nofun
  | _ => exact h.elim

theorem calm_tick (elapsed : ℕ) : (tick elapsed d).Calm ↔ d.Calm := by
  unfold tick
  split
  all_goals simp_all [Calm]

theorem calm_panic_iff (h : d.Calm) : (panic d).Calm ↔ d.shutdown = true := by
  obtain ⟨config, armed, state, shutdown, now, pc, fs, progress⟩ := d
  cases pc with
  | done outcome =>
    cases outcome with
    | destroyed reason => exact h.elim
    | shutdown => exact Iff.rfl
    | disarmed => exact Iff.rfl
  | _ => exact Iff.rfl

theorem Calm.watching_iff (h : d.Calm) : d.watching = true ↔ d.shutdown = false := by
  obtain ⟨config, armed, state, shutdown, now, pc, fs, progress⟩ := d
  cases pc with
  | done outcome =>
    cases outcome with
    | destroyed reason => exact h.elim
    | shutdown => simp_all [Calm, watching, monitoring, inGrace]
    | disarmed => simp_all [Calm, watching, monitoring, inGrace]
  | panicked => simp_all [Calm, watching, monitoring, inGrace]
  | loop | armedCheck | check | evaluating | sleeping => simp [watching, monitoring]
  | _ => exact h.elim

theorem shutdown_of_watching (h : d.watching = true) : d.shutdown = false := by
  unfold watching at h
  simpa using (Bool.and_eq_true_iff.1 h).2

end Daemon

theorem getElem?_modify_eq_some {α : Type} {l : List α} {f : α → α} {i k : ℕ} {x : α} :
    (l.modify i f)[k]? = some x ↔ ∃ y, l[k]? = some y ∧ x = if i = k then f y else y := by
  rw [List.getElem?_modify]
  cases l[k]? with
  | none => simp
  | some y => simp [eq_comm]

namespace DeadmanService

variable {noise : Noise} {shell : Shell}

/-- The service knows which run it has not told to stop. -/
structure Linked (s : DeadmanService) : Prop where
  armed : ∀ (k : ℕ) (d : Daemon), s.runs[k]? = some d → d.armed = true ∧ d.state = .armed
  current : ∀ (k : ℕ) (d : Daemon), s.runs[k]? = some d →
    (d.shutdown = false ↔ s.state.map DaemonState.run = some k)
  bound : ∀ st, s.state = some st → ∃ d, s.runs[st.run]? = some d

theorem Linked.modify {s : DeadmanService} (h : s.Linked) {run : ℕ} {f : Daemon → Daemon}
    (hf : ∀ d, Daemon.SameFlags d (f d)) : Linked { s with runs := s.runs.modify run f } := by
  refine ⟨fun k d' hd => ?_, fun k d' hd => ?_, fun st hst => ?_⟩
  · obtain ⟨d, hk, rfl⟩ := getElem?_modify_eq_some.1 hd
    split
    · rw [(hf d).armed, (hf d).state]
      exact h.armed k d hk
    · exact h.armed k d hk
  · obtain ⟨d, hk, rfl⟩ := getElem?_modify_eq_some.1 hd
    split
    · rw [(hf d).shutdown]
      exact h.current k d hk
    · exact h.current k d hk
  · obtain ⟨d, hd⟩ := h.bound st hst
    exact ⟨_, getElem?_modify_eq_some.2 ⟨d, hd, rfl⟩⟩

theorem linked_arm {s : DeadmanService} (h : s.Linked) (config : DeadmanConfig) (now : ℕ) (fs : Fs) :
    (s.arm config now fs).2.Linked := by
  unfold arm
  cases hs : s.state with
  | some st => exact h
  | none =>
    have hnew : ∀ k d, (s.runs ++ [(Daemon.new config now fs).arm])[k]? = some d →
        s.runs[k]? = some d ∨ k = s.runs.length ∧ d = (Daemon.new config now fs).arm := by
      intro k d hd
      rw [List.getElem?_append] at hd
      split at hd
      · exact .inl hd
      · rename_i hk
        right
        have hk' : k - s.runs.length = 0 := by
          by_contra hne
          rw [List.getElem?_eq_none (by simp; omega)] at hd
          cases hd
        rw [hk'] at hd
        cases hd
        exact ⟨by omega, rfl⟩
    refine ⟨fun k d hd => ?_, fun k d hd => ?_, fun st hst => ?_⟩
    · rcases hnew k d hd with hold | ⟨-, rfl⟩
      · exact h.armed k d hold
      · exact ⟨rfl, rfl⟩
    · rcases hnew k d hd with hold | ⟨rfl, rfl⟩
      · have hcur := h.current k d hold
        have hlt := (List.getElem?_eq_some_iff.1 hold).1
        rw [hs] at hcur
        refine iff_of_false (fun hshut => nomatch hcur.1 hshut) fun hk => ?_
        have hk : s.runs.length = k := Option.some.inj hk
        omega
      · exact iff_of_true rfl rfl
    · cases hst
      exact ⟨_, List.getElem?_concat_length⟩

theorem linked_disarm {s : DeadmanService} (h : s.Linked) : s.disarm.2.Linked := by
  unfold disarm
  cases hs : s.state with
  | none => exact h
  | some st =>
    refine ⟨fun k d' hd => ?_, fun k d' hd => ?_, nofun⟩
    · obtain ⟨d, hk, rfl⟩ := getElem?_modify_eq_some.1 hd
      split
      · exact h.armed k d hk
      · exact h.armed k d hk
    · obtain ⟨d, hk, rfl⟩ := getElem?_modify_eq_some.1 hd
      refine iff_of_false (fun hshut => ?_) nofun
      split at hshut
      · cases hshut
      · rename_i hne
        have hcur := (h.current k d hk).1 hshut
        rw [hs] at hcur
        exact hne (Option.some.inj hcur)

theorem linked_step (e : ServiceEvent) (s : DeadmanService) (h : s.Linked) :
    (step noise shell e s).Linked := by
  cases e with
  | arm config now fs => exact linked_arm h config now fs
  | disarm => exact linked_disarm h
  | next run result => exact h.modify fun d => Daemon.sameFlags_next result
  | tick run elapsed => exact h.modify fun d => Daemon.sameFlags_tick elapsed
  | panic run => exact h.modify fun d => Daemon.sameFlags_panic

theorem isArmed_iff {s : DeadmanService} (h : s.Linked) :
    s.isArmed = true ↔ ∃ d ∈ s.runs, d.shutdown = false := by
  unfold isArmed
  constructor
  · intro hs
    obtain ⟨st, hst⟩ := Option.isSome_iff_exists.1 hs
    obtain ⟨d, hd⟩ := h.bound st hst
    exact ⟨d, List.mem_of_getElem? hd, (h.current st.run d hd).2 (by rw [hst]; rfl)⟩
  · rintro ⟨d, hd, hshut⟩
    obtain ⟨k, hk⟩ := List.mem_iff_getElem?.1 hd
    have hcur := (h.current k d hk).1 hshut
    cases hs : s.state with
    | none => rw [hs] at hcur; cases hcur
    | some st => rfl

theorem status_armed (s : DeadmanService) (configPath : String) (configExists : Bool) :
    (s.status configPath configExists).armed = s.isArmed := by
  unfold status isArmed
  cases s.state <;> rfl

theorem arm_of_isArmed {s : DeadmanService} (h : s.isArmed = true) (config : DeadmanConfig) (now : ℕ)
    (fs : Fs) :
    s.arm config now fs = (.error (.invalidArgument "deadman is already armed"), s) := by
  obtain ⟨st, hst⟩ := Option.isSome_iff_exists.1 h
  rw [arm, hst]

theorem arm_ok_iff (s : DeadmanService) (config : DeadmanConfig) (now : ℕ) (fs : Fs) :
    (s.arm config now fs).1 = .ok () ↔ ¬ s.isArmed = true := by
  unfold arm isArmed
  cases s.state with
  | none => exact iff_of_true rfl nofun
  | some st => exact iff_of_false nofun fun hc => hc rfl

theorem Linked.unique {s : DeadmanService} (h : s.Linked) {d d' : Daemon} (hd : d ∈ s.runs)
    (hd' : d' ∈ s.runs) (hs : d.shutdown = false) (hs' : d'.shutdown = false) : d = d' := by
  obtain ⟨k, hk⟩ := List.mem_iff_getElem?.1 hd
  obtain ⟨k', hk'⟩ := List.mem_iff_getElem?.1 hd'
  have he : some k = some k' := ((h.current k d hk).1 hs).symm.trans ((h.current k' d' hk').1 hs')
  cases he
  exact Option.some.inj (hk.symm.trans hk')

/-- A state other than `Armed` is never reported, so nothing may have fired; and the run that
    the service has not told to stop is the one that has to be watching. -/
theorem Reported.calm {s : DeadmanService} (h : s.Linked) (hr : s.Reported) {d : Daemon}
    (hd : d ∈ s.runs) : d.Calm := by
  have hstate : d.state = .armed := by
    obtain ⟨k, hk⟩ := List.mem_iff_getElem?.1 hd
    exact (h.armed k d hk).2
  have hgrace : d.inGrace = true → False := fun hg => by
    obtain ⟨reason, remainingSecs, he⟩ := hr.grace d hd hg
    rw [hstate] at he
    cases he
  have hended : d.watching = false → d.shutdown = true := fun hw => by
    by_contra hshut
    rw [Bool.not_eq_true] at hshut
    obtain ⟨d', hd', hw'⟩ := hr.armed.1 ((isArmed_iff h).2 ⟨d, hd, hshut⟩)
    rw [h.unique hd hd' hshut (Daemon.shutdown_of_watching hw'), hw'] at hw
    cases hw
  unfold Daemon.Calm
  unfold Daemon.inGrace at hgrace
  unfold Daemon.watching Daemon.monitoring Daemon.inGrace at hended
  cases hpc : d.pc with
  | done outcome =>
    cases outcome with
    | destroyed reason =>
      have he := hr.destroyed d hd reason hpc
      rw [hstate] at he
      cases he
    | shutdown => exact hended (by rw [hpc]; rfl)
    | disarmed => exact hended (by rw [hpc]; rfl)
  | panicked => exact hended (by rw [hpc]; rfl)
  | destroying reason =>
    have he := hr.destroying d hd reason hpc
    rw [hstate] at he
    cases he
  | grace | graceArmed | graceShutdown | graceSleep => exact hgrace (by rw [hpc])
  | _ => trivial

theorem reported_iff {s : DeadmanService} (h : s.Linked) :
    s.Reported ↔ ∀ d ∈ s.runs, d.Calm := by
  refine ⟨fun hr d hd => hr.calm h hd, fun hcalm => ?_⟩
  have harmed : s.isArmed = true ↔ ∃ d ∈ s.runs, d.watching = true := by
    rw [isArmed_iff h]
    refine exists_congr fun d => and_congr_right fun hd => ?_
    exact (hcalm d hd).watching_iff.symm
  refine ⟨harmed, fun configPath configExists => ?_, fun config now fs => ?_, fun d hd hg => ?_,
    fun d hd reason hpc => ?_, fun d hd reason hpc => ?_⟩
  · rw [status_armed]
    exact harmed
  · rw [arm_ok_iff]
    exact not_congr harmed
  · have hc := hcalm d hd
    unfold Daemon.Calm at hc
    unfold Daemon.inGrace at hg
    split at hg
    all_goals simp_all
  · have hc := hcalm d hd
    rw [Daemon.Calm, hpc] at hc
    exact hc.elim
  · have hc := hcalm d hd
    rw [Daemon.Calm, hpc] at hc
    exact hc.elim

/-- A step of one run, in a service whose runs are calm. -/
theorem calm_modify_iff {s : DeadmanService} {run : ℕ} {f : Daemon → Daemon} {P : Daemon → Prop}
    (hcalm : ∀ d ∈ s.runs, d.Calm) (hf : ∀ d ∈ s.runs, (f d).Calm ↔ P d) :
    (∀ d ∈ s.runs.modify run f, d.Calm) ↔ ∀ d, s.runs[run]? = some d → P d := by
  constructor
  · intro h d hd
    refine (hf d (List.mem_of_getElem? hd)).1 (h _ (List.mem_of_getElem? (i := run) ?_))
    rw [List.getElem?_modify_eq, hd]
    rfl
  · intro h d' hd'
    obtain ⟨k, hk⟩ := List.mem_iff_getElem?.1 hd'
    obtain ⟨d, hd, rfl⟩ := getElem?_modify_eq_some.1 hk
    have hmem := List.mem_of_getElem? hd
    split
    · rename_i he
      exact (hf d hmem).2 (h d (he ▸ hd))
    · exact hcalm d hmem

theorem calm_step_iff (e : ServiceEvent) (s : DeadmanService) (h : s.Linked)
    (hcalm : ∀ d ∈ s.runs, d.Calm) : (∀ d ∈ (step noise shell e s).runs, d.Calm) ↔ Calm e s := by
  cases e with
  | arm config now fs =>
    refine iff_of_true ?_ trivial
    change ∀ d ∈ (arm config now fs s).2.runs, d.Calm
    unfold arm
    split
    · exact hcalm
    · intro d hd
      rcases List.mem_append.1 hd with hd | hd
      · exact hcalm d hd
      · rw [List.mem_singleton.1 hd]
        trivial
  | disarm =>
    refine iff_of_true ?_ trivial
    change ∀ d ∈ s.disarm.2.runs, d.Calm
    unfold disarm
    split
    · exact hcalm
    · refine (calm_modify_iff hcalm (P := fun _ => True) fun d hd => iff_of_true ?_ trivial).2
        fun _ _ => trivial
      have hc := hcalm d hd
      unfold Daemon.Calm at hc ⊢
      dsimp only [Daemon.signalShutdown]
      split <;> simp_all
  | next run result =>
    refine calm_modify_iff hcalm fun d hd => ?_
    obtain ⟨k, hk⟩ := List.mem_iff_getElem?.1 hd
    exact Daemon.calm_next_iff result (h.armed k d hk).1 (hcalm d hd)
  | tick run elapsed =>
    refine iff_of_true ((calm_modify_iff hcalm fun d _ => Daemon.calm_tick elapsed).2 ?_) trivial
    exact fun d hd => hcalm d (List.mem_of_getElem? hd)
  | panic run => exact calm_modify_iff hcalm fun d hd => Daemon.calm_panic_iff (hcalm d hd)

theorem runs_new : new.runs = [] := rfl

theorem linked_new : new.Linked := by
  refine ⟨fun k d hd => ?_, fun k d hd => ?_, fun st hst => ?_⟩
  · rw [runs_new, List.getElem?_nil] at hd
    cases hd
  · rw [runs_new, List.getElem?_nil] at hd
    cases hd
  · cases hst

theorem reported_new : new.Reported := by
  rw [reported_iff linked_new, runs_new]
  exact List.forall_mem_nil _

end DeadmanService

/-- Along every interleaving of requests with the steps of the spawned runs, what is reported
    is right in every state reached if and only if no check of the run reports a trigger and
    no run panics before it is told to stop. -/
theorem deadman_reported_iff (noise : Noise) (shell : Shell) (es : List ServiceEvent) :
    Runs.Throughout (DeadmanService.step noise shell) DeadmanService.Reported es .new ↔
      Runs.Admits (DeadmanService.step noise shell) DeadmanService.Calm es .new := by
  refine Runs.throughout_iff_admits (J := DeadmanService.Linked) DeadmanService.linked_step ?_ es
    DeadmanService.linked_new DeadmanService.reported_new
  intro e s hs hr
  rw [DeadmanService.reported_iff (DeadmanService.linked_step e s hs)]
  exact DeadmanService.calm_step_iff e s hs ((DeadmanService.reported_iff hs).1 hr)

namespace Sample

/-- The service arms a daemon whose trigger fires at its first check. -/
def firingEvents : List ServiceEvent :=
  [.arm deadmanConfig 0 mountedDisk, .next 0 .ok, .next 0 .ok, .next 0 .ok,
    .next 0 (.fired "custom command exited with code 1"), .next 0 .ok, .next 0 .ok]

def serviceStep : ServiceEvent → DeadmanService → DeadmanService :=
  DeadmanService.step (fun _ _ _ => 0) fun _ fs => (some 0, fs)

/-- The service after the first `n` of these events. -/
def fired (n : ℕ) : DeadmanService := Runs.runAll serviceStep (firingEvents.take n) .new

end Sample

/-- The destruction is over, and the deadman is still reported as armed. -/
theorem armed_after_destruction :
    (Sample.fired 5).runs.map (fun d => (d.inGrace, d.state)) = [(true, .armed)] ∧
    (Sample.fired 7).runs.map Daemon.pc = [.done (.destroyed "custom command exited with code 1")] ∧
    (Sample.fired 7).runs.map Daemon.state = [.armed] ∧ (Sample.fired 7).isArmed = true ∧
    ((Sample.fired 7).arm Sample.deadmanConfig 0 Sample.mountedDisk).1 =
      .error (.invalidArgument "deadman is already armed") ∧
    ¬ (Sample.fired 7).Reported := by
  have hgrace : (Sample.fired 5).runs.map (fun d => (d.inGrace, d.state)) = [(true, .armed)] := by
    decide +kernel
  have hpc : (Sample.fired 7).runs.map Daemon.pc =
      [.done (.destroyed "custom command exited with code 1")] := by decide +kernel
  have hstate : (Sample.fired 7).runs.map Daemon.state = [.armed] := by decide +kernel
  have harmed : (Sample.fired 7).isArmed = true := by decide +kernel
  have hrearm := DeadmanService.arm_of_isArmed harmed Sample.deadmanConfig 0 Sample.mountedDisk
  generalize Sample.fired 7 = s at *
  refine ⟨hgrace, hpc, hstate, harmed, congrArg Prod.fst hrearm, fun hr => ?_⟩
  obtain ⟨d, hd, hw⟩ := hr.armed.1 harmed
  have hmem := List.mem_map_of_mem (f := Daemon.pc) hd
  rw [hpc, List.mem_singleton] at hmem
  simp [Daemon.watching, Daemon.monitoring, Daemon.inGrace, hmem] at hw

end TgCryptFs

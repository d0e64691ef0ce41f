import TgCryptFs.Deadman.DeadmanService
import TgCryptFs.Library.FairRuns

set_option autoImplicit false

/-!
# Arming again

`disarm` sets the shutdown flag for the run that is on, and nothing takes it back. The run after
the next `arm` finds it set and returns before it has evaluated a trigger.
-/
namespace TgCryptFs
open Library

/-- What happens to one daemon. A run reads the flags and writes none, so that one run stands for
    all. -/
inductive RearmEvent where
  | arm
  | disarm
  | signalShutdown
  /-- `run` is called, anew if it was running. -/
  | start
  | next (result : TriggerResult)
  | tick (elapsed : ℕ)

namespace RearmEvent

/-- The event sets the shutdown flag. -/
def Stops : RearmEvent → Prop
  | .disarm | .signalShutdown => True
  | _ => False

/-- No trigger fires, and the daemon is left alone. -/
def Quiet : RearmEvent → Prop
  | .next result => ∀ reason, result ≠ .fired reason
  | .tick _ | .start => True
  | _ => False

end RearmEvent

namespace Daemon

def start (d : Daemon) : Daemon := { d with pc := .loop }

def rearmStep (noise : Noise) (shell : Shell) : RearmEvent → Daemon → Daemon
  | .arm => arm
  | .disarm => disarm
  | .signalShutdown => signalShutdown
  | .start => start
  | .next result => next noise shell result
  | .tick elapsed => tick elapsed

variable {noise : Noise} {shell : Shell} {d : Daemon}

theorem rearmStep_next (result : TriggerResult) :
    rearmStep noise shell (.next result) d = next noise shell result d := rfl

/-- A call of `arm` or `disarm` is successful. -/
def Succeeds (e : RearmEvent) (d : Daemon) : Prop :=
  match e with
  | .arm => d.armed = false
  | .disarm => d.armed = true
  | _ => True

/-- The run makes its next step, and not in its sleep. -/
def Proceeds (e : RearmEvent) (d : Daemon) : Prop :=
  (∃ result, e = .next result) ∧ ∀ wake, d.pc = .sleeping wake → wake ≤ d.now

/-- `run` has returned without a destruction. -/
def Returned (d : Daemon) : Prop := d.pc = .done .shutdown ∨ d.pc = .done .disarmed

/-- While all is quiet, `run` does not return and evaluates the triggers again and again. -/
structure KeepsEvaluating (noise : Noise) (shell : Shell) (d : Daemon) : Prop where
  stays : ∀ es : List RearmEvent, (∀ e ∈ es, e.Quiet) →
    ¬ (Runs.runAll (rearmStep noise shell) es d).Returned
  evaluates : ∀ es : List RearmEvent, (∀ e ∈ es, e.Quiet) → ∀ es' : ℕ → RearmEvent,
    (∀ n, (es' n).Quiet ∧ es' n ≠ .start) →
    Runs.Fair (rearmStep noise shell) Proceeds es' (Runs.runAll (rearmStep noise shell) es d) →
    ∀ n, ∃ m, n ≤ m ∧ (Runs.trace (rearmStep noise shell) es'
      (Runs.runAll (rearmStep noise shell) es d) m).pc = .evaluating

/-! ## The flags -/

/-- The shutdown flag is set by what stops the daemon, and never taken back. -/
theorem shutdown_rearmStep_iff {e : RearmEvent} (h : Succeeds e d) :
    (rearmStep noise shell e d).shutdown = true ↔ d.shutdown = true ∨ e.Stops := by
  cases e with
  | arm =>
    change (arm d).shutdown = true ↔ _
    unfold arm
    split <;> exact ⟨.inl, fun h => h.resolve_right id⟩
  | disarm =>
    have harmed : d.armed = true := h
    change (disarm d).shutdown = true ↔ _
    rw [disarm, if_pos harmed]
    exact iff_of_true rfl (.inr trivial)
  | signalShutdown => exact iff_of_true rfl (.inr trivial)
  | start => exact ⟨.inl, fun h => h.resolve_right id⟩
  | next result =>
    change (next noise shell result d).shutdown = true ↔ _
    rw [(sameFlags_next result).shutdown]
    exact ⟨.inl, fun h => h.resolve_right id⟩
  | tick elapsed =>
    change (tick elapsed d).shutdown = true ↔ _
    rw [(sameFlags_tick elapsed).shutdown]
    exact ⟨.inl, fun h => h.resolve_right id⟩

theorem shutdown_runAll_iff {es : List RearmEvent}
    (h : Runs.Admits (rearmStep noise shell) Succeeds es d) :
    (Runs.runAll (rearmStep noise shell) es d).shutdown = true ↔
      d.shutdown = true ∨ ∃ e ∈ es, e.Stops := by
  induction es generalizing d with
  | nil => simp [Runs.runAll]
  | cons e es ih =>
    have hrest := ih h.2
    rw [shutdown_rearmStep_iff h.1] at hrest
    change (Runs.runAll (rearmStep noise shell) es (rearmStep noise shell e d)).shutdown = true ↔ _
    rw [hrest, List.exists_mem_cons_iff, or_assoc]

/-- Before it is armed, `run` looks at the flags and sleeps. -/
def Waiting (d : Daemon) : Prop :=
  match d.pc with
  | .loop | .armedCheck | .sleeping _ => True
  | _ => False

theorem waiting_rearmStep {e : RearmEvent} (hstops : ¬ e.Stops) (harm : e ≠ .arm)
    (harmed : d.armed = false) (hshutdown : d.shutdown = false) (h : d.Waiting) :
    (rearmStep noise shell e d).Waiting := by
  obtain ⟨config, armed, state, shutdown, now, pc, fs, progress⟩ := d
  cases harmed
  cases hshutdown
  cases e with
  | arm => exact absurd rfl harm
  | disarm => exact absurd trivial hstops
  | signalShutdown => exact absurd trivial hstops
  | start => trivial
  | next result =>
    cases pc with
    | loop => trivial
    | armedCheck => trivial
    | sleeping wake =>
      rw [rearmStep_next]
      unfold next
      dsimp only
      split <;> trivial
    | _ => exact h.elim
  | tick elapsed =>
    cases pc with
    | loop => trivial
    | armedCheck => trivial
    | sleeping wake => trivial
    | _ => exact h.elim

theorem armed_rearmStep {e : RearmEvent} (hstops : ¬ e.Stops) (harm : e ≠ .arm) :
    (rearmStep noise shell e d).armed = d.armed := by
  cases e with
  | arm => exact absurd rfl harm
  | disarm => exact absurd trivial hstops
  | signalShutdown => exact absurd trivial hstops
  | start => rfl
  | next result => exact (sameFlags_next result).armed
  | tick elapsed => exact (sameFlags_tick elapsed).armed

/-- A daemon that nobody has stopped waits to be armed if it is not. -/
theorem waiting_runAll {es : List RearmEvent}
    (h : Runs.Admits (rearmStep noise shell) Succeeds es d) (hstops : ∀ e ∈ es, ¬ e.Stops)
    (hshutdown : d.shutdown = false) (hwaiting : d.armed = false → d.Waiting) :
    (Runs.runAll (rearmStep noise shell) es d).armed = false →
      (Runs.runAll (rearmStep noise shell) es d).Waiting := by
  induction es generalizing d with
  | nil => exact hwaiting
  | cons e es ih =>
    have he := hstops e List.mem_cons_self
    refine ih h.2 (fun x hx => hstops x (List.mem_cons_of_mem e hx)) ?_ fun harmed => ?_
    · rw [← Bool.not_eq_true, shutdown_rearmStep_iff h.1, not_or, Bool.not_eq_true]
      exact ⟨hshutdown, he⟩
    · by_cases harm : e = .arm
      · subst harm
        have hd : d.armed = false := h.1
        change (arm d).armed = false at harmed
        rw [arm, if_neg (ne_true_of_eq_false hd)] at harmed
        cases harmed
      · rw [armed_rearmStep he harm] at harmed
        exact waiting_rearmStep he harm harmed hshutdown (hwaiting harmed)

/-! ## The armed run -/

/-- Armed, not stopped, and in the loop. -/
structure Looping (d : Daemon) : Prop where
  armed : d.armed = true
  shutdown : d.shutdown = false
  monitoring : d.monitoring = true

theorem Looping.not_returned (h : d.Looping) : ¬ d.Returned := by
  have hm := h.monitoring
  unfold Daemon.monitoring at hm
  rintro (hpc | hpc)
  · rw [hpc] at hm
    cases hm
  · rw [hpc] at hm
    cases hm

/-- The steps of `run` that are left to the next evaluation. -/
def toEvaluation (d : Daemon) : ℕ :=
  match d.pc with
  | .evaluating => 0
  | .check => 1
  | .armedCheck => 2
  | .loop => 3
  | _ => 4

theorem looping_rearmStep {e : RearmEvent} (he : e.Quiet) (h : d.Looping) :
    (rearmStep noise shell e d).Looping := by
  obtain ⟨config, armed, state, shutdown, now, pc, fs, progress⟩ := d
  obtain ⟨harmed, hshutdown, hm⟩ := h
  cases harmed
  cases hshutdown
  cases e with
  | start => exact ⟨rfl, rfl, rfl⟩
  | tick elapsed =>
    cases pc with
    | loop | armedCheck | check | evaluating | sleeping => exact ⟨rfl, rfl, rfl⟩
    | _ => cases hm
  | next result =>
    cases pc with
    | loop | armedCheck | check => exact ⟨rfl, rfl, rfl⟩
    | evaluating =>
      cases result with
      | fired reason => exact absurd rfl (he reason)
      | ok => exact ⟨rfl, rfl, rfl⟩
      | error message => exact ⟨rfl, rfl, rfl⟩
    | sleeping wake =>
      rw [rearmStep_next]
      unfold next
      dsimp only
      split <;> exact ⟨rfl, rfl, rfl⟩
    | _ => cases hm
  | _ => exact he.elim

theorem looping_runAll {es : List RearmEvent} (hes : ∀ e ∈ es, e.Quiet) (h : d.Looping) :
    (Runs.runAll (rearmStep noise shell) es d).Looping := by
  induction es generalizing d with
  | nil => exact h
  | cons e es ih =>
    exact ih (fun x hx => hes x (List.mem_cons_of_mem e hx))
      (looping_rearmStep (hes e List.mem_cons_self) h)

/-- On the way to the evaluation the run does not turn back. -/
theorem toEvaluation_le {e : RearmEvent} (he : e.Quiet ∧ e ≠ .start) (h : d.Looping)
    (hne : d.toEvaluation ≠ 0) :
    (rearmStep noise shell e d).toEvaluation ≤ d.toEvaluation := by
  obtain ⟨config, armed, state, shutdown, now, pc, fs, progress⟩ := d
  obtain ⟨harmed, hshutdown, hm⟩ := h
  cases harmed
  cases hshutdown
  cases e with
  | start => exact absurd rfl he.2
  | tick elapsed => cases pc <;> exact le_rfl
  | next result =>
    cases pc with
    | evaluating => exact absurd rfl hne
    | loop | armedCheck | check => exact Nat.le_succ _
    | sleeping wake =>
      rw [rearmStep_next]
      unfold next
      dsimp only
      split
      · exact le_rfl
      · exact Nat.le_succ _
    | _ => cases hm
  | _ => exact he.1.elim

/-- Awake, it comes nearer with every step. -/
theorem toEvaluation_lt {e : RearmEvent} (he : Proceeds e d) (h : d.Looping)
    (hne : d.toEvaluation ≠ 0) :
    (rearmStep noise shell e d).toEvaluation < d.toEvaluation := by
  obtain ⟨config, armed, state, shutdown, now, pc, fs, progress⟩ := d
  obtain ⟨harmed, hshutdown, hm⟩ := h
  obtain ⟨⟨result, rfl⟩, hawake⟩ := he
  cases harmed
  cases hshutdown
  cases pc with
  | evaluating => exact absurd rfl hne
  | loop | armedCheck | check => exact Nat.lt_succ_self _
  | sleeping wake =>
    rw [rearmStep_next]
    unfold next
    dsimp only
    rw [if_neg (not_lt.2 (hawake wake rfl))]
    exact Nat.lt_succ_self _
  | _ => cases hm

theorem pc_of_toEvaluation (h : d.toEvaluation = 0) : d.pc = .evaluating := by
  unfold toEvaluation at h
  split at h
  · assumption
  all_goals cases h

theorem Looping.keepsEvaluating (h : d.Looping) : d.KeepsEvaluating noise shell where
  stays _ hes := (looping_runAll hes h).not_returned
  evaluates es hes es' hes' hfair n := by
    obtain ⟨m, hm, hzero⟩ := hfair.again_and_again (looping_runAll hes h)
      (fun _ _ hd he => looping_rearmStep he.1 hd) hes'
      (fun _ _ hd he hne => toEvaluation_le he hd hne)
      (fun _ _ hd _ hne hp => toEvaluation_lt hp hd hne) n
    exact ⟨m, hm, pc_of_toEvaluation hzero⟩

/-- Where the flag is set, the next call of `run` returns. -/
theorem not_keepsEvaluating (h : d.shutdown = true) : ¬ d.KeepsEvaluating noise shell := by
  intro hkeeps
  refine hkeeps.stays [.start, .next .ok] (fun e he => ?_) (.inl ?_)
  · rcases List.mem_cons.1 he with rfl | he
    · trivial
    · rw [List.mem_singleton.1 he]
      exact fun reason => TriggerResult.noConfusion
  · change (next noise shell .ok d.start).pc = _
    unfold next start
    dsimp only
    rw [if_pos h]

end Daemon

/-- After its last successful `arm` a daemon keeps evaluating its triggers if and only if it has
    not been stopped before: neither disarmed nor told to shut down. -/
theorem rearmed_keepsEvaluating_iff (noise : Noise) (shell : Shell) (config : DeadmanConfig) (now : ℕ)
    (fs : Fs) (es : List RearmEvent)
    (h : Runs.Admits (Daemon.rearmStep noise shell) Daemon.Succeeds (es ++ [.arm])
      (Daemon.new config now fs)) :
    (Runs.runAll (Daemon.rearmStep noise shell) (es ++ [.arm])
      (Daemon.new config now fs)).KeepsEvaluating noise shell ↔ ∀ e ∈ es, ¬ e.Stops := by
  obtain ⟨hes, harm, -⟩ := Runs.admits_append.1 h
  have hlast : Runs.runAll (Daemon.rearmStep noise shell) (es ++ [.arm]) (Daemon.new config now fs) =
      (Runs.runAll (Daemon.rearmStep noise shell) es (Daemon.new config now fs)).arm :=
    List.foldl_append
  have hflag := Daemon.shutdown_runAll_iff hes
  have hwaiting := fun hstops => Daemon.waiting_runAll hes hstops rfl (fun _ => trivial) harm
  rw [hlast]
  generalize Runs.runAll (Daemon.rearmStep noise shell) es (Daemon.new config now fs) = d at *
  have harmed : d.armed = false := harm
  constructor
  · intro hkeeps e he hstops
    have hshutdown : d.arm.shutdown = true := by
      rw [Daemon.arm, if_neg (ne_true_of_eq_false harmed)]
      exact hflag.2 (.inr ⟨e, he, hstops⟩)
    exact Daemon.not_keepsEvaluating hshutdown hkeeps
  · intro hstops
    refine Daemon.Looping.keepsEvaluating ?_
    rw [Daemon.arm, if_neg (ne_true_of_eq_false harmed)]
    refine ⟨rfl, ?_, ?_⟩
    · refine Bool.eq_false_iff.2 fun hshutdown => ?_
      rcases hflag.1 hshutdown with hnew | ⟨e, he, hs⟩
      · cases hnew
      · exact hstops e he hs
    · have hw := hwaiting hstops
      unfold Daemon.Waiting at hw
      unfold Daemon.monitoring
      dsimp only
      split at hw
      · simp_all
      · simp_all
      · simp_all
      · exact hw.elim

namespace Sample

def rearmStep : RearmEvent → Daemon → Daemon :=
  Daemon.rearmStep (fun _ _ _ => 0) fun _ fs => (some 0, fs)

end Sample

/-- The first arming works, also for a run that is waiting for it. -/
theorem first_arm_keepsEvaluating :
    (Runs.runAll Sample.rearmStep ([.start, .next .ok, .next .ok] ++ [.arm])
      (Daemon.new Sample.deadmanConfig 0 Sample.mountedDisk)).KeepsEvaluating (fun _ _ _ => 0)
        fun _ fs => (some 0, fs) := by
  refine (rearmed_keepsEvaluating_iff (fun _ _ _ => 0) (fun _ fs => (some 0, fs))
    Sample.deadmanConfig 0 Sample.mountedDisk [.start, .next .ok, .next .ok]
    ⟨trivial, trivial, trivial, rfl, trivial⟩).2 fun e he => ?_
  simp only [List.mem_cons, List.not_mem_nil, or_false] at he
  rcases he with rfl | rfl | rfl <;> exact id

/-- Armed, disarmed and armed again, the daemon is reported as armed and its run returns at once. -/
theorem rearmed_run_returns :
    Runs.Admits Sample.rearmStep Daemon.Succeeds ([.arm, .disarm] ++ [.arm])
      (Daemon.new Sample.deadmanConfig 0 Sample.mountedDisk) ∧
    (Runs.runAll Sample.rearmStep [.arm, .disarm, .arm, .start, .next .ok]
      (Daemon.new Sample.deadmanConfig 0 Sample.mountedDisk)).pc = .done .shutdown ∧
    (Runs.runAll Sample.rearmStep [.arm, .disarm, .arm, .start, .next .ok]
      (Daemon.new Sample.deadmanConfig 0 Sample.mountedDisk)).state = .armed ∧
    ¬ (Runs.runAll Sample.rearmStep ([.arm, .disarm] ++ [.arm])
      (Daemon.new Sample.deadmanConfig 0 Sample.mountedDisk)).KeepsEvaluating (fun _ _ _ => 0)
        fun _ fs => (some 0, fs) :=
  ⟨⟨rfl, rfl, rfl, trivial⟩, rfl, rfl, Daemon.not_keepsEvaluating rfl⟩

end TgCryptFs

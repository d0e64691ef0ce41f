import Mathlib.Algebra.GroupWithZero.Nat
import TgCryptFs.Deadman.Destroy

set_option autoImplicit false

/-!
# Every phase of the destruction

A phase that fails does not stop the next. One that panics does: a command that is denied is
shown with its first forty bytes, and these may end within a character.
-/
namespace TgCryptFs
open Library

namespace DestructionExecutor

/-- A string of `n` bytes stands before a character or the end. -/
def EndsOnCharacter (n : ℕ) (cs : List Char) : Prop :=
  ∃ pre post, cs = pre ++ post ∧ (pre.map Char.utf8Size).sum = n

theorem isSome_firstBytes {n : ℕ} {cs : List Char} :
    (firstBytes n cs).isSome = true ↔ EndsOnCharacter n cs := by
  induction cs generalizing n with
  | nil =>
    cases n with
    | zero => exact ⟨fun _ => ⟨[], [], rfl, rfl⟩, fun _ => rfl⟩
    | succ n =>
      refine ⟨nofun, ?_⟩
      rintro ⟨pre, post, hsplit, hsum⟩
      rw [(List.append_eq_nil_iff.1 hsplit.symm).1] at hsum
      cases hsum
  | cons c cs ih =>
    cases n with
    | zero => exact ⟨fun _ => ⟨[], c :: cs, rfl, rfl⟩, fun _ => by rw [firstBytes]; rfl⟩
    | succ n =>
      rw [firstBytes]
      split
      · rename_i hle
        rw [Option.isSome_map, ih]
        constructor
        · rintro ⟨pre, post, rfl, hsum⟩
          refine ⟨c :: pre, post, rfl, ?_⟩
          rw [List.map_cons, List.sum_cons, hsum]
          omega
        · rintro ⟨pre, post, hsplit, hsum⟩
          cases pre with
          | nil => cases hsum
          | cons x pre =>
            obtain ⟨rfl, hrest⟩ : c = x ∧ cs = pre ++ post := by simpa using hsplit
            rw [List.map_cons, List.sum_cons] at hsum
            exact ⟨pre, post, hrest, by omega⟩
      · rename_i hlong
        refine ⟨nofun, ?_⟩
        rintro ⟨pre, post, hsplit, hsum⟩
        cases pre with
        | nil => cases hsum
        | cons x pre =>
          obtain ⟨rfl, -⟩ : c = x ∧ cs = pre ++ post := by simpa using hsplit
          rw [List.map_cons, List.sum_cons] at hsum
          omega

/-- The command has at most forty bytes, or a character ends with the fortieth. -/
def Shown (command : String) : Prop :=
  EndsOnCharacter (min (utf8 command).length 40) command.toList

theorem isSome_shownCommand {command : String} :
    (shownCommand command).isSome = true ↔ Shown command := by
  rw [shownCommand, Option.isSome_map, isSome_firstBytes, Shown]

variable {noise : Noise} {shell : Shell} {config : DestructionConfig} {dbPath cacheDir : Option Pieces}
  {options : DestructionOptions}

theorem isSome_executePhase {phase : DestructionPhase} {fs : Fs} :
    (executePhase noise shell config dbPath cacheDir options phase fs).1.isSome = true ↔
      ∀ command, phase = .customCommand command →
        options.allowCustomCommands = true ∨ Shown command := by
  cases phase with
  | wipeKeys => exact ⟨fun _ _ h => (by cases h), fun _ => rfl⟩
  | shredDatabase =>
    refine ⟨fun _ _ h => (by cases h), fun _ => ?_⟩
    cases dbPath <;>
    · rw [executePhase]
      split <;> rfl
  | wipeCache =>
    refine ⟨fun _ _ h => (by cases h), fun _ => ?_⟩
    cases cacheDir <;>
    · rw [executePhase]
      split <;> rfl
  | deleteTelegramMessages => exact ⟨fun _ _ h => (by cases h), fun _ => rfl⟩
  | customCommand command =>
    rw [executePhase]
    split
    · rename_i hallowed
      exact ⟨fun _ _ _ => .inl hallowed, fun _ => rfl⟩
    · rename_i hdenied
      rw [Option.isSome_map, isSome_shownCommand]
      constructor
      · rintro hshown _ ⟨⟩
        exact .inr hshown
      · intro h
        exact (h command rfl).resolve_left hdenied

/-! ## The loop, whatever a phase does -/

/-- `executePhases` over any way to execute a phase. -/
def runPhases (execute : DestructionPhase → Fs → Option (Except DestructionError Unit) × Fs) :
    List DestructionPhase → DestructionProgress → Fs → Option DestructionProgress × Fs
  | [], progress, fs => (some { progress with currentPhase := none }, fs)
  | phase :: phases, progress, fs =>
    match execute phase fs with
    | (none, fs') => (none, fs')
    | (some (.ok _), fs') =>
      runPhases execute phases
        { progress with
          currentPhase := some phase
          completedPhases := progress.completedPhases + 1 } fs'
    | (some (.error e), fs') =>
      runPhases execute phases
        { progress with
          currentPhase := some phase
          completedPhases := progress.completedPhases + 1
          errors := progress.errors ++ [(phase, e)] } fs'

theorem executePhases_eq (phases : List DestructionPhase) (progress : DestructionProgress) (fs : Fs) :
    executePhases noise shell config dbPath cacheDir options phases progress fs =
      runPhases (executePhase noise shell config dbPath cacheDir options) phases progress fs := by
  induction phases generalizing progress fs with
  | nil => rfl
  | cons phase phases ih =>
    rw [executePhases, runPhases]
    rcases executePhase noise shell config dbPath cacheDir options phase fs with ⟨_ | _ | _, fs'⟩
    · rfl
    · exact ih _ _
    · exact ih _ _

/-- The phases one after the other, each once and where the one before left the files, with
    what comes of them. -/
inductive Attempts (execute : DestructionPhase → Fs → Option (Except DestructionError Unit) × Fs) :
    List DestructionPhase → Fs → List (Except DestructionError Unit) → Fs → Prop where
  | nil (fs : Fs) : Attempts execute [] fs [] fs
  | cons {phase : DestructionPhase} {phases : List DestructionPhase} {fs fs' fs'' : Fs}
      {result : Except DestructionError Unit} {results : List (Except DestructionError Unit)}
      (h : execute phase fs = (some result, fs'))
      (hrest : Attempts execute phases fs' results fs'') :
      Attempts execute (phase :: phases) fs (result :: results) fs''

/-- The error entries: one for each phase that fails. -/
def failures : List DestructionPhase → List (Except DestructionError Unit) →
    List (DestructionPhase × DestructionError)
  | phase :: phases, .error e :: results => (phase, e) :: failures phases results
  | _ :: phases, .ok _ :: results => failures phases results
  | _, _ => []

section

variable {execute : DestructionPhase → Fs → Option (Except DestructionError Unit) × Fs}

theorem runPhases_of_attempts {phases : List DestructionPhase} {fs fs' : Fs}
    {results : List (Except DestructionError Unit)} (h : Attempts execute phases fs results fs')
    (progress : DestructionProgress) :
    runPhases execute phases progress fs =
      (some { progress with
        completedPhases := progress.completedPhases + phases.length
        currentPhase := none
        errors := progress.errors ++ failures phases results }, fs') := by
  induction h generalizing progress with
  | nil fs => simp [runPhases, failures]
  | cons h hrest ih =>
    rename_i phase phases fs fs' fs'' result results
    rw [runPhases, h]
    cases result with
    | ok _ =>
      dsimp only
      rw [ih, failures, List.length_cons, Nat.add_assoc, Nat.add_comm 1]
    | error e =>
      dsimp only
      rw [ih, failures, List.length_cons, Nat.add_assoc, Nat.add_comm 1, List.append_assoc]
      rfl

/-- The phases that do not panic are those for which `P` holds, wherever the files stand. -/
theorem exists_attempts_iff {P : DestructionPhase → Prop}
    (hP : ∀ phase fs, (execute phase fs).1.isSome = true ↔ P phase)
    {phases : List DestructionPhase} {fs : Fs} :
    (∃ results fs', Attempts execute phases fs results fs') ↔ ∀ phase ∈ phases, P phase := by
  induction phases generalizing fs with
  | nil => exact ⟨fun _ _ => nofun, fun _ => ⟨[], fs, .nil fs⟩⟩
  | cons phase phases ih =>
    constructor
    · rintro ⟨results, fs', hall⟩
      cases hall with
      | cons h hrest =>
        have hphase := (hP phase fs).1 (congrArg (fun r => r.1.isSome) h)
        intro x hx
        rcases List.mem_cons.1 hx with rfl | hx
        · exact hphase
        · exact ih.1 ⟨_, _, hrest⟩ x hx
    · intro hall
      have hphase := (hP phase fs).2 (hall phase List.mem_cons_self)
      obtain ⟨result, hresult⟩ := Option.isSome_iff_exists.1 hphase
      obtain ⟨results, fs', hrest⟩ := ih.2 fun x hx => hall x (List.mem_cons_of_mem phase hx)
      exact ⟨result :: results, fs', .cons (Prod.ext hresult rfl) hrest⟩

end

/-! ## File operations that fail -/

/-- Where the file operations of a phase fail: with what error, and what they leave of the files. -/
abbrev Faults := DestructionPhase → Fs → Option (DestructionError × Fs)

/-- `executePhase` where file operations may fail. What a command does is up to the shell. -/
def executePhaseWith (faults : Faults) (noise : Noise) (shell : Shell) (config : DestructionConfig)
    (dbPath cacheDir : Option Pieces) (options : DestructionOptions) (phase : DestructionPhase)
    (fs : Fs) : Option (Except DestructionError Unit) × Fs :=
  match phase, dbPath, cacheDir, faults phase fs with
  | .shredDatabase, some _, _, some (e, fs') =>
    if config.shredMetadataDb then (some (.error e), fs') else (some (.ok ()), fs)
  | .wipeCache, _, some _, some (e, fs') =>
    if config.wipeCache then (some (.error e), fs') else (some (.ok ()), fs)
  | phase, dbPath, cacheDir, _ => executePhase noise shell config dbPath cacheDir options phase fs

/-- `executeWithOptions` where file operations may fail. -/
def executeWithFaults (faults : Faults) (noise : Noise) (shell : Shell) (config : DestructionConfig)
    (dbPath cacheDir : Option Pieces) (options : DestructionOptions) (fs : Fs) :
    Option DestructionProgress × Fs :=
  runPhases (executePhaseWith faults noise shell config dbPath cacheDir options) config.phases
    { totalPhases := config.phases.length, completedPhases := 0, currentPhase := none, errors := [] } fs

theorem executeWithFaults_none (fs : Fs) :
    executeWithFaults (fun _ _ => none) noise shell config dbPath cacheDir options fs =
      executeWithOptions noise shell config dbPath cacheDir options fs := by
  have hphase : executePhaseWith (fun _ _ => none) noise shell config dbPath cacheDir options =
      executePhase noise shell config dbPath cacheDir options := by
    funext phase fs
    unfold executePhaseWith
    split
    · rename_i hnone
      cases hnone
    · rename_i hnone
      cases hnone
    · rfl
  rw [executeWithFaults, executeWithOptions, executePhases_eq, hphase]

variable {faults : Faults}

theorem isSome_executePhaseWith (phase : DestructionPhase) (fs : Fs) :
    (executePhaseWith faults noise shell config dbPath cacheDir options phase fs).1.isSome = true ↔
      ∀ command, phase = .customCommand command →
        options.allowCustomCommands = true ∨ Shown command := by
  unfold executePhaseWith
  split
  · refine ⟨fun _ _ => nofun, fun _ => ?_⟩
    split <;> rfl
  · refine ⟨fun _ _ => nofun, fun _ => ?_⟩
    split <;> rfl
  · exact isSome_executePhase

/-- Every phase is attempted in its turn and once, all are counted, and those that fail are listed. -/
def Completes (faults : Faults) (noise : Noise) (shell : Shell) (config : DestructionConfig)
    (dbPath cacheDir : Option Pieces) (options : DestructionOptions) (fs : Fs) : Prop :=
  ∃ results fs',
    Attempts (executePhaseWith faults noise shell config dbPath cacheDir options) config.phases fs
      results fs' ∧
    executeWithFaults faults noise shell config dbPath cacheDir options fs =
      (some
        { totalPhases := config.phases.length
          completedPhases := config.phases.length
          currentPhase := none
          errors := failures config.phases results }, fs')

end DestructionExecutor

namespace Sample

/-- Thirty-nine letters and one of two bytes. -/
def accentedCommand : String := String.ofList (List.replicate 39 'a' ++ ['é'])

/-- A command, and after it the database. -/
def commandFirst : DestructionConfig :=
  { (default : DestructionConfig) with phases := [.customCommand accentedCommand, .shredDatabase] }

end Sample

end TgCryptFs

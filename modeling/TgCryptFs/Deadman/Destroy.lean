import TgCryptFs.Core.Volume

set_option autoImplicit false

/-!
# The destruction sequence

The phases run in order and an error in one does not stop the next. The paths of the
database and of the cache are optional, and a phase without its path has nothing to do.
-/
namespace TgCryptFs
open Library

inductive DestructionPhase where
  | wipeKeys
  | shredDatabase
  | wipeCache
  | deleteTelegramMessages
  | customCommand (command : String)
deriving DecidableEq

structure DestructionConfig where
  phases : List DestructionPhase
  deleteTelegramMessages : Bool
  shredMetadataDb : Bool
  shredPasses : ℕ
  wipeKeyHierarchy : Bool
  wipeCache : Bool
deriving DecidableEq

instance : Inhabited DestructionConfig where
  default :=
    { phases := [.wipeKeys, .shredDatabase, .wipeCache, .deleteTelegramMessages]
      deleteTelegramMessages := true
      shredMetadataDb := true
      shredPasses := 3
      wipeKeyHierarchy := true
      wipeCache := true }

structure DestructionOptions where
  allowCustomCommands : Bool := false

inductive DestructionError where
  | overwritePass (pass : ℕ)
  | delete
  | readdir
  | rmdir
  | exec (command : String)
  | exitCode (code : ℤ)
  | customCommandDenied (shown : String)
deriving DecidableEq

structure DestructionProgress where
  totalPhases : ℕ
  completedPhases : ℕ
  currentPhase : Option DestructionPhase
  errors : List (DestructionPhase × DestructionError)
deriving DecidableEq

/-- What `sh -c` does: the exit code, `-1` after a signal, or none if it does not start. -/
abbrev Shell := String → Fs → Option ℤ × Fs

namespace DestructionExecutor

/-- Overwritten `passes` times, then deleted. A path that leads nowhere is left. -/
def shredFile (noise : Noise) (path : Pieces) (passes : ℕ) (fs : Fs) :
    Except DestructionError Unit × Fs :=
  if fs.existsAt path = false then (.ok (), fs)
  else
    let size := match fs.fileAt path with
      | some ino => (fs.content ino).length
      | none => 0
    match untilError (overwritePass .overwritePass noise path size) (List.range passes) fs with
    | (.error e, fs') => (.error e, fs')
    | (.ok _, fs') =>
      match fs'.removeFile path with
      | none => (.error .delete, fs')
      | some fs'' => (.ok (), fs'')

/-- The recursion gets `fuel` directories deep. -/
def wipeDirectory (noise : Noise) : ℕ → Pieces → Fs → Except DestructionError Unit × Fs
  | 0, _, fs => (.error .readdir, fs)
  | fuel + 1, dir, fs =>
    match fs.resolve dir with
    | none => (.ok (), fs)
    | some l =>
      if fs.kind l ≠ some .dir then (.error .readdir, fs)
      else
        let files := untilError (fun n fs =>
          if fs.isDir (dir ++ [n]) then wipeDirectory noise fuel (dir ++ [n]) fs
          else shredFile noise (dir ++ [n]) 1 fs) (fs.readDir l) fs
        match files with
        | (.error e, fs') => (.error e, fs')
        | (.ok _, fs') =>
          match fs'.removeDirAll dir with
          | (false, fs'') => (.error .rmdir, fs'')
          | (true, fs'') => (.ok (), fs'')

def executeCommand (shell : Shell) (command : String) (fs : Fs) : Except DestructionError Unit × Fs :=
  match shell command fs with
  | (none, fs') => (.error (.exec command), fs')
  | (some code, fs') => (if code = 0 then .ok () else .error (.exitCode code), fs')

/-- The first `n` bytes of a string, if they end with a character. -/
def firstBytes : ℕ → List Char → Option (List Char)
  | 0, _ => some []
  | _ + 1, [] => none
  | n + 1, c :: cs =>
    if c.utf8Size ≤ n + 1 then (firstBytes (n + 1 - c.utf8Size) cs).map (c :: ·) else none

/-- `&command[..command.len().min(40)]`, which panics inside a character. -/
def shownCommand (command : String) : Option String :=
  (firstBytes (min (utf8 command).length 40) command.toList).map String.ofList

variable (noise : Noise) (shell : Shell) (config : DestructionConfig)
  (dbPath cacheDir : Option Pieces) (options : DestructionOptions)

/-- One phase. There is no result if it panics. -/
def executePhase (phase : DestructionPhase) (fs : Fs) : Option (Except DestructionError Unit) × Fs :=
  match phase with
  -- the keys are zeroed where they are dropped, the phase only logs
  | .wipeKeys => (some (.ok ()), fs)
  | .shredDatabase =>
    if config.shredMetadataDb then
      match dbPath with
      | some path => (shredFile noise path config.shredPasses fs).map some id
      | none => (some (.ok ()), fs)
    else (some (.ok ()), fs)
  | .wipeCache =>
    if config.wipeCache then
      match cacheDir with
      | some dir => (wipeDirectory noise (searchDepth fs) dir fs).map some id
      | none => (some (.ok ()), fs)
    else (some (.ok ()), fs)
  -- there is no connected client, whatever the flag says
  | .deleteTelegramMessages => (some (.ok ()), fs)
  | .customCommand command =>
    if options.allowCustomCommands then (executeCommand shell command fs).map some id
    else ((shownCommand command).map fun shown => .error (.customCommandDenied shown), fs)

def executePhases : List DestructionPhase → DestructionProgress → Fs → Option DestructionProgress × Fs
  | [], progress, fs => (some { progress with currentPhase := none }, fs)
  | phase :: phases, progress, fs =>
    match executePhase noise shell config dbPath cacheDir options phase fs with
    | (none, fs') => (none, fs')
    | (some (.ok _), fs') =>
      executePhases phases
        { progress with
          currentPhase := some phase
          completedPhases := progress.completedPhases + 1 } fs'
    | (some (.error e), fs') =>
      executePhases phases
        { progress with
          currentPhase := some phase
          completedPhases := progress.completedPhases + 1
          errors := progress.errors ++ [(phase, e)] } fs'

def executeWithOptions (fs : Fs) : Option DestructionProgress × Fs :=
  executePhases noise shell config dbPath cacheDir options config.phases
    { totalPhases := config.phases.length, completedPhases := 0, currentPhase := none, errors := [] } fs

def execute (fs : Fs) : Option DestructionProgress × Fs :=
  executeWithOptions noise shell config dbPath cacheDir {} fs

variable {noise shell config}

/-- Without paths and without leave to run commands no phase touches a file. -/
theorem executePhase_none (phase : DestructionPhase) (fs : Fs) :
    (executePhase noise shell config none none {} phase fs).2 = fs := by
  cases phase with
  | wipeKeys => rfl
  | shredDatabase =>
    rw [executePhase]
    split <;> rfl
  | wipeCache =>
    rw [executePhase]
    split <;> rfl
  | deleteTelegramMessages => rfl
  | customCommand command => rfl

theorem executePhases_none (phases : List DestructionPhase) (progress : DestructionProgress) (fs : Fs) :
    (executePhases noise shell config none none {} phases progress fs).2 = fs := by
  induction phases generalizing progress with
  | nil => rfl
  | cons phase phases ih =>
    have hphase := @executePhase_none noise shell config phase fs
    rw [executePhases]
    split
    · rename_i he
      rw [he] at hphase
      exact hphase
    · rename_i fs' he
      rw [he] at hphase
      obtain rfl : fs' = fs := hphase
      exact ih _
    · rename_i fs' he
      rw [he] at hphase
      obtain rfl : fs' = fs := hphase
      exact ih _

theorem execute_none (fs : Fs) : (execute noise shell config none none fs).2 = fs :=
  executePhases_none _ _ fs

end DestructionExecutor
end TgCryptFs

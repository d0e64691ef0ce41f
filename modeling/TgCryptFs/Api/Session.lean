import TgCryptFs.Core.OpenVolume
import TgCryptFs.Library.Runs

set_option autoImplicit false

/-!
# Volume sessions of the API server

Requests to open, close and delete volumes, each cut at its await points: a request runs
from one to the next without any other, and between two of them all others may run. The map
of mounted volumes that `VolumeService` looks at is never filled.
-/
namespace TgCryptFs
open Library

/-- A session. `conn` counts the connections the server has opened, `dir` is the directory its
    database is in. -/
structure VolumeSession where
  volumeId : String
  displayName : String
  config : VolumeConfig
  conn : ℕ
  dir : Location
  schemaKey : Bytes
  metaKey : Bytes
  dataKey : Bytes
deriving DecidableEq

inductive ApiError where
  | sessionAlreadyOpen (volumeId : String)
  | sessionNotOpen (volumeId : String)
  | volumeIsMounted (volumeId : String)
  | crypto (e : CoreError)
  | openDb
  | deleteVolume (e : VolumeError)
deriving DecidableEq

inductive ApiResponse where
  | opened (session : VolumeSession)
  | closed (volumeId : String)
  | deleted (volumeId : String)
  | failed (e : ApiError)
deriving DecidableEq

/-- What a request to open does next. -/
inductive OpenPc where
  | check
  | derive
  | database (result : OpenVolumeResult)
  | insert (session : VolumeSession)

/-- What a request to delete does next. -/
inductive DeletePc where
  | check
  | mounted
  | delete
deriving DecidableEq

inductive ApiRequest where
  | open (volumeId password : String) (pc : OpenPc)
  | close (volumeId : String)
  | delete (volumeId : String) (pc : DeletePc)

/-- A request to open the volume that has passed its check. -/
def ApiRequest.opening (volumeId : String) : ApiRequest → Bool
  | .open _ _ .check => false
  | .open v _ _ => v = volumeId
  | _ => false

/-- `SessionManager` and `VolumeService` with the requests under way, the disk, and the answers
    given so far, the last one first. -/
structure Api where
  baseDir : Pieces
  sessions : String → Option VolumeSession
  requests : ℕ → Option ApiRequest
  connections : ℕ
  fs : Fs
  log : List ApiResponse

inductive ApiEvent where
  | open (k : ℕ) (volumeId password : String)
  | close (k : ℕ) (volumeId : String)
  | delete (k : ℕ) (volumeId : String)
  /-- The `k`-th request goes on. Opening the database may fail for reasons of its own. -/
  | advance (k : ℕ) (fault : Bool)

/-- The number of the request the event is about. -/
def ApiEvent.request : ApiEvent → ℕ
  | .open k _ _ => k
  | .close k _ => k
  | .delete k _ => k
  | .advance k _ => k

/-- `Connection::open` in a directory: the database is created if it is not there. -/
def openDatabase (baseDir : Pieces) (fs : Fs) : Option (Location × Fs) :=
  match fs.resolve baseDir with
  | none => none
  | some d =>
    if fs.kind d ≠ some .dir then none
    else
      match fs.kind (d ++ ["metadata.db"]) with
      | some .dir => none
      | some _ => some (d, fs)
      | none => some (d, fs.create d "metadata.db")

/-- The database is in the directory the path leads to, and no directory has gone. -/
theorem openDatabase_spec {baseDir : Pieces} {fs fs' : Fs} {d : Location}
    (h : openDatabase baseDir fs = some (d, fs')) :
    fs.kind d = some .dir ∧ ∀ l k, fs.kind l = some k → fs'.kind l = some k := by
  unfold openDatabase at h
  split at h
  · cases h
  split at h
  · cases h
  rename_i hd
  split at h
  · cases h
  · cases h
    exact ⟨not_not.1 hd, fun _ _ h => h⟩
  · cases h
    exact ⟨not_not.1 hd, fun _ _ h => FileSystem.kind_create h⟩

namespace Api

def start (baseDir : Pieces) (fs : Fs) : Api where
  baseDir := baseDir
  sessions _ := none
  requests _ := none
  connections := 0
  fs := fs
  log := []

/-- The request has passed its first check. -/
def continueAs (a : Api) (k : ℕ) (r : ApiRequest) : Api :=
  { a with requests := Function.update a.requests k (some r) }

/-- The request is over. -/
def answer (a : Api) (k : ℕ) (response : ApiResponse) : Api :=
  { a with requests := Function.update a.requests k none, log := response :: a.log }

def arrive (a : Api) (k : ℕ) (r : ApiRequest) : Api :=
  match a.requests k with
  | some _ => a
  | none => a.continueAs k r

/-- A request is the one that has changed or has been there before. -/
theorem requests_of_update {a a' : Api} {k : ℕ} {x : Option ApiRequest}
    (h : a'.requests = Function.update a.requests k x) {j : ℕ} {r : ApiRequest}
    (hj : a'.requests j = some r) : (j = k ∧ x = some r) ∨ (j ≠ k ∧ a.requests j = some r) := by
  rw [h] at hj
  by_cases e : j = k
  · subst e
    rw [Function.update_self] at hj
    exact .inl ⟨rfl, hj⟩
  · rw [Function.update_of_ne e] at hj
    exact .inr ⟨e, hj⟩

/-- There is no request but the `k`-th. -/
def Single (k : ℕ) (a : Api) : Prop := ∀ j, j ≠ k → a.requests j = none

theorem Single.eq {a : Api} {k j : ℕ} {r : ApiRequest} (h : a.Single k) (hj : a.requests j = some r) :
    j = k := by
  by_contra hne
  rw [h j hne] at hj
  cases hj

def isOpen (a : Api) (volumeId : String) : Bool := (a.sessions volumeId).isSome

section

variable [Primitives] [KeyDerivation] [ConfigFormat]

/-- `SessionManager::open`. -/
def advanceOpen (a : Api) (k : ℕ) (fault : Bool) (volumeId password : String) : OpenPc → Api
  | .check =>
    if a.isOpen volumeId then a.answer k (.failed (.sessionAlreadyOpen volumeId))
    else a.continueAs k (.open volumeId password .derive)
  | .derive =>
    match openVolume volumeId (utf8 password) a.baseDir a.fs with
    | .error e => a.answer k (.failed (.crypto e))
    | .ok result => a.continueAs k (.open volumeId password (.database result))
  | .database result =>
    match if fault then none else openDatabase result.paths.baseDir a.fs with
    | none => a.answer k (.failed .openDb)
    | some (d, fs') =>
      let session : VolumeSession :=
        { volumeId := volumeId
          displayName := result.config.displayName
          config := result.config
          conn := a.connections
          dir := d
          schemaKey := result.hierarchy.schema
          metaKey := result.hierarchy.metaKey
          dataKey := result.hierarchy.data }
      { a with fs := fs', connections := a.connections + 1 }.continueAs k
        (.open volumeId password (.insert session))
  | .insert session =>
    { a with sessions := Function.update a.sessions volumeId (some session) }.answer k (.opened session)

end

/-- `SessionManager::close`. -/
def advanceClose (a : Api) (k : ℕ) (volumeId : String) : Api :=
  if a.isOpen volumeId then
    { a with sessions := Function.update a.sessions volumeId none }.answer k (.closed volumeId)
  else a.answer k (.failed (.sessionNotOpen volumeId))

/-- The handler `delete` and `VolumeService::delete`. -/
def advanceDelete (noise : Noise) (a : Api) (k : ℕ) (volumeId : String) : DeletePc → Api
  | .check =>
    if a.isOpen volumeId then a.answer k (.failed (.volumeIsMounted volumeId))
    else a.continueAs k (.delete volumeId .mounted)
  | .mounted => a.continueAs k (.delete volumeId .delete)
  | .delete =>
    match deleteVolume noise volumeId a.baseDir a.fs with
    | (.error e, fs') => { a with fs := fs' }.answer k (.failed (.deleteVolume e))
    | (.ok _, fs') => { a with fs := fs' }.answer k (.deleted volumeId)

variable [Primitives] [KeyDerivation] [ConfigFormat]

def step (noise : Noise) : ApiEvent → Api → Api
  | .open k volumeId password, a => a.arrive k (.open volumeId password .check)
  | .close k volumeId, a => a.arrive k (.close volumeId)
  | .delete k volumeId, a => a.arrive k (.delete volumeId .check)
  | .advance k fault, a =>
    match a.requests k with
    | none => a
    | some (.open volumeId password pc) => a.advanceOpen k fault volumeId password pc
    | some (.close volumeId) => a.advanceClose k volumeId
    | some (.delete volumeId pc) => a.advanceDelete noise k volumeId pc

theorem requests_step_of_ne (noise : Noise) (e : ApiEvent) (a : Api) {j : ℕ} (hj : j ≠ e.request) :
    (step noise e a).requests j = a.requests j := by
  have hcont : ∀ (a' : Api) k r, j ≠ k → (a'.continueAs k r).requests j = a'.requests j :=
    fun a' k r h => Function.update_of_ne h _ _
  have hanswer : ∀ (a' : Api) k r, j ≠ k → (a'.answer k r).requests j = a'.requests j :=
    fun a' k r h => Function.update_of_ne h _ _
  have harrive : ∀ k r, j ≠ k → (a.arrive k r).requests j = a.requests j := by
    intro k r h
    unfold arrive
    split
    · rfl
    · exact hcont a k r h
  cases e with
  | «open» k volumeId password => exact harrive k _ hj
  | close k volumeId => exact harrive k _ hj
  | delete k volumeId => exact harrive k _ hj
  | advance k fault =>
    have hj : j ≠ k := hj
    unfold step
    dsimp only
    split
    · rfl
    · unfold advanceOpen
      split
      · split
        · exact hanswer _ _ _ hj
        · exact hcont _ _ _ hj
      · split
        · exact hanswer _ _ _ hj
        · exact hcont _ _ _ hj
      · split
        · exact hanswer _ _ _ hj
        · exact hcont _ _ _ hj
      · exact hanswer _ _ _ hj
    · unfold advanceClose
      split
      · exact hanswer _ _ _ hj
      · exact hanswer _ _ _ hj
    · unfold advanceDelete
      split
      · split
        · exact hanswer _ _ _ hj
        · exact hcont _ _ _ hj
      · exact hcont _ _ _ hj
      · split
        · exact hanswer _ _ _ hj
        · exact hanswer _ _ _ hj

/-- `ok` holds before each of the events. -/
def allBefore (noise : Noise) (ok : Api → Bool) : List ApiEvent → Api → Bool
  | [], _ => true
  | e :: es, a => ok a && allBefore noise ok es (step noise e a)

theorem admits_of_single (noise : Noise) {admitted : ApiEvent → Api → Prop} {k : ℕ} (ok : Api → Bool)
    (hok : ∀ e a, a.Single k → ok a = true → admitted e a) (es : List ApiEvent)
    (hes : ∀ e ∈ es, e.request = k) {a : Api} (ha : a.Single k) (h : allBefore noise ok es a = true) :
    Runs.Admits (step noise) admitted es a := by
  induction es generalizing a with
  | nil => trivial
  | cons e es ih =>
    rw [allBefore, Bool.and_eq_true_iff] at h
    refine ⟨hok e a ha h.1, ih (fun e he => hes e (List.mem_cons_of_mem _ he)) (fun j hj => ?_) h.2⟩
    have hne : j ≠ e.request := by
      rw [hes e List.mem_cons_self]
      exact hj
    rw [requests_step_of_ne noise e a hne]
    exact ha j hj

end Api
end TgCryptFs

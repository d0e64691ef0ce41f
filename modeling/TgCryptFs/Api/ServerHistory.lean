import TgCryptFs.Api.Server
import TgCryptFs.Cli.VolumeHistory

set_option autoImplicit false

/-!
# The server and the volumes

With the requests of any number of clients under way, the volumes directory is still the one of a
registry: what requests have created and not deleted. A session comes from a password that has
unlocked its volume, and the shares of a volume are in reach of its session only.
-/
namespace TgCryptFs
open Library
namespace Http

/-! ## What the handlers change -/

/-- What a handler that answers at once leaves, when it is about neither volumes nor the login. -/
inductive Change (a : App) : App → Prop where
  | same : Change a a
  | database {id : String} {session : VolumeSession} (h : a.api.sessions id = some session)
      (db : SharingDb) : Change a (a.withDatabase session db)
  | deadman (deadman : DeadmanService) : Change a { a with deadman }

theorem change_withJson {a : App} (body : Except ℕ Json) {handler : Json → Response × App}
    (h : ∀ json, Change a (handler json).2) : Change a (withJson body a handler).2 := by
  unfold withJson
  split
  · exact .same
  · exact h _

theorem change_mount {a : App} (id : String) (body : Except ℕ Json) : Change a (mount id body a).2 := by
  refine change_withJson body fun json => ?_
  split
  · exact .same
  · exact .same
  · split
    · exact .same
    · exact .same

section

variable [Causes]

theorem change_withSession {α : Type} {a : App} (id : String)
    (call : VolumeSession → SharingDb → Except ServiceError α × SharingDb) (answer : α → Response) :
    Change a (withSession a id call answer).2 := by
  unfold withSession
  split
  · exact .same
  · rename_i session hsession
    split
    · exact .database hsession _
    · exact .database hsession _

theorem change_revokeShare {a : App} (userId : String) (m : Moment) (body : Except ℕ Json) :
    Change a (revokeShare userId m body a).2 := by
  refine change_withJson body fun json => ?_
  split
  · exact .same
  · exact change_withSession _ _ _

theorem change_disarm {a : App} : Change a (disarm a).2 := by
  unfold disarm
  split
  · exact .deadman _
  · exact .deadman _

theorem change_arm [DeadmanCodec] {a : App} (m : Moment) (body : Except ℕ Json) : Change a (arm m body a).2 := by
  unfold arm
  split
  · exact .same
  · split
    · exact .deadman _
    · exact .deadman _

variable [Primitives]

theorem change_createInvite [Postcard Invite] {a : App} (m : Moment) (body : Except ℕ Json) :
    Change a (createInvite m body a).2 := by
  refine change_withJson body fun json => ?_
  have helim : ∀ db : SharingDb, Change a ((((json.get "volume_id").bind Json.asStr).bind a.api.sessions).elim a
      fun session => a.withDatabase session db) := by
    intro db
    cases hsession : ((json.get "volume_id").bind Json.asStr).bind a.api.sessions with
    | none => exact .same
    | some session =>
      obtain ⟨id, -, hid⟩ := Option.bind_eq_some_iff.1 hsession
      exact .database hid db
  dsimp only
  split
  · exact helim _
  · exact helim _

variable [Postcard ShareRecord]

theorem change_createShare {a : App} (m : Moment) (body : Except ℕ Json) :
    Change a (createShare m body a).2 := by
  refine change_withJson body fun json => ?_
  split
  · exact .same
  · exact .same
  · dsimp only
    split
    · exact .same
    · exact change_withSession _ _ _

variable [Postcard Invite]

theorem change_acceptInvite {a : App} (inviteId : String) (m : Moment) (body : Except ℕ Json) :
    Change a (acceptInvite inviteId m body a).2 := by
  refine change_withJson body fun json => ?_
  split
  · exact .same
  · exact .same
  · exact change_withSession _ _ _

variable [KeyDerivation] [ConfigCodec] [DeadmanCodec]

theorem respond_change {endpoint : Endpoint} (hcreate : endpoint ≠ .createVolume) (hlogout : endpoint ≠ .logout)
    (body : Except ℕ Json) (m : Moment) (a : App) : Change a (respond endpoint body m a).2 := by
  cases endpoint with
  | createVolume => exact absurd rfl hcreate
  | logout => exact absurd rfl hlogout
  | mount id => exact change_mount id body
  | listShares id => exact change_withSession _ _ _
  | createShare => exact change_createShare m body
  | revokeShare userId => exact change_revokeShare userId m body
  | createInvite => exact change_createInvite m body
  | acceptInvite inviteId => exact change_acceptInvite inviteId m body
  | arm => exact change_arm m body
  | disarm => exact change_disarm
  | _ => exact .same

end

/-! ## The registry of what has been requested -/

/-- What the step of a request does to the volumes. -/
def sessionRecord (a : Api) (client : ℕ) (r : Registry) : Registry :=
  match a.requests client with
  | some (.delete volumeId .delete) => Function.update r volumeId .free
  | _ => r

/-- What a creation does to the volumes, once its password is long enough. -/
def creationRecord [Primitives] [KeyDerivation] (m : Moment) (body : Except ℕ Json) (r : Registry) : Registry :=
  match body.toOption.bind CreateVolumeRequest.fromValue with
  | none => r
  | some fields =>
    if (utf8 fields.password).length < 8 then r
    else Function.update r m.chance.volumeId (createdSlot m.chance fields.name (utf8 fields.password))

def ServerEvent.record [Primitives] [KeyDerivation] (e : ServerEvent) (s : Server) (r : Registry) : Registry :=
  match e with
  | .advance client m =>
    match s.tasks client with
    | some (.once .createVolume body) => creationRecord m body r
    | some .session => sessionRecord s.app.api client r
    | _ => r
  | _ => r

/-- A change of files that leaves the directory `v` and the way to it alone. -/
structure Elsewhere (v : Location) (fs fs' : Fs) : Prop where
  keeps : Keeps fs fs'
  kind : ∀ l, v <+: l → fs'.kind l = fs.kind l
  content : ∀ l ino, v <+: l → fs.kind l = some (.file ino) →
    fs'.content ino = fs.content ino ∧ ∀ l', fs'.kind l' = some (.file ino) → fs.kind l' = some (.file ino)

/-- The volumes a handler opens or deletes have ids of the usual form. -/
def Endpoint.Plain : Endpoint → Prop
  | .openVolume volumeId | .deleteVolume volumeId => PlainId volumeId
  | _ => True

/-- New ids are free ones, the session file of the login is not among the volumes, and what others
    do with the files is work in a volume or elsewhere. -/
def ServerEvent.Admitted [Primitives] (v : Location) (e : ServerEvent) (s : Server × Registry) : Prop :=
  match e with
  | .request _ asked => ∀ endpoint, dispatch (some s.1.auth) asked = .ok endpoint → endpoint.Plain
  | .advance client m =>
    match s.1.tasks client with
    | some (.once .createVolume _) => PlainId m.chance.volumeId ∧ s.2 m.chance.volumeId = .free
    | some (.once .logout _) => ∀ fs', s.1.app.fs.removeFile s.1.app.sessionPath = some fs' →
        Elsewhere v s.1.app.fs fs'
    | _ => True
  | .files change => Elsewhere v s.1.app.fs (change s.1.app.fs) ∨ ∃ id, Work v id s.1.app.fs (change s.1.app.fs)
  | _ => True

variable {volumesDir : Pieces} {fs₀ fs fs' : Fs} {v : Location} {r : Registry} {id : String}

theorem linkFree_elsewhere (h : LinkFree fs v) (he : Elsewhere v fs fs') : LinkFree fs' v := by
  intro l t hp hl
  rw [he.kind l hp] at hl
  exact h l t hp hl

theorem holds_elsewhere [ConfigCodec] (h : Holds fs₀ v fs r) (he : Elsewhere v fs fs') : Holds fs₀ v fs' r where
  keeps l k hl hf := he.keeps l k (h.keeps l k hl hf) hf
  links := linkFree_elsewhere h.links he
  slots n := by
    refine (h.slots n).frame (he.kind _ (List.prefix_append v [n])) (he.kind _ ?_) fun ino hino _ => ?_
    · rw [List.append_assoc]
      exact List.prefix_append v _
    · refine he.content _ ino ?_ hino
      rw [List.append_assoc]
      exact List.prefix_append v _

/-- What is known of a request under way. -/
def InFlight (volumesDir : Pieces) (v : Location) : ApiRequest → Prop
  | .open id _ (.database result) => PlainId id ∧ result.paths = volumePaths volumesDir id
  | .open id _ (.insert session) => PlainId id ∧ session.dir = v ++ [id]
  | .open id _ _ => PlainId id
  | .close _ => True
  | .delete id _ => PlainId id

/-- The files are those of the registry, and each session is one of the directory of its volume. -/
structure Kept [ConfigCodec] (volumesDir : Pieces) (fs₀ : Fs) (v : Location) (a : Api) (r : Registry) : Prop where
  baseDir : a.baseDir = volumesDir
  holds : Holds fs₀ v a.fs r
  requests : ∀ k request, a.requests k = some request → InFlight volumesDir v request
  sessions : ∀ id session, a.sessions id = some session → session.dir = v ++ [id]

namespace Kept

variable [ConfigCodec] {a : Api}

theorem answer (h : Kept volumesDir fs₀ v a r) (k : ℕ) (response : ApiResponse) :
    Kept volumesDir fs₀ v (a.answer k response) r where
  baseDir := h.baseDir
  holds := h.holds
  requests j request hj := by
    rcases Api.requests_of_update rfl hj with ⟨-, he⟩ | ⟨-, hj⟩
    · cases he
    · exact h.requests j request hj
  sessions := h.sessions

theorem continueAs (h : Kept volumesDir fs₀ v a r) (k : ℕ) {request : ApiRequest}
    (hrequest : InFlight volumesDir v request) : Kept volumesDir fs₀ v (a.continueAs k request) r where
  baseDir := h.baseDir
  holds := h.holds
  requests j request' hj := by
    rcases Api.requests_of_update rfl hj with ⟨-, he⟩ | ⟨-, hj⟩
    · cases he
      exact hrequest
    · exact h.requests j request' hj
  sessions := h.sessions

theorem arrive (h : Kept volumesDir fs₀ v a r) (k : ℕ) {request : ApiRequest}
    (hrequest : InFlight volumesDir v request) : Kept volumesDir fs₀ v (a.arrive k request) r := by
  unfold Api.arrive
  split
  · exact h
  · exact h.continueAs k hrequest

theorem withFs (h : Kept volumesDir fs₀ v a r) {r' : Registry} (hholds : Holds fs₀ v fs' r') :
    Kept volumesDir fs₀ v { a with fs := fs' } r' := ⟨h.baseDir, hholds, h.requests, h.sessions⟩

theorem advanceClose (h : Kept volumesDir fs₀ v a r) (k : ℕ) (id : String) :
    Kept volumesDir fs₀ v (a.advanceClose k id) r := by
  unfold Api.advanceClose
  split
  · have hnext : Kept volumesDir fs₀ v { a with sessions := Function.update a.sessions id none } r := by
      refine ⟨h.baseDir, h.holds, h.requests, fun id' session' hid' => ?_⟩
      dsimp only at hid'
      rw [Function.update_apply] at hid'
      split at hid'
      · cases hid'
      · exact h.sessions id' session' hid'
    exact hnext.answer k _
  · exact h.answer k _

theorem advanceDelete (hunused : Unused volumesDir fs₀ v) (h : Kept volumesDir fs₀ v a r) (noise : Noise)
    (k : ℕ) {pc : DeletePc} (hplain : PlainId id) (hrequest : a.requests k = some (.delete id pc)) :
    Kept volumesDir fs₀ v (a.advanceDelete noise k id pc) (sessionRecord a k r) := by
  unfold Api.advanceDelete
  rw [sessionRecord, hrequest]
  split
  · split
    · exact h.answer k _
    · exact h.continueAs k hplain
  · exact h.continueAs k hplain
  · dsimp only
    by_cases hfree : r id = .free
    · have hdelete := deleteVolume_free hunused h.holds hplain hfree noise
      rw [← h.baseDir] at hdelete
      rw [hdelete, ← hfree, Function.update_eq_self]
      exact h.answer k _
    · obtain ⟨fs', hdelete, hholds⟩ := deleteVolume_taken hunused h.holds hplain hfree noise
      rw [← h.baseDir] at hdelete
      rw [hdelete]
      exact (h.withFs hholds).answer k _

variable [Primitives] [KeyDerivation]

theorem advanceOpen (hunused : Unused volumesDir fs₀ v) (h : Kept volumesDir fs₀ v a r) (k : ℕ) (fault : Bool)
    {password : String} {pc : OpenPc} (hrequest : InFlight volumesDir v (.open id password pc)) :
    Kept volumesDir fs₀ v (a.advanceOpen k fault id password pc) r := by
  unfold Api.advanceOpen
  split
  · split
    · exact h.answer k _
    · exact h.continueAs k hrequest
  · split
    · exact h.answer k _
    · rename_i result hopen
      rw [h.baseDir] at hopen
      exact h.continueAs k ⟨hrequest, (openVolume_ok_iff.1 hopen).2.1⟩
  · rename_i result
    obtain ⟨hplain, hpaths⟩ := hrequest
    split
    · exact h.answer k _
    · rename_i d fs' hopen
      have hopen : openDatabase (volumePaths volumesDir id).baseDir a.fs = some (d, fs') := by
        rw [hpaths] at hopen
        split at hopen
        · cases hopen
        · exact hopen
      have hr := h.holds.keeps.resolve hunused
      have hdir := resolve_volume hr hplain h.holds.links (resolve_of_openDatabase hopen)
      have hholds := h.holds.work hunused (work_openDatabase hr hplain h.holds.links hopen)
      have hnext : Kept volumesDir fs₀ v { a with fs := fs', connections := a.connections + 1 } r :=
        ⟨h.baseDir, hholds, h.requests, h.sessions⟩
      exact hnext.continueAs k ⟨hplain, hdir⟩
  · rename_i session
    have hnext : Kept volumesDir fs₀ v { a with sessions := Function.update a.sessions id (some session) } r := by
      refine ⟨h.baseDir, h.holds, h.requests, fun id' session' hid' => ?_⟩
      dsimp only at hid'
      rw [Function.update_apply] at hid'
      split at hid'
      · rename_i he
        cases hid'
        rw [he]
        exact hrequest.2
      · exact h.sessions id' session' hid'
    exact hnext.answer k _

/-- A step of a request in `Api`. -/
theorem advance (hunused : Unused volumesDir fs₀ v) (h : Kept volumesDir fs₀ v a r) (noise : Noise) (k : ℕ)
    (fault : Bool) : Kept volumesDir fs₀ v (a.step noise (.advance k fault)) (sessionRecord a k r) := by
  unfold Api.step
  dsimp only
  cases hrequest : a.requests k with
  | none =>
    rw [sessionRecord, hrequest]
    exact h
  | some request =>
    have hinflight := h.requests k request hrequest
    cases request with
    | «open» id password pc =>
      rw [sessionRecord, hrequest]
      exact h.advanceOpen hunused k fault hinflight
    | close id =>
      rw [sessionRecord, hrequest]
      exact h.advanceClose k id
    | delete id pc => exact h.advanceDelete hunused noise k hinflight hrequest

end Kept

/-- What is shown of a volume of the registry. -/
def summary (config : VolumeJson) : VolumeSummary := ⟨config.volumeId, config.displayName, 0, false, none, 0, 0⟩

theorem kept_start [ConfigCodec] (hunused : Unused volumesDir fs₀ v) :
    Kept volumesDir fs₀ v (Api.start volumesDir fs₀) fun _ => .free :=
  ⟨rfl, hunused.holds, fun _ _ h => (Option.some_ne_none _ h.symm).elim,
    fun _ _ h => (Option.some_ne_none _ h.symm).elim⟩

namespace Kept

variable [ConfigCodec] {a : App}

theorem list (hunused : Unused volumesDir fs₀ v) (h : Kept volumesDir fs₀ v a.api r) : ∃ volumes,
    VolumeService.list a.api.baseDir a.fs = .ok volumes ∧ (volumes.map (·.volumeId)).Nodup ∧
      ∀ volume, volume ∈ volumes ↔ ∃ config, r config.volumeId = .volume config ∧ volume = summary config := by
  obtain ⟨configs, hlist, hnodup, hmem⟩ := listVolumes_holds hunused h.holds
  refine ⟨configs.map summary, ?_, ?_, fun volume => ?_⟩
  · have hfs : a.fs = a.api.fs := rfl
    rw [VolumeService.list, h.baseDir, hfs, hlist]
    rfl
  · rw [List.map_map]
    exact hnodup
  · rw [List.mem_map]
    constructor
    · rintro ⟨config, hconfig, rfl⟩
      exact ⟨config, (hmem config).1 hconfig, rfl⟩
    · rintro ⟨config, hconfig, rfl⟩
      exact ⟨config, (hmem config).2 hconfig, rfl⟩

/-- A volume is under its own id. -/
theorem volumeId_eq (h : Kept volumesDir fs₀ v a.api r) {config : VolumeJson} (hslot : r id = .volume config) :
    config.volumeId = id := by
  have hat := h.holds.slots id
  rw [hslot] at hat
  cases hat with
  | volume _ _ _ _ hid => exact hid

theorem info [Causes] [Primitives] [KeyDerivation] (hunused : Unused volumesDir fs₀ v)
    (h : Kept volumesDir fs₀ v a.api r) (id : String) :
    infoStep id a .volumes =
      match (r id).config with
      | some config => .goesOn (.info id (.isOpen (summary config)))
      | none => .answers (ApiError.volumeNotFound id).intoResponse := by
  obtain ⟨volumes, hlist, -, hmem⟩ := h.list hunused
  rw [infoStep, hlist]
  dsimp only
  cases hfind : volumes.find? fun v => v.volumeId = id with
  | none =>
    cases hconfig : (r id).config with
    | none => rfl
    | some config =>
      have hslot := Slot.config_eq_some.1 hconfig
      have hid := h.volumeId_eq hslot
      have hnot := List.find?_eq_none.1 hfind (summary config) ((hmem _).2 ⟨config, hid ▸ hslot, rfl⟩)
      exact absurd (decide_eq_true hid) hnot
  | some found =>
    have hsome := List.find?_some hfind
    have hid : found.volumeId = id := of_decide_eq_true hsome
    obtain ⟨config, hslot, rfl⟩ := (hmem _).1 (List.mem_of_find?_eq_some hfind)
    have hid : config.volumeId = id := hid
    rw [hid] at hslot
    rw [Slot.config_eq_some.2 hslot]

theorem openDerived [Primitives] [KeyDerivation] (hunused : Unused volumesDir fs₀ v)
    (h : Kept volumesDir fs₀ v a.api r) (client : ℕ) (fault : Bool) (password : String) (hplain : PlainId id) :
    a.api.advanceOpen client fault id password .derive =
      match (r id).config with
      | none => a.api.answer client (.failed (.crypto (.volumeNotFound id)))
      | some config =>
        match unlock config.toVolumeConfig (utf8 password) with
        | .error e => a.api.answer client (.failed (.crypto e))
        | .ok hierarchy => a.api.continueAs client
            (.open id password (.database ⟨config.toVolumeConfig, volumePaths volumesDir id, hierarchy⟩)) := by
  rw [Api.advanceOpen, h.baseDir]
  cases hconfig : (r id).config with
  | none => rw [openVolume_absent hunused h.holds hplain hconfig]
  | some config =>
    rw [openVolume_holds hunused h.holds hplain (Slot.config_eq_some.1 hconfig)]
    dsimp only
    cases unlock config.toVolumeConfig (utf8 password) with
    | error e => rfl
    | ok hierarchy => rfl

theorem create [Causes] [Primitives] [KeyDerivation] (hunused : Unused volumesDir fs₀ v)
    (h : Kept volumesDir fs₀ v a.api r) {m : Moment} {json : Json} {fields : CreateVolumeRequest} {root : Bytes}
    (hjson : CreateVolumeRequest.fromValue json = some fields) (hplain : PlainId m.chance.volumeId)
    (hfree : r m.chance.volumeId = .free) (hlong : 8 ≤ (utf8 fields.password).length)
    (hroot : deriveRootKey (utf8 fields.password) m.chance.salt ⟨262144, 4, 4, 32⟩ = .ok root) :
    ∃ sentence, importKey sentence = .ok root ∧
      (createVolume m (.ok json) a).1 = created [("volume_id", .string m.chance.volumeId),
        ("display_name", .string (fields.name.getD m.chance.displayName)), ("sentence_ref", .string sentence)] := by
  have hcreated : ∃ resp fs₂,
      VolumeService.create m.chance fields.name fields.password volumesDir a.api.fs = (.ok resp, fs₂) :=
    VolumeService.create_succeeds hunused h.holds hplain hfree hlong hroot
  obtain ⟨resp, fs₂, hcreate⟩ := hcreated
  obtain ⟨root', hroot', hid, hname, hencode, -⟩ := VolumeService.create_ok hunused h.holds hplain hfree hcreate
  cases hroot.symm.trans hroot'
  obtain ⟨sentence, hencode', himport⟩ := importKey_encoded (length_deriveRootKey hroot)
  cases hencode.symm.trans hencode'
  refine ⟨_, himport, ?_⟩
  have hfs : a.fs = a.api.fs := rfl
  rw [createVolume, withJson, hjson]
  dsimp only
  rw [h.baseDir, hfs, hcreate]
  dsimp only
  rw [hid, hname]
  rfl

end Kept

theorem kept_change [ConfigCodec] {a a' : App} (h : Kept volumesDir fs₀ v a.api r) (hchange : Change a a') :
    Kept volumesDir fs₀ v a'.api r := by
  cases hchange with
  | same => exact h
  | database hsession db => exact h
  | deadman deadman => exact h

theorem kept_logout [Causes] [ConfigCodec] {a : App} (h : Kept volumesDir fs₀ v a.api r)
    (helsewhere : ∀ fs', a.fs.removeFile a.sessionPath = some fs' → Elsewhere v a.fs fs') :
    Kept volumesDir fs₀ v (logout a).2.api r := by
  unfold logout App.removeSession
  split
  · rename_i hremove
    split at hremove
    · split at hremove
      · cases hremove
        exact h
      · cases hremove
    · cases hremove
  · rename_i hremove
    split at hremove
    · split at hremove
      · cases hremove
      · rename_i fs' hfs
        cases hremove
        exact h.withFs (holds_elsewhere h.holds (helsewhere fs' hfs))
    · cases hremove
      exact h

section

variable [ConfigCodec] [Primitives] [KeyDerivation]

theorem create_snd (chance : Chance) (name : Option String) (password : String) (baseDir : Pieces) (fs : Fs) :
    (VolumeService.create chance name password baseDir fs).2 =
      if (utf8 password).length < 8 then fs
      else (TgCryptFs.createVolume chance name (utf8 password) baseDir fs).2 := by
  by_cases hlong : (utf8 password).length < 8
  · rw [VolumeService.create_short hlong, if_pos hlong]
  · rw [if_neg hlong]
    cases hcreated : TgCryptFs.createVolume chance name (utf8 password) baseDir fs with
    | mk result fs' =>
      cases result with
      | error e => rw [VolumeService.create_of_error hlong hcreated]
      | ok result => rw [VolumeService.create_of_ok hlong hcreated]

theorem kept_call (noise : Noise) {s : Server} (h : Kept volumesDir fs₀ v s.app.api r) (client : ℕ)
    (body : Except ℕ Json) {endpoint : Endpoint} (hplain : endpoint.Plain) :
    Kept volumesDir fs₀ v (s.call noise client body endpoint).app.api r := by
  unfold Server.call
  split
  · exact h
  · exact h
  · exact h
  · split
    · exact h
    · split
      · exact h
      · exact h.arrive client hplain
  · exact h.arrive client trivial
  · exact h.arrive client hplain
  · exact h

variable [Causes]

theorem createVolume_snd (m : Moment) (body : Except ℕ Json) (a : App) :
    (createVolume m body a).2 =
      match body.toOption.bind CreateVolumeRequest.fromValue with
      | none => a
      | some fields =>
        a.withFs (VolumeService.create m.chance fields.name fields.password a.api.baseDir a.fs).2 := by
  unfold createVolume withJson
  cases body with
  | error status => rfl
  | ok json =>
    dsimp only [Except.toOption, Option.bind_some]
    cases CreateVolumeRequest.fromValue json with
    | none => rfl
    | some fields =>
      dsimp only
      split
      · rename_i hcreate
        rw [hcreate]
      · rename_i hcreate
        rw [hcreate]

/-- The handler of `POST /volumes`. -/
theorem kept_createVolume (hunused : Unused volumesDir fs₀ v) {a : App} (h : Kept volumesDir fs₀ v a.api r)
    (m : Moment) (hplain : PlainId m.chance.volumeId) (hfree : r m.chance.volumeId = .free)
    (body : Except ℕ Json) :
    Kept volumesDir fs₀ v (createVolume m body a).2.api (creationRecord m body r) := by
  rw [createVolume_snd, creationRecord]
  cases body.toOption.bind CreateVolumeRequest.fromValue with
  | none => exact h
  | some fields =>
    dsimp only
    refine h.withFs ?_
    rw [create_snd, h.baseDir]
    split
    · exact h.holds
    · obtain ⟨fs', hcreate, hholds⟩ :=
        createVolume_free hunused h.holds hplain hfree fields.name (utf8 fields.password)
      have hfs : a.fs = a.api.fs := rfl
      rw [hfs, hcreate]
      exact hholds

variable [Postcard ShareRecord] [Postcard Invite] [DeadmanCodec]

theorem Server.app_step_advance (noise : Noise) (s : Server) (client : ℕ) (m : Moment) :
    (s.step noise (.advance client m)).app =
      match s.tasks client with
      | none => s.app
      | some task => (task.run noise client m s.app).2 := by
  unfold Server.step
  dsimp only
  cases s.tasks client with
  | none => rfl
  | some task =>
    dsimp only
    rcases task.run noise client m s.app with ⟨_ | _, a⟩
    · rfl
    · rfl

theorem Task.run_once (noise : Noise) (client : ℕ) (m : Moment) (a : App) (endpoint : Endpoint)
    (body : Except ℕ Json) :
    ((Task.once endpoint body).run noise client m a).2 = (respond endpoint body m a).2 := rfl

theorem kept_step (hunused : Unused volumesDir fs₀ v) (noise : Noise) {s : Server}
    (h : Kept volumesDir fs₀ v s.app.api r) (e : ServerEvent) (he : e.Admitted v (s, r)) :
    Kept volumesDir fs₀ v (s.step noise e).app.api (e.record s r) := by
  cases e with
  | request client asked =>
    unfold Server.step
    dsimp only
    split
    · exact h
    · split
      · exact h
      · rename_i endpoint hdispatch
        exact kept_call noise h client _ (he endpoint hdispatch)
  | advance client m =>
    unfold ServerEvent.Admitted at he
    dsimp only at he
    rw [Server.app_step_advance, ServerEvent.record]
    cases htask : s.tasks client with
    | none => exact h
    | some task =>
      rw [htask] at he
      dsimp only at he ⊢
      cases task with
      | session => exact h.advance hunused noise client m.fault
      | status pc => exact h
      | list volumes => exact h
      | info id pc => exact h
      | once endpoint body =>
        rw [Task.run_once]
        have hchange (hcreate : endpoint ≠ .createVolume) (hlogout : endpoint ≠ .logout) :
            Kept volumesDir fs₀ v (respond endpoint body m s.app).2.api r :=
          kept_change h (respond_change hcreate hlogout body m s.app)
        cases endpoint with
        | createVolume => exact kept_createVolume hunused h m he.1 he.2 body
        | logout => exact kept_logout h he
        | _ => exact hchange nofun nofun
  | files change =>
    refine h.withFs ?_
    rcases he with he | ⟨id, he⟩
    · exact holds_elsewhere h.holds he
    · exact h.holds.work hunused he
  | database d change => exact h
  | daemon run change => exact h

/-- The server and the registry of what has been requested. -/
def Server.stepRecorded (noise : Noise) (e : ServerEvent) (s : Server × Registry) : Server × Registry :=
  (s.1.step noise e, e.record s.1 s.2)

theorem kept_runs (hunused : Unused volumesDir fs₀ v) {noise : Noise} {s₀ s : Server × Registry}
    (hs₀ : Kept volumesDir fs₀ v s₀.1.app.api s₀.2)
    (h : Runs (Server.stepRecorded noise) (ServerEvent.Admitted v) s₀ s) :
    Kept volumesDir fs₀ v s.1.app.api s.2 :=
  h.invariant (fun s => Kept volumesDir fs₀ v s.1.app.api s.2) hs₀ fun e _ hs he =>
    kept_step hunused noise hs e he

/-- In every interleaving of requests, the handlers answer about the volumes as the registry of the
    requests says: the listing has each volume once, an unknown id is refused with `VolumeNotFound`,
    a password opens what it unlocks, and a new volume is answered with a sentence that can be
    imported. -/
theorem requests_follow_registry (hunused : Unused volumesDir fs₀ v) {noise : Noise} {s₀ s : Server}
    (hstart : s₀.app.api = Api.start volumesDir fs₀)
    (h : Runs (Server.stepRecorded noise) (ServerEvent.Admitted v) (s₀, fun _ => .free) (s, r)) :
    (∃ volumes, listStep s.app none = .goesOn (.list (some volumes)) ∧ (volumes.map (·.volumeId)).Nodup ∧
      ∀ volume, volume ∈ volumes ↔ ∃ config, r config.volumeId = .volume config ∧ volume = summary config) ∧
    (∀ id, infoStep id s.app .volumes =
      match (r id).config with
      | some config => .goesOn (.info id (.isOpen (summary config)))
      | none => .answers (ApiError.volumeNotFound id).intoResponse) ∧
    (∀ client fault id password, PlainId id →
      s.app.api.advanceOpen client fault id password .derive =
        match (r id).config with
        | none => s.app.api.answer client (.failed (.crypto (.volumeNotFound id)))
        | some config =>
          match unlock config.toVolumeConfig (utf8 password) with
          | .error e => s.app.api.answer client (.failed (.crypto e))
          | .ok hierarchy => s.app.api.continueAs client
              (.open id password (.database ⟨config.toVolumeConfig, volumePaths volumesDir id, hierarchy⟩))) ∧
    ∀ m json fields root, CreateVolumeRequest.fromValue json = some fields → PlainId m.chance.volumeId →
      r m.chance.volumeId = .free → 8 ≤ (utf8 fields.password).length →
      deriveRootKey (utf8 fields.password) m.chance.salt ⟨262144, 4, 4, 32⟩ = .ok root →
      ∃ sentence, importKey sentence = .ok root ∧
        (createVolume m (.ok json) s.app).1 = created [("volume_id", .string m.chance.volumeId),
          ("display_name", .string (fields.name.getD m.chance.displayName)),
          ("sentence_ref", .string sentence)] := by
  have hkept : Kept volumesDir fs₀ v s.app.api r :=
    kept_runs hunused (hstart ▸ kept_start hunused) h
  obtain ⟨volumes, hlist, hnodup, hmem⟩ := hkept.list hunused
  refine ⟨⟨volumes, ?_, hnodup, hmem⟩, hkept.info hunused,
    fun client fault id password hplain => hkept.openDerived hunused client fault password hplain,
    fun m json fields root hjson hplain hfree hlong hroot => hkept.create hunused hjson hplain hfree hlong hroot⟩
  rw [listStep, hlist]

end

section

open scoped Sample SampleVolume SampleServer
open SampleVolume

namespace SampleServer

/-- The fields in a row, the name left out. -/
def creationBody : Except ℕ Json := .ok (.array [.null, .string "pw-pw-pw", .null])

/-- A server that is asked for a volume. -/
noncomputable def asked : Server :=
  { server "t0" with tasks := Function.update (fun _ => none) 0 (some (.once .createVolume creationBody)) }

theorem record_asked {root : Bytes}
    (hroot : deriveRootKey (utf8 "pw-pw-pw") chance.salt ⟨262144, 4, 4, 32⟩ = .ok root) :
    (ServerEvent.advance 0 moment).record asked (fun _ => .free) =
      Function.update (fun _ => .free) chance.volumeId (.volume (createdConfig chance none root)) := by
  have hlong : ¬ (utf8 "pw-pw-pw").length < 8 := by decide +kernel
  have hslot : createdSlot chance none (utf8 "pw-pw-pw") = .volume (createdConfig chance none root) := by
    rw [createdSlot, hroot]
  have hfields : creationBody.toOption.bind CreateVolumeRequest.fromValue = some ⟨none, "pw-pw-pw", none⟩ := rfl
  change creationRecord moment creationBody (fun _ => .free) = _
  rw [creationRecord, hfields, ← hslot]
  dsimp only
  rw [if_neg hlong]
  rfl

end SampleServer

open SampleServer

/-- The volume is listed once it is made. -/
theorem requests_follow_registry_sample : ∃ root volumes,
    listStep (asked.step SampleServer.noise (.advance 0 moment)).app none = .goesOn (.list (some volumes)) ∧
    summary (createdConfig chance none root) ∈ volumes := by
  obtain ⟨root, hroot⟩ := deriveRootKey_sample
  have hruns : Runs (Server.stepRecorded SampleServer.noise) (ServerEvent.Admitted ["v"])
      (asked, fun _ => .free) (asked.step SampleServer.noise (.advance 0 moment),
        (ServerEvent.advance 0 moment).record asked fun _ => .free) :=
    Runs.start.next_eq (.advance 0 moment) ⟨plainId_chance, rfl⟩ rfl
  rw [record_asked hroot] at hruns
  obtain ⟨⟨volumes, hlist, -, hmem⟩, -⟩ := requests_follow_registry unused_unusedDisk rfl hruns
  have hid : (createdConfig chance none root).volumeId = chance.volumeId := rfl
  exact ⟨root, volumes, hlist, (hmem _).2 ⟨_, by rw [hid, Function.update_self], rfl⟩⟩

end

end Http
end TgCryptFs

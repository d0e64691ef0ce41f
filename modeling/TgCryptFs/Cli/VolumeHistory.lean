import TgCryptFs.Api.Session
import TgCryptFs.Cli.PasswordGate
import TgCryptFs.Core.VolumeDirectory

set_option autoImplicit false

/-!
# The volumes after any history

Volumes are created, deleted and rotated, and mounts work in their directories, in any order. What
is listed, opened and deleted afterwards is what a registry of these events says.
-/
namespace TgCryptFs
open Library

/-- Something that happens to the volumes. A rotation lists its blocks in a table of its own. -/
inductive DirectoryEvent where
  | create (chance : Chance) (name : Option String) (password : Bytes)
  | delete (noise : Noise) (volumeId : String)
  | rotate (volumeId : String) (password : Bytes) (blocks : Blocks)
  | work (volumeId : String) (fs' : Fs)

/-- A rotation that the password allows counts up the epoch. -/
def rotatedSlot [Primitives] [KeyDerivation] (password : Bytes) : Slot → Slot
  | .volume config =>
    match unlock config.toVolumeConfig password with
    | .ok _ => .volume config.incrementEpoch
    | .error _ => .volume config
  | s => s

namespace DirectoryEvent

section

variable [Primitives] [KeyDerivation]

def record : DirectoryEvent → Registry → Registry
  | .create chance name password, r =>
    Function.update r chance.volumeId (createdSlot chance name password)
  | .delete _ volumeId, r => Function.update r volumeId .free
  | .rotate volumeId password _, r => Function.update r volumeId (rotatedSlot password (r volumeId))
  | .work _ _, r => r

variable [ConfigCodec]

def act (volumesDir : Pieces) : DirectoryEvent → Fs → Fs
  | .create chance name password, fs => (createVolume chance name password volumesDir fs).2
  | .delete noise volumeId, fs => (deleteVolume noise volumeId volumesDir fs).2
  | .rotate volumeId password blocks, fs =>
    match TgCryptFs.rotate volumeId password volumesDir ⟨fs, blocks⟩ with
    | .error _ => fs
    | .ok run => (run.complete ⟨fs, blocks⟩).fs
  | .work _ fs', _ => fs'

/-- The files, and the registry of what has been done. -/
def step (volumesDir : Pieces) (e : DirectoryEvent) (s : Fs × Registry) : Fs × Registry :=
  (e.act volumesDir s.1, e.record s.2)

end

/-- New ids are free ones, and work stays in the directory of its volume. -/
def Admitted (v : Location) : DirectoryEvent → Fs × Registry → Prop
  | .create chance _ _, s => PlainId chance.volumeId ∧ s.2 chance.volumeId = .free
  | .delete _ volumeId, _ => PlainId volumeId
  | .rotate volumeId _ _, _ => PlainId volumeId
  | .work volumeId fs', s => Work v volumeId s.1 fs'

end DirectoryEvent

variable {volumesDir : Pieces} {id : String} {fs₀ fs fs' : Fs} {v : Location} {r : Registry}

/-- Where there are no links, a plain id leads to the directory of its name. -/
theorem resolve_volume (hr : fs.resolve volumesDir = some v) (hplain : PlainId id) (hlinks : LinkFree fs v)
    {d : Location} (hd : fs.resolve (volumePaths volumesDir id).baseDir = some d) : d = v ++ [id] := by
  have hbase : (volumePaths volumesDir id).baseDir = volumesDir ++ [id] := hplain.join volumesDir
  rw [hbase] at hd
  obtain ⟨x, k, hx, -, hk, hcase⟩ := FileSystem.resolve_concat hplain.2 hd
  obtain rfl := Option.some.inj (hr.symm.trans hx)
  have hlink : ∀ t, k ≠ .link t := by
    rintro t rfl
    exact hlinks _ t (List.prefix_append v [id]) hk
  exact (hcase.resolve_right fun ht => ht.elim hlink).1

theorem resolve_of_openDatabase {baseDir : Pieces} {d : Location} (h : openDatabase baseDir fs = some (d, fs')) :
    fs.resolve baseDir = some d := by
  unfold openDatabase at h
  split at h
  · cases h
  rename_i hd
  split at h
  · cases h
  split at h
  · cases h
  · cases h
    exact hd
  · cases h
    exact hd

/-- The connection to a volume's database is work in its directory. -/
theorem work_openDatabase {d : Location} (hr : fs.resolve volumesDir = some v) (hplain : PlainId id)
    (hlinks : LinkFree fs v) (h : openDatabase (volumePaths volumesDir id).baseDir fs = some (d, fs')) :
    Work v id fs fs' := by
  rw [openDatabase] at h
  split at h
  · cases h
  rename_i d' hd
  obtain rfl := resolve_volume hr hplain hlinks hd
  have hsame : Work v id fs fs := by
    refine ⟨⟨fun _ _ => rfl, fun _ _ _ => rfl, fun _ _ _ hl => .inl hl, fun l t hl => ?_⟩, rfl, rfl,
      fun _ _ => ⟨rfl, fun _ hl => hl⟩⟩
    exact hlinks l t ((List.prefix_append v [id]).trans hl)
  split at h
  · cases h
  rename_i hdir
  split at h
  · cases h
  · cases h
    exact hsame
  · rename_i hnone
    cases h
    obtain ⟨ino, hnew, hkind, hcontent⟩ :=
      FileSystem.create_spec (not_not.1 hdir) (n := "metadata.db") (by decide) hnone
    have hold : ∀ l k, (fs.create (v ++ [id]) "metadata.db").kind l = some k →
        k = .file ino ∨ fs.kind l = some k := by
      intro l k hl
      rw [hkind] at hl
      split at hl
      · exact .inl (Option.some.inj hl).symm
      · exact .inr hl
    have hthere : ∀ ino', (∃ l, fs.kind l = some (.file ino')) →
        (fs.create (v ++ [id]) "metadata.db").content ino' = fs.content ino' := by
      rintro ino' ⟨l, hl⟩
      rw [hcontent, Function.update_of_ne]
      rintro rfl
      exact hnew l hl
    refine ⟨⟨fun l hl => ?_, fun ino' hino _ => hthere ino' hino, fun l ino' _ hl => ?_, fun l t hl hk => ?_⟩,
      ?_, ?_, fun ino' hino => ⟨hthere ino' ⟨_, hino⟩, fun l hl => ?_⟩⟩
    · rw [hkind, if_neg]
      rintro rfl
      exact hl (List.prefix_append _ _)
    · rcases hold l _ hl with he | hl
      · cases he
        exact .inr hnew
      · exact .inl hl
    · rcases hold l _ hk with he | hk
      · cases he
      · exact hlinks l t ((List.prefix_append v [id]).trans hl) hk
    · rw [hkind, if_neg (by simp)]
    · rw [hkind, if_neg (by simp)]
    · rcases hold l _ hl with he | hl
      · cases he
        exact absurd hino (hnew _)
      · exact hl

section

variable [ConfigCodec]

/-- The config of a volume of the registry is what is read at its path. -/
theorem Holds.config (hunused : Unused volumesDir fs₀ v) (h : Holds fs₀ v fs r) (hplain : PlainId id)
    {config : VolumeJson} (hslot : r id = .volume config) :
    ∃ ino, fs.fileAt (volumePaths volumesDir id).configPath = some ino ∧
      fs.kind (v ++ [id] ++ ["volume.json"]) = some (.file ino) ∧ fromJson (fs.content ino) = some config := by
  have hat := h.slots id
  rw [hslot] at hat
  cases hat with
  | volume hn hc hown hjson hid =>
    refine ⟨_, ?_, hc, hjson⟩
    rw [hplain.configPath]
    exact FileSystem.fileAt_child (FileSystem.resolve_child (h.keeps.resolve hunused) hn
      fun t ht => by cases ht) hc

theorem Holds.hasJson (hunused : Unused volumesDir fs₀ v) (h : Holds fs₀ v fs r) (hplain : PlainId id)
    {config : VolumeJson} (hslot : r id = .volume config) : HasJson id volumesDir fs config := by
  obtain ⟨ino, hfile, -, hjson⟩ := h.config hunused hplain hslot
  exact ⟨ino, hfile, hjson⟩

/-- A new config in the place of the old one. -/
theorem Holds.overwrite (hunused : Unused volumesDir fs₀ v) (h : Holds fs₀ v fs r) {ino : ℕ}
    {config config' : VolumeJson} (hslot : r id = .volume config)
    (hc : fs.kind (v ++ [id] ++ ["volume.json"]) = some (.file ino)) (hid : config'.volumeId = id) :
    Holds fs₀ v (fs.overwrite ino (toJson config')) (Function.update r id (.volume config')) := by
  have hat := h.slots id
  rw [hslot] at hat
  cases hat with
  | @volume _ ino' hn hc' hown hjson hid' =>
    cases hc'.symm.trans hc
    refine h.change hunused ⟨fun _ _ => rfl, fun ino' _ hino => ?_, fun _ _ _ hl => .inl hl,
      fun l t hl => h.links l t ((List.prefix_append v [id]).trans hl)⟩ (.volume hn hc hown ?_ hid)
    · refine Function.update_of_ne ?_ _ _
      rintro rfl
      exact hino _ (List.prefix_append _ _) hc
    · rw [FileSystem.content_overwrite]
      exact ConfigCodec.fromJson_toJson config'

variable [Primitives] [KeyDerivation]

theorem openVolume_holds (hunused : Unused volumesDir fs₀ v) (h : Holds fs₀ v fs r) (hplain : PlainId id)
    {config : VolumeJson} (hslot : r id = .volume config) (password : Bytes) :
    openVolume id password volumesDir fs = (unlock config.toVolumeConfig password).map fun hierarchy =>
      ⟨config.toVolumeConfig, volumePaths volumesDir id, hierarchy⟩ :=
  openVolume_unlock (h.hasJson hunused hplain hslot).hasConfig password

theorem rotate_refused {e : CoreError} {password : Bytes} {blocks : Blocks}
    (h : openVolume id password volumesDir fs = .error e) :
    rotate id password volumesDir ⟨fs, blocks⟩ = .error e := by
  rw [rotate, h]

theorem Holds.rotate (hunused : Unused volumesDir fs₀ v) (h : Holds fs₀ v fs r) (hplain : PlainId id)
    (password : Bytes) (blocks : Blocks) :
    Holds fs₀ v ((DirectoryEvent.rotate id password blocks).act volumesDir fs)
      ((DirectoryEvent.rotate id password blocks).record r) := by
  -- a rotation that is refused changes neither
  have hrefused : ∀ e, openVolume id password volumesDir fs = .error e →
      rotatedSlot password (r id) = r id →
      Holds fs₀ v ((DirectoryEvent.rotate id password blocks).act volumesDir fs)
        ((DirectoryEvent.rotate id password blocks).record r) := by
    intro e he hsame
    rw [DirectoryEvent.act, rotate_refused he, DirectoryEvent.record, hsame, Function.update_eq_self]
    exact h
  cases hslot : r id with
  | free =>
    refine hrefused _ (openVolume_absent hunused h hplain (by rw [hslot]; rfl) password) ?_
    rw [hslot]
    rfl
  | husk =>
    refine hrefused _ (openVolume_absent hunused h hplain (by rw [hslot]; rfl) password) ?_
    rw [hslot]
    rfl
  | volume config =>
    have hopen := openVolume_holds hunused h hplain hslot password
    cases hunlock : unlock config.toVolumeConfig password with
    | error e =>
      rw [hunlock] at hopen
      refine hrefused e hopen ?_
      rw [hslot, rotatedSlot, hunlock]
    | ok hierarchy =>
      rw [hunlock] at hopen
      obtain ⟨ino, hfile, hc, hjson⟩ := h.config hunused hplain hslot
      obtain ⟨run, hrun, hconfig⟩ := rotate_of_open (s := ⟨fs, blocks⟩) hopen ⟨ino, hfile, hjson⟩
      obtain ⟨-, hino, -, hjson'⟩ := rotate_ok hrun
      obtain rfl := Option.some.inj (hfile.symm.trans hino)
      rw [DirectoryEvent.act, hrun, DirectoryEvent.record, hslot, rotatedSlot, hunlock]
      dsimp only
      rw [run.complete_eq, hjson', hconfig]
      refine h.overwrite hunused hslot hc ?_
      have hat := h.slots id
      rw [hslot] at hat
      cases hat with
      | volume _ _ _ _ hid => exact hid

/-- What one event does to the files it does to the registry. -/
theorem Holds.step (hunused : Unused volumesDir fs₀ v) {s : Fs × Registry} (h : Holds fs₀ v s.1 s.2)
    (e : DirectoryEvent) (he : e.Admitted v s) :
    Holds fs₀ v (e.step volumesDir s).1 (e.step volumesDir s).2 := by
  cases e with
  | create chance name password =>
    obtain ⟨fs', hcreate, hholds⟩ := createVolume_free hunused h he.1 he.2 name password
    rw [DirectoryEvent.step, DirectoryEvent.act, hcreate]
    exact hholds
  | delete noise volumeId =>
    rw [DirectoryEvent.step, DirectoryEvent.act, DirectoryEvent.record]
    by_cases hfree : s.2 volumeId = .free
    · rw [deleteVolume_free hunused h he hfree, ← hfree, Function.update_eq_self]
      exact h
    · obtain ⟨fs', hdelete, hholds⟩ := deleteVolume_taken hunused h he hfree noise
      rw [hdelete]
      exact hholds
  | rotate volumeId password blocks => exact h.rotate hunused he password blocks
  | work volumeId fs' => exact h.work hunused he

theorem holds_of_runs (hunused : Unused volumesDir fs₀ v) {s₀ s : Fs × Registry} (hs₀ : Holds fs₀ v s₀.1 s₀.2)
    (h : Runs (DirectoryEvent.step volumesDir) (DirectoryEvent.Admitted v) s₀ s) : Holds fs₀ v s.1 s.2 :=
  h.invariant (fun s => Holds fs₀ v s.1 s.2) hs₀ fun e _ hs he => hs.step hunused e he

end

section

open scoped Sample SampleVolume
open SampleVolume

namespace SampleVolume

def unusedDisk : Fs :=
  FileSystem.ofEntries [([], .dir), (["v"], .dir)] (fun _ => []) (by decide) (by decide) (by decide)

theorem unused_unusedDisk : Unused ["", "v"] unusedDisk ["v"] :=
  ⟨by decide +kernel, by decide +kernel, by decide +kernel⟩

theorem plainId_chance : PlainId chance.volumeId := by decide +kernel

/-- A volume is made and its key rotated. -/
def historyEvents : List DirectoryEvent :=
  [.create chance none password, .rotate chance.volumeId password .empty]

noncomputable def history : Fs × Registry :=
  Runs.runAll (DirectoryEvent.step ["", "v"]) historyEvents (unusedDisk, fun _ => .free)

theorem runs_history : Runs (DirectoryEvent.step ["", "v"]) (DirectoryEvent.Admitted ["v"])
    (unusedDisk, fun _ => .free) (history.1, history.2) := by
  rw [Prod.mk.eta]
  exact Runs.of_admits _ .start ⟨⟨plainId_chance, rfl⟩, plainId_chance, trivial⟩

theorem createdSlot_chance : createdSlot chance none password = .volume (configAt 0) := by
  have hroot : deriveRootKey password chance.salt ⟨262144, 4, 4, 32⟩ = .ok rootKey := deriveRootKey_password
  rw [createdSlot, hroot]
  rfl

theorem unlock_configAt_zero :
    unlock (configAt 0).toVolumeConfig password = .ok (deriveHierarchy rootKey chance.salt) := by
  rw [unlock, deriveRootKey_password]
  refine if_pos fun expected h => ?_
  exact Option.some.inj h

theorem registry_history : history.2 =
    Function.update (Function.update (fun _ => Slot.free) chance.volumeId (createdSlot chance none password))
      chance.volumeId (rotatedSlot password (createdSlot chance none password)) := by
  rw [history, historyEvents, Runs.runAll, List.foldl_cons, List.foldl_cons, List.foldl_nil,
    DirectoryEvent.step, DirectoryEvent.step, DirectoryEvent.record, DirectoryEvent.record]
  dsimp only
  rw [Function.update_self]

theorem history_chance : history.2 chance.volumeId = .volume (configAt 1) := by
  rw [registry_history, Function.update_self, createdSlot_chance, rotatedSlot, unlock_configAt_zero]
  rfl

end SampleVolume

end

end TgCryptFs

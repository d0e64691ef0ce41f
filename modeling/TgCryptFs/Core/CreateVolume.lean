import Mathlib.Data.Nat.Bitwise
import TgCryptFs.Core.Compress
import TgCryptFs.Core.OpenVolume
import TgCryptFs.Library.FileCreation

set_option autoImplicit false

/-!
# Creating a volume

The config gets the hash that a password is checked by, and is written as JSON. Opening reads
this file and no other, so it depends on nothing but what it parses to.
-/
namespace TgCryptFs
open Library

structure BlockConfig where
  minBlockSize : ℕ
  maxBlockSize : ℕ
  targetBlockSize : ℕ
  compression : CompressionAlgorithm
deriving DecidableEq

structure CacheConfig where
  enabled : Bool
  maxSize : ℕ
  metadataCache : Bool
  prefetchDepth : ℕ
deriving DecidableEq

/-- All of `volume.json`. What opening makes use of is the `VolumeConfig` in it. -/
structure VolumeJson extends VolumeConfig where
  volumeId : String
  groupName : String
  telegramGroupId : ℤ
  currentEpoch : ℕ
  blockConfig : BlockConfig
  defaultPolicyId : UInt32
  cacheConfig : CacheConfig
  createdAt : ℤ
deriving DecidableEq

/-- `serde_json::to_string_pretty` and `from_str`. -/
class ConfigCodec where
  toJson : VolumeJson → Bytes
  fromJson : Bytes → Option VolumeJson
  fromJson_toJson : ∀ config, fromJson (toJson config) = some config

export ConfigCodec (toJson fromJson)

instance (priority := 2000) codecFormat [ConfigCodec] : ConfigFormat where
  parseConfig text := (fromJson text).map VolumeJson.toVolumeConfig

/-- What the generators and the clock give a new volume. -/
structure Chance where
  volumeId : String
  displayName : String
  groupName : String
  salt : Bytes
  createdAt : ℤ

def VolumeJson.new (chance : Chance) (displayName : String) : VolumeJson where
  displayName := displayName
  salt := chance.salt
  kdfParams := ⟨262144, 4, 4, 32⟩
  passwordVerificationHash := none
  volumeId := chance.volumeId
  groupName := chance.groupName
  telegramGroupId := 0
  currentEpoch := 0
  blockConfig := ⟨4 * 1024, 50 * 1024 * 1024, 1024 * 1024, .lz4⟩
  defaultPolicyId := 0
  cacheConfig := ⟨true, 1024 * 1024 * 1024, true, 4⟩
  createdAt := chance.createdAt

inductive CreateError where
  | createDirs
  | keys (e : CoreError)
  | writeConfig
deriving DecidableEq

structure CreateVolumeResult where
  config : VolumeJson
  paths : VolumePaths
  hierarchy : KeyHierarchy

def VolumePaths.ensureDirs (paths : VolumePaths) (fs : Fs) : Bool × Fs :=
  match fs.createDirAll paths.baseDir with
  | (false, fs) => (false, fs)
  | (true, fs) => fs.createDirAll paths.cacheDir

/-- The paths of a volume by its id. -/
def volumePaths (volumesDir : Pieces) (volumeId : String) : VolumePaths :=
  VolumePaths.new (FileSystem.join volumesDir (pieces volumeId))

section

variable [Primitives] [KeyDerivation]

def createVolume [ConfigCodec] (chance : Chance) (name : Option String) (password : Bytes)
    (volumesDir : Pieces) (fs : Fs) : Except CreateError CreateVolumeResult × Fs :=
  let config := VolumeJson.new chance (name.getD chance.displayName)
  let paths := volumePaths volumesDir config.volumeId
  match paths.ensureDirs fs with
  | (false, fs) => (.error .createDirs, fs)
  | (true, fs) =>
    match deriveRootKey password config.salt config.kdfParams with
    | .error e => (.error (.keys e), fs)
    | .ok root =>
      let hierarchy := deriveHierarchy root config.salt
      let config := { config with passwordVerificationHash := some (computeVerificationHash hierarchy) }
      match fs.write paths.configPath (toJson config) with
      | none => (.error .writeConfig, fs)
      | some fs => (.ok ⟨config, paths, hierarchy⟩, fs)

end

/-! ## The comparison -/

theorem foldl_or_eq_zero (ps : List (UInt8 × UInt8)) (init : ℕ) :
    ps.foldl (fun diff p => diff ||| (p.1 ^^^ p.2).toNat) init = 0 ↔ init = 0 ∧ ∀ p ∈ ps, p.1 = p.2 := by
  induction ps generalizing init with
  | nil => exact ⟨fun h => ⟨h, fun _ h => absurd h List.not_mem_nil⟩, fun h => h.1⟩
  | cons p ps ih =>
    have hzero : (p.1 ^^^ p.2).toNat = 0 ↔ p.1 = p.2 := by
      rw [← UInt8.xor_eq_zero_iff, ← UInt8.toNat_inj]
      rfl
    rw [List.foldl_cons, ih, Nat.or_eq_zero_iff, hzero, List.forall_mem_cons, and_assoc]

theorem eq_of_zip_eq {a b : Bytes} (hlength : a.length = b.length) (h : ∀ p ∈ a.zip b, p.1 = p.2) : a = b := by
  induction a generalizing b with
  | nil => exact (List.length_eq_zero_iff.1 hlength.symm).symm
  | cons x a ih =>
    cases b with
    | nil => cases hlength
    | cons y b =>
      rw [List.zip_cons_cons, List.forall_mem_cons] at h
      obtain ⟨hxy, h⟩ := h
      rw [show x = y from hxy, ih (Nat.succ.inj hlength) h]

theorem zip_self_eq {a : Bytes} {p : UInt8 × UInt8} (h : p ∈ a.zip a) : p.1 = p.2 := by
  induction a with
  | nil => cases h
  | cons x a ih =>
    rcases List.mem_cons.1 h with rfl | h
    · rfl
    · exact ih h

/-- Where one string is the longer, the lengths differ; the rest of it need not be looked at. -/
theorem difference_eq_zero {actual expected : Bytes} : difference actual expected = 0 ↔ actual = expected := by
  rw [difference, foldl_or_eq_zero, Nat.xor_eq_zero_iff]
  constructor
  · rintro ⟨hlength, h⟩
    exact eq_of_zip_eq hlength h
  · rintro rfl
    exact ⟨rfl, fun _ => zip_self_eq⟩

/-! ## Opening -/

/-- The password leads to this hierarchy, and the config has no other hash than its own. -/
def Unlocks [Primitives] [KeyDerivation] (config : VolumeConfig) (password : Bytes) (hierarchy : KeyHierarchy) : Prop :=
  ∃ root, deriveRootKey password config.salt config.kdfParams = .ok root ∧
    hierarchy = deriveHierarchy root config.salt ∧
    ∀ expected ∈ config.passwordVerificationHash, computeVerificationHash hierarchy = expected

/-- The config that opening finds. -/
def HasConfig [ConfigFormat] (volumeId : String) (volumesDir : Pieces) (fs : Fs) (config : VolumeConfig) : Prop :=
  ∃ ino, fs.fileAt (volumePaths volumesDir volumeId).configPath = some ino ∧
    parseConfig (fs.content ino) = some config

section

variable [Primitives] [KeyDerivation] [ConfigFormat] {volumeId : String} {password : Bytes} {volumesDir : Pieces} {fs : Fs} {ino : ℕ}
  {config : VolumeConfig}

theorem openVolume_of_hasConfig (password : Bytes) (h : HasConfig volumeId volumesDir fs config) :
    openVolume volumeId password volumesDir fs =
      match deriveRootKey password config.salt config.kdfParams with
      | .error e => .error e
      | .ok root =>
        if ∀ expected ∈ config.passwordVerificationHash,
            computeVerificationHash (deriveHierarchy root config.salt) = expected then
          .ok ⟨config, volumePaths volumesDir volumeId, deriveHierarchy root config.salt⟩
        else .error .wrongPassword := by
  obtain ⟨ino, hino, hparse⟩ := h
  have hexists := FileSystem.existsAt_of_fileAt hino
  unfold volumePaths at hino hexists
  unfold openVolume
  dsimp only
  rw [hexists, if_neg (by decide), hino]
  dsimp only
  rw [hparse]
  dsimp only
  cases deriveRootKey password config.salt config.kdfParams with
  | error e => rfl
  | ok root =>
    dsimp only
    cases config.passwordVerificationHash with
    | none => rfl
    | some expected =>
      simp only [difference_eq_zero, utf8_injective.eq_iff, decide_eq_true_eq, Option.mem_def,
        Option.some.injEq, forall_eq']
      rfl

/-- A volume opens if and only if it has a config that the password unlocks. -/
theorem openVolume_ok_iff {r : OpenVolumeResult} : openVolume volumeId password volumesDir fs = .ok r ↔
    HasConfig volumeId volumesDir fs r.config ∧ r.paths = volumePaths volumesDir volumeId ∧
      Unlocks r.config password r.hierarchy := by
  constructor
  · intro h
    have hconfig : ∃ config, HasConfig volumeId volumesDir fs config := by
      have h' := h
      unfold openVolume at h'
      dsimp only at h'
      split at h'
      · cases h'
      split at h'
      · cases h'
      rename_i ino hino
      split at h'
      · cases h'
      rename_i config hparse
      exact ⟨config, ino, hino, hparse⟩
    obtain ⟨config, hconfig⟩ := hconfig
    rw [openVolume_of_hasConfig password hconfig] at h
    split at h
    · cases h
    rename_i root hroot
    split at h
    · rename_i hhash
      obtain rfl := Except.ok.inj h
      exact ⟨hconfig, rfl, root, hroot, rfl, hhash⟩
    · cases h
  · rintro ⟨hconfig, hpaths, root, hroot, hhierarchy, hhash⟩
    obtain ⟨config, paths, hierarchy⟩ := r
    dsimp only at hconfig hpaths hroot hhierarchy hhash
    subst hpaths hhierarchy
    rw [openVolume_of_hasConfig password hconfig, hroot]
    dsimp only
    rw [if_pos hhash]

end

/-! ## The file -/

section

variable [ConfigCodec] {volumeId : String} {volumesDir : Pieces} {fs fs' : Fs} {ino : ℕ} {config : VolumeJson}

/-- `volume.json` is this config. -/
def HasJson (volumeId : String) (volumesDir : Pieces) (fs : Fs) (config : VolumeJson) : Prop :=
  ∃ ino, fs.fileAt (volumePaths volumesDir volumeId).configPath = some ino ∧
    fromJson (fs.content ino) = some config

theorem HasJson.hasConfig (h : HasJson volumeId volumesDir fs config) :
    HasConfig volumeId volumesDir fs config.toVolumeConfig := by
  obtain ⟨ino, hino, hjson⟩ := h
  exact ⟨ino, hino, congrArg (Option.map VolumeJson.toVolumeConfig) hjson⟩

theorem HasJson.unique {config' : VolumeJson} (h : HasJson volumeId volumesDir fs config)
    (h' : HasJson volumeId volumesDir fs config') : config = config' := by
  obtain ⟨ino, hino, hjson⟩ := h
  obtain ⟨ino', hino', hjson'⟩ := h'
  rw [hino] at hino'
  obtain rfl := Option.some.inj hino'
  exact Option.some.inj (hjson.symm.trans hjson')

theorem hasJson_of_write (h : fs.write (volumePaths volumesDir volumeId).configPath (toJson config) = some fs') :
    HasJson volumeId volumesDir fs' config := by
  obtain ⟨ino, hino, hcontent⟩ := FileSystem.fileAt_write h
  refine ⟨ino, hino, ?_⟩
  rw [hcontent]
  exact ConfigCodec.fromJson_toJson config

/-- A new volume has the config that was returned, and the hash in it is that of its password. -/
theorem createVolume_spec [Primitives] [KeyDerivation] {chance : Chance} {name : Option String}
    {password : Bytes} {r : CreateVolumeResult}
    (h : createVolume chance name password volumesDir fs = (.ok r, fs')) :
    r.paths = volumePaths volumesDir r.config.volumeId ∧ HasJson r.config.volumeId volumesDir fs' r.config ∧
      (∃ root, deriveRootKey password r.config.salt r.config.kdfParams = .ok root ∧
        r.hierarchy = deriveHierarchy root r.config.salt) ∧
      r.config = { VolumeJson.new chance (name.getD chance.displayName) with
        passwordVerificationHash := some (computeVerificationHash r.hierarchy) } := by
  unfold createVolume at h
  dsimp only at h
  split at h
  · cases h
  split at h
  · cases h
  rename_i root hroot
  split at h
  · cases h
  rename_i fs₂ hwrite
  cases h
  exact ⟨rfl, hasJson_of_write hwrite, ⟨root, hroot, rfl⟩, rfl⟩

end

end TgCryptFs

import TgCryptFs.Cli.RotationCrash

set_option autoImplicit false

/-!
# The password of a volume

A rotation that completes changes the epoch in the config and nothing else that opening looks at.
So the hash of the first password stays what a password is checked by.
-/
namespace TgCryptFs
open Library

/-! ## Rotations that complete -/

/-- Any number of rotations, each begun with a password that opens the volume. -/
inductive Rotated [Primitives] [KeyDerivation] [ConfigCodec] (volumeId : String) (volumesDir : Pieces) (s : Stored) :
    Stored → Prop where
  | refl : Rotated volumeId volumesDir s s
  | rotate {s' : Stored} {password : Bytes} {run : RotateRun} (h : Rotated volumeId volumesDir s s')
      (hrun : rotate volumeId password volumesDir s' = .ok run) : Rotated volumeId volumesDir s (run.complete s')

section

variable [Primitives] [KeyDerivation]

theorem hasJson_rotated [ConfigCodec] {volumeId : String} {volumesDir : Pieces} {s s' : Stored} {config : VolumeJson}
    (hconfig : HasJson volumeId volumesDir s.fs config) (h : Rotated volumeId volumesDir s s') :
    ∃ config', HasJson volumeId volumesDir s'.fs config' ∧ config'.toVolumeConfig = config.toVolumeConfig := by
  induction h with
  | refl => exact ⟨config, hconfig, rfl⟩
  | rotate _ hrun ih =>
    obtain ⟨config', hconfig', hsame⟩ := ih
    obtain ⟨hread, -⟩ := rotate_ok hrun
    obtain rfl := hread.unique hconfig'
    exact ⟨_, (complete_of_rotate hrun).1, hsame⟩

/-- The functions do not map what these two passwords lead to to the same value. -/
structure NoCollision (config : VolumeConfig) (p p' : Bytes) : Prop where
  argon2id : ∀ root, deriveRootKey p config.salt config.kdfParams = .ok root →
    deriveRootKey p' config.salt config.kdfParams = .ok root → p = p'
  hkdf : ∀ root root', deriveRootKey p config.salt config.kdfParams = .ok root →
    deriveRootKey p' config.salt config.kdfParams = .ok root' →
    hkdfDerive root (utf8 "password-verification") = hkdfDerive root' (utf8 "password-verification") → root = root'
  blake3 : ∀ root root', deriveRootKey p config.salt config.kdfParams = .ok root →
    deriveRootKey p' config.salt config.kdfParams = .ok root' →
    blake3 (hkdfDerive root (utf8 "password-verification")) = blake3 (hkdfDerive root' (utf8 "password-verification")) →
    hkdfDerive root (utf8 "password-verification") = hkdfDerive root' (utf8 "password-verification")

theorem NoCollision.eq_of_hash {config : VolumeConfig} {p p' root root' : Bytes} (h : NoCollision config p p')
    (hroot : deriveRootKey p config.salt config.kdfParams = .ok root)
    (hroot' : deriveRootKey p' config.salt config.kdfParams = .ok root')
    (hhash : computeVerificationHash (deriveHierarchy root config.salt) =
      computeVerificationHash (deriveHierarchy root' config.salt)) : p = p' := by
  have hkey := h.blake3 root root' hroot hroot' (hexEncode_injective hhash)
  obtain rfl := h.hkdf root root' hroot hroot' hkey
  exact h.argon2id root hroot hroot'

/-! ## Opening with a stored hash -/

section

variable [ConfigFormat] {volumeId stored : String} {volumesDir : Pieces} {fs : Fs} {config : VolumeConfig}
  {p root : Bytes}

theorem openVolume_accepts (h : HasConfig volumeId volumesDir fs config)
    (hstored : config.passwordVerificationHash = some stored)
    (hroot : deriveRootKey p config.salt config.kdfParams = .ok root)
    (hhash : computeVerificationHash (deriveHierarchy root config.salt) = stored) :
    openVolume volumeId p volumesDir fs =
      .ok ⟨config, volumePaths volumesDir volumeId, deriveHierarchy root config.salt⟩ := by
  rw [openVolume_of_hasConfig p h, hroot]
  refine if_pos fun expected he => ?_
  rw [hstored] at he
  exact hhash.trans (Option.some.inj he)

theorem openVolume_rejects (h : HasConfig volumeId volumesDir fs config)
    (hstored : config.passwordVerificationHash = some stored)
    (hroot : deriveRootKey p config.salt config.kdfParams = .ok root)
    (hhash : computeVerificationHash (deriveHierarchy root config.salt) ≠ stored) :
    openVolume volumeId p volumesDir fs = .error .wrongPassword := by
  rw [openVolume_of_hasConfig p h, hroot]
  exact if_neg fun hall => hhash (hall stored hstored)

/-- A password opens the volume exactly if its hash is the stored one. -/
theorem openVolume_iff_hash (h : HasConfig volumeId volumesDir fs config)
    (hstored : config.passwordVerificationHash = some stored) :
    (∃ r, openVolume volumeId p volumesDir fs = .ok r) ↔
      ∃ root, deriveRootKey p config.salt config.kdfParams = .ok root ∧
        computeVerificationHash (deriveHierarchy root config.salt) = stored := by
  constructor
  · rintro ⟨r, hr⟩
    cases hroot : deriveRootKey p config.salt config.kdfParams with
    | error e =>
      rw [openVolume_of_hasConfig p h, hroot] at hr
      cases hr
    | ok root =>
      refine ⟨root, rfl, ?_⟩
      by_contra hne
      cases (openVolume_rejects h hstored hroot hne).symm.trans hr
  · rintro ⟨root, hroot, hhash⟩
    exact ⟨_, openVolume_accepts h hstored hroot hhash⟩

end

end

/-- The password of a new volume opens it after any rotations, with the same hierarchy. Another one
    does exactly if its hash is the stored one; without collisions none does, and the error hands
    on no hierarchy. -/
theorem password_gate [Primitives] [KeyDerivation] [ConfigCodec] {chance : Chance} {name : Option String}
    {password : Bytes} {volumesDir : Pieces} {fs fs' : Fs} {r : CreateVolumeResult}
    (hcreate : createVolume chance name password volumesDir fs = (.ok r, fs')) {blocks : Blocks} {s : Stored}
    (hrotated : Rotated r.config.volumeId volumesDir ⟨fs', blocks⟩ s) :
    openVolume r.config.volumeId password volumesDir s.fs = .ok ⟨r.config.toVolumeConfig, r.paths, r.hierarchy⟩ ∧
    ∃ stored, r.config.passwordVerificationHash = some stored ∧ ∀ p,
      ((∃ r', openVolume r.config.volumeId p volumesDir s.fs = .ok r') ↔
        ∃ root, deriveRootKey p r.config.salt r.config.kdfParams = .ok root ∧
          computeVerificationHash (deriveHierarchy root r.config.salt) = stored) ∧
      (∀ root, deriveRootKey p r.config.salt r.config.kdfParams = .ok root →
        computeVerificationHash (deriveHierarchy root r.config.salt) ≠ stored →
        openVolume r.config.volumeId p volumesDir s.fs = .error .wrongPassword) ∧
      (p ≠ password → NoCollision r.config.toVolumeConfig p password →
        ∃ e, openVolume r.config.volumeId p volumesDir s.fs = .error e) := by
  obtain ⟨hpaths, hjson, ⟨root₀, hroot₀, hhierarchy⟩, hmade⟩ := createVolume_spec hcreate
  have hhash : r.config.passwordVerificationHash = some (computeVerificationHash r.hierarchy) :=
    congrArg (fun config => config.passwordVerificationHash) hmade
  obtain ⟨config, hconfig, hsame⟩ := hasJson_rotated (s := ⟨fs', blocks⟩) hjson hrotated
  have hfound := hconfig.hasConfig
  rw [hsame] at hfound
  refine ⟨?_, _, hhash, fun p => ⟨openVolume_iff_hash hfound hhash, fun root => openVolume_rejects hfound hhash,
    fun hne hcollision => ?_⟩⟩
  · rw [hhierarchy, hpaths]
    exact openVolume_accepts hfound hhash hroot₀ (congrArg computeVerificationHash hhierarchy.symm)
  · -- no other password has this hash, so whatever comes is an error
    cases hopen : openVolume r.config.volumeId p volumesDir s.fs with
    | error e => exact ⟨e, rfl⟩
    | ok r' =>
      obtain ⟨root, hroot, he⟩ := (openVolume_iff_hash hfound hhash).1 ⟨r', hopen⟩
      rw [hhierarchy] at he
      exact absurd (hcollision.eq_of_hash hroot hroot₀ he) hne

section

open scoped Sample SampleVolume
open SampleVolume

namespace SampleVolume

def emptyDisk : Fs := FileSystem.ofEntries [([], .dir)] (fun _ => []) (by decide) (by decide) (by decide)

theorem created_volume : ∃ r fs', createVolume chance none password ["", "v"] emptyDisk = (.ok r, fs') := by
  have hok : (createVolume chance none password ["", "v"] emptyDisk).1.toBool = true := by decide +kernel
  rcases hres : createVolume chance none password ["", "v"] emptyDisk with ⟨_ | r, fs'⟩
  · rw [hres] at hok
    cases hok
  · exact ⟨r, fs', rfl⟩

theorem noCollision_sample (config : VolumeConfig) (hlen : config.kdfParams.outputLen = 32) :
    NoCollision config (utf8 "px") password := by
  have hroot : ∀ p, deriveRootKey p config.salt config.kdfParams =
      if (p ++ List.replicate 32 0).length < 32 then .error .panicked
      else .ok ((p ++ List.replicate 32 0).take 32) := by
    intro p
    change (if (p ++ List.replicate config.kdfParams.outputLen 0).length < 32 then Except.error CoreError.panicked
      else Except.ok ((p ++ List.replicate config.kdfParams.outputLen 0).take 32)) = _
    rw [hlen]
  have hne : deriveRootKey (utf8 "px") config.salt config.kdfParams ≠
      deriveRootKey password config.salt config.kdfParams := by
    rw [hroot, hroot]
    decide +kernel
  refine ⟨fun root h h' => absurd (h.trans h'.symm) hne, fun root root' _ _ h => h, fun root root' _ _ h => ?_⟩
  exact Sample.hash_injective h

end SampleVolume

/-- Made with one password, rotated once, opened with that password and not with another. -/
theorem password_gate_sample : ∃ r fs' run, createVolume chance none password ["", "v"] emptyDisk = (.ok r, fs') ∧
    rotate r.config.volumeId password ["", "v"] ⟨fs', .empty⟩ = .ok run ∧
    openVolume r.config.volumeId password ["", "v"] (run.complete ⟨fs', .empty⟩).fs =
      .ok ⟨r.config.toVolumeConfig, r.paths, r.hierarchy⟩ ∧
    ∃ e, openVolume r.config.volumeId (utf8 "px") ["", "v"] (run.complete ⟨fs', .empty⟩).fs = .error e := by
  obtain ⟨r, fs', hcreate⟩ := created_volume
  have hopen := (password_gate hcreate (.refl (s := ⟨fs', .empty⟩))).1
  obtain ⟨-, hjson, -, hmade⟩ := createVolume_spec hcreate
  obtain ⟨run, hrun, -⟩ := rotate_of_open (s := ⟨fs', .empty⟩) hopen hjson
  obtain ⟨hopens, stored, -, hgate⟩ := password_gate hcreate (.rotate .refl hrun)
  refine ⟨r, fs', run, hcreate, hrun, hopens, (hgate _).2.2 (by decide +kernel) (noCollision_sample _ ?_)⟩
  exact congrArg (fun config => config.kdfParams.outputLen) hmade

end

end TgCryptFs

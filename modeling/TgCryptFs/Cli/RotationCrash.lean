import TgCryptFs.Cli.RotationCoverage
import TgCryptFs.Core.CreateVolume
import TgCryptFs.Store.SampleRecords

set_option autoImplicit false

/-!
# Rotations that are cut off

`rotate` gives each block of the config's epoch the next one, a statement each, and then writes
`volume.json` anew: the file is first emptied. What the salt and the hash of the password are is
in this file only.
-/
namespace TgCryptFs
open Library

/-- The files of a volume, and the block table as it is committed. -/
structure Stored where
  fs : Fs
  blocks : Blocks

def VolumeJson.incrementEpoch (config : VolumeJson) : VolumeJson :=
  { config with currentEpoch := nextEpoch config.currentEpoch }

/-- What `rotate` does to a volume, in steps of which each is done or not. -/
inductive RotateEffect where
  | update (b : BlockRecord)
  | truncate
  | append (byte : UInt8)

/-- A run of `rotate` from where it has listed the blocks, with the inode of `volume.json`. -/
structure RotateRun where
  config : VolumeJson
  ino : ℕ
  listed : List BlockRecord
  json : Bytes

namespace RotateRun

def effects (run : RotateRun) : List RotateEffect :=
  run.listed.map .update ++ .truncate :: run.json.map .append

def apply (run : RotateRun) (s : Stored) : RotateEffect → Stored
  | .update b => { s with blocks := Rotation.restamp s.blocks run.config.currentEpoch b }
  | .truncate => { s with fs := s.fs.overwrite run.ino [] }
  | .append byte => { s with fs := s.fs.overwrite run.ino (s.fs.content run.ino ++ [byte]) }

/-- The volume when the run has been cut off after `k` steps. -/
def cut (run : RotateRun) (k : ℕ) (s : Stored) : Stored := (run.effects.take k).foldl run.apply s

def complete (run : RotateRun) (s : Stored) : Stored := run.effects.foldl run.apply s

/-- `volume.json` has been emptied, and its last byte is still to be written. -/
def Writing (run : RotateRun) (k : ℕ) : Prop := run.listed.length < k ∧ k < run.effects.length

end RotateRun

/-- `open_volume` hands on all that it has read of the config. -/
def rotate [Primitives] [KeyDerivation] [ConfigCodec] (volumeId : String) (password : Bytes)
    (volumesDir : Pieces) (s : Stored) : Except CoreError RotateRun :=
  match openVolume volumeId password volumesDir s.fs with
  | .error e => .error e
  | .ok result =>
    match s.fs.fileAt result.paths.configPath with
    | none => .error .readConfig
    | some ino =>
      match fromJson (s.fs.content ino) with
      | none => .error .parseConfig
      | some config =>
        .ok ⟨config, ino, BlockStore.listByEpoch s.blocks config.currentEpoch, toJson config.incrementEpoch⟩

/-! ## The blocks -/

def restampAll (t : Blocks) (old : ℕ) (bs : List BlockRecord) : Blocks :=
  bs.foldl (fun t b => Rotation.restamp t old b) t

theorem epochAt_restampAll (t : Blocks) (old : ℕ) (bs : List BlockRecord) (rid : Bytes) :
    epochAt (restampAll t old bs) rid =
      if rid ∈ bs.map BlockRecord.rid then (epochAt t rid).map fun _ => nextEpoch old else epochAt t rid := by
  induction bs generalizing t with
  | nil =>
    rw [List.map_nil, if_neg List.not_mem_nil]
    rfl
  | cons b bs ih =>
    change epochAt (restampAll (Rotation.restamp t old b) old bs) rid = _
    rw [ih, SharedVolume.epochAt_restamp, List.map_cons]
    by_cases hb : rid = b.rid
    · rw [if_pos hb, if_pos (show rid ∈ b.rid :: bs.map BlockRecord.rid from hb ▸ List.mem_cons_self), Option.map_map]
      split <;> rfl
    · rw [if_neg hb]
      by_cases hmem : rid ∈ bs.map BlockRecord.rid
      · rw [if_pos hmem, if_pos (List.mem_cons_of_mem _ hmem)]
      · rw [if_neg hmem, if_neg fun h => hmem ((List.mem_cons.1 h).resolve_left hb)]

theorem mem_listByEpoch_iff {t : Blocks} {old : ℕ} {rid : Bytes} :
    rid ∈ (BlockStore.listByEpoch t old).map BlockRecord.rid ↔ epochAt t rid = some old := by
  refine ⟨fun h => ?_, SharedVolume.mem_listByEpoch⟩
  obtain ⟨r, hr, rfl⟩ := List.mem_map.1 h
  obtain ⟨hmem, he⟩ := List.mem_filter.1 hr
  rw [epochAt, Table.find_of_mem hmem]
  exact congrArg some (of_decide_eq_true he)

/-- A whole rotation moves the blocks of one epoch and no others. -/
theorem epochAt_rotated (t : Blocks) (old : ℕ) (rid : Bytes) :
    epochAt (restampAll t old (BlockStore.listByEpoch t old)) rid =
      if epochAt t rid = some old then some (nextEpoch old) else epochAt t rid := by
  rw [epochAt_restampAll]
  by_cases h : epochAt t rid = some old
  · rw [if_pos (mem_listByEpoch_iff.2 h), if_pos h, h]
    rfl
  · rw [if_neg (mt mem_listByEpoch_iff.1 h), if_neg h]

/-- Cut off among the blocks, a rotation has moved some of its epoch to the next. -/
theorem epochAt_partly {t : Blocks} {old : ℕ} {rid : Bytes} (h : epochAt t rid = some old) (k : ℕ) :
    epochAt (restampAll t old ((BlockStore.listByEpoch t old).take k)) rid = some old ∨
    epochAt (restampAll t old ((BlockStore.listByEpoch t old).take k)) rid = some (nextEpoch old) := by
  rw [epochAt_restampAll, h]
  split
  · exact .inr rfl
  · exact .inl rfl

/-! ## The steps of a run -/

namespace RotateRun

variable (run : RotateRun)

theorem length_effects : run.effects.length = run.listed.length + 1 + run.json.length := by
  rw [effects, List.length_append, List.length_cons, List.length_map, List.length_map]
  omega

theorem foldl_updates (bs : List BlockRecord) (s : Stored) :
    (bs.map RotateEffect.update).foldl run.apply s =
      { s with blocks := restampAll s.blocks run.config.currentEpoch bs } := by
  induction bs generalizing s with
  | nil => rfl
  | cons b bs ih => exact ih _

theorem foldl_appends (bytes written : Bytes) (fs : Fs) (t : Blocks) :
    (bytes.map RotateEffect.append).foldl run.apply ⟨fs.overwrite run.ino written, t⟩ =
      ⟨fs.overwrite run.ino (written ++ bytes), t⟩ := by
  induction bytes generalizing written with
  | nil =>
    rw [List.append_nil]
    rfl
  | cons byte bytes ih =>
    have hstep : run.apply ⟨fs.overwrite run.ino written, t⟩ (.append byte) =
        ⟨fs.overwrite run.ino (written ++ [byte]), t⟩ := by
      simp only [apply, FileSystem.overwrite, Function.update_self, Function.update_idem]
    rw [List.map_cons, List.foldl_cons, hstep, ih, List.append_assoc]
    rfl

/-- Cut off among the updates. -/
theorem cut_updating {k : ℕ} (hk : k ≤ run.listed.length) (s : Stored) :
    run.cut k s = { s with blocks := restampAll s.blocks run.config.currentEpoch (run.listed.take k) } := by
  rw [cut, effects, List.take_append_of_le_length (by rwa [List.length_map]), ← List.map_take,
    foldl_updates]

/-- Cut off when `j` bytes of the file are there again. -/
theorem cut_writing (j : ℕ) (s : Stored) :
    run.cut (run.listed.length + 1 + j) s = ⟨s.fs.overwrite run.ino (run.json.take j),
      restampAll s.blocks run.config.currentEpoch run.listed⟩ := by
  have htake : run.effects.take (run.listed.length + 1 + j) =
      run.listed.map .update ++ .truncate :: (run.json.take j).map .append := by
    have hlength : run.listed.length + 1 + j = (run.listed.map RotateEffect.update).length + (1 + j) := by
      rw [List.length_map, Nat.add_assoc]
    rw [effects, hlength, List.take_length_add_append, Nat.add_comm 1 j, List.take_succ_cons, List.map_take]
  rw [cut, htake, List.foldl_append, foldl_updates, List.foldl_cons]
  exact foldl_appends run _ [] s.fs _

theorem complete_eq (s : Stored) : run.complete s =
    ⟨s.fs.overwrite run.ino run.json, restampAll s.blocks run.config.currentEpoch run.listed⟩ := by
  have hcut := cut_writing run run.json.length s
  rw [List.take_length] at hcut
  rw [← hcut, cut, ← length_effects, List.take_length, complete]

end RotateRun

/-! ## Recovery -/

section

variable [ConfigCodec] {volumeId : String} {volumesDir : Pieces} {password : Bytes} {s s' : Stored}
  {run : RotateRun} {config : VolumeJson}

/-- A file system with the same tree, and with this config in its place. -/
theorem hasJson_overwrite {ino : ℕ} (hino : s.fs.fileAt (volumePaths volumesDir volumeId).configPath = some ino)
    (config : VolumeJson) : HasJson volumeId volumesDir (s.fs.overwrite ino (toJson config)) config := by
  refine ⟨ino, (FileSystem.fileAt_overwrite _ _ _ _).trans hino, ?_⟩
  rw [FileSystem.content_overwrite]
  exact ConfigCodec.fromJson_toJson config

variable [Primitives] [KeyDerivation]

/-- What a run of `rotate` has read, and what it is about to write. -/
theorem rotate_ok (h : rotate volumeId password volumesDir s = .ok run) :
    HasJson volumeId volumesDir s.fs run.config ∧
      s.fs.fileAt (volumePaths volumesDir volumeId).configPath = some run.ino ∧
      run.listed = BlockStore.listByEpoch s.blocks run.config.currentEpoch ∧
      run.json = toJson run.config.incrementEpoch := by
  unfold rotate at h
  split at h
  · cases h
  rename_i result hopen
  obtain ⟨-, hpaths, -⟩ := openVolume_ok_iff.1 hopen
  rw [hpaths] at h
  split at h
  · cases h
  rename_i ino hino
  split at h
  · cases h
  rename_i config hconfig
  obtain rfl := Except.ok.inj h
  exact ⟨⟨ino, hino, hconfig⟩, hino, rfl, rfl⟩

/-- Whoever can open the volume can rotate its key. -/
theorem rotate_of_open {r : OpenVolumeResult} (h : openVolume volumeId password volumesDir s.fs = .ok r)
    (hconfig : HasJson volumeId volumesDir s.fs config) :
    ∃ run, rotate volumeId password volumesDir s = .ok run ∧ run.config = config := by
  obtain ⟨-, hpaths, -⟩ := openVolume_ok_iff.1 h
  obtain ⟨ino, hino, hjson⟩ := hconfig
  refine ⟨⟨config, ino, BlockStore.listByEpoch s.blocks config.currentEpoch, toJson config.incrementEpoch⟩, ?_, rfl⟩
  rw [rotate, h]
  dsimp only
  rw [hpaths, hino]
  dsimp only
  rw [hjson]

/-- Opening makes no use of the epoch. -/
theorem openVolume_of_hasJson {r : OpenVolumeResult} {fs : Fs} {config' : VolumeJson}
    (h : openVolume volumeId password volumesDir s.fs = .ok r) (hconfig : HasJson volumeId volumesDir s.fs config)
    (hsame : config'.toVolumeConfig = config.toVolumeConfig) (hconfig' : HasJson volumeId volumesDir fs config') :
    openVolume volumeId password volumesDir fs = .ok r := by
  have hopened := openVolume_of_hasConfig password hconfig.hasConfig
  have hopened' := openVolume_of_hasConfig password hconfig'.hasConfig
  rw [hsame, ← hopened] at hopened'
  rw [hopened', h]

theorem complete_of_rotate (h : rotate volumeId password volumesDir s = .ok run) :
    HasJson volumeId volumesDir (run.complete s).fs run.config.incrementEpoch ∧
      ∀ rid, epochAt (run.complete s).blocks rid =
        if epochAt s.blocks rid = some run.config.currentEpoch then some (nextEpoch run.config.currentEpoch)
        else epochAt s.blocks rid := by
  obtain ⟨-, hino, hlisted, hjson⟩ := rotate_ok h
  rw [run.complete_eq, hlisted, hjson]
  exact ⟨hasJson_overwrite hino _, epochAt_rotated _ _⟩

/-- The volume can be opened, and the rotation taken up again. -/
structure Recovered (volumeId : String) (password : Bytes) (volumesDir : Pieces) (s : Stored) (run : RotateRun)
    (hierarchy : KeyHierarchy) (s' : Stored) : Prop where
  parses : ∃ config, HasJson volumeId volumesDir s'.fs config ∧
    (config = run.config ∨ config = run.config.incrementEpoch)
  opens : ∃ r, openVolume volumeId password volumesDir s'.fs = .ok r ∧ r.hierarchy = hierarchy
  resumes : ∃ run', rotate volumeId password volumesDir s' = .ok run' ∧
    ∃ config, HasJson volumeId volumesDir (run'.complete s').fs config ∧
      ∀ rid, epochAt s.blocks rid = some run.config.currentEpoch →
        epochAt (run'.complete s').blocks rid = some config.currentEpoch

/-- A volume with the old or the new config recovers if its blocks are at no other epochs than
    these two, and at none but the new one with the new config. -/
theorem recovered_of_hasJson {r : OpenVolumeResult} (hopen : openVolume volumeId password volumesDir s.fs = .ok r)
    (hrun : rotate volumeId password volumesDir s = .ok run) (hconfig : HasJson volumeId volumesDir s'.fs config)
    (hcase : (config = run.config ∧ ∀ rid, epochAt s.blocks rid = some run.config.currentEpoch →
        epochAt s'.blocks rid = some run.config.currentEpoch ∨
        epochAt s'.blocks rid = some (nextEpoch run.config.currentEpoch)) ∨
      (config = run.config.incrementEpoch ∧ ∀ rid, epochAt s.blocks rid = some run.config.currentEpoch →
        epochAt s'.blocks rid = some (nextEpoch run.config.currentEpoch))) :
    Recovered volumeId password volumesDir s run r.hierarchy s' := by
  obtain ⟨hold, -, -, -⟩ := rotate_ok hrun
  have hsame : config.toVolumeConfig = run.config.toVolumeConfig := by
    rcases hcase with ⟨rfl, -⟩ | ⟨rfl, -⟩ <;> rfl
  have hopens := openVolume_of_hasJson hopen hold hsame hconfig
  obtain ⟨run', hrun', hconfig'⟩ := rotate_of_open (s := s') hopens hconfig
  obtain ⟨hjson, hblocks⟩ := complete_of_rotate hrun'
  rw [hconfig'] at hjson hblocks
  refine ⟨⟨config, hconfig, hcase.imp (·.1) (·.1)⟩, ⟨r, hopens, rfl⟩, run', hrun', _, hjson, fun rid he => ?_⟩
  rw [hblocks]
  rcases hcase with ⟨rfl, h⟩ | ⟨rfl, h⟩
  · rcases h rid he with h | h
    · rw [if_pos h]
      rfl
    · rw [if_neg, h]
      · rfl
      · rw [h]
        exact fun e => nextEpoch_ne _ (Option.some.inj e)
  · rw [if_pos (show epochAt s'.blocks rid = some run.config.incrementEpoch.currentEpoch from h rid he)]
    rfl

/-- What is not read as a config is no volume. -/
theorem not_recovered {hierarchy : KeyHierarchy} {text : Bytes} {t : Blocks}
    (hino : s.fs.fileAt (volumePaths volumesDir volumeId).configPath = some run.ino)
    (htext : fromJson text = none) :
    ¬ Recovered volumeId password volumesDir s run hierarchy ⟨s.fs.overwrite run.ino text, t⟩ := by
  rintro ⟨⟨config, ⟨ino, hino', hparse⟩, -⟩, -, -⟩
  rw [FileSystem.fileAt_overwrite, hino] at hino'
  obtain rfl := Option.some.inj hino'
  rw [FileSystem.content_overwrite, htext] at hparse
  cases hparse

end

/-- A rotation that is cut off leaves a volume that opens and can be rotated again, exactly if it
    has not been cut off between the emptying of `volume.json` and the last byte written to it. -/
theorem rotate_recovers_iff [Primitives] [KeyDerivation] [ConfigCodec]
    (hcut : ∀ (config : VolumeJson) (text : Bytes), text <+: toJson config → text ≠ toJson config →
      fromJson text = none)
    {volumeId : String} {password : Bytes} {volumesDir : Pieces} {s : Stored} {r : OpenVolumeResult}
    {run : RotateRun} (hopen : openVolume volumeId password volumesDir s.fs = .ok r)
    (hrun : rotate volumeId password volumesDir s = .ok run) {k : ℕ} (hk : k ≤ run.effects.length) :
    Recovered volumeId password volumesDir s run r.hierarchy (run.cut k s) ↔ ¬ run.Writing k := by
  obtain ⟨hold, hino, hlisted, hjson⟩ := rotate_ok hrun
  rw [run.length_effects] at hk
  by_cases hupdates : k ≤ run.listed.length
  · -- the file is as it was
    refine iff_of_true ?_ fun h => absurd h.1 (not_lt.2 hupdates)
    rw [run.cut_updating hupdates, hlisted]
    refine recovered_of_hasJson hopen hrun hold (.inl ⟨rfl, fun rid he => ?_⟩)
    exact epochAt_partly he k
  · obtain ⟨j, rfl⟩ := Nat.exists_eq_add_of_le (Nat.succ_le_of_lt (not_le.1 hupdates))
    rw [Nat.succ_eq_add_one] at hk ⊢
    rw [run.cut_writing]
    by_cases hwritten : j = run.json.length
    · refine iff_of_true ?_ fun h => ?_
      · rw [hwritten, List.take_length, hjson, hlisted]
        refine recovered_of_hasJson hopen hrun (hasJson_overwrite hino _) (.inr ⟨rfl, fun rid he => ?_⟩)
        rw [epochAt_rotated, if_pos he]
      · have := h.2
        rw [run.length_effects] at this
        omega
    · refine iff_of_false ?_ ?_
      · refine not_recovered hino ?_
        rw [hjson]
        refine hcut _ _ (List.take_prefix _ _) fun he => ?_
        have hlength := congrArg List.length he
        rw [List.length_take, ← hjson] at hlength
        omega
      · rw [not_not]
        refine ⟨by omega, ?_⟩
        rw [run.length_effects]
        omega

/-! ## A concrete volume -/

namespace SampleVolume

open Sample

def chance : Chance where
  volumeId := "2c5ea4c0-4067-11e9-8bad-9b1deb4d3b7d"
  displayName := "a"
  groupName := "river sings quiet"
  salt := List.replicate 32 0
  createdAt := 0

/-- A derivation that tells short passwords apart. -/
scoped instance (priority := 2000) keyDerivation : KeyDerivation where
  argon2id password _ params := some (password ++ List.replicate params.outputLen 0)
  hkdf _ key _ := key

def password : Bytes := utf8 "pw"

def rootKey : Bytes := password ++ List.replicate 30 0

def passwordHash : String := computeVerificationHash (deriveHierarchy rootKey chance.salt)

def configAt (epoch : ℕ) : VolumeJson :=
  { VolumeJson.new chance "a" with passwordVerificationHash := some passwordHash, currentEpoch := epoch }

def jsonLines (epoch : ℕ) : List String :=
  ["\x7b", "  \"volume_id\": \"2c5ea4c0-4067-11e9-8bad-9b1deb4d3b7d\",", "  \"display_name\": \"a\",",
    "  \"group_name\": \"river sings quiet\",", "  \"telegram_group_id\": 0,",
    "  \"current_epoch\": " ++ epoch.repr ++ ",", "  \"salt\": ["] ++
  List.replicate 31 "    0," ++
  ["    0", "  ],", "  \"kdf_params\": \x7b", "    \"memory_kib\": 262144,", "    \"iterations\": 4,",
    "    \"parallelism\": 4,", "    \"output_len\": 32", "  \x7d,", "  \"block_config\": \x7b",
    "    \"min_block_size\": 4096,", "    \"max_block_size\": 52428800,", "    \"target_block_size\": 1048576,",
    "    \"compression\": \"Lz4\"", "  \x7d,", "  \"default_policy_id\": 0,", "  \"cache_config\": \x7b",
    "    \"enabled\": true,", "    \"max_size\": 1073741824,", "    \"metadata_cache\": true,",
    "    \"prefetch_depth\": 4", "  \x7d,", "  \"created_at\": 0,",
    "  \"password_verification_hash\": \"" ++ passwordHash ++ "\"", "\x7d"]

def jsonText (epoch : ℕ) : Bytes := List.intercalate [10] ((jsonLines epoch).map utf8)

def compressionBytes : CompressionAlgorithm → Bytes
  | .none => [0]
  | .lz4 => [1]
  | .zstd level => 2 :: intBytes level

theorem compressionBytes_injective : Function.Injective compressionBytes := by
  intro a b h
  cases a <;> cases b <;> simp_all [compressionBytes, intBytes_injective.eq_iff]

def jsonFields (c : VolumeJson) : List Bytes :=
  [configBytes c.toVolumeConfig, utf8 c.volumeId, utf8 c.groupName, intBytes c.telegramGroupId,
    natBytes c.currentEpoch, natBytes c.blockConfig.minBlockSize, natBytes c.blockConfig.maxBlockSize,
    natBytes c.blockConfig.targetBlockSize, compressionBytes c.blockConfig.compression,
    wordBytes c.defaultPolicyId, boolByte c.cacheConfig.enabled, natBytes c.cacheConfig.maxSize,
    boolByte c.cacheConfig.metadataCache, natBytes c.cacheConfig.prefetchDepth, intBytes c.createdAt]

theorem length_jsonFields (c : VolumeJson) : (jsonFields c).length = 15 := rfl

theorem jsonFields_injective : Function.Injective jsonFields := by
  intro a b h
  obtain ⟨_, _, _, _, _, ⟨_, _, _, _⟩, _, ⟨_, _, _, _⟩, _⟩ := a
  obtain ⟨_, _, _, _, _, ⟨_, _, _, _⟩, _, ⟨_, _, _, _⟩, _⟩ := b
  simpa [jsonFields, configBytes_injective.eq_iff, utf8_injective.eq_iff, intBytes_injective.eq_iff,
    natBytes_injective.eq_iff, compressionBytes_injective.eq_iff, wordBytes_injective.eq_iff,
    boolByte_injective.eq_iff, and_assoc] using h

theorem eq_of_prefix_frames {l m : List Bytes} (hlength : l.length = m.length) (h : frames l <+: frames m) :
    l = m := by
  induction l generalizing m with
  | nil => exact (List.length_eq_zero_iff.1 hlength.symm).symm
  | cons a l ih =>
    cases m with
    | nil => cases hlength
    | cons b m =>
      obtain ⟨x, hx⟩ := h
      have hx' : frame a ++ (frames l ++ x) = frame b ++ frames m := by
        rw [← List.append_assoc]
        exact hx
      obtain ⟨rfl, hrest⟩ := frame_append_inj hx'
      rw [ih (Nat.succ.inj hlength) ⟨x, hrest⟩]

/-- The text of the two configs of this volume, and some text for all others. -/
def volumeText (c : VolumeJson) : Bytes :=
  if c = configAt 0 then jsonText 0
  else if c = configAt 1 then jsonText 1
  else frames (jsonFields c)

theorem volumeText_configAt_zero : volumeText (configAt 0) = jsonText 0 := if_pos rfl

theorem volumeText_configAt_one : volumeText (configAt 1) = jsonText 1 := by
  rw [volumeText, if_neg, if_pos rfl]
  exact fun h => absurd (congrArg VolumeJson.currentEpoch h) Nat.one_ne_zero

theorem volumeText_cases (c : VolumeJson) : (c = configAt 0 ∧ volumeText c = jsonText 0) ∨
    (c = configAt 1 ∧ volumeText c = jsonText 1) ∨ volumeText c = frames (jsonFields c) := by
  unfold volumeText
  split
  · rename_i h
    exact .inl ⟨h, rfl⟩
  split
  · rename_i h
    exact .inr (.inl ⟨h, rfl⟩)
  · exact .inr (.inr rfl)

theorem brace_jsonText : (jsonText 0)[0]? = some 123 ∧ (jsonText 1)[0]? = some 123 := by
  decide +kernel

/-- Where the epoch is written. -/
theorem digit_jsonText : (jsonText 0)[162]? = some 48 ∧ (jsonText 1)[162]? = some 49 := by
  decide +kernel

theorem first_frames (c : VolumeJson) : ∃ b, (frames (jsonFields c))[0]? = some b ∧ b ≠ 123 := by
  change ∃ b, (frame (configBytes c.toVolumeConfig) ++ _)[0]? = some b ∧ b ≠ 123
  cases configBytes c.toVolumeConfig with
  | nil => exact ⟨0, rfl, by decide⟩
  | cons x xs => exact ⟨1, rfl, by decide⟩

theorem not_prefix_of_byte {l m : Bytes} {i : ℕ} {x y : UInt8} (hl : l[i]? = some x) (hm : m[i]? = some y)
    (hne : x ≠ y) : ¬ l <+: m := by
  rintro ⟨r, rfl⟩
  obtain ⟨hi, -⟩ := List.getElem?_eq_some_iff.1 hl
  rw [List.getElem?_append_left hi, hl] at hm
  exact hne (Option.some.inj hm)

theorem eq_of_prefix_volumeText {a b : VolumeJson} (h : volumeText a <+: volumeText b) : a = b := by
  have hfirst : ∀ {l : Bytes} (c : VolumeJson), l[0]? = some 123 →
      ¬ l <+: frames (jsonFields c) ∧ ¬ frames (jsonFields c) <+: l := by
    intro l c hl
    obtain ⟨x, hx, hne⟩ := first_frames c
    exact ⟨not_prefix_of_byte hl hx hne.symm, not_prefix_of_byte hx hl hne⟩
  rcases volumeText_cases a with ⟨rfl, ha⟩ | ⟨rfl, ha⟩ | ha <;>
    rcases volumeText_cases b with ⟨rfl, hb⟩ | ⟨rfl, hb⟩ | hb <;> simp only [ha, hb] at h
  · rfl
  · exact absurd h (not_prefix_of_byte digit_jsonText.1 digit_jsonText.2 (by decide))
  · exact absurd h (hfirst b brace_jsonText.1).1
  · exact absurd h (not_prefix_of_byte digit_jsonText.2 digit_jsonText.1 (by decide))
  · rfl
  · exact absurd h (hfirst b brace_jsonText.2).1
  · exact absurd h (hfirst a brace_jsonText.1).2
  · exact absurd h (hfirst a brace_jsonText.2).2
  · exact jsonFields_injective (eq_of_prefix_frames ((length_jsonFields a).trans (length_jsonFields b).symm) h)

theorem jsonText_ne_nil : jsonText 0 ≠ [] ∧ jsonText 1 ≠ [] := by
  have hne : ∀ {l : Bytes}, l[0]? = some 123 → l ≠ [] := by
    rintro l hl rfl
    cases hl
  exact ⟨hne brace_jsonText.1, hne brace_jsonText.2⟩

open Classical in
noncomputable scoped instance codec : ConfigCodec where
  toJson := volumeText
  fromJson text := if h : ∃ c, volumeText c = text then some h.choose else none
  fromJson_toJson c := by
    have h : ∃ c', volumeText c' = volumeText c := ⟨c, rfl⟩
    rw [dif_pos h]
    exact congrArg some (eq_of_prefix_volumeText ⟨[], (List.append_nil _).trans h.choose_spec⟩)

theorem toJson_configAt_zero : toJson (configAt 0) = jsonText 0 := volumeText_configAt_zero

theorem toJson_configAt_one : toJson (configAt 1) = jsonText 1 := volumeText_configAt_one

theorem incrementEpoch_configAt_zero : (configAt 0).incrementEpoch = configAt 1 := rfl

theorem fromJson_of_cut (config : VolumeJson) (text : Bytes) (hp : text <+: toJson config)
    (hne : text ≠ toJson config) : fromJson text = none := by
  refine dif_neg ?_
  rintro ⟨c, rfl⟩
  exact hne (congrArg volumeText (eq_of_prefix_volumeText hp))

/-- The config in `/v/2c5ea4c0-…`. -/
def volumeDisk : Fs :=
  FileSystem.ofEntries
    [([], .dir), (["v"], .dir), (["v", "2c5ea4c0-4067-11e9-8bad-9b1deb4d3b7d"], .dir),
      (["v", "2c5ea4c0-4067-11e9-8bad-9b1deb4d3b7d", "volume.json"], .file 0)]
    (fun _ => jsonText 0) (by decide +kernel) (by decide) (by decide +kernel)

def volume : Stored := ⟨volumeDisk, .empty⟩

theorem fileAt_volumeDisk :
    volumeDisk.fileAt (volumePaths ["", "v"] chance.volumeId).configPath = some 0 := by decide +kernel

theorem hasJson_volume : HasJson chance.volumeId ["", "v"] volume.fs (configAt 0) := by
  refine ⟨0, fileAt_volumeDisk, ?_⟩
  change fromJson (jsonText 0) = _
  rw [← toJson_configAt_zero]
  exact ConfigCodec.fromJson_toJson _

def opened : OpenVolumeResult :=
  ⟨(configAt 0).toVolumeConfig, volumePaths ["", "v"] chance.volumeId,
    deriveHierarchy rootKey chance.salt⟩

theorem deriveRootKey_password :
    deriveRootKey password (configAt 0).salt (configAt 0).kdfParams = .ok rootKey := by
  have hlong : ¬ (password ++ List.replicate 32 0).length < 32 := by decide +kernel
  have htake : (password ++ List.replicate 32 0).take 32 = rootKey := by decide +kernel
  change (if (password ++ List.replicate 32 0).length < 32 then Except.error CoreError.panicked
    else Except.ok ((password ++ List.replicate 32 0).take 32)) = _
  rw [if_neg hlong, htake]

theorem openVolume_opened : openVolume chance.volumeId password ["", "v"] volume.fs = .ok opened := by
  have hhash : (configAt 0).passwordVerificationHash = some passwordHash := rfl
  have hmatch : ∀ expected ∈ some passwordHash,
      computeVerificationHash (deriveHierarchy rootKey (configAt 0).salt) = expected :=
    fun expected h => Option.some.inj h
  rw [openVolume_of_hasConfig _ hasJson_volume.hasConfig, deriveRootKey_password, hhash]
  exact if_pos hmatch

end SampleVolume

section

open scoped Sample SampleVolume
open SampleVolume

/-- Before its first step the rotation has changed nothing; after the first there is no config. -/
theorem rotate_recovers_iff_sample : ∃ run, rotate chance.volumeId password ["", "v"] volume = .ok run ∧
    Recovered chance.volumeId password ["", "v"] volume run opened.hierarchy (run.cut 0 volume) ∧
    ¬ Recovered chance.volumeId password ["", "v"] volume run opened.hierarchy (run.cut 1 volume) := by
  obtain ⟨run, hrun, hconfig⟩ := rotate_of_open openVolume_opened hasJson_volume
  have hlisted : run.listed = [] := (rotate_ok hrun).2.2.1
  have hlength : 1 < run.effects.length := by
    have hjson : run.json = jsonText 1 := by
      rw [(rotate_ok hrun).2.2.2, hconfig, incrementEpoch_configAt_zero, toJson_configAt_one]
    have hpos := List.length_pos_of_ne_nil jsonText_ne_nil.2
    rw [← hjson] at hpos
    rw [run.length_effects]
    omega
  refine ⟨run, hrun, ?_, ?_⟩
  · refine (rotate_recovers_iff fromJson_of_cut openVolume_opened hrun (Nat.zero_le _)).2 ?_
    exact fun h => absurd h.1 (Nat.not_lt_zero _)
  · rw [rotate_recovers_iff fromJson_of_cut openVolume_opened hrun hlength.le, not_not]
    exact ⟨hlisted ▸ Nat.zero_lt_one, hlength⟩

/-- The file is empty when the machine stops. -/
theorem rotate_loses_config : ¬ ∀ (volumeId : String) (password : Bytes) (volumesDir : Pieces) (s : Stored)
    (r : OpenVolumeResult) (run : RotateRun), openVolume volumeId password volumesDir s.fs = .ok r →
    rotate volumeId password volumesDir s = .ok run → ∀ k ≤ run.effects.length,
      Recovered volumeId password volumesDir s run r.hierarchy (run.cut k s) := by
  intro h
  obtain ⟨run, hrun, hconfig⟩ := rotate_of_open openVolume_opened hasJson_volume
  obtain ⟨-, hino, hlisted, hjson⟩ := rotate_ok hrun
  have hrecovered := h _ _ _ _ _ _ openVolume_opened hrun (run.listed.length + 1 + 0) (by
    rw [run.length_effects]
    omega)
  rw [run.cut_writing, List.take_zero] at hrecovered
  refine not_recovered hino (fromJson_of_cut (configAt 0) [] List.nil_prefix ?_) hrecovered
  rw [toJson_configAt_zero]
  exact jsonText_ne_nil.1.symm

end

end TgCryptFs

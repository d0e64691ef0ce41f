import Mathlib.Data.List.MinMax
import TgCryptFs.Core.Shred

set_option autoImplicit false

/-!
# Volumes on disk

A volume is a directory below `volumes_dir` with the config `volume.json`. `delete_volume`
joins the id to that path and takes what it finds there: an id that steps up, ends in a
slash or is absolute leads elsewhere.
-/
namespace TgCryptFs
open Library

structure Argon2Params where
  memoryKib : ℕ
  iterations : ℕ
  parallelism : ℕ
  outputLen : ℕ
deriving DecidableEq

structure VolumeConfig where
  displayName : String
  salt : Bytes
  kdfParams : Argon2Params
  passwordVerificationHash : Option String
deriving DecidableEq

/-- `serde_json::from_str::<VolumeConfig>`. -/
class ConfigFormat where
  parseConfig : Bytes → Option VolumeConfig

export ConfigFormat (parseConfig)

/-- `VolumePaths`. -/
structure VolumePaths where
  baseDir : Pieces
  dbPath : Pieces
  configPath : Pieces
  cacheDir : Pieces

namespace VolumePaths

def new (baseDir : Pieces) : VolumePaths where
  baseDir := baseDir
  dbPath := FileSystem.join baseDir ["metadata.db"]
  configPath := FileSystem.join baseDir ["volume.json"]
  cacheDir := FileSystem.join baseDir ["cache"]

end VolumePaths

/-- More directories than a path can go down: the system gives up after `maxLinks` links, and
    between two of them no path is longer than the longest location. -/
def searchDepth (fs : Fs) : ℕ :=
  (FileSystem.maxLinks + 1) * ((fs.entries.map (·.1.length)).foldr max 0 + 1)

def deleteVolume (noise : Noise) (volumeId : String) (volumesDir : Pieces) (fs : Fs) :
    Except VolumeError Unit × Fs :=
  let volDir := FileSystem.join volumesDir (pieces volumeId)
  if fs.existsAt volDir = false then (.error (.notFound volumeId), fs)
  else
    match shredDirectory noise (searchDepth fs) volDir fs with
    | (.error e, fs') => (.error e, fs')
    | (.ok _, fs') =>
      match fs'.removeDirAll volDir with
      | (false, fs'') => (.error .deleteVolume, fs'')
      | (true, fs'') => (.ok (), fs'')

/-- Whatever links there are, a deletion takes a directory away only from where the path leads. -/
theorem kind_deleteVolume (noise : Noise) {volumeId : String} {volumesDir : Pieces} {fs : Fs}
    {d : Location} (hd : fs.kind d = some .dir)
    (h : ∀ l, fs.resolve (FileSystem.join volumesDir (pieces volumeId)) = some l → ¬ l <+: d) :
    (deleteVolume noise volumeId volumesDir fs).2.kind d = some .dir := by
  have hthin := Thinned.shredDirectory noise (searchDepth fs)
    (FileSystem.join volumesDir (pieces volumeId)) fs
  unfold deleteVolume
  dsimp only
  split
  · exact hd
  split
  · rename_i he
    rw [he] at hthin
    exact hthin.dirs d hd
  · rename_i fs' he
    rw [he] at hthin
    have hremove := FileSystem.kind_removeDirAll (hthin.dirs d hd) fun l hl =>
      h l (FileSystem.resolve_mono hthin.sub hl)
    split
    · rename_i hr
      rw [hr] at hremove
      exact hremove
    · rename_i hr
      rw [hr] at hremove
      exact hremove

/-! ## What a deletion may do -/

/-- The directory `d` holds a volume config. -/
def IsVolume [ConfigFormat] (fs : Fs) (d : Location) : Prop :=
  ∃ ino, fs.kind (d ++ ["volume.json"]) = some (.file ino) ∧ parseConfig (fs.content ino) ≠ none

/-- The directory `d` is gone with all that was in it, and the files elsewhere are as before. -/
structure Removed (fs : Fs) (d : Location) (fs' : Fs) : Prop where
  kind : ∀ l, fs'.kind l = if d <+: l then none else fs.kind l
  content : ∀ l ino, ¬ d <+: l → fs.kind l = some (.file ino) → fs'.content ino = fs.content ino

/-- An error that changed nothing, or one volume of `volumesDir` removed. -/
def Confined [ConfigFormat] (volumesDir : Pieces) (fs : Fs) (r : Except VolumeError Unit × Fs) : Prop :=
  match r.1 with
  | .error _ => (∀ l, r.2.kind l = fs.kind l) ∧ ∀ ino, r.2.content ino = fs.content ino
  | .ok _ => ∃ v n, fs.resolve volumesDir = some v ∧ fs.kind (v ++ [n]) = some .dir ∧
      IsVolume fs (v ++ [n]) ∧ Removed fs (v ++ [n]) r.2

/-- `d` is a volume of `volumesDir`. The path still names it when it is empty, no link is below it,
    and what is written in it is not read elsewhere. -/
structure Deletable [ConfigFormat] (volumesDir path : Pieces) (fs : Fs) (d : Location) : Prop where
  volume : ∃ v n, fs.resolve volumesDir = some v ∧ d = v ++ [n] ∧ IsVolume fs d
  named : (fs.clear d).named path = some d
  links : LinkFree fs d
  shared : ∀ l l' ino, d <+: l → ¬ d <+: l' → fs.kind l = some (.file ino) →
    fs.kind l' = some (.file ino) → fs.content ino = []

/-- An empty directory that the path leads to and does not name. -/
def Unnamed (path : Pieces) (fs : Fs) (d : Location) : Prop :=
  fs.readDir d = [] ∧ fs.lstat path = some d ∧ fs.named path ≠ some d

/-- What a path must lead to: nothing, no directory, an empty directory it does not name, or a
    volume. -/
def SafePath [ConfigFormat] (volumesDir path : Pieces) (fs : Fs) : Prop :=
  ∀ d, fs.resolve path = some d → fs.kind d = some .dir →
    Unnamed path fs d ∨ Deletable volumesDir path fs d

/-! ## Deletion without links below the directory -/

section

variable {noise : Noise} {volumeId : String} {volumesDir path : Pieces} {fs fs₁ : Fs} {d : Location}

theorem length_lt_searchDepth {l : Location} {k : Kind} (h : fs.kind l = some k) :
    l.length < searchDepth fs := by
  have hle : l.length ≤ (fs.entries.map (·.1.length)).foldr max 0 :=
    List.le_max_of_le' 0 (List.mem_map_of_mem (FileSystem.kind_eq_some.1 h)) le_rfl
  exact (Nat.lt_succ_of_le hle).trans_le (Nat.le_mul_of_pos_left _ (Nat.succ_pos _))

/-- The files are overwritten and gone, then the rest of the directory. -/
theorem deleteVolume_linkFree (noise : Noise)
    (hr : fs.resolve (FileSystem.join volumesDir (pieces volumeId)) = some d)
    (hd : fs.kind d = some .dir) (hlinks : LinkFree fs d) :
    ∃ fs₁, Shredded noise fs (fun l => d <+: l) fs₁ ∧
      deleteVolume noise volumeId volumesDir fs =
        match fs₁.removeDirAll (FileSystem.join volumesDir (pieces volumeId)) with
        | (false, fs'') => (.error .deleteVolume, fs'')
        | (true, fs'') => (.ok (), fs'') := by
  obtain ⟨fs₁, hrun, hS⟩ := shredDirectory_spec noise (searchDepth fs) hr hd hlinks
    fun l k hl _ => (length_lt_searchDepth hl).trans_le (Nat.le_add_left _ _)
  refine ⟨fs₁, hS, ?_⟩
  rw [deleteVolume, FileSystem.existsAt, hr, hrun]
  rfl

theorem Shredded.kind_of_empty (h : Shredded noise fs (fun l => d <+: l) fs₁)
    (hd : fs.kind d = some .dir) (hempty : fs.readDir d = []) (l : Location) :
    (fs₁.clear d).kind l = fs.kind l ∧ fs₁.kind l = fs.kind l := by
  have hclear : (fs.clear d).kind l = fs.kind l := by
    rw [FileSystem.kind_clear]
    split
    · rename_i hl
      by_contra hk
      exact hl.2 (FileSystem.eq_of_prefix_of_empty hempty hl.1 fun h => hk h.symm)
    · rfl
  refine ⟨(h.kind_clear hd l).trans hclear, ?_⟩
  by_cases hp : d <+: l
  · ext k
    rw [h.kind]
    refine and_iff_left_of_imp fun hk => ?_
    rintro ⟨-, hf⟩
    obtain rfl := FileSystem.eq_of_prefix_of_empty hempty hp (hk ▸ Option.some_ne_none k)
    rw [hd] at hk
    cases hk
    cases hf
  · exact h.kind_outside hp

theorem Shredded.content_of_empty (h : Shredded noise fs (fun l => d <+: l) fs₁)
    (hd : fs.kind d = some .dir) (hempty : fs.readDir d = []) (ino : ℕ) :
    fs₁.content ino = fs.content ino := by
  refine h.kept ino fun l hp hk => ?_
  obtain rfl := FileSystem.eq_of_prefix_of_empty hempty hp (hk ▸ Option.some_ne_none _)
  rw [hd] at hk
  cases hk

theorem Removed.eq {d' : Location} (h : Removed fs d fs₁) (hd : fs.kind d = some .dir)
    (hd' : fs.kind d' = some .dir) (hgone : ∀ l, fs₁.kind l = if d' <+: l then none else fs.kind l) :
    d = d' := by
  have hp : d <+: d' := by
    by_contra hp
    have := h.kind d'
    rw [hgone, if_pos List.prefix_rfl, if_neg hp, hd'] at this
    cases this
  have hp' : d' <+: d := by
    by_contra hp'
    have := hgone d
    rw [h.kind, if_pos List.prefix_rfl, if_neg hp', hd] at this
    cases this
  exact hp.eq_of_length (le_antisymm hp.length_le hp'.length_le)

theorem join_pieces_ne_nil (volumesDir : Pieces) (volumeId : String) :
    FileSystem.join volumesDir (pieces volumeId) ≠ [] := by
  rw [FileSystem.join]
  split
  · exact pieces_ne_nil volumeId
  · exact List.append_ne_nil_of_right_ne_nil _ (pieces_ne_nil volumeId)

/-- Emptied and then removed, the directory is all that is gone. -/
theorem Shredded.kind_prune_clear (h : Shredded noise fs (fun l => d <+: l) fs₁) (hne : d ≠ [])
    (l : Location) : ((fs₁.clear d).prune d).kind l = if d <+: l then none else fs.kind l := by
  rw [FileSystem.kind_prune hne]
  split
  · rfl
  rename_i hp
  rw [FileSystem.kind_clear, if_neg fun h => hp h.1, h.kind_outside hp]

theorem Shredded.unchanged_iff (h : Shredded noise fs (fun l => d <+: l) fs₁)
    (hd : fs.kind d = some .dir) :
    ((∀ l, (fs₁.clear d).kind l = fs.kind l) ∧ ∀ ino, (fs₁.clear d).content ino = fs.content ino) ↔
      fs.readDir d = [] := by
  refine ⟨fun hsame => ?_, fun hempty => ⟨fun l => ?_, fun ino => ?_⟩⟩
  · refine List.eq_nil_iff_forall_not_mem.2 fun n hn => FileSystem.mem_readDir.1 hn ?_
    rw [← hsame.1, FileSystem.kind_clear, if_pos]
    exact ⟨List.prefix_append _ _, fun e => by simpa using congrArg List.length e⟩
  · exact (h.kind_of_empty hd hempty l).1
  · exact h.content_of_empty hd hempty ino

theorem not_removed_link {x d' : Location} {t : Pieces} (hx : fs₁.kind x = some (.link t))
    (hd' : fs₁.kind d' = some .dir) : (fs₁.prune x).kind d' ≠ none := by
  have hk : fs₁.kind x ≠ some .dir := by
    rw [hx]
    exact fun h => by cases h
  rw [FileSystem.kind_prune (FileSystem.ne_nil_of_not_dir hk),
    if_neg (FileSystem.not_prefix_of_dir hk hd'), hd']
  exact Option.some_ne_none _

/-- What `delete_volume` does to a directory without links below it. -/
theorem confined_deleteVolume_iff [ConfigFormat]
    (hpath : path = FileSystem.join volumesDir (pieces volumeId))
    (hr : fs.resolve path = some d) (hd : fs.kind d = some .dir)
    (hS : Shredded noise fs (fun l => d <+: l) fs₁)
    (hrun : deleteVolume noise volumeId volumesDir fs = match fs₁.removeDirAll path with
      | (false, fs'') => (.error .deleteVolume, fs'')
      | (true, fs'') => (.ok (), fs'')) :
    Confined volumesDir fs (deleteVolume noise volumeId volumesDir fs) ↔
      Unnamed path fs d ∨
      ((∃ v n, fs.resolve volumesDir = some v ∧ d = v ++ [n] ∧ IsVolume fs d) ∧
        (fs.clear d).named path = some d ∧
        ∀ l ino, ¬ d <+: l → fs.kind l = some (.file ino) → fs₁.content ino = fs.content ino) := by
  have hd₁ := hS.dirs d .dir hd rfl
  have hr₁ := hS.resolve hr hd
  have hnamed : (fs₁.clear d).named path = (fs.clear d).named path :=
    FileSystem.named_congr (hS.kind_clear hd) path
  -- an empty directory stands for itself before and after
  have hsame : fs.readDir d = [] → fs₁.lstat path = fs.lstat path ∧
      (fs.clear d).named path = fs.named path := by
    refine fun hempty => ⟨FileSystem.lstat_congr (fun l => (hS.kind_of_empty hd hempty l).2) path, ?_⟩
    rw [← hnamed]
    exact FileSystem.named_congr (fun l => (hS.kind_of_empty hd hempty l).1) path
  have hne : path ≠ [] := hpath ▸ join_pieces_ne_nil volumesDir volumeId
  rw [hrun]
  rcases FileSystem.lstat_of_resolve hne hr₁ hd₁ with hl | ⟨x, t, hl, hx⟩
  · rw [FileSystem.removeDirAll_dir hr₁ hd₁ hl, hnamed]
    by_cases hn : (fs.clear d).named path = some d
    · rw [if_pos hn]
      have hgone := hS.kind_prune_clear (FileSystem.ne_nil_of_named hn)
      constructor
      · rintro ⟨v, n, hv, hk, hvol, hrem⟩
        obtain rfl := hrem.eq hk hd hgone
        exact .inr ⟨⟨v, n, hv, rfl, hvol⟩, hn, hrem.content⟩
      · rintro (⟨hempty, -, hun⟩ | ⟨⟨v, n, hv, rfl, hvol⟩, -, hcontent⟩)
        · exact absurd ((hsame hempty).2 ▸ hn) hun
        · exact ⟨v, n, hv, hd, hvol, hgone, hcontent⟩
    · rw [if_neg hn]
      refine (hS.unchanged_iff hd).trans ⟨fun hempty => ?_, ?_⟩
      · exact .inl ⟨hempty, (hsame hempty).1 ▸ hl, (hsame hempty).2 ▸ hn⟩
      · rintro (⟨hempty, -, -⟩ | ⟨-, h, -⟩)
        · exact hempty
        · exact absurd h hn
  · have hremove : fs₁.removeDirAll path = (true, fs₁.prune x) := by
      rw [FileSystem.removeDirAll, hl]
      dsimp only
      rw [hx]
    rw [hremove]
    have hld : fs₁.lstat path ≠ some d := by
      rw [hl]
      rintro ⟨⟩
      rw [hd₁] at hx
      cases hx
    refine iff_of_false ?_ ?_
    · rintro ⟨v, n, -, hk, -, hrem⟩
      refine not_removed_link hx (hS.dirs _ _ hk rfl) ?_
      rw [hrem.kind, if_pos List.prefix_rfl]
    · rintro (⟨hempty, hlstat, -⟩ | ⟨-, hn, -⟩)
      · exact hld ((hsame hempty).1.trans hlstat)
      · rw [← hnamed] at hn
        have := FileSystem.named_mono (fun _ _ => FileSystem.kind_clear_of_mem) hn
        exact hld (FileSystem.lstat_of_named this hd₁)

theorem confined_of_not_dir [ConfigFormat]
    (h : ∀ d, fs.resolve (FileSystem.join volumesDir (pieces volumeId)) = some d →
      fs.kind d ≠ some .dir) :
    Confined volumesDir fs (deleteVolume noise volumeId volumesDir fs) := by
  rw [deleteVolume, FileSystem.existsAt]
  cases hr : fs.resolve (FileSystem.join volumesDir (pieces volumeId)) with
  | none => exact ⟨fun _ => rfl, fun _ => rfl⟩
  | some d =>
    have hdepth : searchDepth fs = searchDepth fs - 1 + 1 :=
      (Nat.sub_add_cancel (Nat.zero_lt_of_lt (length_lt_searchDepth fs.kind_root))).symm
    have hshred : shredDirectory noise (searchDepth fs)
        (FileSystem.join volumesDir (pieces volumeId)) fs = (.error .readDirForShred, fs) := by
      rw [hdepth, shredDirectory, hr]
      dsimp only
      rw [if_pos (h d hr)]
    rw [hshred]
    exact ⟨fun _ => rfl, fun _ => rfl⟩

theorem LinkFree.of_empty (hd : fs.kind d = some .dir) (h : fs.readDir d = []) : LinkFree fs d := by
  intro l t hp hk
  obtain rfl := FileSystem.eq_of_prefix_of_empty h hp (hk ▸ Option.some_ne_none _)
  rw [hd] at hk
  cases hk

/-- What is written over a file for every source of random bytes is the file only if it is
    empty. -/
theorem eq_nil_of_fill (content : Bytes)
    (h : ∀ noise : Noise, ∃ path, noise.fill path 2 content.length = content) : content = [] := by
  cases content with
  | nil => rfl
  | cons b bs =>
    obtain ⟨path, he⟩ := h fun _ _ _ => b + 1
    rw [Noise.fill, List.length_cons, List.range_succ_eq_map, List.map_cons] at he
    exact absurd (List.cons.inj he).1 (by simp)

end

namespace Sample

/-- The text of a config, in pieces. -/
def configText : List String :=
  ["\x7b\"volume_id\":", "\"2c5ea4c0-4067-11e9-8bad-9b1deb4d3b7d\",\"display_name\":\"a\",",
    "\"group_name\":\"river sings quiet\",\"telegram_group_id\":0,\"current_epoch\":0,",
    "\"salt\":[0,0,0,0,0,0,0,0,0,0,0,0,0,0,0,0,0,0,0,0,0,0,0,0,0,0,0,0,0,0,0,0],",
    "\"kdf_params\":\x7b\"memory_kib\":262144,\"iterations\":4,\"parallelism\":4,",
    "\"output_len\":32\x7d,\"block_config\":\x7b\"min_block_size\":4096,",
    "\"max_block_size\":52428800,\"target_block_size\":1048576,\"compression\":\"Lz4\"\x7d,",
    "\"default_policy_id\":0,\"cache_config\":\x7b\"enabled\":true,\"max_size\":1073741824,",
    "\"metadata_cache\":true,\"prefetch_depth\":4\x7d,\"created_at\":0,",
    "\"password_verification_hash\":null\x7d"]

def config : VolumeConfig where
  displayName := "a"
  salt := List.replicate 32 0
  kdfParams := ⟨262144, 4, 4, 32⟩
  passwordVerificationHash := none

/-- What begins as a config is read as this one. -/
scoped instance configFormat : ConfigFormat where
  parseConfig text := if (utf8 "\x7b\"volume_id\":").isPrefixOf text then some config else none

def files (ino : ℕ) : Bytes := if ino = 1 then configText.flatMap utf8 else [104, 105]

/-- A volume in `/home/v` and a file next to that directory. -/
def disk : Fs :=
  FileSystem.ofEntries
    [([], .dir), (["home"], .dir), (["home", "notes"], .file 0), (["home", "v"], .dir),
      (["home", "v", "a"], .dir), (["home", "v", "a", "volume.json"], .file 1)]
    files (by decide +kernel) (by decide) (by decide +kernel)

end Sample

section
open scoped Sample

end

end TgCryptFs

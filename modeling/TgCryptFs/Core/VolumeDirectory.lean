import TgCryptFs.Core.CreateVolume
import TgCryptFs.Library.FileGrowth

set_option autoImplicit false

/-!
# The directory of the volumes

`list_volumes` reads every `volume.json` that is one name below `volumes_dir`, and what is no
config it passes over. The files are seen here as a registry: what there is under each name.
-/
namespace TgCryptFs
open Library

inductive ListError where
  | readVolumesDir
deriving DecidableEq

/-- What there is under a name of the directory. -/
inductive Slot where
  | free
  /-- A directory without a config: its creation failed before the config was written. -/
  | husk
  | volume (config : VolumeJson)
deriving DecidableEq

def Slot.config : Slot → Option VolumeJson
  | .volume config => some config
  | _ => none

theorem Slot.config_eq_some {s : Slot} {config : VolumeJson} : s.config = some config ↔ s = .volume config := by
  cases s with
  | free => exact iff_of_false (fun e => by cases e) fun e => by cases e
  | husk => exact iff_of_false (fun e => by cases e) fun e => by cases e
  | volume config' => rw [Slot.config, Option.some.injEq, Slot.volume.injEq]

abbrev Registry := String → Slot

/-- What opening does with the config it has read. -/
def unlock [Primitives] [KeyDerivation] (config : VolumeConfig) (password : Bytes) :
    Except CoreError KeyHierarchy :=
  match deriveRootKey password config.salt config.kdfParams with
  | .error e => .error e
  | .ok root =>
    if ∀ expected ∈ config.passwordVerificationHash,
        computeVerificationHash (deriveHierarchy root config.salt) = expected then
      .ok (deriveHierarchy root config.salt)
    else .error .wrongPassword

section

variable [ConfigCodec]

/-- The config in the directory `n`, if it can be read. -/
def configIn (volumesDir : Pieces) (fs : Fs) (n : String) : Option VolumeJson :=
  (fs.fileAt (FileSystem.join (FileSystem.join volumesDir [n]) ["volume.json"])).bind fun ino =>
    fromJson (fs.content ino)

def listVolumes (volumesDir : Pieces) (fs : Fs) : Except ListError (List VolumeJson) :=
  match fs.resolve volumesDir with
  | none => .ok []
  | some d =>
    if fs.kind d ≠ some .dir then .error .readVolumesDir
    else .ok ((fs.readDir d).filterMap (configIn volumesDir fs))

end

/-- What creation returns and writes when the keys can be derived. -/
def createdConfig [Primitives] [KeyDerivation] (chance : Chance) (name : Option String) (root : Bytes) :
    VolumeJson :=
  { VolumeJson.new chance (name.getD chance.displayName) with
    passwordVerificationHash := some (computeVerificationHash (deriveHierarchy root chance.salt)) }

/-- What creation answers when nothing is in its way. -/
def createdResult [Primitives] [KeyDerivation] (chance : Chance) (name : Option String) (password : Bytes)
    (volumesDir : Pieces) : Except CreateError CreateVolumeResult :=
  match deriveRootKey password chance.salt ⟨262144, 4, 4, 32⟩ with
  | .error e => .error (.keys e)
  | .ok root => .ok ⟨createdConfig chance name root, volumePaths volumesDir chance.volumeId,
      deriveHierarchy root chance.salt⟩

/-- What creation leaves under the new name. -/
def createdSlot [Primitives] [KeyDerivation] (chance : Chance) (name : Option String) (password : Bytes) :
    Slot :=
  match deriveRootKey password chance.salt ⟨262144, 4, 4, 32⟩ with
  | .error _ => .husk
  | .ok root => .volume (createdConfig chance name root)

/-! ## Ids -/

/-- The form of the ids that volumes are given: one name. -/
def PlainId (id : String) : Prop := pieces id = [id] ∧ ¬ Special id

instance (id : String) : Decidable (PlainId id) := inferInstanceAs (Decidable (_ ∧ _))

variable {volumesDir : Pieces} {id : String} {fs₀ fs fs' : Fs} {v : Location}

theorem map_filterMap_sublist {α β : Type} {f : α → Option β} {g : β → α} {l : List α}
    (h : ∀ a ∈ l, ∀ b, f a = some b → g b = a) : ((l.filterMap f).map g).Sublist l := by
  induction l with
  | nil => exact .slnil
  | cons a l ih =>
    have hrest := ih fun x hx => h x (List.mem_cons_of_mem a hx)
    cases hf : f a with
    | none =>
      rw [List.filterMap_cons_none hf]
      exact hrest.cons a
    | some b =>
      rw [List.filterMap_cons_some hf, List.map_cons, h a List.mem_cons_self b hf]
      exact hrest.cons_cons a

theorem join_singleton (path : Pieces) (n : String) : FileSystem.join path [n] = path ++ [n] := by
  rw [FileSystem.join, if_neg]
  simp [FileSystem.isAbsolute]

theorem PlainId.join (h : PlainId id) (volumesDir : Pieces) :
    FileSystem.join volumesDir (pieces id) = volumesDir ++ [id] := by
  rw [h.1, join_singleton]

theorem PlainId.configPath (h : PlainId id) (volumesDir : Pieces) :
    (volumePaths volumesDir id).configPath = volumesDir ++ [id] ++ ["volume.json"] := by
  rw [volumePaths, h.join]
  exact join_singleton (volumesDir ++ [id]) "volume.json"

theorem not_special_config : ¬ Special "volume.json" := by decide

theorem not_special_cache : ¬ Special "cache" := by decide

/-- Opening with the config that is there. -/
theorem openVolume_unlock [Primitives] [KeyDerivation] [ConfigFormat] {config : VolumeConfig}
    (hconfig : HasConfig id volumesDir fs config) (password : Bytes) :
    openVolume id password volumesDir fs =
      (unlock config password).map fun hierarchy => ⟨config, volumePaths volumesDir id, hierarchy⟩ := by
  rw [openVolume_of_hasConfig password hconfig, unlock]
  cases deriveRootKey password config.salt config.kdfParams with
  | error e => rfl
  | ok root =>
    dsimp only
    split
    · rfl
    · rfl

/-! ## What is below the directory -/

/-- `volumesDir` leads to the directory `v`, in which there is nothing yet. -/
structure Unused (volumesDir : Pieces) (fs₀ : Fs) (v : Location) : Prop where
  resolve : fs₀.resolve volumesDir = some v
  dir : fs₀.kind v = some .dir
  empty : fs₀.readDir v = []

/-- The directories and links of `fs₀` are still there. -/
def Keeps (fs₀ fs : Fs) : Prop := ∀ l k, fs₀.kind l = some k → k.isFile = false → fs.kind l = some k

theorem Keeps.resolve (h : Unused volumesDir fs₀ v) (hkeeps : Keeps fs₀ fs) :
    fs.resolve volumesDir = some v := FileSystem.resolve_of_dirs hkeeps h.resolve h.dir

theorem Keeps.dir (h : Unused volumesDir fs₀ v) (hkeeps : Keeps fs₀ fs) : fs.kind v = some .dir :=
  hkeeps v .dir h.dir rfl

theorem not_below_self (v : Location) (n : String) : ¬ v ++ [n] <+: v := by
  intro h
  have hlen := h.length_le
  rw [List.length_append, List.length_singleton] at hlen
  omega

/-- No entry that was there at first is below a volume. -/
theorem Unused.not_below (h : Unused volumesDir fs₀ v) {l : Location} {n : String} (hl : fs₀.kind l ≠ none) :
    ¬ v ++ [n] <+: l := by
  intro hp
  have hpv : v <+: l := (List.prefix_append v [n]).trans hp
  obtain rfl := FileSystem.eq_of_prefix_of_empty h.empty hpv hl
  exact not_below_self l n hp

/-- What the file system has under a name is this slot. No other entry is the file of the config. -/
inductive SlotAt [ConfigCodec] (fs : Fs) (v : Location) (n : String) : Slot → Prop where
  | free (hn : fs.kind (v ++ [n]) = none) : SlotAt fs v n .free
  | husk (hn : fs.kind (v ++ [n]) = some .dir) (hc : fs.kind (v ++ [n] ++ ["volume.json"]) = none) :
      SlotAt fs v n .husk
  | volume {config : VolumeJson} {ino : ℕ} (hn : fs.kind (v ++ [n]) = some .dir)
      (hc : fs.kind (v ++ [n] ++ ["volume.json"]) = some (.file ino))
      (hown : ∀ l, fs.kind l = some (.file ino) → l = v ++ [n] ++ ["volume.json"])
      (hjson : fromJson (fs.content ino) = some config) (hid : config.volumeId = n) :
      SlotAt fs v n (.volume config)

/-- The file system below `v` is what the registry says. -/
structure Holds [ConfigCodec] (fs₀ : Fs) (v : Location) (fs : Fs) (r : Registry) : Prop where
  keeps : Keeps fs₀ fs
  links : LinkFree fs v
  slots : ∀ n, SlotAt fs v n (r n)

section

variable [ConfigCodec] {n : String} {s : Slot}

theorem SlotAt.dir_of_ne_free (h : SlotAt fs v n s) (hs : s ≠ .free) : fs.kind (v ++ [n]) = some .dir := by
  cases h with
  | free hn => exact absurd rfl hs
  | husk hn hc => exact hn
  | volume hn hc hown hjson hid => exact hn

theorem SlotAt.free_iff (h : SlotAt fs v n s) : s = .free ↔ fs.kind (v ++ [n]) = none := by
  constructor
  · rintro rfl
    cases h with
    | free hn => exact hn
  · intro hn
    by_contra hs
    rw [h.dir_of_ne_free hs] at hn
    cases hn

/-- The slot of a name whose config nothing is done to. -/
theorem SlotAt.frame (h : SlotAt fs v n s) (hn : fs'.kind (v ++ [n]) = fs.kind (v ++ [n]))
    (hc : fs'.kind (v ++ [n] ++ ["volume.json"]) = fs.kind (v ++ [n] ++ ["volume.json"]))
    (hfile : ∀ ino, fs.kind (v ++ [n] ++ ["volume.json"]) = some (.file ino) →
      (∀ l, fs.kind l = some (.file ino) → l = v ++ [n] ++ ["volume.json"]) →
      fs'.content ino = fs.content ino ∧ ∀ l, fs'.kind l = some (.file ino) → fs.kind l = some (.file ino)) :
    SlotAt fs' v n s := by
  cases h with
  | free h => exact .free (hn.trans h)
  | husk h h' => exact .husk (hn.trans h) (hc.trans h')
  | volume h h' hown hjson hid =>
    obtain ⟨hcontent, hkind⟩ := hfile _ h' hown
    refine .volume (hn.trans h) (hc.trans h') (fun l hl => hown l (hkind l hl)) ?_ hid
    rw [hcontent]
    exact hjson

/-- Where the directory is listed in, the config is read through its path. -/
theorem configIn_slot (hr : fs.resolve volumesDir = some v) (hname : ¬ Special n) (h : SlotAt fs v n s) :
    configIn volumesDir fs n = s.config := by
  rw [configIn, join_singleton, join_singleton]
  cases h with
  | free hn =>
    have hnone : fs.resolve (volumesDir ++ [n] ++ ["volume.json"]) = none := by
      rw [Option.eq_none_iff_forall_ne_some]
      intro l hl
      obtain ⟨x, hx⟩ := FileSystem.resolve_of_append hl
      rw [FileSystem.resolve_free hr hname hn] at hx
      cases hx
    rw [FileSystem.fileAt, hnone]
    rfl
  | husk hn hc =>
    have hdir := FileSystem.resolve_child hr hn fun t ht => by cases ht
    rw [FileSystem.fileAt_free hdir not_special_config hc]
    rfl
  | volume hn hc hown hjson hid =>
    have hdir := FileSystem.resolve_child hr hn fun t ht => by cases ht
    rw [FileSystem.fileAt_child hdir hc, Option.bind_some, hjson]
    rfl

end

/-! ## Changes below one name -/

/-- Nothing has changed but below the name `n`, where there is no link, and no file that was
    elsewhere. -/
structure OnlyAt (v : Location) (n : String) (fs fs' : Fs) : Prop where
  kind : ∀ l, ¬ v ++ [n] <+: l → fs'.kind l = fs.kind l
  content : ∀ ino, (∃ l, fs.kind l = some (.file ino)) →
    (∀ l, v ++ [n] <+: l → fs.kind l ≠ some (.file ino)) → fs'.content ino = fs.content ino
  files : ∀ l ino, v ++ [n] <+: l → fs'.kind l = some (.file ino) →
    fs.kind l = some (.file ino) ∨ ∀ l', fs.kind l' ≠ some (.file ino)
  links : ∀ l t, v ++ [n] <+: l → fs'.kind l ≠ some (.link t)

/-- What is done in the directory of a volume and not to its config. -/
structure Work (v : Location) (n : String) (fs fs' : Fs) : Prop extends OnlyAt v n fs fs' where
  dir : fs'.kind (v ++ [n]) = fs.kind (v ++ [n])
  config : fs'.kind (v ++ [n] ++ ["volume.json"]) = fs.kind (v ++ [n] ++ ["volume.json"])
  unchanged : ∀ ino, fs.kind (v ++ [n] ++ ["volume.json"]) = some (.file ino) →
    fs'.content ino = fs.content ino ∧ ∀ l, fs'.kind l = some (.file ino) → fs.kind l = some (.file ino)

theorem not_below_other {m n : String} (h : m ≠ n) (v rest : Location) : ¬ v ++ [n] <+: v ++ [m] ++ rest := by
  rw [List.append_assoc, List.prefix_append_right_inj, List.singleton_append, List.cons_prefix_cons]
  exact fun hp => h hp.1.symm

section

variable [ConfigCodec] {n : String} {r : Registry} {s : Slot}

/-- A change below one name is one of its slot. -/
theorem Holds.change (hunused : Unused volumesDir fs₀ v) (h : Holds fs₀ v fs r) (hc : OnlyAt v n fs fs')
    (hs : SlotAt fs' v n s) : Holds fs₀ v fs' (Function.update r n s) where
  keeps l k hl hf := by
    rw [hc.kind l (hunused.not_below (hl ▸ Option.some_ne_none k))]
    exact h.keeps l k hl hf
  links l t hp hl := by
    by_cases hbelow : v ++ [n] <+: l
    · exact hc.links l t hbelow hl
    · rw [hc.kind l hbelow] at hl
      exact h.links l t hp hl
  slots m := by
    by_cases hm : m = n
    · subst hm
      rw [Function.update_self]
      exact hs
    · rw [Function.update_of_ne hm]
      have hother : ¬ v ++ [n] <+: v ++ [m] := by
        have hnot := not_below_other hm v []
        rwa [List.append_nil] at hnot
      have hconfig := not_below_other hm v ["volume.json"]
      refine (h.slots m).frame (hc.kind _ hother) (hc.kind _ hconfig) fun ino hino hown => ?_
      refine ⟨hc.content ino ⟨_, hino⟩ fun l hl hk => ?_, fun l hl => ?_⟩
      · rw [hown l hk] at hl
        exact hconfig hl
      · by_cases hbelow : v ++ [n] <+: l
        · rcases hc.files l ino hbelow hl with hk | hnew
          · exact hk
          · exact absurd hino (hnew _)
        · rwa [hc.kind l hbelow] at hl

theorem Holds.work (hunused : Unused volumesDir fs₀ v) (h : Holds fs₀ v fs r) (hw : Work v n fs fs') :
    Holds fs₀ v fs' r := by
  have hslot : SlotAt fs' v n (r n) :=
    (h.slots n).frame hw.dir hw.config fun ino hino _ => hw.unchanged ino hino
  have hchange := h.change hunused hw.toOnlyAt hslot
  rwa [Function.update_eq_self] at hchange

/-- At first every name is free. -/
theorem Unused.holds (h : Unused volumesDir fs₀ v) : Holds fs₀ v fs₀ fun _ => .free where
  keeps _ _ hl _ := hl
  links l t hp hl := by
    obtain rfl := FileSystem.eq_of_prefix_of_empty h.empty hp (hl ▸ Option.some_ne_none _)
    rw [h.dir] at hl
    cases hl
  slots n := by
    refine .free ?_
    by_contra hn
    exact h.not_below hn List.prefix_rfl

/-! ## Creation -/

omit [ConfigCodec] in
/-- The directories of a new volume. -/
theorem ensureDirs_free (hunused : Unused volumesDir fs₀ v) (hkeeps : Keeps fs₀ fs) (hplain : PlainId id)
    (hfree : fs.kind (v ++ [id]) = none) : ∃ fs₁, (volumePaths volumesDir id).ensureDirs fs = (true, fs₁) ∧
      (∀ l, fs₁.kind l =
        if l = v ++ [id] ∨ l = v ++ [id] ++ ["cache"] then some .dir else fs.kind l) ∧
      fs₁.content = fs.content := by
  have hr := hkeeps.resolve hunused
  obtain ⟨fs', hbase, hkind, hcontent⟩ :=
    FileSystem.createDirAll_child hr (hkeeps.dir hunused) hplain.2 hfree
  have hmono : ∀ l k, fs.kind l = some k → fs'.kind l = some k := by
    intro l k hl
    rw [hkind, if_neg, hl]
    rintro rfl
    rw [hfree] at hl
    cases hl
  have hdir : fs'.kind (v ++ [id]) = some .dir := by rw [hkind, if_pos rfl]
  have hr' : fs'.resolve (volumesDir ++ [id]) = some (v ++ [id]) :=
    FileSystem.resolve_child (FileSystem.resolve_mono hmono hr) hdir fun t ht => by cases ht
  have hcache : fs'.kind (v ++ [id] ++ ["cache"]) = none := by
    rw [hkind, if_neg (by simp)]
    by_contra hsome
    obtain ⟨k, hk⟩ := Option.ne_none_iff_exists'.1 hsome
    rw [FileSystem.kind_parent hk] at hfree
    cases hfree
  obtain ⟨fs₁, hall, hkind₁, hcontent₁⟩ :=
    FileSystem.createDirAll_child hr' hdir not_special_cache hcache
  refine ⟨fs₁, ?_, fun l => ?_, hcontent₁.trans hcontent⟩
  · have hpaths : (volumePaths volumesDir id).baseDir = volumesDir ++ [id] := hplain.join volumesDir
    have hcachePath : (volumePaths volumesDir id).cacheDir = volumesDir ++ [id] ++ ["cache"] := by
      rw [← hpaths]
      exact join_singleton _ "cache"
    rw [VolumePaths.ensureDirs, hpaths, hbase, hcachePath]
    exact hall
  · rw [hkind₁, hkind]
    by_cases hl : l = v ++ [id]
    · rw [if_pos hl, ite_self, if_pos (Or.inl hl)]
    · rw [if_neg hl]
      exact if_congr (or_iff_right hl).symm rfl rfl

variable [Primitives] [KeyDerivation] {chance : Chance} {name : Option String} {password root : Bytes}

theorem createVolume_underived {fs₁ : Fs} {e : CoreError}
    (hdirs : (volumePaths volumesDir chance.volumeId).ensureDirs fs = (true, fs₁))
    (hkeys : deriveRootKey password chance.salt ⟨262144, 4, 4, 32⟩ = .error e) :
    createVolume chance name password volumesDir fs = (.error (.keys e), fs₁) := by
  have hdirs' : (volumePaths volumesDir
      (VolumeJson.new chance (name.getD chance.displayName)).volumeId).ensureDirs fs = (true, fs₁) := hdirs
  have hkeys' : deriveRootKey password (VolumeJson.new chance (name.getD chance.displayName)).salt
      (VolumeJson.new chance (name.getD chance.displayName)).kdfParams = .error e := hkeys
  unfold createVolume
  dsimp only
  rw [hdirs']
  dsimp only
  rw [hkeys']

theorem createVolume_derived {fs₁ fs₂ : Fs}
    (hdirs : (volumePaths volumesDir chance.volumeId).ensureDirs fs = (true, fs₁))
    (hkeys : deriveRootKey password chance.salt ⟨262144, 4, 4, 32⟩ = .ok root)
    (hwrite : fs₁.write (volumePaths volumesDir chance.volumeId).configPath
      (toJson (createdConfig chance name root)) = some fs₂) :
    createVolume chance name password volumesDir fs = (.ok ⟨createdConfig chance name root,
      volumePaths volumesDir chance.volumeId, deriveHierarchy root chance.salt⟩, fs₂) := by
  have hdirs' : (volumePaths volumesDir
      (VolumeJson.new chance (name.getD chance.displayName)).volumeId).ensureDirs fs = (true, fs₁) := hdirs
  have hkeys' : deriveRootKey password (VolumeJson.new chance (name.getD chance.displayName)).salt
      (VolumeJson.new chance (name.getD chance.displayName)).kdfParams = .ok root := hkeys
  unfold createVolume
  dsimp only
  rw [hdirs']
  dsimp only
  rw [hkeys']
  dsimp only
  split
  · rename_i hfailed
    cases hfailed.symm.trans hwrite
  · rename_i fs' hwritten
    obtain rfl := Option.some.inj (hwritten.symm.trans hwrite)
    rfl

/-- A creation under a free name says what it has written there. -/
theorem createVolume_free (hunused : Unused volumesDir fs₀ v) (h : Holds fs₀ v fs r)
    (hplain : PlainId chance.volumeId) (hfree : r chance.volumeId = .free) (name : Option String)
    (password : Bytes) : ∃ fs',
      createVolume chance name password volumesDir fs =
        (createdResult chance name password volumesDir, fs') ∧
      Holds fs₀ v fs' (Function.update r chance.volumeId (createdSlot chance name password)) := by
  have hnone := (h.slots chance.volumeId).free_iff.1 hfree
  obtain ⟨fs₁, hdirs, hkind, hcontent⟩ := ensureDirs_free hunused h.keeps hplain hnone
  have hr := h.keeps.resolve hunused
  -- nothing was below the free name, and now there are two directories
  have hbelow : ∀ l, v ++ [chance.volumeId] <+: l → fs.kind l = none := by
    intro l hl
    by_contra hsome
    obtain ⟨k, hk⟩ := Option.ne_none_iff_exists'.1 hsome
    by_cases he : v ++ [chance.volumeId] = l
    · rw [← he, hnone] at hk
      cases hk
    · rw [FileSystem.kind_above hk hl he] at hnone
      cases hnone
  have hout : ∀ l, ¬ v ++ [chance.volumeId] <+: l → fs₁.kind l = fs.kind l := by
    intro l hl
    rw [hkind, if_neg]
    rintro (rfl | rfl)
    · exact hl List.prefix_rfl
    · exact hl (List.prefix_append _ _)
  have hin : ∀ l k, v ++ [chance.volumeId] <+: l → fs₁.kind l = some k → k = .dir := by
    intro l k hl hk
    rw [hkind, hbelow l hl] at hk
    split at hk
    · exact (Option.some.inj hk).symm
    · cases hk
  have hdir : fs₁.kind (v ++ [chance.volumeId]) = some .dir := by
    rw [hkind, if_pos (Or.inl rfl)]
  have hconfig : fs₁.kind (v ++ [chance.volumeId] ++ ["volume.json"]) = none := by
    rw [hkind, if_neg (by simp)]
    exact hbelow _ (List.prefix_append _ _)
  have honly : OnlyAt v chance.volumeId fs fs₁ := by
    refine ⟨hout, fun ino _ _ => by rw [hcontent], fun l ino hl hk => ?_, fun l t hl hk => ?_⟩
    · cases hin l _ hl hk
    · cases hin l _ hl hk
  cases hkeys : deriveRootKey password chance.salt ⟨262144, 4, 4, 32⟩ with
  | error e =>
    refine ⟨fs₁, ?_, ?_⟩
    · rw [createVolume_underived hdirs hkeys, createdResult, hkeys]
    · rw [createdSlot, hkeys]
      exact h.change hunused honly (.husk hdir hconfig)
  | ok root =>
    have hmono : ∀ l k, fs.kind l = some k → fs₁.kind l = some k := by
      intro l k hk
      rw [hout l, hk]
      intro hl
      rw [hbelow l hl] at hk
      cases hk
    have hr₁ : fs₁.resolve (volumesDir ++ [chance.volumeId]) = some (v ++ [chance.volumeId]) :=
      FileSystem.resolve_child (FileSystem.resolve_mono hmono hr) hdir fun t ht => by cases ht
    obtain ⟨fs₂, ino, hwrite, hnew, hkind₂, hcontent₂⟩ :=
      FileSystem.write_child hr₁ hdir not_special_config hconfig (toJson (createdConfig chance name root))
    rw [← hplain.configPath] at hwrite
    -- the file is none of those that were there before
    have hnew' : ∀ l, fs.kind l ≠ some (.file ino) := fun l hl => hnew l (hmono l _ hl)
    have hin₂ : ∀ l k, v ++ [chance.volumeId] <+: l → fs₂.kind l = some k → k = .dir ∨
        k = .file ino := by
      intro l k hl hk
      rw [hkind₂] at hk
      split at hk
      · exact .inr (Option.some.inj hk).symm
      · exact .inl (hin l k hl hk)
    have honly₂ : OnlyAt v chance.volumeId fs fs₂ := by
      refine ⟨fun l hl => ?_, fun ino' hthere _ => ?_, fun l ino' hl hk => ?_, fun l t hl hk => ?_⟩
      · rw [hkind₂, if_neg, hout l hl]
        rintro rfl
        exact hl (List.prefix_append _ _)
      · obtain ⟨l, hl⟩ := hthere
        rw [hcontent₂, Function.update_of_ne, hcontent]
        rintro rfl
        exact hnew' l hl
      · rcases hin₂ l _ hl hk with he | he
        · cases he
        · cases he
          exact .inr hnew'
      · rcases hin₂ l _ hl hk with he | he
        · cases he
        · cases he
    have hslot : SlotAt fs₂ v chance.volumeId (.volume (createdConfig chance name root)) := by
      refine @SlotAt.volume _ _ _ _ _ ino ?_ ?_ (fun l hl => ?_) ?_ rfl
      · rw [hkind₂, if_neg (by simp), hdir]
      · rw [hkind₂, if_pos rfl]
      · rw [hkind₂] at hl
        split at hl
        · assumption
        · exact absurd hl (hnew l)
      · rw [hcontent₂, Function.update_self]
        exact ConfigCodec.fromJson_toJson _
    refine ⟨fs₂, ?_, ?_⟩
    · rw [createVolume_derived hdirs hkeys hwrite, createdResult, hkeys]
    · rw [createdSlot, hkeys]
      exact h.change hunused honly₂ hslot

end

/-! ## Deletion, listing and opening -/

section

variable [ConfigCodec] {r : Registry}

theorem deleteVolume_free (hunused : Unused volumesDir fs₀ v) (h : Holds fs₀ v fs r) (hplain : PlainId id)
    (hfree : r id = .free) (noise : Noise) :
    deleteVolume noise id volumesDir fs = (.error (.notFound id), fs) := by
  have hnone := FileSystem.resolve_free (h.keeps.resolve hunused) hplain.2 ((h.slots id).free_iff.1 hfree)
  rw [deleteVolume, hplain.join, FileSystem.existsAt, hnone]
  rfl

/-- A deletion of what is there frees the name. -/
theorem deleteVolume_taken (hunused : Unused volumesDir fs₀ v) (h : Holds fs₀ v fs r) (hplain : PlainId id)
    (htaken : r id ≠ .free) (noise : Noise) : ∃ fs', deleteVolume noise id volumesDir fs = (.ok (), fs') ∧
      Holds fs₀ v fs' (Function.update r id .free) := by
  have hdir := (h.slots id).dir_of_ne_free htaken
  have hv := h.keeps.resolve hunused
  have hr : fs.resolve (FileSystem.join volumesDir (pieces id)) = some (v ++ [id]) := by
    rw [hplain.join]
    exact FileSystem.resolve_child hv hdir fun t ht => by cases ht
  have hlinks : LinkFree fs (v ++ [id]) := fun l t hl => h.links l t ((List.prefix_append v [id]).trans hl)
  obtain ⟨fs₁, hshred, hrun⟩ := deleteVolume_linkFree noise hr hdir hlinks
  have hdir₁ := hshred.dirs _ _ hdir rfl
  have hv₁ := hshred.resolve hv (h.keeps.dir hunused)
  have hkeeps : Keeps fs₀ (fs₁.clear (v ++ [id])) := by
    intro l k hl hf
    have hnot := hunused.not_below (n := id) (hl ▸ Option.some_ne_none k)
    rw [FileSystem.kind_clear, if_neg fun hp => hnot hp.1, hshred.kind_outside hnot]
    exact h.keeps l k hl hf
  have hnamed : (fs₁.clear (v ++ [id])).named (volumesDir ++ [id]) = some (v ++ [id]) := by
    refine FileSystem.named_child (hkeeps.resolve hunused) (k := .dir) ?_
    rw [FileSystem.kind_clear_self, hdir₁]
  have hremoved : fs₁.removeDirAll (volumesDir ++ [id]) =
      (true, (fs₁.clear (v ++ [id])).prune (v ++ [id])) := by
    rw [FileSystem.removeDirAll_dir (FileSystem.resolve_child hv₁ hdir₁ fun t ht => by cases ht) hdir₁
      (FileSystem.lstat_child hv₁ hdir₁), if_pos hnamed]
  have hkind := hshred.kind_prune_clear (d := v ++ [id]) (List.append_ne_nil_of_right_ne_nil _ (List.cons_ne_nil _ _))
  refine ⟨(fs₁.clear (v ++ [id])).prune (v ++ [id]), ?_, ?_⟩
  · rw [hrun, hplain.join, hremoved]
  · refine h.change hunused ⟨fun l hl => ?_, fun ino _ hino => hshred.kept ino hino, fun l ino hl hk => ?_,
      fun l t hl hk => ?_⟩ (.free ?_)
    · rw [hkind, if_neg hl]
    · rw [hkind, if_pos hl] at hk
      cases hk
    · rw [hkind, if_pos hl] at hk
      cases hk
    · rw [hkind, if_pos List.prefix_rfl]

/-- The volumes that a listing shows, in the order the names are read. -/
theorem listVolumes_holds (hunused : Unused volumesDir fs₀ v) (h : Holds fs₀ v fs r) :
    ∃ configs, listVolumes volumesDir fs = .ok configs ∧ (configs.map (·.volumeId)).Nodup ∧
      ∀ config, config ∈ configs ↔ r config.volumeId = .volume config := by
  have hv := h.keeps.resolve hunused
  have hname : ∀ {n}, n ∈ fs.readDir v → ¬ Special n := by
    intro n hn
    obtain ⟨k, hk⟩ := Option.ne_none_iff_exists'.1 (FileSystem.mem_readDir.1 hn)
    exact FileSystem.not_special hk
  -- a config is listed under its own id
  have hread : ∀ n ∈ fs.readDir v, ∀ config, configIn volumesDir fs n = some config ↔
      r n = .volume config := by
    intro n hn config
    rw [configIn_slot hv (hname hn) (h.slots n), Slot.config_eq_some]
  have hid : ∀ n config, r n = .volume config → config.volumeId = n := by
    intro n config hn
    have hslot := h.slots n
    rw [hn] at hslot
    cases hslot with
    | volume _ _ _ _ hid => exact hid
  refine ⟨(fs.readDir v).filterMap (configIn volumesDir fs), ?_, ?_, fun config => ?_⟩
  · rw [listVolumes, hv]
    dsimp only
    rw [if_neg (not_not.2 (h.keeps.dir hunused))]
  · refine (fs.nodup_readDir v).sublist (map_filterMap_sublist fun n hn config hconfig => ?_)
    exact hid n config ((hread n hn config).1 hconfig)
  · rw [List.mem_filterMap]
    constructor
    · rintro ⟨n, hn, hconfig⟩
      have hvolume := (hread n hn config).1 hconfig
      rwa [hid n config hvolume]
    · intro hvolume
      have hn : config.volumeId ∈ fs.readDir v := by
        rw [FileSystem.mem_readDir, (h.slots _).dir_of_ne_free (by rw [hvolume]; exact fun e => by cases e)]
        exact Option.some_ne_none _
      exact ⟨config.volumeId, hn, (hread _ hn config).2 hvolume⟩

variable [Primitives] [KeyDerivation]

/-- What opening says of an id under which there is no volume. -/
theorem openVolume_absent (hunused : Unused volumesDir fs₀ v) (h : Holds fs₀ v fs r) (hplain : PlainId id)
    (habsent : (r id).config = none) (password : Bytes) :
    openVolume id password volumesDir fs = .error (.volumeNotFound id) := by
  have hv := h.keeps.resolve hunused
  have hexists : fs.existsAt (volumePaths volumesDir id).configPath = false := by
    rw [hplain.configPath, FileSystem.existsAt, Option.isSome_eq_false_iff, Option.isNone_iff_eq_none,
      Option.eq_none_iff_forall_ne_some]
    intro l hl
    obtain ⟨x, hx⟩ := FileSystem.resolve_of_append hl
    cases hslot : r id with
    | free =>
      have hnone := FileSystem.resolve_free hv hplain.2 ((h.slots id).free_iff.1 hslot)
      rw [hx] at hnone
      cases hnone
    | husk =>
      have hat := h.slots id
      rw [hslot] at hat
      cases hat with
      | husk hn hc =>
        have hdir := FileSystem.resolve_child hv hn fun t ht => by cases ht
        rw [FileSystem.resolve_free hdir not_special_config hc] at hl
        cases hl
    | volume config =>
      rw [hslot] at habsent
      cases habsent
  have hexists' : fs.existsAt (VolumePaths.new
      (FileSystem.join volumesDir (pieces id))).configPath = false := hexists
  unfold openVolume
  dsimp only
  rw [if_pos hexists']

end

end TgCryptFs

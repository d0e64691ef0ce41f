import TgCryptFs.Cli.VolumeHistory
import TgCryptFs.Core.CanonicalSentence
import TgCryptFs.Library.Text

set_option autoImplicit false

/-!
# The recovery sentence

Creation answers with the root key as a sentence. `key export` finds the volume by its id or its
name, asks for the password and prints the sentence again; `key import` decodes one.
-/
namespace TgCryptFs
open Library Sentence

/-- A root key as the array that is encoded. -/
def key256 (root : Bytes) : Key256 := ⟨root.takeD 32 0, List.takeD_length 32 root 0⟩

structure CreateVolumeResponse where
  volumeId : String
  displayName : String
  sentenceRef : String
deriving DecidableEq

inductive VolumeServiceError where
  | invalidArgument (message : String)
  | createVolume (e : CreateError)
  | encodeSentence (e : EncodingError)
deriving DecidableEq

/-- What the two commands fail with. -/
inductive KeyError where
  | listVolumes (e : ListError)
  | bail (message : String)
  | core (e : CoreError)
  | sentence (e : EncodingError)
deriving DecidableEq

/-- `password.trim_end()` of the line that was read. -/
def trimEnd (line : String) : String := String.ofList (line.toList.rdropWhile Text.isWhitespace)

/-- The first volume with this id or this name. -/
def findVolume (volume : String) (volumes : List VolumeJson) : Option VolumeJson :=
  volumes.find? fun config => config.volumeId = volume ∨ config.displayName = volume

def importKey (sentence : String) : Except KeyError Bytes :=
  let words := splitWhitespace sentence
  if words.length ≠ 22 then
    .error (.bail ("Invalid sentence reference: expected 22 words, got " ++ toString words.length))
  else
    match decodeRefString sentence fun l => buildReverseLookup (placeholderWordlist l) with
    | .error e => .error (.sentence e)
    | .ok root => .ok root

section

variable [Primitives] [KeyDerivation] [ConfigCodec]

def VolumeService.create (chance : Chance) (name : Option String) (password : String) (baseDir : Pieces)
    (fs : Fs) : Except VolumeServiceError CreateVolumeResponse × Fs :=
  if (utf8 password).length < 8 then
    (.error (.invalidArgument "password must be at least 8 characters"), fs)
  else
    match createVolume chance name (utf8 password) baseDir fs with
    | (.error e, fs') => (.error (.createVolume e), fs')
    | (.ok result, fs') =>
      match encodeRefString (key256 result.hierarchy.root) fun l => placeholderWordlist l with
      | .error e => (.error (.encodeSentence e), fs')
      | .ok sentence => (.ok ⟨result.config.volumeId, result.config.displayName, sentence⟩, fs')

/-- What is printed: the name of the volume and the sentence. -/
def exportKey (volume line : String) (volumesDir : Pieces) (fs : Fs) : Except KeyError (String × String) :=
  match listVolumes volumesDir fs with
  | .error e => .error (.listVolumes e)
  | .ok volumes =>
    match findVolume volume volumes with
    | none => .error (.bail ("Volume '" ++ volume ++ "' not found"))
    | some config =>
      match openVolume config.volumeId (utf8 (trimEnd line)) volumesDir fs with
      | .error e => .error (.core e)
      | .ok result =>
        match encodeRefString (key256 result.hierarchy.root) fun l => placeholderWordlist l with
        | .error e => .error (.sentence e)
        | .ok sentence => .ok (config.displayName, sentence)

end

/-! ## Sentences of root keys -/

theorem length_deriveRootKey [KeyDerivation] {password salt root : Bytes} {params : Argon2Params}
    (h : deriveRootKey password salt params = .ok root) : root.length = 32 := by
  unfold deriveRootKey at h
  split at h
  · cases h
  split at h
  · cases h
  · rename_i output _ hlength
    rw [← Except.ok.inj h, List.length_take]
    omega

theorem key256_of_length {root : Bytes} (h : root.length = 32) : (key256 root).val = root := by
  change root.takeD 32 0 = root
  rw [List.takeD_eq_take 0 h.ge, ← h, List.take_length]

theorem lists_placeholders : placeholders.lists = fun l : Fin 4 => placeholderWordlist l :=
  funext placeholders_lists

theorem lookups_placeholders :
    placeholders.lookups = fun l : Fin 4 => buildReverseLookup (placeholderWordlist l) := by
  funext l
  rw [Wordlists.lookups, placeholders_lists]

/-- A root key has a sentence, and the sentence is imported as the key. -/
theorem importKey_encoded {root : Bytes} (h : root.length = 32) : ∃ sentence,
    encodeRefString (key256 root) (fun l => placeholderWordlist l) = .ok sentence ∧
      importKey sentence = .ok root := by
  obtain ⟨-, -, -, -, -, -, sentence, hencode, hdecode⟩ := sentence_round_trip placeholders (key256 root)
  rw [lists_placeholders] at hencode
  rw [lookups_placeholders, key256_of_length h] at hdecode
  refine ⟨sentence, hencode, ?_⟩
  have hwords : (splitWhitespace sentence).length = 22 := by
    by_contra hlength
    have hlength : (splitWhitespace sentence).length ≠ wordsPerRef := hlength
    rw [decodeRefString, decodeRef, if_pos hlength] at hdecode
    cases hdecode
  rw [importKey, if_neg (not_not.2 hwords), hdecode]

/-- The volume that a name finds where no other volume has it. -/
theorem findVolume_only {volumes : List VolumeJson} {config : VolumeJson} {volume : String}
    (hmem : config ∈ volumes) (hname : config.volumeId = volume ∨ config.displayName = volume)
    (honly : ∀ other ∈ volumes, other.volumeId = volume ∨ other.displayName = volume → other = config) :
    findVolume volume volumes = some config := by
  cases hfind : findVolume volume volumes with
  | none =>
    have hnot := List.find?_eq_none.1 hfind config hmem
    exact absurd (decide_eq_true hname) hnot
  | some other =>
    rw [findVolume] at hfind
    have hsome := List.find?_some hfind
    rw [honly other (List.mem_of_find?_eq_some hfind) (of_decide_eq_true hsome)]

/-! ## Created and exported -/

section

variable [Primitives] [KeyDerivation] {volumesDir : Pieces} {fs₀ fs fs₁ fs₂ : Fs} {v : Location}
  {r r₁ : Registry} {chance : Chance} {name : Option String} {password : String} {resp : CreateVolumeResponse}

/-- The event deletes no volume of this id. -/
def DirectoryEvent.Spares (id : String) : DirectoryEvent → Prop
  | .delete _ volumeId => volumeId ≠ id
  | _ => True

/-- A new volume is unlocked by its password. -/
theorem unlock_createdConfig {root : Bytes}
    (h : deriveRootKey (utf8 password) chance.salt ⟨262144, 4, 4, 32⟩ = .ok root) :
    unlock (createdConfig chance name root).toVolumeConfig (utf8 password) =
      .ok (deriveHierarchy root chance.salt) := by
  have hroot : deriveRootKey (utf8 password) (createdConfig chance name root).salt
      (createdConfig chance name root).kdfParams = .ok root := h
  rw [unlock, hroot]
  exact if_pos fun expected he => Option.some.inj he

variable [ConfigCodec]

/-- What creation answers, and what it leaves. -/
theorem VolumeService.create_short {baseDir : Pieces} (h : (utf8 password).length < 8) :
    VolumeService.create chance name password baseDir fs₁ =
      (.error (.invalidArgument "password must be at least 8 characters"), fs₁) := by
  unfold VolumeService.create
  rw [if_pos h]

theorem VolumeService.create_of_error {baseDir : Pieces} {e : CreateError} (hlong : ¬ (utf8 password).length < 8)
    (hcreated : TgCryptFs.createVolume chance name (utf8 password) baseDir fs₁ = (.error e, fs₂)) :
    VolumeService.create chance name password baseDir fs₁ = (.error (.createVolume e), fs₂) := by
  unfold VolumeService.create
  rw [if_neg hlong, hcreated]

/-- The files are those of the volume manager, whatever becomes of the sentence. -/
theorem VolumeService.create_of_ok {baseDir : Pieces} {result : CreateVolumeResult}
    (hlong : ¬ (utf8 password).length < 8)
    (hcreated : TgCryptFs.createVolume chance name (utf8 password) baseDir fs₁ = (.ok result, fs₂)) :
    VolumeService.create chance name password baseDir fs₁ =
      (match encodeRefString (key256 result.hierarchy.root) fun l => placeholderWordlist l with
        | .error e => .error (.encodeSentence e)
        | .ok sentence => .ok ⟨result.config.volumeId, result.config.displayName, sentence⟩, fs₂) := by
  unfold VolumeService.create
  -- the word lists are not to be evaluated
  generalize encodeRefString = encode
  rw [if_neg hlong, hcreated]
  dsimp only
  split
  · rfl
  · rfl

theorem VolumeService.create_ok (hunused : Unused volumesDir fs₀ v) (h : Holds fs₀ v fs₁ r₁)
    (hplain : PlainId chance.volumeId) (hfree : r₁ chance.volumeId = .free)
    (hcreate : VolumeService.create chance name password volumesDir fs₁ = (.ok resp, fs₂)) :
    ∃ root, deriveRootKey (utf8 password) chance.salt ⟨262144, 4, 4, 32⟩ = .ok root ∧
      resp.volumeId = chance.volumeId ∧ resp.displayName = (createdConfig chance name root).displayName ∧
      encodeRefString (key256 root) (fun l => placeholderWordlist l) = .ok resp.sentenceRef ∧
      Holds fs₀ v fs₂ (Function.update r₁ chance.volumeId (.volume (createdConfig chance name root))) := by
  obtain ⟨fs', hcreated, hholds⟩ := createVolume_free hunused h hplain hfree name (utf8 password)
  by_cases hlong : (utf8 password).length < 8
  · rw [VolumeService.create_short hlong] at hcreate
    cases hcreate
  cases hkeys : deriveRootKey (utf8 password) chance.salt ⟨262144, 4, 4, 32⟩ with
  | error e =>
    rw [createdResult, hkeys] at hcreated
    rw [VolumeService.create_of_error hlong hcreated] at hcreate
    cases hcreate
  | ok root =>
    rw [createdSlot, hkeys] at hholds
    rw [createdResult, hkeys] at hcreated
    rw [VolumeService.create_of_ok hlong hcreated] at hcreate
    obtain ⟨hresp, rfl⟩ := Prod.mk.inj hcreate
    split at hresp
    · cases hresp
    · rename_i sentence hsentence
      cases hresp
      exact ⟨root, rfl, rfl, rfl, hsentence, hholds⟩

/-- With a long enough password and keys that can be derived, a creation under a free id succeeds. -/
theorem VolumeService.create_succeeds (hunused : Unused volumesDir fs₀ v) (h : Holds fs₀ v fs₁ r₁)
    (hplain : PlainId chance.volumeId) (hfree : r₁ chance.volumeId = .free) {root : Bytes}
    (hlong : 8 ≤ (utf8 password).length)
    (hroot : deriveRootKey (utf8 password) chance.salt ⟨262144, 4, 4, 32⟩ = .ok root) :
    ∃ resp fs₂, VolumeService.create chance name password volumesDir fs₁ = (.ok resp, fs₂) := by
  obtain ⟨fs₂, hcreated, -⟩ := createVolume_free hunused h hplain hfree name (utf8 password)
  obtain ⟨sentence, hsentence, -⟩ := importKey_encoded (length_deriveRootKey hroot)
  refine ⟨⟨chance.volumeId, (createdConfig chance name root).displayName, sentence⟩, fs₂, ?_⟩
  rw [createdResult, hroot] at hcreated
  rw [VolumeService.create_of_ok (not_lt.2 hlong) hcreated,
    show (deriveHierarchy root chance.salt).root = root from rfl, hsentence]
  rfl

/-- Under this id there is a volume that is opened with these. -/
def HasKeys (id : String) (config : VolumeConfig) (s : Fs × Registry) : Prop :=
  ∃ config', s.2 id = .volume config' ∧ config'.toVolumeConfig = config

theorem hasKeys_step {config : VolumeConfig} {s : Fs × Registry} {e : DirectoryEvent}
    (h : HasKeys chance.volumeId config s) (he : e.Admitted v s) (hspares : e.Spares chance.volumeId) :
    HasKeys chance.volumeId config (e.step volumesDir s) := by
  obtain ⟨config', hslot, hsame⟩ := h
  cases e with
  | create chance' name password =>
    have hne : chance.volumeId ≠ chance'.volumeId := by
      intro heq
      rw [heq, he.2] at hslot
      cases hslot
    exact ⟨config', (Function.update_of_ne hne _ _).trans hslot, hsame⟩
  | delete noise volumeId => exact ⟨config', (Function.update_of_ne (Ne.symm hspares) _ _).trans hslot, hsame⟩
  | rotate volumeId password blocks =>
    by_cases heq : chance.volumeId = volumeId
    · subst heq
      rw [HasKeys, DirectoryEvent.step, DirectoryEvent.record]
      dsimp only
      rw [Function.update_self, hslot, rotatedSlot]
      split
      · exact ⟨config'.incrementEpoch, rfl, hsame⟩
      · exact ⟨config', rfl, hsame⟩
    · exact ⟨config', (Function.update_of_ne heq _ _).trans hslot, hsame⟩
  | work volumeId fs' => exact ⟨config', hslot, hsame⟩

/-- Whatever is done to the other volumes, and however often this one's key is rotated: `key export`
    with the password prints the sentence that creation answered with, where the name is this
    volume's alone, and the key that `key import` finds in it is the one that opening leads to. -/
theorem sentence_survives (hunused : Unused volumesDir fs₀ v)
    (hbefore : Runs (DirectoryEvent.step volumesDir) (DirectoryEvent.Admitted v) (fs₀, fun _ => .free) (fs₁, r₁))
    (hplain : PlainId chance.volumeId) (hfree : r₁ chance.volumeId = .free)
    (hcreate : VolumeService.create chance name password volumesDir fs₁ = (.ok resp, fs₂))
    (hafter : Runs (DirectoryEvent.step volumesDir)
      (fun e s => e.Admitted v s ∧ e.Spares resp.volumeId)
      (fs₂, (DirectoryEvent.create chance name (utf8 password)).record r₁) (fs, r)) :
    (∀ volume line, trimEnd line = password → volume = resp.volumeId ∨ volume = resp.displayName →
      (∀ config, r config.volumeId = .volume config →
        config.volumeId = volume ∨ config.displayName = volume → config.volumeId = resp.volumeId) →
      exportKey volume line volumesDir fs = .ok (resp.displayName, resp.sentenceRef)) ∧
    ∃ root, importKey resp.sentenceRef = .ok root ∧
      ∃ result, openVolume resp.volumeId (utf8 password) volumesDir fs = .ok result ∧
        result.hierarchy = deriveHierarchy root chance.salt := by
  have hheld : Holds fs₀ v fs₁ r₁ := holds_of_runs hunused hunused.holds hbefore
  obtain ⟨root, hroot, hid, hname, hsentence, hholds⟩ := VolumeService.create_ok hunused hheld hplain hfree hcreate
  have hrecord : (DirectoryEvent.create chance name (utf8 password)).record r₁ =
      Function.update r₁ chance.volumeId (.volume (createdConfig chance name root)) := by
    rw [DirectoryEvent.record, createdSlot, hroot]
  rw [hid, hrecord] at hafter
  -- after the creation there is always a volume with its keys
  obtain ⟨hnow, config, hslot, hsame⟩ := hafter.invariant
    (fun s => Holds fs₀ v s.1 s.2 ∧ HasKeys chance.volumeId (createdConfig chance name root).toVolumeConfig s)
    ⟨hholds, _, Function.update_self _ _ _, rfl⟩
    fun e s hs he => ⟨hs.1.step hunused e he.1, hasKeys_step hs.2 he.1 he.2⟩
  have hslot : r chance.volumeId = .volume config := hslot
  have hopen : openVolume chance.volumeId (utf8 password) volumesDir fs =
      .ok ⟨config.toVolumeConfig, volumePaths volumesDir chance.volumeId, deriveHierarchy root chance.salt⟩ := by
    rw [openVolume_holds hunused hnow hplain hslot, hsame, unlock_createdConfig hroot]
    rfl
  refine ⟨fun volume line hline hvolume honly => ?_, root, ?_, _, hid ▸ hopen, rfl⟩
  · obtain ⟨configs, hlist, -, hmem⟩ := listVolumes_holds hunused hnow
    have hown : config.volumeId = chance.volumeId := by
      have hat : SlotAt fs v chance.volumeId (r chance.volumeId) := hnow.slots chance.volumeId
      rw [hslot] at hat
      cases hat with
      | volume _ _ _ _ hid => exact hid
    have hshown : config.displayName = resp.displayName := by
      rw [hname]
      exact congrArg VolumeConfig.displayName hsame
    have hfind : findVolume volume configs = some config := by
      refine findVolume_only ((hmem config).2 (hown ▸ hslot)) ?_ fun other hother hnamed => ?_
      · rw [hown, hshown, ← hid]
        exact hvolume.imp Eq.symm Eq.symm
      · have hslot' : r other.volumeId = .volume other := (hmem other).1 hother
        rw [honly other hslot' hnamed, hid, hslot] at hslot'
        exact (Slot.volume.inj hslot').symm
    rw [exportKey, hlist]
    dsimp only
    rw [hfind]
    dsimp only
    rw [hown, hline, hopen]
    dsimp only
    rw [show (deriveHierarchy root chance.salt).root = root from rfl, hsentence, hshown]
  · obtain ⟨sentence, hencode, himport⟩ := importKey_encoded (length_deriveRootKey hroot)
    cases hsentence.symm.trans hencode
    exact himport

end

section

open scoped Sample SampleVolume
open SampleVolume

theorem deriveRootKey_sample : ∃ root,
    deriveRootKey (utf8 "pw-pw-pw") chance.salt ⟨262144, 4, 4, 32⟩ = .ok root := by
  have hlong : ¬ (utf8 "pw-pw-pw" ++ List.replicate 32 0).length < 32 := by decide +kernel
  refine ⟨(utf8 "pw-pw-pw" ++ List.replicate 32 0).take 32, ?_⟩
  change (if (utf8 "pw-pw-pw" ++ List.replicate 32 0).length < 32 then Except.error CoreError.panicked
    else Except.ok ((utf8 "pw-pw-pw" ++ List.replicate 32 0).take 32)) = _
  rw [if_neg hlong]

namespace SampleVolume

def creation : DirectoryEvent := .create chance none (utf8 "pw-pw-pw")

def rotation : DirectoryEvent := .rotate chance.volumeId (utf8 "pw-pw-pw") .empty

end SampleVolume

/-- A volume is made, its key is rotated, and the sentence is asked for again. -/
theorem sentence_survives_sample : ∃ resp fs₂,
    VolumeService.create chance none "pw-pw-pw" ["", "v"] unusedDisk = (.ok resp, fs₂) ∧
    exportKey resp.volumeId "pw-pw-pw\n" ["", "v"] (rotation.act ["", "v"] fs₂) =
      .ok (resp.displayName, resp.sentenceRef) ∧
    ∃ root, importKey resp.sentenceRef = .ok root := by
  have hfree : (fun _ : String => Slot.free) chance.volumeId = .free := rfl
  obtain ⟨root, hroot⟩ := deriveRootKey_sample
  have hcreated : ∃ resp fs₂,
      VolumeService.create chance none "pw-pw-pw" ["", "v"] unusedDisk = (.ok resp, fs₂) :=
    VolumeService.create_succeeds unused_unusedDisk unused_unusedDisk.holds plainId_chance hfree
      (by decide +kernel) hroot
  obtain ⟨resp, fs₂, hcreate⟩ := hcreated
  obtain ⟨-, -, hid, -⟩ := VolumeService.create_ok unused_unusedDisk unused_unusedDisk.holds plainId_chance
    hfree hcreate
  have hafter : Runs (DirectoryEvent.step ["", "v"])
      (fun e s => e.Admitted ["v"] s ∧ e.Spares resp.volumeId) (fs₂, creation.record fun _ => .free)
      (rotation.act ["", "v"] fs₂, rotation.record (creation.record fun _ => .free)) :=
    Runs.start.next_eq rotation ⟨plainId_chance, trivial⟩ rfl
  obtain ⟨hexport, root', himport, -⟩ :=
    sentence_survives unused_unusedDisk .start plainId_chance hfree hcreate hafter
  refine ⟨resp, fs₂, hcreate, hexport _ _ ?_ (.inl rfl) fun config hconfig _ => ?_, root', himport⟩
  · decide +kernel
  · -- there is a volume under this id only
    rw [hid]
    by_contra hne
    rw [SampleVolume.rotation, DirectoryEvent.record, Function.update_of_ne hne, creation,
      DirectoryEvent.record, Function.update_of_ne hne] at hconfig
    cases hconfig

end

end TgCryptFs

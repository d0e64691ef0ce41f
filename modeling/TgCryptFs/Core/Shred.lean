import TgCryptFs.Core.Crypto
import TgCryptFs.Library.FileSystem

set_option autoImplicit false

/-!
# Overwriting and deleting files

`shred_directory` goes through what `read_dir` lists, into whatever `is_dir` calls a
directory, and overwrites and deletes the rest. Both questions follow links. Without links
below it a directory loses exactly its files.
-/
namespace TgCryptFs
open Library

abbrev Fs := FileSystem UInt8

/-- The pieces of a path. -/
def pieces (path : String) : Pieces := (path.toList.splitOn '/').map String.ofList

theorem pieces_ne_nil (path : String) : pieces path ≠ [] :=
  fun h => List.splitOn_ne_nil _ _ (List.map_eq_nil_iff.1 h)

/-- The bytes the random generator gives: for a path, a pass and a position. -/
abbrev Noise := Pieces → ℕ → ℕ → UInt8

def Noise.fill (noise : Noise) (path : Pieces) (pass size : ℕ) : Bytes :=
  (List.range size).map (noise path pass)

theorem length_fill (noise : Noise) (path : Pieces) (pass size : ℕ) :
    (noise.fill path pass size).length = size := by
  rw [Noise.fill, List.length_map, List.length_range]

/-- A loop that ends with the first error. -/
def untilError {σ ε α : Type} (f : α → σ → Except ε Unit × σ) : List α → σ → Except ε Unit × σ
  | [], s => (.ok (), s)
  | a :: as, s =>
    match f a s with
    | (.ok _, s') => untilError f as s'
    | (.error e, s') => (.error e, s')

/-- What each step keeps and extends holds of the whole loop. -/
theorem untilError_ok {σ ε α : Type} {f : α → σ → Except ε Unit × σ} (I : List α → σ → Prop)
    (as : List α) {s : σ} (hs : I [] s)
    (hstep : ∀ done a rest s, as = done ++ a :: rest → I done s →
      ∃ s', f a s = (.ok (), s') ∧ I (done ++ [a]) s') :
    ∃ s', untilError f as s = (.ok (), s') ∧ I as s' := by
  have hrest : ∀ rest done s, as = done ++ rest → I done s →
      ∃ s', untilError f rest s = (.ok (), s') ∧ I as s' := by
    intro rest
    induction rest with
    | nil =>
      intro done s he hI
      rw [List.append_nil] at he
      exact ⟨s, rfl, he ▸ hI⟩
    | cons a rest ih =>
      intro done s he hI
      obtain ⟨s₁, hf, hI₁⟩ := hstep done a rest s he hI
      obtain ⟨s', hu, hI'⟩ := ih (done ++ [a]) s₁ (by rw [he, List.append_assoc]; rfl) hI₁
      exact ⟨s', by rw [untilError, hf]; exact hu, hI'⟩
  exact hrest as [] s rfl hs

inductive VolumeError where
  | notFound (volumeId : String)
  | readDirForShred | statForShred | shredWrite | shredDelete | deleteVolume
deriving DecidableEq

/-- One pass over the file a path leads to. -/
def overwritePass {ε : Type} (e : ℕ → ε) (noise : Noise) (path : Pieces) (size pass : ℕ) (fs : Fs) :
    Except ε Unit × Fs :=
  match fs.fileAt path with
  | none => (.error (e pass), fs)
  | some ino => (.ok (), fs.overwrite ino (noise.fill path pass size))

/-- Three passes, then the file is deleted. -/
def shredFile (noise : Noise) (path : Pieces) (fs : Fs) : Except VolumeError Unit × Fs :=
  match fs.fileAt path with
  | none => (.error .statForShred, fs)
  | some ino =>
    let size := (fs.content ino).length
    match untilError (overwritePass (fun _ => .shredWrite) noise path size) [0, 1, 2] fs with
    | (.error e, fs') => (.error e, fs')
    | (.ok _, fs') =>
      match fs'.removeFile path with
      | none => (.error .shredDelete, fs')
      | some fs'' => (.ok (), fs'')

/-- The recursion gets `fuel` directories deep. -/
def shredDirectory (noise : Noise) : ℕ → Pieces → Fs → Except VolumeError Unit × Fs
  | 0, _, fs => (.error .readDirForShred, fs)
  | fuel + 1, dir, fs =>
    match fs.resolve dir with
    | none => (.error .readDirForShred, fs)
    | some l =>
      if fs.kind l ≠ some .dir then (.error .readDirForShred, fs)
      else
        untilError (fun n fs =>
          if fs.isDir (dir ++ [n]) then shredDirectory noise fuel (dir ++ [n]) fs
          else shredFile noise (dir ++ [n]) fs) (fs.readDir l) fs

/-! ## Shredding without links -/

/-- The files of `fs` in `S` are gone in `fs'`, overwritten before. -/
structure Shredded (noise : Noise) (fs : Fs) (S : Location → Prop) (fs' : Fs) : Prop where
  kind : ∀ l k, fs'.kind l = some k ↔ fs.kind l = some k ∧ ¬ (S l ∧ k.isFile = true)
  kept : ∀ ino, (∀ l, S l → fs.kind l ≠ some (.file ino)) → fs'.content ino = fs.content ino
  written : ∀ l ino, S l → fs.kind l = some (.file ino) →
    ∃ path, fs'.content ino = noise.fill path 2 (fs.content ino).length

namespace Shredded

variable {noise : Noise} {fs fs₁ fs₂ : Fs} {S T : Location → Prop}

theorem refl (noise : Noise) (fs : Fs) : Shredded noise fs (fun _ => False) fs where
  kind _ _ := ⟨fun h => ⟨h, fun h => h.1⟩, fun h => h.1⟩
  kept _ _ := rfl
  written _ _ h := h.elim

theorem length_content (h : Shredded noise fs S fs₁) (ino : ℕ) :
    (fs₁.content ino).length = (fs.content ino).length := by
  by_cases hS : ∃ l, S l ∧ fs.kind l = some (.file ino)
  · obtain ⟨l, hl, hk⟩ := hS
    obtain ⟨path, he⟩ := h.written l ino hl hk
    rw [he, length_fill]
  · rw [h.kept ino fun l hl hk => hS ⟨l, hl, hk⟩]

theorem trans (h : Shredded noise fs S fs₁) (h' : Shredded noise fs₁ T fs₂) :
    Shredded noise fs (fun l => S l ∨ T l) fs₂ where
  kind l k := by
    rw [h'.kind, h.kind]
    tauto
  kept ino hino := by
    rw [h'.kept ino fun l hl hk => hino l (.inr hl) ((h.kind l _).1 hk).1,
      h.kept ino fun l hl => hino l (.inl hl)]
  written l ino hl hk := by
    by_cases hT : ∃ x, T x ∧ fs₁.kind x = some (.file ino)
    · obtain ⟨x, hx, hkx⟩ := hT
      obtain ⟨path, he⟩ := h'.written x ino hx hkx
      exact ⟨path, by rw [he, h.length_content]⟩
    · -- nothing of the file was left to `T`, so it was in `S`
      have hS : S l := by
        by_contra hS
        refine hT ⟨l, hl.resolve_left hS, (h.kind l _).2 ⟨hk, fun h => hS h.1⟩⟩
      obtain ⟨path, he⟩ := h.written l ino hS hk
      exact ⟨path, by rw [h'.kept ino fun x hx hkx => hT ⟨x, hx, hkx⟩, he]⟩

/-- Only the files in the set matter. -/
theorem congr (h : Shredded noise fs S fs₁)
    (hST : ∀ l ino, fs.kind l = some (.file ino) → (S l ↔ T l)) : Shredded noise fs T fs₁ where
  kind l k := by
    rw [h.kind]
    refine and_congr_right fun hk => not_congr (and_congr_left fun hf => ?_)
    cases k with
    | file ino => exact hST l ino hk
    | dir => cases hf
    | link t => cases hf
  kept ino hino := h.kept ino fun l hl hk => hino l ((hST l ino hk).1 hl) hk
  written l ino hl hk := h.written l ino ((hST l ino hk).2 hl) hk

theorem dirs (h : Shredded noise fs S fs₁) (l : Location) (k : Kind) (hk : fs.kind l = some k)
    (hf : k.isFile = false) : fs₁.kind l = some k :=
  (h.kind l k).2 ⟨hk, fun h => by rw [hf] at h; cases h.2⟩

theorem resolve (h : Shredded noise fs S fs₁) {path : Pieces} {l : Location}
    (hr : fs.resolve path = some l) (hl : fs.kind l = some .dir) : fs₁.resolve path = some l :=
  FileSystem.resolve_of_dirs h.dirs hr hl

variable {d : Location}

theorem kind_outside (h : Shredded noise fs (fun l => d <+: l) fs₁) {l : Location}
    (hl : ¬ d <+: l) : fs₁.kind l = fs.kind l := by
  ext k
  rw [h.kind]
  exact and_iff_left fun h => hl h.1

theorem kind_clear (h : Shredded noise fs (fun l => d <+: l) fs₁) (hd : fs.kind d = some .dir)
    (l : Location) : (fs₁.clear d).kind l = (fs.clear d).kind l := by
  rw [FileSystem.kind_clear, FileSystem.kind_clear]
  split
  · rfl
  rename_i hl
  by_cases hp : d <+: l
  · obtain rfl : l = d := not_not.1 fun e => hl ⟨hp, e⟩
    rw [h.dirs l .dir hd rfl, hd]
  · exact h.kind_outside hp

end Shredded

theorem fileAt_congr {fs fs' : Fs} (h : ∀ l, fs'.kind l = fs.kind l) (path : Pieces) :
    fs'.fileAt path = fs.fileAt path := by
  have hk : fs'.kind = fs.kind := funext h
  rw [FileSystem.fileAt, FileSystem.fileAt, FileSystem.resolve_congr h, hk]

theorem run_overwritePasses {ε : Type} (e : ℕ → ε) (noise : Noise) {path : Pieces} {ino : ℕ}
    (size : ℕ) (passes : List ℕ) {fs : Fs} (h : fs.fileAt path = some ino) :
    untilError (overwritePass e noise path size) passes fs =
      (.ok (), passes.foldl (fun fs pass => fs.overwrite ino (noise.fill path pass size)) fs) := by
  induction passes generalizing fs with
  | nil => rfl
  | cons pass passes ih =>
    rw [untilError, overwritePass, h]
    have hk : ∀ l, (fs.overwrite ino (noise.fill path pass size)).kind l = fs.kind l := fun _ => rfl
    exact ih ((fileAt_congr hk path).trans h)

theorem shredFile_child {noise : Noise} {fs : Fs} {dir : Pieces} {d : Location} {n : String} {ino : ℕ}
    (hd : fs.resolve dir = some d) (hk : fs.kind (d ++ [n]) = some (.file ino)) :
    ∃ fs', shredFile noise (dir ++ [n]) fs = (.ok (), fs') ∧
      Shredded noise fs (fun l => d ++ [n] <+: l) fs' := by
  have hres := FileSystem.resolve_child hd hk fun _ h => by cases h
  have hfile : fs.fileAt (dir ++ [n]) = some ino := by
    rw [FileSystem.fileAt, hres, Option.bind_some, hk]
  have hremove : ∀ fs₁ : Fs, (∀ l, fs₁.kind l = fs.kind l) →
      fs₁.removeFile (dir ++ [n]) = some (fs₁.prune (d ++ [n])) := by
    intro fs₁ hkind
    rw [FileSystem.removeFile, FileSystem.lstat_congr hkind, FileSystem.lstat_child hd hk]
    dsimp only
    rw [if_neg]
    rw [hkind, hk]
    exact fun h => by cases h
  -- nothing lies below a file
  have hbelow : ∀ l k, fs.kind l = some k → d ++ [n] <+: l → l = d ++ [n] ∧ k = .file ino := by
    intro l k hl hp
    by_cases e : d ++ [n] = l
    · subst e
      exact ⟨rfl, Option.some.inj (hl.symm.trans hk)⟩
    · have := FileSystem.kind_above hl hp e
      rw [hk] at this
      cases this
  let pass (fs' : Fs) (k : ℕ) : Fs :=
    fs'.overwrite ino (noise.fill (dir ++ [n]) k (fs.content ino).length)
  refine ⟨FileSystem.prune ([0, 1, 2].foldl pass fs) (d ++ [n]), ?_, ?_⟩
  · rw [shredFile, hfile]
    dsimp only
    rw [run_overwritePasses _ noise _ _ hfile]
    dsimp only
    rw [hremove ([0, 1, 2].foldl pass fs) fun _ => rfl]
  · refine ⟨fun l k => ?_, fun i hi => ?_, fun l i hl hki => ?_⟩
    · rw [FileSystem.kind_prune (List.append_ne_nil_of_right_ne_nil _ (List.cons_ne_nil _ _))]
      change (if d ++ [n] <+: l then none else fs.kind l) = some k ↔ _
      by_cases hp : d ++ [n] <+: l
      · rw [if_pos hp]
        refine iff_of_false (fun h => by cases h) fun h => h.2 ⟨hp, ?_⟩
        rw [(hbelow l k h.1 hp).2]
        rfl
      · rw [if_neg hp]
        exact ⟨fun h => ⟨h, fun h => hp h.1⟩, fun h => h.1⟩
    · have hne : i ≠ ino := by
        rintro rfl
        exact hi _ List.prefix_rfl hk
      change Function.update (Function.update (Function.update _ _ _) _ _) _ _ i = _
      simp only [Function.update_of_ne hne]
    · obtain ⟨-, he⟩ := hbelow l _ hki hl
      cases he
      refine ⟨dir ++ [n], ?_⟩
      change Function.update _ ino _ ino = _
      rw [Function.update_self]

/-- No entry below `d` is a link. -/
def LinkFree (fs : Fs) (d : Location) : Prop := ∀ l t, d <+: l → fs.kind l ≠ some (.link t)

theorem prefix_iff_mem_readDir {fs : Fs} {d l : Location} {ino : ℕ} (hd : fs.kind d = some .dir)
    (hk : fs.kind l = some (.file ino)) : (∃ n ∈ fs.readDir d, d ++ [n] <+: l) ↔ d <+: l := by
  constructor
  · rintro ⟨n, -, hp⟩
    exact (List.prefix_append _ _).trans hp
  · rintro ⟨r, rfl⟩
    cases r with
    | nil =>
      rw [List.append_nil, hd] at hk
      cases hk
    | cons n r =>
      have hp : d ++ [n] <+: d ++ n :: r := ⟨r, by rw [List.append_assoc]; rfl⟩
      refine ⟨n, FileSystem.mem_readDir.2 fun h => ?_, hp⟩
      by_cases e : d ++ [n] = d ++ n :: r
      · rw [← e, h] at hk
        cases hk
      · rw [FileSystem.kind_above hk hp e] at h
        cases h

theorem Shredded.kind_of_not_mem {noise : Noise} {fs fs' : Fs} {d : Location} {done : List String}
    (h : Shredded noise fs (fun l => ∃ n ∈ done, d ++ [n] <+: l) fs') {n : String} (hn : n ∉ done)
    {k : Kind} (hk : fs.kind (d ++ [n]) = some k) : fs'.kind (d ++ [n]) = some k := by
  refine (h.kind _ _).2 ⟨hk, ?_⟩
  rintro ⟨⟨m, hm, hp⟩, -⟩
  have hlen : (d ++ [m]).length = (d ++ [n]).length := by
    rw [List.length_append, List.length_append]
    rfl
  have := List.append_cancel_left (hp.eq_of_length hlen)
  rw [List.singleton_inj.1 this] at hm
  exact hn hm

/-- Without a link below it, a directory loses its files and nothing else. -/
theorem shredDirectory_spec (noise : Noise) (fuel : ℕ) {dir : Pieces} {d : Location} {fs : Fs}
    (hr : fs.resolve dir = some d) (hd : fs.kind d = some .dir) (hlinks : LinkFree fs d)
    (hdepth : ∀ l k, fs.kind l = some k → d <+: l → l.length < d.length + fuel) :
    ∃ fs', shredDirectory noise fuel dir fs = (.ok (), fs') ∧
      Shredded noise fs (fun l => d <+: l) fs' := by
  induction fuel generalizing dir d fs with
  | zero => exact absurd (hdepth d _ hd List.prefix_rfl) (lt_irrefl _)
  | succ fuel ih =>
    rw [shredDirectory, hr]
    dsimp only
    rw [if_neg (not_not.2 hd)]
    -- one name: the names before it have lost their files, the others nothing
    have hentry : ∀ (done : List String) n fs₁, n ∈ fs.readDir d → n ∉ done →
        Shredded noise fs (fun l => ∃ n ∈ done, d ++ [n] <+: l) fs₁ →
        ∃ fs₂, (if fs₁.isDir (dir ++ [n]) then shredDirectory noise fuel (dir ++ [n]) fs₁
          else shredFile noise (dir ++ [n]) fs₁) = (.ok (), fs₂) ∧
          Shredded noise fs₁ (fun l => d ++ [n] <+: l) fs₂ := by
      intro done n fs₁ hmem hnew hI
      obtain ⟨k, hk⟩ := Option.ne_none_iff_exists'.1 (FileSystem.mem_readDir.1 hmem)
      have hk₁ := hI.kind_of_not_mem hnew hk
      have hr₁ := hI.resolve hr hd
      cases k with
      | link t => exact absurd hk (hlinks _ t (List.prefix_append _ _))
      | dir =>
        have hrn := FileSystem.resolve_child hr₁ hk₁ fun _ h => by cases h
        have hdir : fs₁.isDir (dir ++ [n]) = true := by
          rw [FileSystem.isDir, hrn, Option.any_some, hk₁]
          rfl
        rw [if_pos hdir]
        refine ih hrn hk₁ (fun l t hp hl => ?_) fun l k hl hp => ?_
        · exact hlinks l t ((List.prefix_append _ _).trans hp) ((hI.kind _ _).1 hl).1
        · have := hdepth l k ((hI.kind _ _).1 hl).1 ((List.prefix_append _ _).trans hp)
          rw [List.length_append, List.length_singleton]
          omega
      | file ino =>
        have hrn := FileSystem.resolve_child hr₁ hk₁ fun _ h => by cases h
        have hdir : ¬ fs₁.isDir (dir ++ [n]) = true := by
          rw [FileSystem.isDir, hrn, Option.any_some, hk₁]
          exact fun h => by cases of_decide_eq_true h
        rw [if_neg hdir]
        exact shredFile_child hr₁ hk₁
    have hloop := untilError_ok
      (fun done fs' => Shredded noise fs (fun l => ∃ n ∈ done, d ++ [n] <+: l) fs')
      (fs.readDir d) ((Shredded.refl noise fs).congr fun l ino _ => by simp)
      fun done n rest fs₁ he hI => by
        have hnodup := FileSystem.nodup_readDir fs d
        rw [he] at hnodup
        obtain ⟨fs₂, hrun, hS⟩ := hentry done n fs₁
          (by rw [he]; exact List.mem_append_right _ List.mem_cons_self)
          (fun h => List.disjoint_of_nodup_append hnodup h List.mem_cons_self) hI
        refine ⟨fs₂, hrun, (hI.trans hS).congr fun l ino _ => ?_⟩
        simp only [List.mem_append, List.mem_singleton, or_and_right, exists_or, exists_eq_left]
    obtain ⟨fs', hrun, hI⟩ := hloop
    exact ⟨fs', hrun, hI.congr fun l ino hk => prefix_iff_mem_readDir hd hk⟩

/-! ## Shredding with links -/

/-- Some entries are gone, none of them a directory. -/
structure Thinned (fs fs' : Fs) : Prop where
  dirs : ∀ l, fs.kind l = some .dir → fs'.kind l = some .dir
  sub : ∀ l k, fs'.kind l = some k → fs.kind l = some k

namespace Thinned

variable {fs fs₁ fs₂ : Fs}

theorem refl (fs : Fs) : Thinned fs fs := ⟨fun _ h => h, fun _ _ h => h⟩

theorem trans (h : Thinned fs fs₁) (h' : Thinned fs₁ fs₂) : Thinned fs fs₂ where
  dirs l hl := h'.dirs l (h.dirs l hl)
  sub l k hl := h.sub l k (h'.sub l k hl)

theorem of_kind (h : ∀ l, fs₁.kind l = fs.kind l) : Thinned fs fs₁ where
  dirs l hl := (h l).trans hl
  sub l _ hl := (h l).symm.trans hl

theorem removeFile {path : Pieces} (h : fs.removeFile path = some fs₁) : Thinned fs fs₁ := by
  unfold FileSystem.removeFile at h
  split at h
  · cases h
  split at h
  · cases h
  rename_i l _ hk
  cases h
  have hne := FileSystem.ne_nil_of_not_dir hk
  refine ⟨fun x hx => ?_, fun x k hx => ?_⟩
  · rw [FileSystem.kind_prune hne, if_neg (FileSystem.not_prefix_of_dir hk hx)]
    exact hx
  · rw [FileSystem.kind_prune hne] at hx
    split at hx
    · cases hx
    · exact hx

theorem untilError {ε α : Type} {f : α → Fs → Except ε Unit × Fs} (hf : ∀ a fs, Thinned fs (f a fs).2)
    (as : List α) (fs : Fs) : Thinned fs (TgCryptFs.untilError f as fs).2 := by
  induction as generalizing fs with
  | nil => exact .refl fs
  | cons a as ih =>
    have ha := hf a fs
    rw [TgCryptFs.untilError]
    split
    · rename_i fs' he
      rw [he] at ha
      exact ha.trans (ih fs')
    · rename_i he
      rw [he] at ha
      exact ha

theorem shredFile (noise : Noise) (path : Pieces) (fs : Fs) :
    Thinned fs (TgCryptFs.shredFile noise path fs).2 := by
  unfold TgCryptFs.shredFile
  split
  · exact .refl fs
  rename_i ino h
  dsimp only
  rw [run_overwritePasses _ noise _ _ h]
  dsimp only
  have hkind : Thinned fs ([0, 1, 2].foldl (fun fs' pass =>
      fs'.overwrite ino (noise.fill path pass (fs.content ino).length)) fs) := .of_kind fun _ => rfl
  split
  · exact hkind
  · rename_i he
    exact hkind.trans (.removeFile he)

theorem shredDirectory (noise : Noise) (fuel : ℕ) (dir : Pieces) (fs : Fs) :
    Thinned fs (TgCryptFs.shredDirectory noise fuel dir fs).2 := by
  induction fuel generalizing dir fs with
  | zero => exact .refl fs
  | succ fuel ih =>
    rw [TgCryptFs.shredDirectory]
    split
    · exact .refl fs
    split
    · exact .refl fs
    · refine .untilError (fun n fs => ?_) _ fs
      split
      · exact ih _ _
      · exact .shredFile noise _ fs

end Thinned
end TgCryptFs

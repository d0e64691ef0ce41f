import TgCryptFs.Core.Containment
import TgCryptFs.Deadman.Destroy

set_option autoImplicit false

/-!
# Shredding and links

`shred_directory` and `wipe_directory` ask `is_dir`, `metadata` and `write`, which follow links,
so that they shred what a link below the directory leads to. The links themselves end both
searches after `maxLinks` of them.
-/
namespace TgCryptFs
open Library

section

variable {noise : Noise}

/-! ## The search of `shred_directory` -/

def shredder (noise : Noise) : Sweeper VolumeError where
  leaf := shredFile noise
  close _ fs := (.ok (), fs)
  absent := .error .readDirForShred
  notDir := .readDirForShred

theorem shredDirectory_eq_run (fuel : ℕ) (dir : Pieces) (fs : Fs) :
    shredDirectory noise fuel dir fs =
      (shredder noise).run (fun fs => (.error .readDirForShred, fs)) fuel dir fs := by
  induction fuel generalizing dir fs with
  | zero => rfl
  | succ fuel ih =>
    rw [shredDirectory, Sweeper.run]
    cases fs.resolve dir with
    | none => rfl
    | some l =>
      simp only [ih, shredder]
      split
      · rfl
      · generalize untilError _ _ _ = r
        obtain ⟨r, fs'⟩ := r
        cases r <;> rfl

theorem shredFile_spec (path : Pieces) (fs : Fs) :
    LeafSpec False noise path fs (shredFile noise path fs) := by
  unfold shredFile
  split
  · rename_i h
    exact .refused _ h
  rename_i ino h
  dsimp only
  rw [run_overwritePasses _ noise _ _ h]
  dsimp only
  -- of the three passes the last remains
  have hlast : [0, 1, 2].foldl (fun fs' pass => FileSystem.overwrite fs' ino
      (noise.fill path pass (fs.content ino).length)) fs = scrambled noise path 2 ino fs := by
    simp only [List.foldl_cons, List.foldl_nil, FileSystem.overwrite, Function.update_idem, scrambled]
  rw [hlast]
  split
  · rename_i hremove
    exact .stuck ino 2 _ h hremove
  · rename_i hremove
    exact .shredded ino 2 _ h hremove

theorem shredder_sound : (shredder noise).Sound False noise where
  leaf := shredFile_spec
  close _ fs := ⟨.refl fs, rfl, fun _ _ hk => .inl hk, fun h => h.elim⟩

/-! ## The search of `wipe_directory` -/

namespace DestructionExecutor

def removeDirectory (dir : Pieces) (fs : Fs) : Except DestructionError Unit × Fs :=
  match fs.removeDirAll dir with
  | (false, fs') => (.error .rmdir, fs')
  | (true, fs') => (.ok (), fs')

def wiper (noise : Noise) : Sweeper DestructionError where
  leaf path fs := shredFile noise path 1 fs
  close := removeDirectory
  absent := .ok ()
  notDir := .readdir

theorem wipeDirectory_eq_run (fuel : ℕ) (dir : Pieces) (fs : Fs) :
    wipeDirectory noise fuel dir fs =
      (wiper noise).run (fun fs => (.error .readdir, fs)) fuel dir fs := by
  induction fuel generalizing dir fs with
  | zero => rfl
  | succ fuel ih =>
    rw [wipeDirectory, Sweeper.run]
    cases fs.resolve dir with
    | none => rfl
    | some l =>
      simp only [ih, wiper, removeDirectory]
      split
      · rfl
      · generalize untilError _ _ _ = r
        obtain ⟨r, fs'⟩ := r
        cases r with
        | error e => rfl
        | ok u =>
          rcases hr : FileSystem.removeDirAll fs' dir with ⟨b, fs''⟩
          cases b <;> simp only [hr]

theorem shredFile_spec (path : Pieces) (fs : Fs) :
    LeafSpec True noise path fs (shredFile noise path 1 fs) := by
  unfold shredFile
  split
  · rename_i h
    refine .skipped trivial ?_
    rwa [FileSystem.existsAt, Option.isSome_eq_false_iff, Option.isNone_iff_eq_none] at h
  · cases h : fs.fileAt path with
    | none =>
      dsimp only
      rw [List.range_one, untilError_cons, overwritePass, h]
      exact .refused _ h
    | some ino =>
      dsimp only
      rw [run_overwritePasses _ noise _ _ h]
      have hpass : [0].foldl (fun fs' pass => FileSystem.overwrite fs' ino
          (noise.fill path pass (fs.content ino).length)) fs = scrambled noise path 0 ino fs := rfl
      cases hremove : (scrambled noise path 0 ino fs).removeFile path with
      | none =>
        simp only [List.range_one, hpass, hremove]
        exact .stuck ino 0 _ h hremove
      | some fs'' =>
        simp only [List.range_one, hpass, hremove]
        exact .shredded ino 0 _ h hremove

/-- `remove_dir_all` takes away entries from what the path names downwards. -/
theorem removeDirAll_spec {dir : Pieces} {fs : Fs} {x : Location} (hl : fs.lstat dir = some x) :
    Shrunk fs (fs.removeDirAll dir).2 ∧ (fs.removeDirAll dir).2.content = fs.content ∧
      ∀ l k, fs.kind l = some k → (fs.removeDirAll dir).2.kind l = some k ∨ x <+: l := by
  have hprune : ∀ fs₁ : Fs, x ≠ [] → Shrunk fs fs₁ → fs₁.content = fs.content →
      (∀ l k, fs.kind l = some k → fs₁.kind l = some k ∨ x <+: l) →
      Shrunk fs (fs₁.prune x) ∧ (fs₁.prune x).content = fs.content ∧
        ∀ l k, fs.kind l = some k → (fs₁.prune x).kind l = some k ∨ x <+: l := by
    intro fs₁ hne hs hcontent hkept
    refine ⟨fun l k hk => ?_, hcontent, fun l k hk => ?_⟩
    · rw [FileSystem.kind_prune hne] at hk
      split at hk
      · cases hk
      · exact hs l k hk
    · rw [FileSystem.kind_prune hne]
      split
      · rename_i hp
        exact .inr hp
      · exact hkept l k hk
  by_cases hdir : fs.kind x = some .dir
  · have hsub : Shrunk fs (fs.clear x) := fun l k hk => FileSystem.kind_clear_of_mem hk
    have hclear : ∀ l k, fs.kind l = some k → (fs.clear x).kind l = some k ∨ x <+: l := by
      intro l k hk
      rw [FileSystem.kind_clear]
      split
      · rename_i hp
        exact .inr hp.1
      · exact .inl hk
    rw [FileSystem.removeDirAll_dir (FileSystem.resolve_of_lstat hl hdir) hdir hl]
    split
    · rename_i hnamed
      exact hprune _ (FileSystem.ne_nil_of_named hnamed) hsub rfl hclear
    · exact ⟨hsub, rfl, hclear⟩
  · have hsame : Shrunk fs fs ∧ fs.content = fs.content ∧
        ∀ l k, fs.kind l = some k → fs.kind l = some k ∨ x <+: l :=
      ⟨.refl fs, rfl, fun _ _ hk => .inl hk⟩
    rw [FileSystem.removeDirAll, hl]
    dsimp only
    split
    · exact hprune fs (FileSystem.ne_nil_of_not_dir hdir) hsame.1 rfl hsame.2.2
    · rename_i hk
      exact absurd hk hdir
    · exact hsame

theorem removeDirectory_spec (dir : Pieces) (fs : Fs) :
    CloseSpec True dir fs (removeDirectory dir fs) := by
  unfold removeDirectory
  cases hl : fs.lstat dir with
  | none =>
    rw [FileSystem.removeDirAll, hl]
    exact ⟨.refl fs, rfl, fun _ _ hk => .inl hk, fun _ h => by cases h⟩
  | some x =>
    obtain ⟨hs, hcontent, hkept⟩ := removeDirAll_spec hl
    generalize fs.removeDirAll dir = r at *
    obtain ⟨b, fs'⟩ := r
    have hfound : fs.lstat dir ≠ none := by
      rw [hl]
      exact Option.some_ne_none x
    have hkept' : ∀ l k, fs.kind l = some k →
        fs'.kind l = some k ∨ ∃ y, fs.lstat dir = some y ∧ y <+: l :=
      fun l k hk => (hkept l k hk).imp_right fun hp => ⟨x, hl, hp⟩
    cases b with
    | false => exact ⟨hs, hcontent, hkept', fun _ _ => hfound⟩
    | true => exact ⟨hs, hcontent, hkept', fun _ _ => hfound⟩

theorem wiper_sound : (wiper noise).Sound True noise where
  leaf := shredFile_spec
  close := removeDirectory_spec

end DestructionExecutor

end

namespace Sample

/-- In the directory to be shredded is a link to another one with a file. -/
def linkedDisk : Fs :=
  FileSystem.ofEntries
    [([], .dir), (["v"], .dir), (["v", "docs"], .link ["", "home"]), (["home"], .dir),
      (["home", "f"], .file 0)]
    (fun _ => [1, 2, 3]) (by decide +kernel) (by decide) (by decide +kernel)

end Sample

theorem not_untouched_linkedDisk {fs : Fs} (h : fs.kind ["home", "f"] = none) :
    ¬ Untouched ["", "v"] Sample.linkedDisk fs := by
  intro hu
  have hoff : ¬ Inside ["", "v"] Sample.linkedDisk ["home", "f"] := by
    rintro ⟨d, hd, -, hp⟩
    have hv : Sample.linkedDisk.lstat ["", "v"] = some ["v"] := by decide +kernel
    cases hd.symm.trans hv
    revert hp
    decide
  have hkept := hu.kept ["home", "f"] 0 hoff (by decide +kernel)
  rw [h] at hkept
  cases hkept

end TgCryptFs

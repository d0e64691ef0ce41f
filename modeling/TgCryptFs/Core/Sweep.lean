import TgCryptFs.Core.Volume
import TgCryptFs.Library.PathResolution

set_option autoImplicit false

/-!
# Going through a directory

The recursions that shred differ in what they do with a file and, at the end, with the
directory. Whatever links there are, they come to an end, change a file only where a path of
names leads to it, and do not succeed before the files below the directory are gone.
-/
namespace TgCryptFs
open Library

/-! ## Loops that end with the first error -/

section

variable {σ ε α : Type} {f g : α → σ → Except ε Unit × σ} {as : List α} {I : σ → Prop} {s : σ}

theorem untilError_cons (a : α) (as : List α) (s : σ) : untilError f (a :: as) s =
    match f a s with
    | (.ok _, s') => untilError f as s'
    | (.error e, s') => (.error e, s') := rfl

theorem untilError_invariant (hI : ∀ a ∈ as, ∀ s, I s → I (f a s).2) (hs : I s) :
    I (untilError f as s).2 := by
  induction as generalizing s with
  | nil => exact hs
  | cons a as ih =>
    have ha := hI a List.mem_cons_self s hs
    rw [untilError_cons]
    split
    · rename_i hf
      rw [hf] at ha
      exact ih (fun b hb => hI b (List.mem_cons_of_mem a hb)) ha
    · rename_i hf
      rw [hf] at ha
      exact ha

/-- A loop that succeeds has succeeded with each, and what that came to is kept. -/
theorem untilError_each {Q : α → σ → Prop} (hI : ∀ a ∈ as, ∀ s, I s → I (f a s).2)
    (hQ : ∀ a ∈ as, ∀ s, I s → (f a s).1 = .ok () → Q a (f a s).2)
    (hkeep : ∀ a s b, I s → Q a s → b ∈ as → Q a (f b s).2) (hs : I s)
    (hok : (untilError f as s).1 = .ok ()) : ∀ a ∈ as, Q a (untilError f as s).2 := by
  induction as generalizing s with
  | nil => exact fun a ha => by cases ha
  | cons b as ih =>
    have hb := hI b List.mem_cons_self s hs
    have hQb := hQ b List.mem_cons_self s hs
    rw [untilError_cons] at hok ⊢
    split at hok
    · rename_i s' hf
      rw [hf] at hb hQb
      have hmem : ∀ a ∈ as, a ∈ b :: as := fun a ha => List.mem_cons_of_mem b ha
      have hkept : Q b (untilError f as s').2 := by
        refine (untilError_invariant (I := fun s => I s ∧ Q b s) (fun a ha s hs => ?_)
          ⟨hb, hQb rfl⟩).2
        exact ⟨hI a (hmem a ha) s hs.1, hkeep b s a hs.1 hs.2 (hmem a ha)⟩
      intro a ha
      rcases List.mem_cons.1 ha with rfl | ha
      · exact hkept
      · exact ih (fun a ha => hI a (hmem a ha)) (fun a ha => hQ a (hmem a ha))
          (fun a s c hs hQ hc => hkeep a s c hs hQ (hmem c hc)) hb hok a ha
    · cases hok

theorem untilError_congr (hI : ∀ a ∈ as, ∀ s, I s → I (g a s).2)
    (h : ∀ a ∈ as, ∀ s, I s → f a s = g a s) (hs : I s) : untilError f as s = untilError g as s := by
  induction as generalizing s with
  | nil => rfl
  | cons a as ih =>
    have ha := hI a List.mem_cons_self s hs
    rw [untilError_cons, untilError_cons, h a List.mem_cons_self s hs]
    split
    · rename_i hg
      rw [hg] at ha
      exact ih (fun b hb => hI b (List.mem_cons_of_mem a hb))
        (fun b hb => h b (List.mem_cons_of_mem a hb)) ha
    · rfl

end

/-! ## The recursion -/

/-- What is done with a file, what is done with a directory that has been gone through, and
    what comes of a path that leads nowhere or to a file. -/
structure Sweeper (ε : Type) where
  leaf : Pieces → Fs → Except ε Unit × Fs
  close : Pieces → Fs → Except ε Unit × Fs
  absent : Except ε Unit
  notDir : ε

namespace Sweeper

variable {ε : Type}

/-- `out` is what comes where the fuel is out. -/
def run (w : Sweeper ε) (out : Fs → Except ε Unit × Fs) : ℕ → Pieces → Fs → Except ε Unit × Fs
  | 0, _, fs => out fs
  | fuel + 1, dir, fs =>
    match fs.resolve dir with
    | none => (w.absent, fs)
    | some l =>
      if fs.kind l ≠ some .dir then (.error w.notDir, fs)
      else
        match untilError (fun n fs =>
          if fs.isDir (dir ++ [n]) then run w out fuel (dir ++ [n]) fs
          else w.leaf (dir ++ [n]) fs) (fs.readDir l) fs with
        | (.error e, fs') => (.error e, fs')
        | (.ok _, fs') => w.close dir fs'

def entry (w : Sweeper ε) (out : Fs → Except ε Unit × Fs) (fuel : ℕ) (dir : Pieces) (n : String)
    (fs : Fs) : Except ε Unit × Fs :=
  if fs.isDir (dir ++ [n]) then w.run out fuel (dir ++ [n]) fs else w.leaf (dir ++ [n]) fs

theorem run_dir {w : Sweeper ε} {out : Fs → Except ε Unit × Fs} {fuel : ℕ} {dir : Pieces} {fs : Fs}
    {l : Location} (hr : fs.resolve dir = some l) (hl : fs.kind l = some .dir) :
    w.run out (fuel + 1) dir fs =
      match untilError (w.entry out fuel dir) (fs.readDir l) fs with
      | (.error e, fs') => (.error e, fs')
      | (.ok _, fs') => w.close dir fs' := by
  rw [run, hr]
  dsimp only
  rw [if_neg (not_not.2 hl)]
  rfl

end Sweeper

/-! ## What a step may do -/

/-- Some entries are gone. -/
def Shrunk (fs fs' : Fs) : Prop := ∀ l k, fs'.kind l = some k → fs.kind l = some k

theorem Shrunk.refl (fs : Fs) : Shrunk fs fs := fun _ _ h => h

theorem Shrunk.trans {fs fs₁ fs₂ : Fs} (h : Shrunk fs fs₁) (h' : Shrunk fs₁ fs₂) : Shrunk fs fs₂ :=
  fun l k hl => h l k (h' l k hl)

/-- Entries other than files are gone. -/
structure Tidied (fs fs' : Fs) : Prop where
  shrunk : Shrunk fs fs'
  content : fs'.content = fs.content
  files : ∀ l ino, fs.kind l = some (.file ino) → fs'.kind l = some (.file ino)

/-- The file is overwritten with the noise of this pass. -/
def scrambled (noise : Noise) (path : Pieces) (pass ino : ℕ) (fs : Fs) : Fs :=
  fs.overwrite ino (noise.fill path pass (fs.content ino).length)

/-- What may be done with a file. A path that leads nowhere is passed over if `lenient`. -/
inductive LeafSpec {ε : Type} (lenient : Prop) (noise : Noise) (path : Pieces) (fs : Fs) :
    Except ε Unit × Fs → Prop where
  | skipped (hlenient : lenient) (h : fs.resolve path = none) : LeafSpec lenient noise path fs (.ok (), fs)
  | refused (e : ε) (h : fs.fileAt path = none) : LeafSpec lenient noise path fs (.error e, fs)
  | stuck (ino pass : ℕ) (e : ε) (h : fs.fileAt path = some ino)
      (hremove : (scrambled noise path pass ino fs).removeFile path = none) :
      LeafSpec lenient noise path fs (.error e, scrambled noise path pass ino fs)
  | shredded (ino pass : ℕ) (fs' : Fs) (h : fs.fileAt path = some ino)
      (hremove : (scrambled noise path pass ino fs).removeFile path = some fs') :
      LeafSpec lenient noise path fs (.ok (), fs')

/-- What may be done with a directory at the end: entries from what the path names downwards
    are gone. -/
structure CloseSpec {ε : Type} (lenient : Prop) (dir : Pieces) (fs : Fs)
    (r : Except ε Unit × Fs) : Prop where
  shrunk : Shrunk fs r.2
  content : r.2.content = fs.content
  kept : ∀ l k, fs.kind l = some k → r.2.kind l = some k ∨ ∃ x, fs.lstat dir = some x ∧ x <+: l
  found : lenient → r.1 = .ok () → fs.lstat dir ≠ none

structure Sweeper.Sound {ε : Type} (lenient : Prop) (noise : Noise) (w : Sweeper ε) : Prop where
  leaf : ∀ path fs, LeafSpec lenient noise path fs (w.leaf path fs)
  close : ∀ dir fs, CloseSpec lenient dir fs (w.close dir fs)

/-- No file is at `x` or below it. -/
def NoFile (fs : Fs) (x : Location) : Prop := ∀ l ino, x <+: l → fs.kind l ≠ some (.file ino)

theorem NoFile.shrunk {fs fs' : Fs} {x : Location} (h : NoFile fs x) (hs : Shrunk fs fs') :
    NoFile fs' x := fun l ino hp hk => h l ino hp (hs l _ hk)

/-- Where an entry is no directory, nothing is below it. -/
theorem noFile_of_kind {fs : Fs} {x : Location} (hdir : fs.kind x ≠ some .dir)
    (hfile : ∀ ino, fs.kind x ≠ some (.file ino)) : NoFile fs x := by
  intro l ino hp hk
  by_cases he : x = l
  · exact hfile ino (he ▸ hk)
  · exact hdir (FileSystem.kind_above hk hp he)

theorem noFile_of_none {fs : Fs} {x : Location} (h : fs.kind x = none) : NoFile fs x := by
  refine noFile_of_kind ?_ fun ino => ?_
  · rw [h]
    exact fun hk => by cases hk
  · rw [h]
    exact fun hk => by cases hk

section

variable {ε : Type} {lenient : Prop} {noise : Noise} {path : Pieces} {fs fs' : Fs}

theorem kind_scrambled (pass ino : ℕ) (l : Location) :
    (scrambled noise path pass ino fs).kind l = fs.kind l := rfl

theorem fileAt_eq_some {ino : ℕ} :
    fs.fileAt path = some ino ↔ ∃ l, fs.resolve path = some l ∧ fs.kind l = some (.file ino) := by
  rw [FileSystem.fileAt]
  cases hr : fs.resolve path with
  | none => simp
  | some l =>
    rw [Option.bind_some]
    cases hk : fs.kind l with
    | none => simp [hk]
    | some k => cases k <;> simp [hk]

theorem isDir_eq_true :
    fs.isDir path = true ↔ ∃ l, fs.resolve path = some l ∧ fs.kind l = some .dir := by
  rw [FileSystem.isDir]
  cases fs.resolve path with
  | none => simp
  | some l => simp

/-- The entry that is removed is no directory, and if it is a file it is the one that has been
    overwritten. -/
theorem removeFile_scrambled {pass ino : ℕ} (h : fs.fileAt path = some ino)
    (hremove : (scrambled noise path pass ino fs).removeFile path = some fs') :
    ∃ x, fs.lstat path = some x ∧ fs' = (scrambled noise path pass ino fs).prune x ∧
      (∀ l, fs'.kind l = if l = x then none else fs.kind l) ∧
      ∀ i, fs.kind x = some (.file i) → i = ino ∧ fs.resolve path = some x := by
  rw [FileSystem.removeFile, FileSystem.lstat_congr (kind_scrambled pass ino)] at hremove
  split at hremove
  · cases hremove
  rename_i x hx
  split at hremove
  · cases hremove
  rename_i hdir
  rw [kind_scrambled] at hdir
  refine ⟨x, hx, (Option.some.inj hremove).symm, fun l => ?_, fun i hi => ?_⟩
  · rw [← Option.some.inj hremove, FileSystem.kind_prune (FileSystem.ne_nil_of_not_dir hdir),
      kind_scrambled]
    by_cases hp : x <+: l
    · rw [if_pos hp]
      split
      · rfl
      · rename_i hne
        -- nothing is below an entry that is no directory
        by_contra hk
        obtain ⟨k, hk⟩ := Option.ne_none_iff_exists'.1 (Ne.symm hk)
        exact hdir (FileSystem.kind_above hk hp (Ne.symm hne))
    · rw [if_neg hp, if_neg]
      rintro rfl
      exact hp List.prefix_rfl
  · obtain ⟨l, hl, hk⟩ := fileAt_eq_some.1 h
    obtain rfl := FileSystem.eq_of_lstat hx hl fun t ht => by
      rw [hi] at ht
      cases ht
    rw [hk] at hi
    cases hi
    exact ⟨rfl, hl⟩

theorem LeafSpec.shrunk {r : Except ε Unit × Fs} (h : LeafSpec lenient noise path fs r) :
    Shrunk fs r.2 := by
  cases h with
  | skipped => exact .refl fs
  | refused => exact .refl fs
  | stuck => exact fun _ _ h => h
  | shredded ino pass fs' h hremove =>
    obtain ⟨x, -, -, hkind, -⟩ := removeFile_scrambled h hremove
    intro l k hk
    rw [hkind] at hk
    split at hk
    · cases hk
    · exact hk

end

/-! ## What a whole search may do -/

/-- Names that a directory can have an entry for. -/
def Names (ns : Pieces) : Prop := ∀ n ∈ ns, ¬ Special n

theorem Names.concat {ns : Pieces} {n : String} (h : Names ns) (hn : ¬ Special n) :
    Names (ns ++ [n]) := by
  intro m hm
  rcases List.mem_append.1 hm with hm | hm
  · exact h m hm
  · rw [List.mem_singleton.1 hm]
    exact hn

namespace Sweeper

variable {ε : Type} {lenient : Prop} {noise : Noise} {w : Sweeper ε} {base : Pieces}
  {fs₀ fs fs' : Fs}

/-- File after file is done, each at the end of a path of names from `base`, and in between
    other entries go. -/
inductive Sweeps (w : Sweeper ε) (base : Pieces) (fs₀ : Fs) : Fs → Prop where
  | start : Sweeps w base fs₀ fs₀
  | leaf {fs : Fs} (h : Sweeps w base fs₀ fs) (ns : Pieces) (hne : ns ≠ []) (hns : Names ns) :
      Sweeps w base fs₀ (w.leaf (base ++ ns) fs).2
  | tidy {fs fs' : Fs} (h : Sweeps w base fs₀ fs) (ht : Tidied fs fs') : Sweeps w base fs₀ fs'

namespace Sweeps

theorem trans (h : Sweeps w base fs₀ fs) (h' : Sweeps w base fs fs') : Sweeps w base fs₀ fs' := by
  induction h' with
  | start => exact h
  | leaf _ ns hne hns ih => exact ih.leaf ns hne hns
  | tidy _ ht ih => exact ih.tidy ht

theorem shrunk (hw : w.Sound lenient noise) (h : Sweeps w base fs₀ fs) : Shrunk fs₀ fs := by
  induction h with
  | start => exact .refl fs₀
  | leaf _ ns _ _ ih => exact ih.trans (hw.leaf (base ++ ns) _).shrunk
  | tidy _ ht ih => exact ih.trans ht.shrunk

end Sweeps

/-- What a search of `dir` comes to. -/
structure RunSpec (w : Sweeper ε) (base dir : Pieces) (fs : Fs) (r : Except ε Unit × Fs) : Prop where
  sweeps : w.Sweeps base fs r.2
  cleared : r.1 = .ok () → ∀ x, fs.lstat dir = some x → fs.kind x = some .dir → NoFile r.2 x

/-- A name of the directory is done: no file is left from it downwards, or it was passed over
    since the path to the directory has been cut off. -/
def Done (lenient : Prop) (dir : Pieces) (x : Location) (n : String) (fs : Fs) : Prop :=
  NoFile fs (x ++ [n]) ∨ lenient ∧ fs.resolve dir = none

theorem Done.shrunk {dir : Pieces} {x : Location} {n : String} (h : Done lenient dir x n fs)
    (hs : Shrunk fs fs') : Done lenient dir x n fs' := by
  refine h.imp (fun h => h.shrunk hs) (And.imp_right fun h => ?_)
  by_contra hr
  obtain ⟨l, hr⟩ := Option.ne_none_iff_exists'.1 hr
  rw [FileSystem.resolve_mono hs hr] at h
  cases h

section

variable {out : Fs → Except ε Unit × Fs} {fuel : ℕ} {ms : Pieces} {x : Location} {n : String}

theorem sweeps_entry (hrun : ∀ ms, Names ms → ∀ fs, w.RunSpec base (base ++ ms) fs
      (w.run out fuel (base ++ ms) fs)) (hms : Names ms) (hn : ¬ Special n) (fs : Fs) :
    w.Sweeps base fs (w.entry out fuel (base ++ ms) n fs).2 := by
  unfold entry
  rw [List.append_assoc]
  split
  · exact (hrun (ms ++ [n]) (hms.concat hn) fs).sweeps
  · exact Sweeps.start.leaf (ms ++ [n]) (List.append_ne_nil_of_right_ne_nil _ (List.cons_ne_nil _ _))
      (hms.concat hn)

/-- A name that is no link leads to its entry in what is left, if anywhere. -/
theorem entry_of_resolve {dir : Pieces} {k : Kind} {l : Location} (hs : Shrunk fs fs')
    (hr : fs.resolve dir = some x) (hk : fs.kind (x ++ [n]) = some k) (hlink : ∀ t, k ≠ .link t)
    (hl : fs'.resolve (dir ++ [n]) = some l) :
    l = x ++ [n] ∧ fs'.resolve dir = some x ∧ fs'.kind (x ++ [n]) = some k := by
  obtain ⟨x', k', hx', -, hk', hcase⟩ := FileSystem.resolve_concat (FileSystem.not_special hk) hl
  cases (FileSystem.resolve_mono hs hx').symm.trans hr
  cases (hs _ _ hk').symm.trans hk
  rcases hcase with ⟨rfl, -⟩ | ⟨t, ht⟩
  · exact ⟨rfl, hx', hk'⟩
  · exact absurd ht (hlink t)

/-- A name that is passed over is gone, or the path to its directory is cut off. -/
theorem done_of_skipped {dir : Pieces} {k : Kind} (hs : Shrunk fs fs') (hr : fs.resolve dir = some x)
    (hk : fs.kind (x ++ [n]) = some k) (hlink : ∀ t, k ≠ .link t) (hlenient : lenient)
    (hnone : fs'.resolve (dir ++ [n]) = none) : Done lenient dir x n fs' := by
  cases hdir : fs'.resolve dir with
  | none => exact .inr ⟨hlenient, hdir⟩
  | some x' =>
    cases (FileSystem.resolve_mono hs hdir).symm.trans hr
    have hgone : fs'.kind (x ++ [n]) = none := by
      by_contra hne
      obtain ⟨k', hk'⟩ := Option.ne_none_iff_exists'.1 hne
      cases (hs _ _ hk').symm.trans hk
      rw [FileSystem.resolve_child hdir hk' hlink] at hnone
      cases hnone
    exact .inl (noFile_of_none hgone)

/-- A name that is done as a file, and is no link. -/
theorem done_leaf {dir : Pieces} {k : Kind} {r : Except ε Unit × Fs}
    (h : LeafSpec lenient noise (dir ++ [n]) fs' r) (hs : Shrunk fs fs') (hr : fs.resolve dir = some x)
    (hk : fs.kind (x ++ [n]) = some k) (hlink : ∀ t, k ≠ .link t) (hok : r.1 = .ok ()) :
    Done lenient dir x n r.2 := by
  cases h with
  | skipped hlenient hnone => exact done_of_skipped hs hr hk hlink hlenient hnone
  | refused => cases hok
  | stuck => cases hok
  | shredded ino pass fs₂ h hremove =>
    obtain ⟨l, hl, hfile⟩ := fileAt_eq_some.1 h
    obtain ⟨rfl, hx, hk'⟩ := entry_of_resolve hs hr hk hlink hl
    obtain ⟨y, hy, -, hkind, -⟩ := removeFile_scrambled h hremove
    cases (FileSystem.lstat_child hx hk').symm.trans hy
    have hgone : fs₂.kind (x ++ [n]) = none := by rw [hkind, if_pos rfl]
    exact .inl (noFile_of_none hgone)

/-- One name, with the file system as it was when the directory was read and as it is now. -/
theorem done_entry (hw : w.Sound lenient noise)
    (hrun : ∀ ms, Names ms → ∀ fs, w.RunSpec base (base ++ ms) fs (w.run out fuel (base ++ ms) fs))
    (hms : Names ms) (hr : fs.resolve (base ++ ms) = some x) (hmem : n ∈ fs.readDir x)
    (hs : Shrunk fs fs') (hok : (w.entry out fuel (base ++ ms) n fs').1 = .ok ()) :
    Done lenient (base ++ ms) x n (w.entry out fuel (base ++ ms) n fs').2 := by
  obtain ⟨k, hk⟩ := Option.ne_none_iff_exists'.1 (FileSystem.mem_readDir.1 hmem)
  have hn := FileSystem.not_special hk
  by_cases hlink : ∃ t, k = .link t
  · -- nothing is below a link
    obtain ⟨t, rfl⟩ := hlink
    have hstep := (sweeps_entry hrun hms hn fs').shrunk hw
    refine .inl ((noFile_of_kind (fun h => ?_) fun ino h => ?_).shrunk (hs.trans hstep))
    · rw [hk] at h
      cases h
    · rw [hk] at h
      cases h
  · have hlink : ∀ t, k ≠ .link t := not_exists.1 hlink
    by_cases hdir : fs'.isDir (base ++ ms ++ [n]) = true
    · rw [entry, if_pos hdir] at hok ⊢
      obtain ⟨l, hl, hkl⟩ := isDir_eq_true.1 hdir
      obtain ⟨rfl, hx, hk'⟩ := entry_of_resolve hs hr hk hlink hl
      have hclear := (hrun (ms ++ [n]) (hms.concat hn) fs').cleared
      rw [← List.append_assoc] at hclear
      exact .inl (hclear hok _ (FileSystem.lstat_child hx hk') hkl)
    · rw [entry, if_neg hdir] at hok ⊢
      exact done_leaf (hw.leaf (base ++ ms ++ [n]) fs') hs hr hk hlink hok

/-- A loop over names of the directory, wherever it begins. -/
theorem sweeps_loop (hrun : ∀ ms, Names ms → ∀ fs, w.RunSpec base (base ++ ms) fs
      (w.run out fuel (base ++ ms) fs)) (hms : Names ms) {names : Pieces} (hnames : Names names)
    (h : w.Sweeps base fs₀ fs) :
    w.Sweeps base fs₀ (untilError (w.entry out fuel (base ++ ms)) names fs).2 :=
  untilError_invariant (I := w.Sweeps base fs₀)
    (fun n hn s hs => hs.trans (sweeps_entry hrun hms (hnames n hn) s)) h

theorem names_readDir (fs : Fs) (x : Location) : Names (fs.readDir x) := by
  intro n hn
  obtain ⟨k, hk⟩ := Option.ne_none_iff_exists'.1 (FileSystem.mem_readDir.1 hn)
  exact FileSystem.not_special hk

/-- The whole loop: no file is left below the directory, or the path to it has been cut off. -/
theorem done_loop (hw : w.Sound lenient noise)
    (hrun : ∀ ms, Names ms → ∀ fs, w.RunSpec base (base ++ ms) fs (w.run out fuel (base ++ ms) fs))
    (hms : Names ms) (hr : fs.resolve (base ++ ms) = some x) (hx : fs.kind x = some .dir)
    (hok : (untilError (w.entry out fuel (base ++ ms)) (fs.readDir x) fs).1 = .ok ()) :
    NoFile (untilError (w.entry out fuel (base ++ ms)) (fs.readDir x) fs).2 x ∨
      lenient ∧ (untilError (w.entry out fuel (base ++ ms)) (fs.readDir x) fs).2.resolve
        (base ++ ms) = none := by
  have hshrunk := (sweeps_loop hrun hms (names_readDir fs x) (.start : w.Sweeps base fs fs)).shrunk hw
  have heach := untilError_each (I := w.Sweeps base fs) (Q := Done lenient (base ++ ms) x)
    (fun n hn s hs => hs.trans (sweeps_entry hrun hms (names_readDir fs x n hn) s))
    (fun n hn s hs hok => done_entry hw hrun hms hr hn (hs.shrunk hw) hok)
    (fun n s m hs hQ hm =>
      hQ.shrunk ((sweeps_entry hrun hms (names_readDir fs x m hm) s).shrunk hw)) .start hok
  generalize (untilError (w.entry out fuel (base ++ ms)) (fs.readDir x) fs).2 = s' at *
  by_cases hcut : lenient ∧ s'.resolve (base ++ ms) = none
  · exact .inr hcut
  · refine .inl fun l ino hp hk => ?_
    obtain ⟨r, rfl⟩ := hp
    cases r with
    | nil =>
      rw [List.append_nil] at hk
      cases hx.symm.trans (hshrunk _ _ hk)
    | cons n r =>
      have hn : x ++ [n] <+: x ++ n :: r := ⟨r, by rw [List.append_assoc]; rfl⟩
      obtain ⟨m, hm, hpm⟩ := (prefix_iff_mem_readDir hx (hshrunk _ _ hk)).2 (List.prefix_append x _)
      exact (heach m hm).elim (fun hclear => hclear _ ino hpm hk) hcut

/-- What a path still has an entry for, it leads to if it led to a directory. -/
theorem resolve_of_found {dir : Pieces} {y : Location} (hs : Shrunk fs fs') (hy : fs.lstat dir = some y)
    (hdir : fs.kind y = some .dir) (hz : fs'.lstat dir ≠ none) : fs'.resolve dir = some y := by
  obtain ⟨z, hz⟩ := Option.ne_none_iff_exists'.1 hz
  cases (FileSystem.lstat_mono hs hz).symm.trans hy
  obtain ⟨k, hk⟩ := Option.ne_none_iff_exists'.1 (FileSystem.kind_of_lstat hz)
  cases (hs _ _ hk).symm.trans hdir
  exact FileSystem.resolve_of_lstat hz hk

theorem tidied_close (hw : w.Sound lenient noise)
    (hrun : ∀ ms, Names ms → ∀ fs, w.RunSpec base (base ++ ms) fs (w.run out fuel (base ++ ms) fs))
    (hms : Names ms) (hr : fs.resolve (base ++ ms) = some x) (hx : fs.kind x = some .dir)
    (hok : (untilError (w.entry out fuel (base ++ ms)) (fs.readDir x) fs).1 = .ok ()) :
    Tidied (untilError (w.entry out fuel (base ++ ms)) (fs.readDir x) fs).2
      (w.close (base ++ ms) (untilError (w.entry out fuel (base ++ ms)) (fs.readDir x) fs).2).2 := by
  have hshrunk := (sweeps_loop hrun hms (names_readDir fs x) (.start : w.Sweeps base fs fs)).shrunk hw
  have hdone := done_loop hw hrun hms hr hx hok
  generalize (untilError (w.entry out fuel (base ++ ms)) (fs.readDir x) fs).2 = s' at *
  have hclose := hw.close (base ++ ms) s'
  refine ⟨hclose.shrunk, hclose.content, fun l ino hl => (hclose.kept l _ hl).resolve_right ?_⟩
  rintro ⟨y, hy, hp⟩
  -- what the path names is the directory itself, in which no file is left
  have hlink : ∀ t, s'.kind y ≠ some (.link t) := by
    intro t ht
    by_cases he : y = l
    · rw [he, hl] at ht
      cases ht
    · rw [FileSystem.kind_above hl hp he] at ht
      cases ht
  obtain ⟨k, hk⟩ := Option.ne_none_iff_exists'.1 (FileSystem.kind_of_lstat hy)
  obtain rfl : y = x := FileSystem.eq_of_lstat (FileSystem.lstat_mono hshrunk hy) hr fun t ht => by
    cases (hshrunk _ _ hk).symm.trans ht
    exact hlink t hk
  cases (hshrunk _ _ hk).symm.trans hx
  rcases hdone with hclear | ⟨-, hnone⟩
  · exact hclear l ino hp hl
  · rw [FileSystem.resolve_of_lstat hy hk] at hnone
    cases hnone

/-- Where the fuel lasts or nothing comes of its end, a search does files at the end of paths of
    names and does not succeed before it has done all below the directory. -/
theorem run_spec (hw : w.Sound lenient noise) (hout : ∀ fs, ∃ e, out fs = (.error e, fs)) (fuel : ℕ)
    (hms : Names ms) (fs : Fs) :
    w.RunSpec base (base ++ ms) fs (w.run out fuel (base ++ ms) fs) := by
  induction fuel generalizing ms fs with
  | zero =>
    obtain ⟨e, he⟩ := hout fs
    rw [run, he]
    exact ⟨.start, fun h => by cases h⟩
  | succ fuel ih =>
    have hrun : ∀ ms, Names ms → ∀ fs, w.RunSpec base (base ++ ms) fs
        (w.run out fuel (base ++ ms) fs) := fun ms hms fs => ih hms fs
    cases hr : fs.resolve (base ++ ms) with
    | none =>
      rw [run, hr]
      refine ⟨.start, fun _ x hx hdir => ?_⟩
      rw [FileSystem.resolve_of_lstat hx hdir] at hr
      cases hr
    | some x =>
      by_cases hx : fs.kind x = some .dir
      · have hsweeps := sweeps_loop hrun hms (names_readDir fs x) (.start : w.Sweeps base fs fs)
        have hdone := done_loop hw hrun hms hr hx
        have htidied := tidied_close hw hrun hms hr hx
        rw [run_dir hr hx]
        generalize untilError (w.entry out fuel (base ++ ms)) (fs.readDir x) fs = r at *
        obtain ⟨r, s'⟩ := r
        cases r with
        | error e => exact ⟨hsweeps, fun h => by cases h⟩
        | ok u =>
          have ht : Tidied s' (w.close (base ++ ms) s').2 := htidied rfl
          refine ⟨hsweeps.tidy ht, fun hok y hy hdir => ?_⟩
          cases (FileSystem.resolve_of_lstat hy hdir).symm.trans hr
          rcases hdone rfl with hclear | ⟨hlenient, hnone⟩
          · exact hclear.shrunk ht.shrunk
          · -- the end of a directory that has been cut off is no success
            have hfound := (hw.close (base ++ ms) s').found hlenient hok
            cases (resolve_of_found (hsweeps.shrunk hw) hy hdir hfound).symm.trans hnone
      · rw [run, hr]
        dsimp only
        rw [if_pos hx]
        exact ⟨.start, fun h => by cases h⟩

end

/-! ## The search comes to an end -/

section

variable {longest fuel fuel' : ℕ} {dir : Pieces} {out out' : Fs → Except ε Unit × Fs}

theorem shrunk_run (hw : w.Sound lenient noise) (hout : ∀ fs, ∃ e, out fs = (.error e, fs))
    (fuel : ℕ) (dir : Pieces) (fs : Fs) : Shrunk fs (w.run out fuel dir fs).2 := by
  have hspec := @run_spec ε lenient noise w dir out [] hw hout fuel (fun _ h => by cases h) fs
  rw [List.append_nil] at hspec
  exact hspec.sweeps.shrunk hw

/-- Fuel for the steps that are left is enough: what comes where it is out is never looked at. -/
theorem run_enough (hw : w.Sound lenient noise) (hlen : fs.NoneLonger longest)
    (hfuel : fs.stepsLeft longest dir ≤ fuel) (hfuel' : fs.stepsLeft longest dir ≤ fuel') :
    w.run out fuel dir fs = w.run out' fuel' dir fs := by
  induction fuel generalizing fuel' dir fs out out' with
  | zero => exact absurd (FileSystem.stepsLeft_pos hlen dir) (not_lt.2 hfuel)
  | succ fuel ih =>
    cases fuel' with
    | zero => exact absurd (FileSystem.stepsLeft_pos hlen dir) (not_lt.2 hfuel')
    | succ fuel' =>
      cases hr : fs.resolve dir with
      | none => rw [run, run, hr]
      | some x =>
        by_cases hx : fs.kind x = some .dir
        · have hentry : ∀ n ∈ fs.readDir x, ∀ s, Shrunk fs s → ∀ o,
              w.entry o fuel dir n s = w.entry out' fuel' dir n s := by
            intro n hn s hs o
            unfold entry
            split
            · rename_i hdir
              obtain ⟨l, hl, -⟩ := isDir_eq_true.1 hdir
              have hlt := FileSystem.stepsLeft_concat hlen hs (names_readDir fs x n hn) hl
              exact ih (fun l k hk => hlen l k (hs l k hk)) (by omega) (by omega)
            · rfl
          have hshrunk : ∀ n ∈ fs.readDir x, ∀ s, Shrunk fs s →
              Shrunk fs (w.entry out' fuel' dir n s).2 := by
            intro n hn s hs
            rw [← hentry n hn s hs fun fs => (.error w.notDir, fs)]
            refine hs.trans ?_
            unfold entry
            split
            · exact shrunk_run hw (fun fs => ⟨_, rfl⟩) fuel _ s
            · exact (hw.leaf _ s).shrunk
          rw [run_dir hr hx, run_dir hr hx,
            untilError_congr hshrunk (fun n hn s hs => hentry n hn s hs out) (.refl fs)]
        · rw [run, run, hr]
          dsimp only
          rw [if_pos hx, if_pos hx]

end

end Sweeper

/-! ## What is done with the files -/

section

variable {ε : Type} {lenient : Prop} {noise : Noise} {fs₀ fs fs' : Fs}

/-- What was in the file is overwritten. -/
def Filled (noise : Noise) (fs₀ fs : Fs) (ino : ℕ) : Prop :=
  ∃ path pass, fs.content ino = noise.fill path pass (fs₀.content ino).length

/-- Files are changed by overwriting them, and removed when that is done. -/
structure Worked (noise : Noise) (fs₀ fs : Fs) : Prop where
  shrunk : Shrunk fs₀ fs
  content : ∀ ino, fs.content ino = fs₀.content ino ∨ Filled noise fs₀ fs ino
  removed : ∀ l ino, fs₀.kind l = some (.file ino) → fs.kind l = none → Filled noise fs₀ fs ino

namespace Worked

theorem refl (noise : Noise) (fs : Fs) : Worked noise fs fs :=
  ⟨.refl fs, fun _ => .inl rfl, fun l ino hl hnone => by rw [hl] at hnone; cases hnone⟩

theorem length_content (h : Worked noise fs₀ fs) (ino : ℕ) :
    (fs.content ino).length = (fs₀.content ino).length := by
  rcases h.content ino with he | ⟨path, pass, he⟩
  · rw [he]
  · rw [he, length_fill]

theorem filled (h : Worked noise fs₀ fs) {ino : ℕ} (hf : Filled noise fs fs' ino) :
    Filled noise fs₀ fs' ino := by
  obtain ⟨path, pass, he⟩ := hf
  exact ⟨path, pass, by rw [he, h.length_content]⟩

/-- What has been overwritten stays so, or is overwritten again. -/
theorem filled_trans (h : Worked noise fs₀ fs) (h' : Worked noise fs fs') {ino : ℕ}
    (hf : Filled noise fs₀ fs ino) : Filled noise fs₀ fs' ino := by
  rcases h'.content ino with he | hf'
  · obtain ⟨path, pass, hfill⟩ := hf
    exact ⟨path, pass, he.trans hfill⟩
  · exact h.filled hf'

theorem trans (h : Worked noise fs₀ fs) (h' : Worked noise fs fs') : Worked noise fs₀ fs' where
  shrunk := h.shrunk.trans h'.shrunk
  content ino := by
    rcases h'.content ino with he | hf
    · rw [he]
      exact (h.content ino).imp_right (h.filled_trans h')
    · exact .inr (h.filled hf)
  removed l ino hl hnone := by
    cases hk : fs.kind l with
    | none => exact h.filled_trans h' (h.removed l ino hl hk)
    | some k =>
      cases (h.shrunk l k hk).symm.trans hl
      exact h.filled (h'.removed l ino hk hnone)

theorem scrambled (noise : Noise) (path : Pieces) (pass ino : ℕ) (fs : Fs) :
    Worked noise fs (TgCryptFs.scrambled noise path pass ino fs) where
  shrunk _ _ h := h
  content i := by
    by_cases he : i = ino
    · subst he
      exact .inr ⟨path, pass, Function.update_self _ _ _⟩
    · exact .inl (Function.update_of_ne he _ _)
  removed l i hl hnone := by
    rw [kind_scrambled, hl] at hnone
    cases hnone

end Worked

theorem Tidied.worked (h : Tidied fs fs') : Worked noise fs fs' where
  shrunk := h.shrunk
  content ino := .inl (congrFun h.content ino)
  removed l ino hl hnone := by
    rw [h.files l ino hl] at hnone
    cases hnone

theorem LeafSpec.worked {path : Pieces} {r : Except ε Unit × Fs}
    (h : LeafSpec lenient noise path fs r) : Worked noise fs r.2 := by
  cases h with
  | skipped => exact .refl noise fs
  | refused => exact .refl noise fs
  | stuck ino pass => exact .scrambled noise path pass ino fs
  | shredded ino pass fs' h hremove =>
    obtain ⟨x, -, rfl, hkind, hfile⟩ := removeFile_scrambled h hremove
    have hs := Worked.scrambled noise path pass ino fs
    refine ⟨fun l k hk => ?_, hs.content, fun l i hl hnone => ?_⟩
    · rw [hkind] at hk
      split at hk
      · cases hk
      · exact hk
    · rw [hkind] at hnone
      split at hnone
      · rename_i he
        subst he
        obtain ⟨rfl, -⟩ := hfile i hl
        exact ⟨path, pass, Function.update_self _ _ _⟩
      · rw [hl] at hnone
        cases hnone

end

theorem Sweeper.Sweeps.worked {ε : Type} {lenient : Prop} {noise : Noise} {w : Sweeper ε}
    {base : Pieces} {fs₀ fs : Fs} (hw : w.Sound lenient noise) (h : w.Sweeps base fs₀ fs) :
    Worked noise fs₀ fs := by
  induction h with
  | start => exact .refl noise fs₀
  | leaf _ ns _ _ ih => exact ih.trans (hw.leaf (base ++ ns) _).worked
  | tidy _ ht ih => exact ih.trans ht.worked

end TgCryptFs

import TgCryptFs.Core.Sweep

set_option autoImplicit false

/-!
# What a search of a directory reaches

A search goes wherever a path of names leads, links followed. It leaves the files outside alone
if every path that leads to a file ends with a file inside, or with a link to a file that has a
name inside or nothing in it. A path that does not is searched first in some order of listing,
and what is done to its file is not undone.
-/
namespace TgCryptFs
open Library

/-- At the directory that the path names, or below it through directories. -/
def Inside (dir : Pieces) (fs : Fs) (l : Location) : Prop :=
  ∃ d, fs.lstat dir = some d ∧ fs.kind d = some .dir ∧ d <+: l

/-- Some name of the file is inside. -/
def HasName (dir : Pieces) (fs : Fs) (ino : ℕ) : Prop :=
  ∃ l, Inside dir fs l ∧ fs.kind l = some (.file ino)

/-- If the path leads to a file, that is inside, or a link leads to it and it has a name inside or
    nothing in it. -/
def LeadsInside (dir ns : Pieces) (fs : Fs) : Prop :=
  ∀ l ino, fs.resolve (dir ++ ns) = some l → fs.kind l = some (.file ino) →
    (fs.lstat (dir ++ ns) = some l → Inside dir fs l) ∧ (HasName dir fs ino ∨ fs.content ino = [])

def Contained (dir : Pieces) (fs : Fs) : Prop :=
  ∀ ns, ns ≠ [] → Names ns → LeadsInside dir ns fs

/-- The files outside are as they were. -/
structure Untouched (dir : Pieces) (fs fs' : Fs) : Prop where
  content : ∀ ino, ¬ HasName dir fs ino → fs'.content ino = fs.content ino
  kept : ∀ l ino, ¬ Inside dir fs l → fs.kind l = some (.file ino) → fs'.kind l = some (.file ino)

/-- The same file system, but for the order in which directories are read. -/
structure Relisted (fs fs' : Fs) : Prop where
  kind : ∀ l, fs'.kind l = fs.kind l
  content : fs'.content = fs.content

namespace Relisted

variable {fs fs' : Fs} {dir : Pieces}

theorem inside_iff (h : Relisted fs fs') (l : Location) : Inside dir fs' l ↔ Inside dir fs l := by
  rw [Inside, Inside, FileSystem.lstat_congr h.kind]
  simp only [h.kind]

theorem hasName_iff (h : Relisted fs fs') (ino : ℕ) : HasName dir fs' ino ↔ HasName dir fs ino := by
  rw [HasName, HasName]
  simp only [h.inside_iff, h.kind]

theorem contained (h : Relisted fs fs') (hc : Contained dir fs) : Contained dir fs' := by
  intro ns hne hns l ino hr hk
  rw [FileSystem.resolve_congr h.kind] at hr
  rw [h.kind] at hk
  rw [FileSystem.lstat_congr h.kind, h.inside_iff, h.hasName_iff, h.content]
  exact hc ns hne hns l ino hr hk

end Relisted

section

variable {ε : Type} {lenient : Prop} {noise : Noise} {w : Sweeper ε} {dir : Pieces} {fs₀ fs : Fs}

/-! ## A contained search stays inside -/

/-- One file of a contained file system. -/
theorem Untouched.leaf {path : Pieces} {r : Except ε Unit × Fs} (hleaf : LeafSpec lenient noise path fs r)
    (hs : Shrunk fs₀ fs) (hu : Untouched dir fs₀ fs)
    (hpath : ∀ l ino, fs₀.resolve path = some l → fs₀.kind l = some (.file ino) →
      (fs₀.lstat path = some l → Inside dir fs₀ l) ∧ (HasName dir fs₀ ino ∨ fs₀.content ino = [])) :
    Untouched dir fs₀ r.2 := by
  have hscrambled : ∀ ino pass, fs.fileAt path = some ino → ∀ i, ¬ HasName dir fs₀ i →
      (scrambled noise path pass ino fs).content i = fs₀.content i := by
    intro ino pass h i hi
    by_cases he : i = ino
    · subst he
      obtain ⟨l, hl, hk⟩ := fileAt_eq_some.1 h
      have hempty : fs₀.content i = [] :=
        (hpath l i (FileSystem.resolve_mono hs hl) (hs l _ hk)).2.resolve_left hi
      have hfill : (scrambled noise path pass i fs).content i =
          noise.fill path pass (fs.content i).length := Function.update_self _ _ _
      rw [hfill, hu.content i hi, hempty]
      rfl
    · exact (Function.update_of_ne he _ _).trans (hu.content i hi)
  cases hleaf with
  | skipped => exact hu
  | refused => exact hu
  | stuck ino pass e h => exact ⟨hscrambled ino pass h, hu.kept⟩
  | shredded ino pass fs' h hremove =>
    obtain ⟨x, hx, rfl, hkind, hfile⟩ := removeFile_scrambled h hremove
    refine ⟨hscrambled ino pass h, fun l i hl hk => ?_⟩
    rw [hkind, if_neg]
    · exact hu.kept l i hl hk
    · rintro rfl
      -- the file that is removed is what the path leads to
      have hk' := hu.kept l i hl hk
      exact hl ((hpath l i (FileSystem.resolve_mono hs (hfile i hk').2) hk).1
        (FileSystem.lstat_mono hs hx))

theorem Sweeper.Sweeps.untouched (hw : w.Sound lenient noise) (h : w.Sweeps dir fs₀ fs)
    (hc : Contained dir fs₀) : Untouched dir fs₀ fs := by
  induction h with
  | start => exact ⟨fun _ _ => rfl, fun _ _ _ hk => hk⟩
  | leaf h ns hne hns ih => exact ih.leaf (hw.leaf (dir ++ ns) _) (h.shrunk hw) (hc ns hne hns)
  | tidy _ ht ih =>
    exact ⟨fun ino hi => (congrFun ht.content ino).trans (ih.content ino hi),
      fun l ino hl hk => ht.files l ino (ih.kept l ino hl hk)⟩

/-! ## A path that is searched first -/

/-- What is overwritten with one byte stays so. -/
theorem Sweeper.Sweeps.content_replicate {c : UInt8} (hw : w.Sound lenient fun _ _ _ => c)
    (h : w.Sweeps dir fs₀ fs) {ino m : ℕ} (hm : fs₀.content ino = List.replicate m c) :
    fs.content ino = List.replicate m c := by
  have hwork := h.worked hw
  rcases hwork.content ino with he | ⟨path, pass, he⟩
  · rw [he, hm]
  · rw [he, hm, List.length_replicate, Noise.fill, List.map_const', List.length_range]

/-- What a search has done with the first name of a directory, it goes on from. -/
theorem Sweeper.sweeps_run_of_entry {out : Fs → Except ε Unit × Fs} (hw : w.Sound lenient noise)
    (hout : ∀ fs, ∃ e, out fs = (.error e, fs)) {ms names : Pieces} {n : String} {fuel : ℕ} {x : Location}
    (hms : Names ms) (hx : fs.resolve (dir ++ ms) = some x) (hdir : fs.kind x = some .dir)
    (hnames : fs.readDir x = n :: names) (hentry : w.Sweeps dir fs₀ (w.entry out fuel (dir ++ ms) n fs).2) :
    w.Sweeps dir fs₀ (w.run out (fuel + 1) (dir ++ ms) fs).2 := by
  have hrun : ∀ ms, Names ms → ∀ fs, w.RunSpec dir (dir ++ ms) fs (w.run out fuel (dir ++ ms) fs) :=
    fun ms hms fs => Sweeper.run_spec hw hout fuel hms fs
  have hloop : w.Sweeps dir fs₀ (untilError (w.entry out fuel (dir ++ ms)) (fs.readDir x) fs).2 := by
    have hmem : Names names := fun k hk =>
      Sweeper.names_readDir fs x k (hnames ▸ List.mem_cons_of_mem n hk)
    rw [hnames, untilError_cons]
    split
    · rename_i he
      rw [he] at hentry
      exact Sweeper.sweeps_loop hrun hms hmem hentry
    · rename_i he
      rw [he] at hentry
      exact hentry
  have htidied := Sweeper.tidied_close hw hrun hms hx hdir
  rw [Sweeper.run_dir hx hdir]
  generalize untilError (w.entry out fuel (dir ++ ms)) (fs.readDir x) fs = r at *
  obtain ⟨r, s'⟩ := r
  cases r with
  | error e => exact hloop
  | ok u => exact hloop.tidy (htidied rfl)

/-- If along a path to a file each name is the first of its directory, the search begins with
    that file. -/
theorem Sweeper.sweeps_of_path {out : Fs → Except ε Unit × Fs} (hw : w.Sound lenient noise)
    (hout : ∀ fs, ∃ e, out fs = (.error e, fs)) {ns ms : Pieces} {fuel : ℕ} (hms : Names ms)
    (hns : Names ns) (hne : ns ≠ []) {l : Location} {ino : ℕ}
    (hr : fs.resolve (dir ++ ms ++ ns) = some l) (hk : fs.kind l = some (.file ino))
    (hfirst : ∀ a n b, ns = a ++ n :: b → ∀ x, fs.resolve (dir ++ ms ++ a) = some x →
      ∃ rest, fs.readDir x = n :: rest) (hfuel : ns.length ≤ fuel) :
    w.Sweeps dir (w.leaf (dir ++ ms ++ ns) fs).2 (w.run out fuel (dir ++ ms) fs).2 := by
  induction ns generalizing ms fuel with
  | nil => exact absurd rfl hne
  | cons n ns ih =>
    obtain ⟨fuel, rfl⟩ : ∃ f, fuel = f + 1 := ⟨fuel - 1, by rw [List.length_cons] at hfuel; omega⟩
    have hn : ¬ Special n := hns n List.mem_cons_self
    have hsplit : dir ++ ms ++ n :: ns = dir ++ ms ++ [n] ++ ns := by simp
    rw [hsplit] at hr ⊢
    obtain ⟨y, hy⟩ := FileSystem.resolve_of_append hr
    obtain ⟨x, -, hx, hdir, -, -⟩ := FileSystem.resolve_concat hn hy
    obtain ⟨names, hnames⟩ := hfirst [] n ns rfl x (by rwa [List.append_nil])
    refine Sweeper.sweeps_run_of_entry hw hout hms hx hdir hnames ?_
    unfold Sweeper.entry
    cases ns with
    | nil =>
      rw [List.append_nil] at hr ⊢
      rw [if_neg]
      · exact .start
      · intro hd
        obtain ⟨z, hz, hkz⟩ := isDir_eq_true.1 hd
        cases hz.symm.trans hr
        cases hkz.symm.trans hk
    | cons m ns =>
      have hm : ¬ Special m := hns m (List.mem_cons_of_mem n List.mem_cons_self)
      have hsplit' : dir ++ ms ++ [n] ++ m :: ns = dir ++ ms ++ [n] ++ [m] ++ ns := by simp
      obtain ⟨z, hz⟩ := FileSystem.resolve_of_append (hsplit' ▸ hr)
      obtain ⟨y', -, hy', hdir', -, -⟩ := FileSystem.resolve_concat hm hz
      rw [if_pos (isDir_eq_true.2 ⟨y', hy', hdir'⟩)]
      have hassoc : dir ++ ms ++ [n] = dir ++ (ms ++ [n]) := List.append_assoc _ _ _
      rw [hassoc] at hr ⊢
      refine ih (hms.concat hn) (fun k hk => hns k (List.mem_cons_of_mem n hk)) (List.cons_ne_nil _ _)
        hr (fun a k b he x hx => ?_) (Nat.le_of_succ_le_succ hfuel)
      rw [← hassoc, List.append_assoc] at hx
      exact hfirst (n :: a) k b (congrArg (n :: ·) he) x hx

end

/-! ## A path that leads outside -/

section

variable {dir : Pieces} {fs : Fs}

/-- Two beginnings of the path that lead to the same directory are one. -/
def Direct (dir ns : Pieces) (fs : Fs) : Prop :=
  ∀ a b a' b' x, ns = a ++ b → ns = a' ++ b' → b ≠ [] → b' ≠ [] →
    fs.resolve (dir ++ a) = some x → fs.resolve (dir ++ a') = some x → a = a'

/-- A detour can be left out of a path that leads outside. -/
theorem not_leadsInside_shortcut {a c b : Pieces} {x : Location} (hb : b ≠ []) (hns : Names b)
    (ha : fs.resolve (dir ++ a) = some x) (hc : fs.resolve (dir ++ (a ++ c)) = some x)
    (h : ¬ LeadsInside dir (a ++ c ++ b) fs) : ¬ LeadsInside dir (a ++ b) fs := by
  have hshort : ∀ q l, fs.resolve (dir ++ (a ++ c ++ q)) = some l →
      fs.resolve (dir ++ (a ++ q)) = some l := by
    intro q l hq
    simp only [← List.append_assoc] at hc hq ⊢
    exact FileSystem.resolve_shortcut ha hc hq
  refine fun hin => h fun l ino hr hk => ?_
  have hin' := hin l ino (hshort b l hr) hk
  refine ⟨fun hl => hin'.1 ?_, hin'.2⟩
  -- the last name is the same, and so is the directory before it
  obtain ⟨q, n, rfl⟩ : ∃ q n, b = q ++ [n] :=
    ⟨b.dropLast, b.getLast hb, (List.dropLast_append_getLast hb).symm⟩
  have hn : ¬ Special n := hns n (List.mem_append_right _ List.mem_cons_self)
  have hlong : dir ++ (a ++ c ++ (q ++ [n])) = dir ++ (a ++ c ++ q) ++ [n] := by simp
  have hless : dir ++ (a ++ (q ++ [n])) = dir ++ (a ++ q) ++ [n] := by simp
  rw [hlong] at hl
  rw [hless]
  obtain ⟨y, hy, he, hky⟩ := (FileSystem.lstat_concat_eq_some hn).1 hl
  exact (FileSystem.lstat_concat_eq_some hn).2 ⟨y, hshort q y hy, he, hky⟩

/-- A path that leads outside can be chosen without a detour. -/
theorem exists_direct {ns : Pieces} (hne : ns ≠ []) (hns : Names ns) (h : ¬ LeadsInside dir ns fs) :
    ∃ ns, ns ≠ [] ∧ Names ns ∧ ¬ LeadsInside dir ns fs ∧ Direct dir ns fs := by
  induction hlen : ns.length using Nat.strong_induction_on generalizing ns with
  | h k ih =>
    by_cases hdirect : Direct dir ns fs
    · exact ⟨ns, hne, hns, h, hdirect⟩
    · -- of two beginnings that lead to the same directory, go on from the shorter
      obtain ⟨a, c, b, x, rfl, hc, hb, ha, hac⟩ : ∃ a c b x, ns = a ++ c ++ b ∧ c ≠ [] ∧ b ≠ [] ∧
          fs.resolve (dir ++ a) = some x ∧ fs.resolve (dir ++ (a ++ c)) = some x := by
        simp only [Direct, not_forall] at hdirect
        obtain ⟨a, b, a', b', x, he, he', hb, hb', ha, ha', hdiff⟩ := hdirect
        rcases List.append_eq_append_iff.1 (he.symm.trans he') with ⟨c, rfl, rfl⟩ | ⟨c, rfl, rfl⟩
        · exact ⟨a, c, b', x, he', fun hc => hdiff (by rw [hc, List.append_nil]), hb', ha, ha'⟩
        · exact ⟨a', c, b, x, he, fun hc => hdiff (by rw [hc, List.append_nil]), hb, ha', ha⟩
      have hnb : Names b := fun n hn => hns n (List.mem_append_right _ hn)
      have hna : Names (a ++ b) := fun n hn => (List.mem_append.1 hn).elim
        (fun hn => hns n (List.mem_append_left _ (List.mem_append_left _ hn))) (hnb n)
      refine ih _ ?_ (List.append_ne_nil_of_right_ne_nil _ hb) hna
        (not_leadsInside_shortcut hb hnb ha hac h) rfl
      have hpos := List.length_pos_iff.2 hc
      rw [← hlen]
      simp only [List.length_append]
      omega

/-- The directories along a direct path can be read so that the names of the path come first. -/
theorem exists_relisted {ns : Pieces} (hns : Names ns) {l : Location}
    (hr : fs.resolve (dir ++ ns) = some l) (hdirect : Direct dir ns fs) :
    ∃ fs', Relisted fs fs' ∧ ∀ a n b, ns = a ++ n :: b → ∀ x, fs'.resolve (dir ++ a) = some x →
      ∃ rest, fs'.readDir x = n :: rest := by
  classical
  let first (y : Location) : Prop :=
    ∃ a n b x, ns = a ++ n :: b ∧ fs.resolve (dir ++ a) = some x ∧ y = x ++ [n]
  refine ⟨fs.relist first, ⟨FileSystem.kind_relist fs first, rfl⟩, fun a n b he x hx => ?_⟩
  rw [FileSystem.resolve_congr (FileSystem.kind_relist fs first)] at hx
  have hn : ¬ Special n := hns n (by rw [he]; exact List.mem_append_right _ List.mem_cons_self)
  refine FileSystem.readDir_relist ?_ ⟨a, n, b, x, he, hx, rfl⟩ ?_
  · -- the path goes on with this name
    have hsplit : dir ++ ns = dir ++ a ++ [n] ++ b := by rw [he]; simp
    obtain ⟨y, hy⟩ := FileSystem.resolve_of_append (hsplit ▸ hr)
    obtain ⟨x', k, hx', -, hk, -⟩ := FileSystem.resolve_concat hn hy
    cases hx.symm.trans hx'
    rw [hk]
    exact Option.some_ne_none k
  · rintro m ⟨a', n', b', x', he', hx', hm⟩
    obtain ⟨rfl, hname⟩ := List.append_inj' hm rfl
    obtain rfl := hdirect a (n :: b) a' (n' :: b') x he he' (List.cons_ne_nil _ _)
      (List.cons_ne_nil _ _) hx hx'
    have htail := List.append_cancel_left (he.symm.trans he')
    exact (List.singleton_inj.1 hname).trans (List.cons.inj htail).1.symm

end

/-! ## What stays inside -/

/-- The search ends whatever comes where the fuel is out, the files outside are as they were, and
    after a success those inside have been overwritten and are gone. -/
structure StaysInside {ε : Type} (noise : Noise) (w : Sweeper ε) (dir : Pieces) (fs : Fs)
    (r : Except ε Unit × Fs) : Prop extends Untouched dir fs r.2 where
  ends : ∀ out fuel, searchDepth fs ≤ fuel → w.run out fuel dir fs = r
  gone : r.1 = .ok () → ∀ l ino, Inside dir fs l → fs.kind l = some (.file ino) →
    r.2.kind l = none ∧ Filled noise fs r.2 ino

section

variable {ε : Type} {lenient : Prop} {dir : Pieces} {fs : Fs}

theorem noneLonger (fs : Fs) :
    fs.NoneLonger ((fs.entries.map fun e => e.1.length).foldr max 0) := by
  intro l k hk
  exact List.le_max_of_le' 0 (List.mem_map_of_mem (FileSystem.kind_eq_some.1 hk)) le_rfl

theorem Sweeper.run_searchDepth {w : Sweeper ε} {noise : Noise} (hw : w.Sound lenient noise)
    (out out' : Fs → Except ε Unit × Fs) {fuel : ℕ} (hfuel : searchDepth fs ≤ fuel) :
    w.run out fuel dir fs = w.run out' (searchDepth fs) dir fs :=
  Sweeper.run_enough hw (noneLonger fs) ((FileSystem.stepsLeft_le dir).trans hfuel)
    (FileSystem.stepsLeft_le dir)

theorem StaysInside.of_contained {w : Sweeper ε} {noise : Noise} (hw : w.Sound lenient noise)
    (out : Fs → Except ε Unit × Fs) (hout : ∀ fs, ∃ e, out fs = (.error e, fs))
    (hc : Contained dir fs) : StaysInside noise w dir fs (w.run out (searchDepth fs) dir fs) := by
  have hspec := @Sweeper.run_spec ε lenient noise w dir out [] hw hout (searchDepth fs)
    (fun _ h => by cases h) fs
  rw [List.append_nil] at hspec
  have hwork := hspec.sweeps.worked hw
  refine ⟨hspec.sweeps.untouched hw hc, fun out' fuel hfuel => Sweeper.run_searchDepth hw out' out hfuel,
    fun hok l ino hl hk => ?_⟩
  obtain ⟨d, hd, hdir, hp⟩ := hl
  have hclear := hspec.cleared hok d hd hdir
  have hnone : (w.run out (searchDepth fs) dir fs).2.kind l = none := by
    by_contra hne
    obtain ⟨k, hk'⟩ := Option.ne_none_iff_exists'.1 hne
    cases (hwork.shrunk l k hk').symm.trans hk
    exact hclear l ino hp hk'
  exact ⟨hnone, hwork.removed l ino hk hnone⟩

/-- A file that a path names is gone once it is done. -/
theorem LeafSpec.kind_eq_none {path : Pieces} {r : Except ε Unit × Fs} {noise : Noise} {l : Location} {ino : ℕ}
    (h : LeafSpec lenient noise path fs r) (hr : fs.resolve path = some l) (hl : fs.lstat path = some l)
    (hk : fs.kind l = some (.file ino)) : r.2.kind l = none := by
  cases h with
  | skipped _ h => cases h.symm.trans hr
  | refused _ h => cases h.symm.trans (fileAt_eq_some.2 ⟨l, hr, hk⟩)
  | stuck i pass e h hremove =>
    rw [FileSystem.removeFile, FileSystem.lstat_congr (kind_scrambled pass i), hl] at hremove
    dsimp only at hremove
    rw [kind_scrambled, hk, if_neg fun h => by cases h] at hremove
    cases hremove
  | shredded i pass fs₂ h hremove =>
    obtain ⟨x, hx, -, hkind, -⟩ := removeFile_scrambled h hremove
    cases hx.symm.trans hl
    exact (hkind l).trans (if_pos rfl)

/-- Noise of one byte is what a file is overwritten with. -/
theorem LeafSpec.content_eq {path : Pieces} {r : Except ε Unit × Fs} {c : UInt8} {ino : ℕ}
    (h : LeafSpec lenient (fun _ _ _ => c) path fs r) (hat : fs.fileAt path = some ino) :
    r.2.content ino = List.replicate (fs.content ino).length c := by
  have hscrambled : ∀ pass, (scrambled (fun _ _ _ => c) path pass ino fs).content ino =
      List.replicate (fs.content ino).length c := by
    intro pass
    refine (Function.update_self _ _ _).trans ?_
    rw [Noise.fill, List.map_const', List.length_range]
  cases h with
  | skipped _ h =>
    obtain ⟨l, hl, -⟩ := fileAt_eq_some.1 hat
    cases h.symm.trans hl
  | refused _ h => cases h.symm.trans hat
  | stuck i pass e h =>
    cases h.symm.trans hat
    exact hscrambled pass
  | shredded i pass fs₂ h hremove =>
    cases h.symm.trans hat
    obtain ⟨x, -, rfl, -⟩ := removeFile_scrambled h hremove
    exact hscrambled pass

/-- A path that leads outside does harm in some order of listing, with some noise. -/
theorem exists_touched {w : Noise → Sweeper ε} (hw : ∀ noise, (w noise).Sound lenient noise)
    (out : Fs → Except ε Unit × Fs) (hout : ∀ fs, ∃ e, out fs = (.error e, fs))
    (hc : ¬ Contained dir fs) : ∃ noise fs', Relisted fs fs' ∧
      ¬ Untouched dir fs' ((w noise).run out (searchDepth fs') dir fs').2 := by
  obtain ⟨ns, hne, hns, hbad, hdirect⟩ :
      ∃ ns, ns ≠ [] ∧ Names ns ∧ ¬ LeadsInside dir ns fs ∧ Direct dir ns fs := by
    simp only [Contained, not_forall] at hc
    obtain ⟨ns, hne, hns, hbad⟩ := hc
    exact exists_direct hne hns hbad
  simp only [LeadsInside, not_forall] at hbad
  obtain ⟨l, ino, hr, hk, hbad⟩ := hbad
  obtain ⟨fs', hfs', hfirst⟩ := exists_relisted hns hr hdirect
  have hr' : fs'.resolve (dir ++ ns) = some l := (FileSystem.resolve_congr hfs'.kind _).trans hr
  have hk' : fs'.kind l = some (.file ino) := (hfs'.kind l).trans hk
  -- the search begins with the file at the end of the path
  have hsweeps : ∀ noise, (w noise).Sweeps dir ((w noise).leaf (dir ++ ns) fs').2
      ((w noise).run out (searchDepth fs') dir fs').2 := by
    intro noise
    have hpath := @Sweeper.sweeps_of_path ε lenient noise (w noise) dir fs' out (hw noise) hout ns []
      (searchDepth fs' + ns.length) (fun _ h => by cases h) hns hne l ino
    rw [List.append_nil] at hpath
    rw [← Sweeper.run_searchDepth (hw noise) out out (Nat.le_add_right (searchDepth fs') ns.length)]
    exact hpath hr' hk' hfirst (Nat.le_add_left _ _)
  rw [not_and_or, Classical.not_imp, not_or] at hbad
  rcases hbad with ⟨hl, hout'⟩ | ⟨hname, hcontent⟩
  · -- the file is outside and is removed
    refine ⟨fun _ _ _ => 0, fs', hfs', fun hu => ?_⟩
    have hkept := hu.kept l ino (fun hin => hout' ((hfs'.inside_iff l).1 hin)) hk'
    have hstill := (hsweeps fun _ _ _ => 0).shrunk (hw fun _ _ _ => 0) l _ hkept
    have hl' : fs'.lstat (dir ++ ns) = some l := (FileSystem.lstat_congr hfs'.kind _).trans hl
    cases hstill.symm.trans (((hw fun _ _ _ => 0).leaf (dir ++ ns) fs').kind_eq_none hr' hl' hk')
  · -- the file has no name inside and gets other content
    obtain ⟨b, bs, hbs⟩ := List.exists_cons_of_ne_nil hcontent
    have hb : b + 1 ≠ b := fun h => by
      have := congrArg UInt8.toBitVec h
      simp at this
    refine ⟨fun _ _ _ => b + 1, fs', hfs', fun hu => ?_⟩
    have hsame := hu.content ino fun hin => hname ((hfs'.hasName_iff ino).1 hin)
    have hfill := ((hw fun _ _ _ => b + 1).leaf (dir ++ ns) fs').content_eq
      (fileAt_eq_some.2 ⟨l, hr', hk'⟩)
    rw [(hsweeps fun _ _ _ => b + 1).content_replicate (hw fun _ _ _ => b + 1) hfill, hfs'.content, hbs,
      List.length_cons, List.replicate_succ] at hsame
    exact hb (List.cons.inj hsame).1

end
end TgCryptFs

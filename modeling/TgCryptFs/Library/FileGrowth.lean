import Mathlib.Data.List.MinMax
import TgCryptFs.Library.FileCreation
import TgCryptFs.Library.PathResolution

set_option autoImplicit false

/-!
# What making an entry adds

A directory or a file made under a free name adds that entry and nothing else. Where a path leads
to a directory, `create_dir_all` of it does nothing, and of a name below it makes one directory.
-/
namespace TgCryptFs.Library.FileSystem

variable {β : Type} {fs fs' : FileSystem β} {d v : Location} {n : String} {path : Pieces}

/-- One entry more. -/
theorem kind_of_entries {k₀ : Kind} (h : fs'.entries = fs.entries ++ [(d, k₀)])
    (hfree : fs.kind d = none) (l : Location) :
    fs'.kind l = if l = d then some k₀ else fs.kind l := by
  ext k
  rw [kind_eq_some, h, List.mem_append, List.mem_singleton, Prod.mk.injEq]
  by_cases hl : l = d
  · subst hl
    rw [if_pos rfl, Option.some.injEq]
    constructor
    · rintro (hk | ⟨-, rfl⟩)
      · rw [kind_eq_some.2 hk] at hfree
        cases hfree
      · rfl
    · rintro rfl
      exact .inr ⟨rfl, rfl⟩
  · rw [if_neg hl, kind_eq_some]
    exact or_iff_left fun h => hl h.1

theorem exists_mkdir (hd : fs.kind d = some .dir) (hn : ¬ Special n) (hfree : fs.kind (d ++ [n]) = none) :
    ∃ fs', fs.mkdir d n = some fs' ∧
      (∀ l, fs'.kind l = if l = d ++ [n] then some .dir else fs.kind l) ∧ fs'.content = fs.content := by
  unfold mkdir
  rw [dif_pos ⟨hd, hn, hfree⟩]
  exact ⟨_, rfl, kind_of_entries rfl hfree, rfl⟩

/-- A new file is none of those that are there. -/
theorem create_spec (hd : fs.kind d = some .dir) (hn : ¬ Special n) (hfree : fs.kind (d ++ [n]) = none) :
    ∃ ino, (∀ l, fs.kind l ≠ some (.file ino)) ∧
      (∀ l, (fs.create d n).kind l = if l = d ++ [n] then some (.file ino) else fs.kind l) ∧
      (fs.create d n).content = Function.update fs.content ino [] := by
  have hmem : d ++ [n] ∉ fs.entries.map Prod.fst := by
    intro h
    obtain ⟨⟨l, k⟩, he, hl⟩ := List.mem_map.1 h
    dsimp only at hl
    subst hl
    rw [kind_eq_some.2 he] at hfree
    cases hfree
  unfold create
  rw [dif_pos ⟨hd, hn, hmem⟩]
  refine ⟨_, fun l hl => ?_, kind_of_entries rfl hfree, rfl⟩
  -- the number is above those of all files
  generalize hm : List.foldr max 0 (List.map _ fs.entries) = m at hl
  refine Nat.not_succ_le_self m ?_
  conv_rhs => rw [← hm]
  exact List.le_max_of_le' 0 (List.mem_map_of_mem (kind_eq_some.1 hl)) le_rfl

/-! ## The path to a directory -/

/-- A path that goes on from a location goes on from a directory. -/
theorem dir_of_resolveFrom_cons {budget : ℕ} {cur : Location} {p : String} {ps : Pieces} {r : ℕ × Location}
    (h : fs.resolveFrom budget cur (p :: ps) = some r) : fs.kind cur = some .dir := by
  have hwalk : ∀ follow, fs.walk budget follow cur (p :: ps) = some r → fs.kind cur = some .dir := by
    intro follow hw
    rw [walk] at hw
    split at hw
    · cases hw
    · rename_i hcur
      exact not_not.1 hcur
  cases budget with
  | zero => exact hwalk _ h
  | succ budget => exact hwalk _ h

theorem isDir_of_resolve (h : fs.resolve path = some v) (hv : fs.kind v = some .dir) :
    fs.isDir path = true := by
  rw [isDir, h, Option.any_some, hv]
  exact decide_eq_true rfl

/-- All that a path to a directory goes through is directories. -/
theorem isDir_of_prefix {p q : Pieces} (h : fs.resolve (p ++ q) = some v) (hv : fs.kind v = some .dir) :
    fs.isDir p = true := by
  obtain ⟨b, x, c, hp, hq⟩ := resolve_append h
  refine isDir_of_resolve (resolve_eq_some.2 ⟨b, hp⟩) ?_
  cases q with
  | nil =>
    rw [List.append_nil] at h
    obtain rfl := Option.some.inj (h.symm.trans (resolve_eq_some.2 ⟨b, hp⟩))
    exact hv
  | cons m q => exact dir_of_resolveFrom_cons hq

theorem resolve_free (h : fs.resolve path = some v) (hn : ¬ Special n) (hfree : fs.kind (v ++ [n]) = none) :
    fs.resolve (path ++ [n]) = none := by
  rw [Option.eq_none_iff_forall_ne_some]
  intro l hl
  obtain ⟨x, k, hx, -, hk, -⟩ := resolve_concat hn hl
  obtain rfl := Option.some.inj (h.symm.trans hx)
  rw [hfree] at hk
  cases hk

theorem named_child {k : Kind} (h : fs.resolve path = some v) (hk : fs.kind (v ++ [n]) = some k) :
    fs.named (path ++ [n]) = some (v ++ [n]) := by
  have hl := lstat_child h hk
  rw [lstat, List.getLast?_concat] at hl
  dsimp only at hl
  rwa [if_neg (not_special hk)] at hl

/-! ## Directories -/

theorem createDirAllFrom_append (fs : FileSystem β) (done p q : Pieces) :
    fs.createDirAllFrom done (p ++ q) =
      match fs.createDirAllFrom done p with
      | (false, fs') => (false, fs')
      | (true, fs') => fs'.createDirAllFrom (done ++ p) q := by
  induction p generalizing fs done with
  | nil =>
    rw [List.nil_append, List.append_nil]
    rfl
  | cons n p ih =>
    rw [List.cons_append, createDirAllFrom, createDirAllFrom]
    split
    · rw [ih, List.append_assoc]
      rfl
    · split
      · rfl
      · rw [ih, List.append_assoc]
        rfl

theorem createDirAllFrom_of_dirs {done : Pieces} (h : ∀ p q, path = p ++ q → fs.isDir (done ++ p) = true) :
    fs.createDirAllFrom done path = (true, fs) := by
  induction path generalizing done with
  | nil => rfl
  | cons n path ih =>
    rw [createDirAllFrom, if_pos (h [n] path rfl)]
    refine ih fun p q hpq => ?_
    rw [List.append_assoc]
    exact h (n :: p) q (by rw [hpq, List.cons_append])

theorem createDirAll_of_dir (h : fs.resolve path = some v) (hv : fs.kind v = some .dir) :
    fs.createDirAll path = (true, fs) := by
  refine createDirAllFrom_of_dirs fun p q hpq => ?_
  rw [hpq] at h
  exact isDir_of_prefix h hv

theorem createDirAll_child (h : fs.resolve path = some v) (hv : fs.kind v = some .dir) (hn : ¬ Special n)
    (hfree : fs.kind (v ++ [n]) = none) : ∃ fs', fs.createDirAll (path ++ [n]) = (true, fs') ∧
      (∀ l, fs'.kind l = if l = v ++ [n] then some .dir else fs.kind l) ∧ fs'.content = fs.content := by
  obtain ⟨fs', hmkdir, hkind, hcontent⟩ := exists_mkdir hv hn hfree
  refine ⟨fs', ?_, hkind, hcontent⟩
  have hall : fs.createDirAllFrom [] path = (true, fs) := createDirAll_of_dir h hv
  have hnot : fs.isDir (path ++ [n]) = false := by
    rw [isDir, resolve_free h hn hfree]
    rfl
  rw [createDirAll, createDirAllFrom_append, hall]
  dsimp only
  rw [List.nil_append, createDirAllFrom, hnot, if_neg (by decide), h, Option.bind_some, hmkdir]
  rfl

/-! ## Files -/

theorem fileAt_child {ino : ℕ} (h : fs.resolve path = some v) (hk : fs.kind (v ++ [n]) = some (.file ino)) :
    fs.fileAt (path ++ [n]) = some ino := by
  have hr := resolve_child h hk fun t ht => by cases ht
  rw [fileAt, hr, Option.bind_some, hk]

theorem fileAt_free (h : fs.resolve path = some v) (hn : ¬ Special n) (hfree : fs.kind (v ++ [n]) = none) :
    fs.fileAt (path ++ [n]) = none := by
  rw [fileAt, resolve_free h hn hfree]
  rfl

/-- A file written under a free name. -/
theorem write_child (h : fs.resolve path = some v) (hv : fs.kind v = some .dir) (hn : ¬ Special n)
    (hfree : fs.kind (v ++ [n]) = none) (data : List β) :
    ∃ fs' ino, fs.write (path ++ [n]) data = some fs' ∧ (∀ l, fs.kind l ≠ some (.file ino)) ∧
      (∀ l, fs'.kind l = if l = v ++ [n] then some (.file ino) else fs.kind l) ∧
      fs'.content = Function.update fs.content ino data := by
  obtain ⟨ino, hnew, hkind, hcontent⟩ := create_spec hv hn hfree
  obtain ⟨b, hb⟩ := resolve_eq_some.1 h
  have hvacant : fs.vacant (maxLinks + 1) [] (path ++ [n]) = some (v, n) := by
    rw [vacant, List.getLast?_concat, List.dropLast_concat, hb]
    dsimp only
    rw [if_neg (not_or.2 ⟨not_not.2 hv, hn⟩), hfree]
  have hfile : (fs.create v n).fileAt (path ++ [n]) = some ino := by
    refine fileAt_child (resolve_mono (fun l k hk => kind_create hk) h) ?_
    rw [hkind, if_pos rfl]
  refine ⟨(fs.create v n).overwrite ino data, ino, ?_, hnew, hkind, ?_⟩
  · rw [write, fileAt_free h hn hfree]
    dsimp only
    rw [hvacant, Option.bind_some, hfile]
    rfl
  · rw [overwrite, hcontent, Function.update_idem]

end TgCryptFs.Library.FileSystem

import Mathlib.Data.List.Basic
import Mathlib.Data.List.Induction
import Mathlib.Data.List.Nodup
import Mathlib.Data.List.TakeWhile
import Mathlib.Logic.Function.Basic

set_option autoImplicit false

/-!
# A file system with symbolic and hard links

An entry is known by its location, the names that lead to it from the root through real
directories. A path is the list of pieces between the slashes of a string; it is resolved
piece by piece, and a link puts its target in the place of its name. Two entries may be
the same file.
-/
namespace TgCryptFs.Library

abbrev Location := List String

abbrev Pieces := List String

inductive Kind where
  | file (ino : ℕ)
  | dir
  | link (target : Pieces)
deriving DecidableEq, Repr

namespace Kind

def isFile : Kind → Bool
  | .file _ => true
  | _ => false

end Kind

/-- The pieces a directory has no entry for. -/
def Special (n : String) : Prop := n = "" ∨ n = "." ∨ n = ".."

instance (n : String) : Decidable (Special n) := inferInstanceAs (Decidable (_ ∨ _))

structure FileSystem (β : Type) where
  entries : List (Location × Kind)
  content : ℕ → List β
  nodup : (entries.map Prod.fst).Nodup
  root : ([], .dir) ∈ entries
  parent : ∀ l n k, (l ++ [n], k) ∈ entries → (l, .dir) ∈ entries
  name : ∀ l n k, (l ++ [n], k) ∈ entries → ¬ Special n

namespace FileSystem

variable {β : Type}

def kind (fs : FileSystem β) (l : Location) : Option Kind :=
  (fs.entries.find? (·.1 = l)).map (·.2)

theorem kind_eq_some {fs : FileSystem β} {l : Location} {k : Kind} :
    fs.kind l = some k ↔ (l, k) ∈ fs.entries := by
  constructor
  · intro h
    obtain ⟨⟨l', k'⟩, he, rfl⟩ := Option.map_eq_some_iff.1 h
    obtain rfl : l' = l := by simpa using List.find?_some he
    exact List.mem_of_find?_eq_some he
  · intro h
    cases he : fs.entries.find? (·.1 = l) with
    | none => exact absurd (decide_eq_true rfl) (List.find?_eq_none.1 he _ h)
    | some e =>
      have hmem := List.mem_of_find?_eq_some he
      have hl : e.1 = l := by simpa using List.find?_some he
      have heq : e = (l, k) := List.inj_on_of_nodup_map fs.nodup hmem h hl
      rw [kind, he, heq]
      rfl

theorem kind_parent {fs : FileSystem β} {l : Location} {n : String} {k : Kind}
    (h : fs.kind (l ++ [n]) = some k) : fs.kind l = some .dir :=
  kind_eq_some.2 (fs.parent l n k (kind_eq_some.1 h))

theorem not_special {fs : FileSystem β} {l : Location} {n : String} {k : Kind}
    (h : fs.kind (l ++ [n]) = some k) : ¬ Special n := fs.name l n k (kind_eq_some.1 h)

theorem kind_root (fs : FileSystem β) : fs.kind [] = some .dir := kind_eq_some.2 fs.root

theorem kind_above {fs : FileSystem β} {l l' : Location} {k : Kind} (h : fs.kind l' = some k)
    (hp : l <+: l') (hne : l ≠ l') : fs.kind l = some .dir := by
  obtain ⟨r, rfl⟩ := hp
  induction r using List.reverseRecOn generalizing k with
  | nil => exact absurd (List.append_nil l).symm hne
  | append_singleton r n ih =>
    rw [← List.append_assoc] at h
    have hdir := kind_parent h
    cases r with
    | nil => rwa [List.append_nil] at hdir
    | cons x xs => exact ih hdir fun e => by simp at e

/-- A file system listed with its directories. -/
def ofEntries (entries : List (Location × Kind)) (content : ℕ → List β)
    (nodup : (entries.map Prod.fst).Nodup) (root : ([], .dir) ∈ entries)
    (h : ∀ e ∈ entries, e.1 = [] ∨
      (e.1.dropLast, .dir) ∈ entries ∧ e.1.getLast?.all fun n => ¬ Special n) : FileSystem β where
  entries := entries
  content := content
  nodup := nodup
  root := root
  parent l n k hk := by
    have := ((h _ hk).resolve_left (by simp)).1
    rwa [List.dropLast_concat] at this
  name l n k hk := by
    have := ((h _ hk).resolve_left (by simp)).2
    rw [List.getLast?_concat] at this
    simpa using this

/-! ## Directories -/

/-- The names in a directory, in the order they are read. -/
def readDir (fs : FileSystem β) (l : Location) : List String :=
  fs.entries.filterMap fun e => if e.1 ≠ [] ∧ e.1.dropLast = l then e.1.getLast? else none

theorem getLast?_eq_iff {x l : Location} {n : String} :
    (if x ≠ [] ∧ x.dropLast = l then x.getLast? else none) = some n ↔ x = l ++ [n] := by
  constructor
  · intro h
    split at h
    · rename_i hx
      obtain ⟨hne, rfl⟩ := hx
      rw [List.getLast?_eq_some_getLast hne] at h
      rw [← Option.some.inj h, List.dropLast_append_getLast hne]
    · cases h
  · rintro rfl
    simp

theorem mem_readDir {fs : FileSystem β} {l : Location} {n : String} :
    n ∈ fs.readDir l ↔ fs.kind (l ++ [n]) ≠ none := by
  rw [readDir, List.mem_filterMap, Option.ne_none_iff_exists']
  constructor
  · rintro ⟨⟨x, k⟩, he, h⟩
    obtain rfl : x = l ++ [n] := getLast?_eq_iff.1 h
    exact ⟨k, kind_eq_some.2 he⟩
  · rintro ⟨k, hk⟩
    exact ⟨_, kind_eq_some.1 hk, getLast?_eq_iff.2 rfl⟩

theorem nodup_readDir (fs : FileSystem β) (l : Location) : (fs.readDir l).Nodup := by
  have h : fs.readDir l = (fs.entries.map Prod.fst).filterMap fun x =>
      if x ≠ [] ∧ x.dropLast = l then x.getLast? else none := by
    rw [List.filterMap_map]
    rfl
  rw [h]
  refine List.Nodup.filterMap (fun x y n hx hy => ?_) fs.nodup
  rw [getLast?_eq_iff.1 hx, getLast?_eq_iff.1 hy]

/-! ## Removal -/

/-- The entries for which `keep` holds, where what it keeps lies in directories it keeps. -/
def restrict (fs : FileSystem β) (keep : Location → Prop) [DecidablePred keep] (hroot : keep [])
    (hclosed : ∀ l n, keep (l ++ [n]) → keep l) : FileSystem β where
  entries := fs.entries.filter fun e => keep e.1
  content := fs.content
  nodup := fs.nodup.sublist (List.filter_sublist.map Prod.fst)
  root := List.mem_filter.2 ⟨fs.root, decide_eq_true hroot⟩
  parent l n k h := by
    obtain ⟨h, hk⟩ := List.mem_filter.1 h
    exact List.mem_filter.2 ⟨fs.parent l n k h, decide_eq_true (hclosed l n (of_decide_eq_true hk))⟩
  name l n k h := fs.name l n k (List.mem_filter.1 h).1

theorem kind_restrict (fs : FileSystem β) (keep : Location → Prop) [DecidablePred keep]
    (hroot : keep []) (hclosed : ∀ l n, keep (l ++ [n]) → keep l) (l : Location) :
    (fs.restrict keep hroot hclosed).kind l = if keep l then fs.kind l else none := by
  ext k
  rw [kind_eq_some, restrict, List.mem_filter]
  split
  · rename_i h
    rw [kind_eq_some]
    exact and_iff_left (decide_eq_true h)
  · rename_i h
    exact ⟨fun hk => absurd (of_decide_eq_true hk.2) h, fun hk => by cases hk⟩

/-- The entry at `l` with all that is below it. The root stays. -/
def prune (fs : FileSystem β) (l : Location) : FileSystem β :=
  fs.restrict (fun x => l = [] ∨ ¬ l <+: x) (by
    by_cases h : l = []
    · exact .inl h
    · exact .inr fun hp => h (List.prefix_nil.1 hp))
    fun _ _ => Or.imp_right fun h hp => h (hp.trans (List.prefix_append _ _))

theorem kind_prune {fs : FileSystem β} {l : Location} (hl : l ≠ []) (x : Location) :
    (fs.prune l).kind x = if l <+: x then none else fs.kind x := by
  rw [prune, kind_restrict]
  by_cases h : l <+: x <;> simp [h, hl]

/-- All that is below `l`. -/
def clear (fs : FileSystem β) (l : Location) : FileSystem β :=
  fs.restrict (fun x => l <+: x → x = l) (fun h => (List.prefix_nil.1 h).symm) fun x n h hp => by
    have := h (hp.trans (List.prefix_append _ _))
    have hlen := hp.length_le
    rw [← this, List.length_append, List.length_singleton] at hlen
    omega

theorem kind_clear (fs : FileSystem β) (l x : Location) :
    (fs.clear l).kind x = if l <+: x ∧ x ≠ l then none else fs.kind x := by
  rw [clear, kind_restrict]
  by_cases h : l <+: x <;> by_cases e : x = l <;> simp [h, e]

/-- A new file with nothing in it, unless the name is taken or there is no such directory. -/
def create (fs : FileSystem β) (d : Location) (n : String) : FileSystem β :=
  if h : fs.kind d = some .dir ∧ ¬ Special n ∧ d ++ [n] ∉ fs.entries.map Prod.fst then
    let ino := (fs.entries.map fun e => match e.2 with | .file ino => ino + 1 | _ => 0).foldr max 0
    { entries := fs.entries ++ [(d ++ [n], .file ino)]
      content := Function.update fs.content ino []
      nodup := by
        rw [List.map_append]
        refine fs.nodup.append (List.nodup_singleton _) fun x hx hx' => h.2.2 ?_
        rwa [List.mem_singleton.1 hx'] at hx
      root := List.mem_append_left _ fs.root
      parent := fun l m k hk => by
        rcases List.mem_append.1 hk with hk | hk
        · exact List.mem_append_left _ (fs.parent l m k hk)
        · obtain ⟨rfl, -⟩ := List.append_inj' (Prod.mk.inj (List.mem_singleton.1 hk)).1 rfl
          exact List.mem_append_left _ (kind_eq_some.1 h.1)
      name := fun l m k hk => by
        rcases List.mem_append.1 hk with hk | hk
        · exact fs.name l m k hk
        · obtain ⟨-, hm⟩ := List.append_inj' (Prod.mk.inj (List.mem_singleton.1 hk)).1 rfl
          rw [List.singleton_inj.1 hm]
          exact h.2.1 }
  else fs

theorem kind_create {fs : FileSystem β} {d l : Location} {n : String} {k : Kind}
    (h : fs.kind l = some k) : (fs.create d n).kind l = some k := by
  unfold create
  split
  · exact kind_eq_some.2 (List.mem_append_left _ (kind_eq_some.1 h))
  · exact h

/-! ## Resolution -/

/-- The string begins with a slash. -/
def isAbsolute : Pieces → Bool
  | "" :: _ :: _ => true
  | _ => false

/-- `Path::join`. -/
def join (base path : Pieces) : Pieces := if isAbsolute path then path else base ++ path

/-- The pieces one by one, from the directory `cur`. A link is left to `follow`; `budget` is
    how many more there may be. -/
def walk (fs : FileSystem β) (budget : ℕ) (follow : Location → Pieces → Option (ℕ × Location)) :
    Location → Pieces → Option (ℕ × Location)
  | cur, [] => some (budget, cur)
  | cur, p :: ps =>
    if fs.kind cur ≠ some .dir then none
    else if p = "" ∨ p = "." then walk fs budget follow cur ps
    else if p = ".." then walk fs budget follow cur.dropLast ps
    else
      match fs.kind (cur ++ [p]) with
      | none => none
      | some (.link target) => follow (if isAbsolute target then [] else cur) (target ++ ps)
      | some _ => walk fs budget follow (cur ++ [p]) ps

/-- The location a path leads to through at most `budget` links, with what is left of them. -/
def resolveFrom (fs : FileSystem β) : ℕ → Location → Pieces → Option (ℕ × Location)
  | 0 => fs.walk 0 fun _ _ => none
  | budget + 1 => fs.walk (budget + 1) (fs.resolveFrom budget)

/-- The links the system follows before it gives up with `ELOOP`. -/
def maxLinks : ℕ := 40

def resolve (fs : FileSystem β) (path : Pieces) : Option Location :=
  (fs.resolveFrom maxLinks [] path).map (·.2)

theorem walk_append {fs : FileSystem β} {budget : ℕ}
    {follow : Location → Pieces → Option (ℕ × Location)}
    (hself : ∀ cur q, fs.resolveFrom budget cur q = fs.walk budget follow cur q)
    (hfollow : ∀ cur p q, follow cur (p ++ q) =
      (follow cur p).bind fun r => fs.resolveFrom r.1 r.2 q) (p q : Pieces) (cur : Location) :
    fs.walk budget follow cur (p ++ q) =
      (fs.walk budget follow cur p).bind fun r => fs.resolveFrom r.1 r.2 q := by
  induction p generalizing cur with
  | nil => exact (hself cur q).symm
  | cons x xs ih =>
    rw [List.cons_append, walk, walk]
    split
    · rfl
    split
    · exact ih cur
    split
    · exact ih _
    split
    · rfl
    · rw [← List.append_assoc, hfollow]
    · exact ih _

theorem resolveFrom_append (fs : FileSystem β) (budget : ℕ) (cur : Location) (p q : Pieces) :
    fs.resolveFrom budget cur (p ++ q) =
      (fs.resolveFrom budget cur p).bind fun r => fs.resolveFrom r.1 r.2 q := by
  induction budget generalizing cur p q with
  | zero => exact walk_append (fun _ _ => rfl) (fun _ _ _ => rfl) p q cur
  | succ budget ih => exact walk_append (fun _ _ => rfl) ih p q cur

theorem resolveFrom_name {fs : FileSystem β} {l : Location} {n : String} {k : Kind}
    (hk : fs.kind (l ++ [n]) = some k) (hlink : ∀ t, k ≠ .link t) (budget : ℕ) :
    fs.resolveFrom budget l [n] = some (budget, l ++ [n]) := by
  have hwalk : ∀ follow, fs.walk budget follow l [n] = some (budget, l ++ [n]) := by
    intro follow
    have hn := not_special hk
    rw [Special, ← or_assoc, not_or] at hn
    rw [walk, if_neg (not_not.2 (kind_parent hk)), if_neg hn.1, if_neg hn.2, hk]
    cases k with
    | link t => exact absurd rfl (hlink t)
    | file ino => rfl
    | dir => rfl
  cases budget <;> exact hwalk _

theorem resolve_child {fs : FileSystem β} {path : Pieces} {l : Location} {n : String} {k : Kind}
    (h : fs.resolve path = some l) (hk : fs.kind (l ++ [n]) = some k) (hlink : ∀ t, k ≠ .link t) :
    fs.resolve (path ++ [n]) = some (l ++ [n]) := by
  obtain ⟨⟨budget, l'⟩, hr, rfl⟩ := Option.map_eq_some_iff.1 h
  rw [resolve, resolveFrom_append, hr, Option.bind_some, resolveFrom_name hk hlink]
  rfl

section

variable {fs fs' : FileSystem β} {P : Kind → Prop}

theorem walk_transfer (hdir : P .dir) (hlink : ∀ t, P (.link t))
    (h : ∀ l k, fs.kind l = some k → P k → fs'.kind l = some k) {r : ℕ × Location}
    (hend : ∀ k, fs.kind r.2 = some k → P k) {budget : ℕ}
    {follow follow' : Location → Pieces → Option (ℕ × Location)}
    (hfollow : ∀ cur q, follow cur q = some r → follow' cur q = some r) (p : Pieces)
    (cur : Location) (hw : fs.walk budget follow cur p = some r) :
    fs'.walk budget follow' cur p = some r := by
  induction p generalizing cur with
  | nil => exact hw
  | cons x xs ih =>
    rw [walk] at hw ⊢
    split at hw
    · cases hw
    rename_i hcur
    rw [if_neg (not_not.2 (h _ _ (not_not.1 hcur) hdir))]
    split at hw
    · rename_i hx
      rw [if_pos hx]
      exact ih _ hw
    rename_i hx
    rw [if_neg hx]
    split at hw
    · rename_i hx
      rw [if_pos hx]
      exact ih _ hw
    rename_i hx
    rw [if_neg hx]
    split at hw
    · cases hw
    · rename_i t hk
      rw [h _ _ hk (hlink t)]
      exact hfollow _ _ hw
    · rename_i k hkl hk
      by_cases hP : P k
      · rw [h _ _ hk hP]
        cases k with
        | link t => exact absurd rfl (hkl t)
        | file ino => exact ih _ hw
        | dir => exact ih _ hw
      · -- a file that is not the end of the path leads nowhere
        cases xs with
        | nil =>
          cases hw
          exact absurd (hend k hk) hP
        | cons y ys =>
          rw [walk, if_pos] at hw
          · cases hw
          · rw [hk]
            rintro ⟨⟩
            exact hP hdir

theorem resolveFrom_transfer (hdir : P .dir) (hlink : ∀ t, P (.link t))
    (h : ∀ l k, fs.kind l = some k → P k → fs'.kind l = some k) {r : ℕ × Location}
    (hend : ∀ k, fs.kind r.2 = some k → P k) {budget : ℕ} {cur : Location} {q : Pieces}
    (hr : fs.resolveFrom budget cur q = some r) : fs'.resolveFrom budget cur q = some r := by
  induction budget generalizing cur q with
  | zero => exact walk_transfer hdir hlink h hend (fun _ _ h => h) q cur hr
  | succ budget ih => exact walk_transfer hdir hlink h hend (fun _ _ h => ih h) q cur hr

/-- A path leads where it did in another file system that has the same directories and
    links, and the same entry at the end of the path. -/
theorem resolve_transfer (hdir : P .dir) (hlink : ∀ t, P (.link t))
    (h : ∀ l k, fs.kind l = some k → P k → fs'.kind l = some k) {path : Pieces} {l : Location}
    (hr : fs.resolve path = some l) (hend : ∀ k, fs.kind l = some k → P k) :
    fs'.resolve path = some l := by
  obtain ⟨⟨b, l'⟩, hb, rfl⟩ := Option.map_eq_some_iff.1 hr
  rw [resolve, resolveFrom_transfer hdir hlink h hend hb]
  rfl

/-- Files may go without changing where the paths to directories lead. -/
theorem resolve_of_dirs (h : ∀ l k, fs.kind l = some k → k.isFile = false → fs'.kind l = some k)
    {path : Pieces} {l : Location} (hr : fs.resolve path = some l) (hl : fs.kind l = some .dir) :
    fs'.resolve path = some l := by
  refine resolve_transfer (P := fun k => k.isFile = false) rfl (fun _ => rfl) h hr fun k hk => ?_
  rw [hl] at hk
  cases hk
  rfl

/-- A path of a smaller file system leads to the same place in a larger one. -/
theorem resolve_mono (h : ∀ l k, fs.kind l = some k → fs'.kind l = some k) {path : Pieces}
    {l : Location} (hr : fs.resolve path = some l) : fs'.resolve path = some l :=
  resolve_transfer (P := fun _ => True) trivial (fun _ => trivial) (fun l k hk _ => h l k hk) hr
    fun _ _ => trivial

end

theorem resolve_congr {fs fs' : FileSystem β} (h : ∀ l, fs'.kind l = fs.kind l) (path : Pieces) :
    fs'.resolve path = fs.resolve path := by
  ext l
  refine ⟨resolve_mono fun l k hk => ?_, resolve_mono fun l k hk => ?_⟩
  · rw [← h]
    exact hk
  · rw [h]
    exact hk

/-! ## The calls -/

/-- The entry a path names last, trailing slashes apart. -/
def named (fs : FileSystem β) (path : Pieces) : Option Location :=
  match path.reverse.dropWhile (· = "") with
  | [] => none
  | n :: r =>
    if n = "." ∨ n = ".." then none
    else (fs.resolve r.reverse).bind fun d =>
      if (fs.kind (d ++ [n])).isSome then some (d ++ [n]) else none

/-- The entry itself, a link at the end not followed. -/
def lstat (fs : FileSystem β) (path : Pieces) : Option Location :=
  match path.getLast? with
  | none => none
  | some n => if Special n then fs.resolve path else fs.named path

def existsAt (fs : FileSystem β) (path : Pieces) : Bool := (fs.resolve path).isSome

def isDir (fs : FileSystem β) (path : Pieces) : Bool :=
  (fs.resolve path).any fun l => fs.kind l = some .dir

/-- The file a path leads to. -/
def fileAt (fs : FileSystem β) (path : Pieces) : Option ℕ :=
  match (fs.resolve path).bind fs.kind with
  | some (.file ino) => some ino
  | _ => none

def overwrite (fs : FileSystem β) (ino : ℕ) (data : List β) : FileSystem β :=
  { fs with content := Function.update fs.content ino data }

/-- `remove_file`. -/
def removeFile (fs : FileSystem β) (path : Pieces) : Option (FileSystem β) :=
  match fs.lstat path with
  | none => none
  | some l => if fs.kind l = some .dir then none else some (fs.prune l)

/-- `rmdir`: not by `.` or `..`, and nothing but an empty directory. -/
def removeDir (fs : FileSystem β) (path : Pieces) : Option (FileSystem β) :=
  match fs.named path with
  | none => none
  | some l => if fs.kind l = some .dir ∧ fs.readDir l = [] then some (fs.prune l) else none

/-- `remove_dir_all`, and whether it succeeds. A link at the end is removed itself. -/
def removeDirAll (fs : FileSystem β) (path : Pieces) : Bool × FileSystem β :=
  match fs.lstat path with
  | none => (false, fs)
  | some l =>
    match fs.kind l with
    | some (.link _) => (true, fs.prune l)
    | some .dir =>
      match (fs.clear l).removeDir path with
      | some fs' => (true, fs')
      | none => (false, fs.clear l)
    | _ => (false, fs)

/-! ## The end of a path -/

/-- The path up to its trailing slashes, and these. -/
theorem eq_append_slashes (path : Pieces) :
    ∃ slashes : Pieces, (∀ x ∈ slashes, x = "") ∧
      path = (path.reverse.dropWhile (· = "")).reverse ++ slashes := by
  refine ⟨(path.reverse.takeWhile (· = "")).reverse, fun x hx => ?_, ?_⟩
  · simpa using List.mem_takeWhile_imp (List.mem_reverse.1 hx)
  · rw [← List.reverse_append, List.takeWhile_append_dropWhile, List.reverse_reverse]

theorem resolveFrom_slashes {fs : FileSystem β} {l : Location} (hl : fs.kind l = some .dir)
    (budget : ℕ) {slashes : Pieces} (h : ∀ x ∈ slashes, x = "") :
    fs.resolveFrom budget l slashes = some (budget, l) := by
  have hwalk : ∀ follow, fs.walk budget follow l slashes = some (budget, l) := by
    intro follow
    induction slashes with
    | nil => rfl
    | cons x xs ih =>
      rw [walk, if_neg (not_not.2 hl), if_pos (.inl (h x List.mem_cons_self))]
      exact ih fun y hy => h y (List.mem_cons_of_mem x hy)
  cases budget <;> exact hwalk _

theorem named_eq_some {fs : FileSystem β} {path : Pieces} {l : Location}
    (h : fs.named path = some l) : ∃ (d : Location) (n : String) (r slashes : Pieces), l = d ++ [n] ∧
      path = r ++ [n] ++ slashes ∧ (∀ x ∈ slashes, x = "") ∧ fs.resolve r = some d ∧
      fs.kind l ≠ none := by
  unfold named at h
  split at h
  · cases h
  rename_i n r hpath
  split at h
  · cases h
  obtain ⟨d, hd, h⟩ := Option.bind_eq_some_iff.1 h
  split at h
  · rename_i hk
    cases h
    obtain ⟨slashes, hs, he⟩ := eq_append_slashes path
    refine ⟨d, n, r.reverse, slashes, rfl, ?_, hs, hd, Option.isSome_iff_ne_none.1 hk⟩
    rw [hpath, List.reverse_cons] at he
    exact he
  · cases h

theorem resolve_of_named {fs : FileSystem β} {path : Pieces} {l : Location}
    (h : fs.named path = some l) (hl : fs.kind l = some .dir) : fs.resolve path = some l := by
  obtain ⟨d, n, r, slashes, rfl, rfl, hs, hd, -⟩ := named_eq_some h
  obtain ⟨⟨budget, d'⟩, hb, rfl⟩ := Option.map_eq_some_iff.1 hd
  have hname := resolveFrom_name hl (fun _ h => by cases h) budget
  rw [resolve, resolveFrom_append, resolveFrom_append, hb, Option.bind_some, hname,
    Option.bind_some, resolveFrom_slashes hl budget hs]
  rfl

theorem named_of_resolve {fs fs' : FileSystem β} {path : Pieces} {l : Location}
    (h : fs.named path = some l) (hl : fs'.kind l ≠ none)
    (hr : ∀ r d, fs.resolve r = some d → fs.kind d = some .dir → fs'.resolve r = some d) :
    fs'.named path = some l := by
  unfold named at h ⊢
  split at h
  · cases h
  rename_i n r hpath
  split at h
  · cases h
  rename_i hn
  obtain ⟨d, hd, h⟩ := Option.bind_eq_some_iff.1 h
  split at h
  · rename_i hk
    cases h
    obtain ⟨k, hk⟩ := Option.isSome_iff_exists.1 hk
    rw [if_neg hn, hr _ _ hd (kind_parent hk), Option.bind_some,
      if_pos (Option.isSome_iff_ne_none.2 hl)]
  · cases h

theorem named_mono {fs fs' : FileSystem β} (h : ∀ l k, fs.kind l = some k → fs'.kind l = some k)
    {path : Pieces} {l : Location} (hn : fs.named path = some l) : fs'.named path = some l := by
  obtain ⟨d, n, r, slashes, -, -, -, -, hk⟩ := named_eq_some hn
  obtain ⟨k, hk⟩ := Option.ne_none_iff_exists'.1 hk
  refine named_of_resolve hn ?_ fun r d hd _ => resolve_mono h hd
  rw [h l k hk]
  exact Option.some_ne_none k

theorem named_congr {fs fs' : FileSystem β} (h : ∀ l, fs'.kind l = fs.kind l) (path : Pieces) :
    fs'.named path = fs.named path := by
  ext l
  refine ⟨named_mono fun l k hk => ?_, named_mono fun l k hk => ?_⟩
  · rw [← h]
    exact hk
  · rw [h]
    exact hk

theorem lstat_congr {fs fs' : FileSystem β} (h : ∀ l, fs'.kind l = fs.kind l) (path : Pieces) :
    fs'.lstat path = fs.lstat path := by
  unfold lstat
  rw [resolve_congr h, named_congr h]

theorem dropWhile_concat {r : Pieces} {n : String} (hn : n ≠ "") :
    (r ++ [n]).reverse.dropWhile (· = "") = n :: r.reverse := by
  rw [List.reverse_append, List.reverse_singleton, List.singleton_append, List.dropWhile_cons, if_neg]
  rw [decide_eq_true_eq]
  exact hn

theorem lstat_child {fs : FileSystem β} {path : Pieces} {l : Location} {n : String} {k : Kind}
    (h : fs.resolve path = some l) (hk : fs.kind (l ++ [n]) = some k) :
    fs.lstat (path ++ [n]) = some (l ++ [n]) := by
  have hn := not_special hk
  rw [lstat, List.getLast?_concat]
  dsimp only
  rw [if_neg hn, named, dropWhile_concat fun e => hn (.inl e)]
  dsimp only
  rw [if_neg fun e => hn (.inr e), List.reverse_reverse, h, Option.bind_some, hk]
  rfl

/-- A path that leads to a directory ends with that directory or with a link. -/
theorem lstat_of_resolve {fs : FileSystem β} {path : Pieces} {l : Location} (hne : path ≠ [])
    (h : fs.resolve path = some l) (hl : fs.kind l = some .dir) :
    fs.lstat path = some l ∨ ∃ x t, fs.lstat path = some x ∧ fs.kind x = some (.link t) := by
  obtain ⟨r, n, rfl⟩ : ∃ r n, path = r ++ [n] :=
    ⟨path.dropLast, path.getLast hne, (List.dropLast_append_getLast hne).symm⟩
  rw [lstat, List.getLast?_concat]
  dsimp only
  split
  · exact .inl h
  rename_i hn
  rw [named, dropWhile_concat fun e => hn (.inl e)]
  dsimp only
  rw [if_neg fun e => hn (.inr e), List.reverse_reverse]
  -- the part before the last name leads to a directory, which has an entry of that name
  rw [resolve, resolveFrom_append] at h
  obtain ⟨⟨b, l'⟩, hbind, rfl⟩ := Option.map_eq_some_iff.1 h
  obtain ⟨⟨budget, d⟩, hd, hlast⟩ := Option.bind_eq_some_iff.1 hbind
  rw [resolve, hd, Option.map_some, Option.bind_some]
  dsimp only
  have hwalk : ∀ follow, fs.walk budget follow d [n] = some (b, l') →
      l' = d ++ [n] ∨ ∃ t, fs.kind (d ++ [n]) = some (.link t) := by
    intro follow hw
    rw [walk] at hw
    split at hw
    · cases hw
    split at hw
    · rename_i e
      exact absurd (e.imp_right .inl) hn
    split at hw
    · rename_i e
      exact absurd (.inr (.inr e)) hn
    split at hw
    · cases hw
    · rename_i t hk
      exact .inr ⟨t, hk⟩
    · cases hw
      exact .inl rfl
  have hcase : l' = d ++ [n] ∨ ∃ t, fs.kind (d ++ [n]) = some (.link t) := by
    cases budget <;> exact hwalk _ hlast
  rcases hcase with rfl | ⟨t, ht⟩
  · dsimp only at hl
    rw [hl]
    exact .inl rfl
  · rw [ht]
    exact .inr ⟨_, t, rfl, ht⟩

/-! ## Emptied directories -/

theorem eq_of_prefix_of_empty {fs : FileSystem β} {d l : Location} (h : fs.readDir d = []) (hp : d <+: l)
    (hl : fs.kind l ≠ none) : l = d := by
  obtain ⟨r, rfl⟩ := hp
  cases r with
  | nil => exact List.append_nil d
  | cons n r =>
    -- an entry further down would need one directly below `d`
    obtain ⟨k, hk⟩ := Option.ne_none_iff_exists'.1 hl
    have hn : fs.kind (d ++ [n]) ≠ none := by
      by_cases e : d ++ [n] = d ++ n :: r
      · rwa [e]
      · rw [kind_above hk ⟨r, by rw [List.append_assoc]; rfl⟩ e]
        exact Option.some_ne_none _
    have := mem_readDir.2 hn
    rw [h] at this
    cases this

theorem kind_clear_of_mem {fs : FileSystem β} {d l : Location} {k : Kind}
    (h : (fs.clear d).kind l = some k) : fs.kind l = some k := by
  rw [kind_clear] at h
  split at h
  · cases h
  · exact h

theorem kind_clear_self (fs : FileSystem β) (d : Location) : (fs.clear d).kind d = fs.kind d := by
  rw [kind_clear, if_neg fun h => h.2 rfl]

theorem readDir_clear (fs : FileSystem β) (d : Location) : (fs.clear d).readDir d = [] := by
  refine List.eq_nil_iff_forall_not_mem.2 fun n hn => mem_readDir.1 hn ?_
  rw [kind_clear, if_pos]
  exact ⟨List.prefix_append _ _, fun h => by simpa using congrArg List.length h⟩

theorem ne_nil_of_named {fs : FileSystem β} {path : Pieces} {l : Location}
    (h : fs.named path = some l) : l ≠ [] := by
  obtain ⟨d, n, r, slashes, rfl, -⟩ := named_eq_some h
  exact List.append_ne_nil_of_right_ne_nil _ (List.cons_ne_nil _ _)

/-- A directory a path leads to is removed with its content if the path still names it when it
    is empty; otherwise it is only emptied. -/
theorem removeDirAll_dir {fs : FileSystem β} {path : Pieces} {d : Location}
    (hr : fs.resolve path = some d) (hd : fs.kind d = some .dir) (hl : fs.lstat path = some d) :
    fs.removeDirAll path = if (fs.clear d).named path = some d then (true, (fs.clear d).prune d)
      else (false, fs.clear d) := by
  have hremove : (fs.clear d).removeDir path =
      if (fs.clear d).named path = some d then some ((fs.clear d).prune d) else none := by
    unfold removeDir
    split
    · rename_i hn
      rw [hn, if_neg fun h => by cases h]
    · rename_i l hn
      rw [hn]
      by_cases e : l = d
      · subst e
        rw [if_pos rfl, if_pos ⟨(kind_clear_self fs l).trans hd, readDir_clear fs l⟩]
      · rw [if_neg fun h => e (Option.some.inj h), if_neg]
        rintro ⟨hk, -⟩
        have := resolve_mono (fun _ _ h => kind_clear_of_mem h) (resolve_of_named hn hk)
        exact e (Option.some.inj (this.symm.trans hr))
  rw [removeDirAll, hl]
  dsimp only
  rw [hd]
  dsimp only
  rw [hremove]
  split
  · rename_i fs' h
    split at h
    · rename_i hn
      rw [if_pos hn, ← Option.some.inj h]
    · cases h
  · rename_i h
    split at h
    · cases h
    · rename_i hn
      rw [if_neg hn]

theorem not_prefix_of_dir {fs : FileSystem β} {l d : Location} (hl : fs.kind l ≠ some .dir)
    (hd : fs.kind d = some .dir) : ¬ l <+: d := by
  intro hp
  by_cases e : l = d
  · rw [e] at hl
    exact hl hd
  · exact hl (kind_above hd hp e)

theorem ne_nil_of_not_dir {fs : FileSystem β} {l : Location} (hl : fs.kind l ≠ some .dir) : l ≠ [] := by
  rintro rfl
  exact hl fs.kind_root

theorem resolve_of_lstat {fs : FileSystem β} {path : Pieces} {l : Location}
    (h : fs.lstat path = some l) (hl : fs.kind l = some .dir) : fs.resolve path = some l := by
  unfold lstat at h
  split at h
  · cases h
  split at h
  · exact h
  · exact resolve_of_named h hl

/-- Removal takes a directory away only from where the path leads. -/
theorem kind_removeDirAll {fs : FileSystem β} {path : Pieces} {d : Location}
    (hd : fs.kind d = some .dir) (h : ∀ l, fs.resolve path = some l → ¬ l <+: d) :
    (fs.removeDirAll path).2.kind d = some .dir := by
  cases hl : fs.lstat path with
  | none =>
    rw [removeDirAll, hl]
    exact hd
  | some l =>
    by_cases hk : fs.kind l = some .dir
    · have hr := resolve_of_lstat hl hk
      have hp := h l hr
      have hclear : (fs.clear l).kind d = some .dir := by
        rw [kind_clear, if_neg fun h => hp h.1]
        exact hd
      rw [removeDirAll_dir hr hk hl]
      split
      · have hne : l ≠ [] := fun e => hp (e ▸ List.nil_prefix)
        rw [kind_prune hne, if_neg hp]
        exact hclear
      · exact hclear
    · have hprune : (fs.prune l).kind d = some .dir := by
        rw [kind_prune (ne_nil_of_not_dir hk), if_neg (not_prefix_of_dir hk hd)]
        exact hd
      rw [removeDirAll, hl]
      dsimp only
      split
      · exact hprune
      · rename_i hdir
        exact absurd hdir hk
      · exact hd

theorem lstat_of_named {fs : FileSystem β} {path : Pieces} {l : Location}
    (h : fs.named path = some l) (hl : fs.kind l = some .dir) : fs.lstat path = some l := by
  obtain ⟨d, n, r, slashes, -, rfl, -⟩ := named_eq_some h
  have hne : r ++ [n] ++ slashes ≠ [] := by simp
  rw [lstat, List.getLast?_eq_some_getLast hne]
  dsimp only
  split
  · exact resolve_of_named h hl
  · exact h

end FileSystem
end TgCryptFs.Library

import TgCryptFs.Library.FileSystem

set_option autoImplicit false

/-!
# Making directories and files

A directory is made with all that are missing on the way to it. A file that is written is made
where the path, and the links at its end, lead to a free name.
-/
namespace TgCryptFs.Library.FileSystem

variable {β : Type}

/-! ## Content -/

theorem kind_overwrite (fs : FileSystem β) (ino : ℕ) (data : List β) (l : Location) :
    (fs.overwrite ino data).kind l = fs.kind l := rfl

theorem content_overwrite (fs : FileSystem β) (ino : ℕ) (data : List β) :
    (fs.overwrite ino data).content ino = data := Function.update_self _ _ _

theorem fileAt_congr {fs fs' : FileSystem β} (h : ∀ l, fs'.kind l = fs.kind l) (path : Pieces) :
    fs'.fileAt path = fs.fileAt path := by
  have hkind : fs'.kind = fs.kind := funext h
  unfold fileAt
  rw [resolve_congr h, hkind]

theorem fileAt_overwrite (fs : FileSystem β) (ino : ℕ) (data : List β) (path : Pieces) :
    (fs.overwrite ino data).fileAt path = fs.fileAt path := fileAt_congr (kind_overwrite fs ino data) path

theorem existsAt_of_fileAt {fs : FileSystem β} {path : Pieces} {ino : ℕ} (h : fs.fileAt path = some ino) :
    fs.existsAt path = true := by
  unfold fileAt at h
  unfold existsAt
  cases hr : fs.resolve path with
  | none =>
    rw [hr] at h
    cases h
  | some l => rfl

/-! ## Directories -/

/-- `mkdir` in a directory, unless the name is taken. -/
def mkdir (fs : FileSystem β) (d : Location) (n : String) : Option (FileSystem β) :=
  if h : fs.kind d = some .dir ∧ ¬ Special n ∧ fs.kind (d ++ [n]) = none then
    some
      { fs with
        entries := fs.entries ++ [(d ++ [n], .dir)]
        nodup := by
          rw [List.map_append]
          refine fs.nodup.append (List.nodup_singleton _) fun x hx hx' => ?_
          obtain ⟨⟨l, k⟩, he, rfl⟩ := List.mem_map.1 hx
          obtain rfl : l = d ++ [n] := List.mem_singleton.1 hx'
          exact absurd ((kind_eq_some.2 he).symm.trans h.2.2) (Option.some_ne_none k)
        root := List.mem_append_left _ fs.root
        parent := fun l m k hk => by
          rcases List.mem_append.1 hk with hk | hk
          · exact List.mem_append_left _ (fs.parent l m k hk)
          · obtain ⟨rfl, -⟩ := List.append_inj' (Prod.mk.inj (List.mem_singleton.1 hk)).1 rfl
            exact List.mem_append_left _ (kind_eq_some.1 h.1)
        name := fun l m k hk => by
          rcases List.mem_append.1 hk with hk | hk
          · exact fs.name l m k hk
          · obtain ⟨-, hm⟩ := List.append_inj' (Prod.mk.inj (List.mem_singleton.1 hk)).1 rfl
            rw [List.singleton_inj.1 hm]
            exact h.2.1 }
  else none

/-- `create_dir_all` behind the pieces `done`, and whether it succeeds. -/
def createDirAllFrom (fs : FileSystem β) (done : Pieces) : Pieces → Bool × FileSystem β
  | [] => (true, fs)
  | n :: path =>
    if fs.isDir (done ++ [n]) then createDirAllFrom fs (done ++ [n]) path
    else
      match (fs.resolve done).bind fun d => fs.mkdir d n with
      | none => (false, fs)
      | some fs' => createDirAllFrom fs' (done ++ [n]) path

def createDirAll (fs : FileSystem β) (path : Pieces) : Bool × FileSystem β :=
  fs.createDirAllFrom [] path

/-! ## Files -/

/-- The directory and the free name that a path leads to, through links at its end. -/
def vacant (fs : FileSystem β) : ℕ → Location → Pieces → Option (Location × String)
  | 0, _, _ => none
  | budget + 1, cur, path =>
    match path.getLast?, fs.resolveFrom maxLinks cur path.dropLast with
    | some n, some (_, d) =>
      if fs.kind d ≠ some .dir ∨ Special n then none
      else
        match fs.kind (d ++ [n]) with
        | none => some (d, n)
        | some (.link target) => fs.vacant budget (if isAbsolute target then [] else d) target
        | some _ => none
    | _, _ => none

/-- `fs::write`: the file is made if it is not there. -/
def write (fs : FileSystem β) (path : Pieces) (data : List β) : Option (FileSystem β) :=
  match fs.fileAt path with
  | some ino => some (fs.overwrite ino data)
  | none =>
    (fs.vacant (maxLinks + 1) [] path).bind fun place =>
      let fs' := fs.create place.1 place.2
      (fs'.fileAt path).map fun ino => fs'.overwrite ino data

/-- What has been written is what the path leads to. -/
theorem fileAt_write {fs fs' : FileSystem β} {path : Pieces} {data : List β}
    (h : fs.write path data = some fs') : ∃ ino, fs'.fileAt path = some ino ∧ fs'.content ino = data := by
  unfold write at h
  split at h
  · rename_i ino hino
    obtain rfl := Option.some.inj h
    exact ⟨ino, (fileAt_overwrite _ ino data path).trans hino, content_overwrite fs ino data⟩
  · obtain ⟨place, -, h⟩ := Option.bind_eq_some_iff.1 h
    obtain ⟨ino, hino, rfl⟩ := Option.map_eq_some_iff.1 h
    exact ⟨ino, (fileAt_overwrite _ ino data path).trans hino, content_overwrite _ ino data⟩

end TgCryptFs.Library.FileSystem

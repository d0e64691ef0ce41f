import TgCryptFs.Fuse.Fs

set_option autoImplicit false

namespace TgCryptFs
open Library

/-- A call that leaves the inode table and the transaction alone. -/
def Op.sparesInodes : Op → Bool
  | .insert _ | .update _ _ | .delete _ _ | .begin | .commit | .rollback => false
  | _ => true

/-- A call that leaves the handle table alone. -/
def Op.sparesHandles : Op → Bool
  | .handleOpen _ _ | .handleUpdate _ _ | .handleClose _ => false
  | _ => true

/-- A call that leaves the block records, the transport and the cache alone. -/
def Op.sparesData : Op → Bool
  | .incrementRef _ | .blockInsert _ | .upload _ _ | .cacheGet _ _ | .cachePut _ _ _ => false
  | _ => true

/-- A call that does not look at the handle table. -/
def Op.ignoresHandles : Op → Bool
  | .handleOpen _ _ | .handleGet _ | .handleUpdate _ _ | .handleClose _ => false
  | _ => true

/-- A call on the stored data, at most. -/
def Op.passive (o : Op) : Prop := o.sparesInodes = true ∧ o.sparesHandles = true

/-- A passive call that ignores the handles. -/
def Op.dataOnly (o : Op) : Prop := o.sparesInodes = true ∧ o.ignoresHandles = true

/-- A call on the inode table, at most. -/
def Op.inodesOnly (o : Op) : Prop := o.sparesHandles = true ∧ o.sparesData = true

/-- A call that changes nothing. -/
def Op.query (o : Op) : Prop := o.sparesInodes = true ∧ o.sparesHandles = true ∧ o.sparesData = true

/-- A call that changes the cache, at most. -/
def Op.cacheOnly : Op → Bool
  | .get _ _ | .handleGet _ | .cacheGet _ _ | .cachePut _ _ _ | .download _ _ => true
  | _ => false

theorem Op.passive_of_cacheOnly {o : Op} (h : o.cacheOnly = true) : o.passive := by
  cases o <;> first | exact ⟨rfl, rfl⟩ | cases h

theorem Op.dataOnly_of_cacheOnly {o : Op} (h : o.cacheOnly = true ∧ o.ignoresHandles = true) :
    o.dataOnly :=
  ⟨(Op.passive_of_cacheOnly h.1).1, h.2⟩

theorem uses_downloadBlock (m : Mount) (i : ℕ) (messageId : ℤ) (rid : Bytes) :
    (downloadBlock m i messageId rid).Uses fun o => o.cacheOnly = true ∧ o.ignoresHandles = true := by
  refine ⟨⟨rfl, rfl⟩, fun x => ?_⟩
  cases x with
  | ok data => trivial
  | error e =>
    dsimp only
    split
    · trivial
    split
    · trivial
    refine ⟨⟨rfl, rfl⟩, fun y => ?_⟩
    cases y with
    | none => trivial
    | some data => exact ⟨⟨rfl, rfl⟩, fun _ => trivial⟩

theorem uses_readBlocks (m : Mount) (offset size : ℕ) (bps : List BlockPointer) (i : ℕ) (buf : Bytes) :
    (readBlocks m offset size bps i buf).Uses
      fun o => o.cacheOnly = true ∧ o.ignoresHandles = true := by
  induction bps generalizing i buf with
  | nil => trivial
  | cons bp rest ih =>
    refine CallTree.uses_bind (uses_downloadBlock m i bp.messageId bp.rid) fun a => ?_
    cases a with
    | none => trivial
    | some data => exact ih _ _

theorem uses_readManifest (m : Mount) (inode : Inode) (offset size : ℕ) :
    (readManifest m inode offset size).Uses
      fun o => o.cacheOnly = true ∧ o.ignoresHandles = true := by
  unfold readManifest
  split
  · trivial
  split
  · trivial
  refine CallTree.uses_bind (uses_readBlocks _ _ _ _ _ _) fun a => ?_
  cases a with
  | none => trivial
  | some buf =>
    dsimp only
    split <;> trivial

theorem uses_read (m : Mount) (ino fh offset size : ℕ) :
    (read m ino fh offset size).Uses fun o => o.cacheOnly = true := by
  refine ⟨rfl, fun x => ?_⟩
  rcases x with e | (_ | inode)
  · trivial
  · trivial
  dsimp only
  split
  · trivial
  refine ⟨rfl, fun h => ?_⟩
  cases h with
  | none => exact (uses_readManifest m inode offset size).mono fun _ h => h.1
  | some handle =>
    dsimp only
    split
    · trivial
    · exact (uses_readManifest m inode offset size).mono fun _ h => h.1

theorem uses_getattr (ino : ℕ) : (getattr ino).Uses Op.query := by
  refine ⟨⟨rfl, rfl, rfl⟩, fun x => ?_⟩
  rcases x with e | (_ | i) <;> trivial

theorem uses_lookup (parent : ℕ) (name : OsStr) :
    (lookup parent name).Uses Op.query := by
  cases name with
  | invalid raw => trivial
  | utf8 name =>
    refine ⟨⟨rfl, rfl, rfl⟩, fun x => ?_⟩
    rcases x with e | (_ | i) <;> trivial

theorem uses_openFile (ino : ℕ) (flags : ℤ) :
    (openFile ino flags).Uses fun o => o.sparesInodes = true ∧ o.sparesData = true := by
  refine ⟨⟨rfl, rfl⟩, fun x => ?_⟩
  rcases x with e | (_ | i)
  · trivial
  · trivial
  · exact ⟨⟨rfl, rfl⟩, fun _ => trivial⟩

theorem uses_readdir (ino offset capacity : ℕ) :
    (readdir ino offset capacity).Uses Op.query := by
  refine ⟨⟨rfl, rfl, rfl⟩, fun x => ?_⟩
  rcases x with e | (_ | i)
  · trivial
  · trivial
  dsimp only
  split
  · trivial
  refine ⟨⟨rfl, rfl, rfl⟩, fun y => ?_⟩
  cases y <;> trivial

theorem uses_readlink (ino : ℕ) : (readlink ino).Uses Op.query := by
  refine ⟨⟨rfl, rfl, rfl⟩, fun x => ?_⟩
  rcases x with e | (_ | i)
  · trivial
  · trivial
  dsimp only
  split <;> trivial

variable [Primitives]

theorem uses_uploadNew (m : Mount) (ino : ℕ) (data : Bytes) :
    (uploadNew m ino data).Uses Op.passive := by
  refine ⟨⟨rfl, rfl⟩, fun x => ?_⟩
  cases x with
  | none => trivial
  | some messageId =>
    refine ⟨⟨rfl, rfl⟩, fun rid => ⟨⟨rfl, rfl⟩, fun y => ?_⟩⟩
    cases y with
    | error e => trivial
    | ok _ => exact ⟨⟨rfl, rfl⟩, fun _ => trivial⟩

theorem uses_flushToTransport (m : Mount) (ino : ℕ) (data : Bytes) :
    (flushToTransport m ino data).Uses Op.passive := by
  unfold flushToTransport
  split
  · trivial
  split
  · trivial
  refine ⟨⟨rfl, rfl⟩, fun x => ?_⟩
  rcases x with e | (_ | existing)
  · exact uses_uploadNew m ino data
  · exact uses_uploadNew m ino data
  · exact ⟨⟨rfl, rfl⟩, fun _ => trivial⟩

end TgCryptFs

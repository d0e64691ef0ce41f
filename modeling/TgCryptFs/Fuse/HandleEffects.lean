import TgCryptFs.Fuse.Effects

set_option autoImplicit false

/-!
# What a request does to the handle table

Only `create`, `open`, `write` and `release` touch it.
-/
namespace TgCryptFs
open Library

theorem uses_init (m : Mount) : (init m).Uses Op.inodesOnly := by
  refine ⟨⟨rfl, rfl⟩, fun x => ?_⟩
  rcases x with e | (_ | i)
  · trivial
  · refine ⟨⟨rfl, rfl⟩, fun _ => ⟨⟨rfl, rfl⟩, fun y => ?_⟩⟩
    cases y <;> trivial
  · trivial

theorem uses_setattr (ino : ℕ) (c : AttrChange) :
    (setattr ino c).Uses Op.inodesOnly := by
  refine ⟨⟨rfl, rfl⟩, fun x => ?_⟩
  rcases x with e | (_ | i)
  · trivial
  · trivial
  refine ⟨⟨rfl, rfl⟩, fun _ => ⟨⟨rfl, rfl⟩, fun _ => ⟨⟨rfl, rfl⟩, fun _ => ⟨⟨rfl, rfl⟩, fun y => ?_⟩⟩⟩⟩
  cases y <;> trivial

theorem uses_linkEntry (p inode : Inode) (dir : Bool) :
    (linkEntry p inode dir).Uses Op.inodesOnly := by
  refine ⟨⟨rfl, rfl⟩, fun x => ?_⟩
  cases x with
  | error e => trivial
  | ok _ =>
    refine ⟨⟨rfl, rfl⟩, fun y => ?_⟩
    cases y with
    | error e => exact ⟨⟨rfl, rfl⟩, fun _ => trivial⟩
    | ok _ =>
      refine ⟨⟨rfl, rfl⟩, fun z => ?_⟩
      cases z with
      | error e => exact ⟨⟨rfl, rfl⟩, fun _ => trivial⟩
      | ok _ =>
        refine ⟨⟨rfl, rfl⟩, fun w => ?_⟩
        cases w <;> trivial

theorem uses_linkFresh (p : Inode) (make : ℕ → ℤ → Inode) (dir : Bool) :
    (linkFresh p make dir).Uses Op.inodesOnly := by
  refine ⟨⟨rfl, rfl⟩, fun y => ?_⟩
  cases y with
  | error e => trivial
  | ok ino => exact ⟨⟨rfl, rfl⟩, fun t => uses_linkEntry _ _ _⟩

theorem uses_linkNew (parent : ℕ) (name : String) (make : ℕ → ℤ → Inode) (dir : Bool) :
    (linkNew parent name make dir).Uses Op.inodesOnly := by
  refine ⟨⟨rfl, rfl⟩, fun x => ?_⟩
  rcases x with e | (_ | p)
  · trivial
  · trivial
  dsimp only
  split
  · trivial
  refine ⟨⟨rfl, rfl⟩, fun x => ?_⟩
  rcases x with e | (_ | i)
  · exact uses_linkFresh p make dir
  · exact uses_linkFresh p make dir
  · trivial

theorem uses_mkdir (c : Caller) (parent : ℕ) (name : OsStr) (mode : ℕ) :
    (mkdir c parent name mode).Uses Op.inodesOnly := by
  cases name with
  | invalid raw => trivial
  | utf8 name =>
    refine CallTree.uses_bind (uses_linkNew _ _ _ _) fun a => ?_
    cases a <;> trivial

theorem uses_editRow (getSite updateSite : Site) (ino : ℕ) (f : Inode → Inode) :
    (editRow getSite updateSite ino f).Uses Op.inodesOnly := by
  refine ⟨⟨rfl, rfl⟩, fun x => ?_⟩
  rcases x with e | (_ | p)
  · trivial
  · trivial
  · exact ⟨⟨rfl, rfl⟩, fun _ => trivial⟩

theorem uses_removeEntry (parent : ℕ) (inode : Inode) (dir : Bool) :
    (removeEntry parent inode dir).Uses Op.inodesOnly := by
  refine ⟨⟨rfl, rfl⟩, fun x => ?_⟩
  cases x with
  | error e => trivial
  | ok _ =>
    refine CallTree.uses_bind (uses_editRow _ _ _ _) fun _ => ⟨⟨rfl, rfl⟩, fun y => ?_⟩
    cases y with
    | error e => exact ⟨⟨rfl, rfl⟩, fun _ => trivial⟩
    | ok _ => exact ⟨⟨rfl, rfl⟩, fun _ => trivial⟩

theorem uses_unlink (parent : ℕ) (name : OsStr) :
    (unlink parent name).Uses Op.inodesOnly := by
  cases name with
  | invalid raw => trivial
  | utf8 name =>
    refine ⟨⟨rfl, rfl⟩, fun x => ?_⟩
    rcases x with e | (_ | i)
    · trivial
    · trivial
    dsimp only
    split
    · trivial
    · exact uses_removeEntry _ _ _

theorem uses_rmdir (parent : ℕ) (name : OsStr) :
    (rmdir parent name).Uses Op.inodesOnly := by
  cases name with
  | invalid raw => trivial
  | utf8 name =>
    refine ⟨⟨rfl, rfl⟩, fun x => ?_⟩
    rcases x with e | (_ | i)
    · trivial
    · trivial
    dsimp only
    split
    · trivial
    split
    · trivial
    · exact uses_removeEntry _ _ _

theorem uses_moveEntry (parent newparent : ℕ) (newname : String) (inode : Inode) :
    (moveEntry parent newparent newname inode).Uses Op.inodesOnly :=
  CallTree.uses_bind (uses_editRow _ _ _ _) fun _ => ⟨⟨rfl, rfl⟩, fun _ => ⟨⟨rfl, rfl⟩, fun _ =>
    CallTree.uses_bind (uses_editRow _ _ _ _) fun _ => ⟨⟨rfl, rfl⟩, fun _ => trivial⟩⟩⟩

theorem uses_rename (parent : ℕ) (name : OsStr) (newparent : ℕ) (newname : OsStr) :
    (rename parent name newparent newname).Uses Op.inodesOnly := by
  rcases name with name | raw
  case invalid => trivial
  rcases newname with newname | raw
  case invalid => trivial
  refine ⟨⟨rfl, rfl⟩, fun x => ?_⟩
  rcases x with e | (_ | i)
  · trivial
  · trivial
  refine ⟨⟨rfl, rfl⟩, fun x => ?_⟩
  cases x with
  | error e => trivial
  | ok _ =>
    refine ⟨⟨rfl, rfl⟩, fun x => ?_⟩
    rcases x with e | (_ | d)
    · exact uses_moveEntry _ _ _ _
    · exact uses_moveEntry _ _ _ _
    dsimp only
    split
    · trivial
    · exact ⟨⟨rfl, rfl⟩,
        fun _ => CallTree.uses_bind (uses_editRow _ _ _ _) fun _ => uses_moveEntry _ _ _ _⟩

theorem uses_symlink (c : Caller) (parent : ℕ) (name target : OsStr) :
    (symlink c parent name target).Uses Op.inodesOnly := by
  rcases name with name | raw
  case invalid => trivial
  rcases target with target | raw
  case invalid => trivial
  refine ⟨⟨rfl, rfl⟩, fun x => ?_⟩
  rcases x with e | (_ | p)
  · trivial
  · trivial
  dsimp only
  split
  · trivial
  refine ⟨⟨rfl, rfl⟩, fun x => ?_⟩
  cases x with
  | error e => trivial
  | ok ino =>
    refine ⟨⟨rfl, rfl⟩, fun _ => ⟨⟨rfl, rfl⟩, fun y => ?_⟩⟩
    cases y with
    | error e => trivial
    | ok _ => exact ⟨⟨rfl, rfl⟩, fun _ => trivial⟩

variable [Primitives]

theorem uses_flushOpen (m : Mount) (ino fh : ℕ) :
    (flushOpen m ino fh).Uses fun o => o.sparesHandles = true := by
  refine ⟨rfl, fun h => ?_⟩
  cases h with
  | none => trivial
  | some handle =>
    dsimp only
    split
    · refine CallTree.uses_bind ((uses_flushToTransport m ino _).mono fun _ h => h.2) fun block => ?_
      cases block with
      | none => trivial
      | some block =>
        refine ⟨rfl, fun x => ?_⟩
        rcases x with e | (_ | i)
        · trivial
        · trivial
        · exact ⟨rfl, fun _ => trivial⟩
    · trivial

theorem handles_serve (env : Env) (o : Op) (s : System) (ho : o.sparesHandles = true) :
    (env.serve o s).2.handles = s.handles := by
  cases o with
  | handleOpen | handleUpdate | handleClose => cases ho
  | begin =>
    rw [Env.serve_begin]
    split <;> rfl
  | insert i =>
    rw [Env.serve_insert]
    split <;> rfl
  | update site i =>
    rw [Env.serve_update]
    split <;> rfl
  | delete site ino =>
    rw [Env.serve_delete]
    split <;> rfl
  | incrementRef | blockInsert =>
    simp only [Env.serve, Env.modifyBlocks]
    split <;> rfl
  | cacheGet | cachePut =>
    simp only [Env.serve]
    split <;> rfl
  | _ => rfl

theorem handles_run {α : Type} (env : Env) (p : Fuse α)
    (hp : p.Uses fun o => o.sparesHandles = true) (s : System) :
    (p.run env.serve s).2.handles = s.handles :=
  CallTree.always_run env.serve _ p s
    (CallTree.always_of_uses env.serve (fun s' => s'.handles = s.handles) _
      (fun o s' ho h => (handles_serve env o s' ho).trans h) p hp s rfl)

/-- What `env` and a request can do to the handle table of `s`. -/
inductive HandleEffect (s : System) : Request → Reply → HandleTable → Prop where
  | same {req : Request} {r : Reply} : HandleEffect s req r s.handles
  | opened {ino : ℕ} {flags : ℤ} {i : Inode} (hi : s.inodes.find ino = some i) :
      HandleEffect s (.openFile ino flags) (.opened s.handles.nextFh) (s.handles.openHandle ino flags).2
  | created {c : Caller} {parent mode : ℕ} {name : OsStr} {flags : ℤ} {a : FileAttr} :
      HandleEffect s (.create c parent name mode flags) (.created a s.handles.nextFh)
        (s.handles.openHandle a.ino flags).2
  | written {ino fh offset : ℕ} {data : Bytes} {r : Reply} :
      HandleEffect s (.write ino fh offset data) r (s.handles.update fh (bufferWrite offset data)).2
  | released {ino fh : ℕ} {r : Reply} : HandleEffect s (.release ino fh) r (s.handles.close fh).2

theorem handleEffect_openFile (env : Env) (s : System) (ino : ℕ) (flags : ℤ) :
    HandleEffect s (.openFile ino flags) ((openFile ino flags).run env.serve s).1
      ((openFile ino flags).run env.serve s).2.handles := by
  rw [openFile, CallTree.run_call, Env.snd_serve_get, Env.fst_serve_get]
  rcases hg : env.read .find (.ok (InodeStore.get s.inodes ino)) with e | (_ | i)
  · exact .same
  · exact .same
  · exact .opened (Env.read_ok_eq_ok hg).2

theorem handleEffect_create (env : Env) (s : System) (c : Caller) (parent : ℕ) (name : OsStr)
    (mode : ℕ) (flags : ℤ) :
    HandleEffect s (.create c parent name mode flags)
      ((create c parent name mode flags).run env.serve s).1
      ((create c parent name mode flags).run env.serve s).2.handles := by
  cases name with
  | invalid raw => exact .same
  | utf8 name =>
    rw [create, OsStr.toStr, CallTree.run_bind]
    have hh := handles_run env _ ((uses_linkNew parent name
      (fun ino now => Inode.newFile ino parent name mode c.uid c.gid now) false).mono fun _ h => h.1) s
    generalize (linkNew parent name (fun ino now => Inode.newFile ino parent name mode c.uid c.gid now)
      false).run env.serve s = u at hh ⊢
    obtain ⟨x, s₁⟩ := u
    dsimp only at hh ⊢
    cases x with
    | error e =>
      rw [CallTree.run_ret, hh]
      exact .same
    | ok file =>
      change HandleEffect s _ (.created (inodeToAttr file) s₁.handles.nextFh)
        (s₁.handles.openHandle file.ino flags).2
      rw [hh]
      exact @HandleEffect.created _ s c parent mode (.utf8 name) flags (inodeToAttr file)

theorem handles_write (env : Env) (s : System) (ino fh offset : ℕ) (data : Bytes) :
    ((write ino fh offset data).run env.serve s).2.handles =
      (s.handles.update fh (bufferWrite offset data)).2 := by
  rw [write, CallTree.run_call, handles_run]
  · rfl
  split
  · refine ⟨rfl, fun h => ?_⟩
    cases h with
    | none => trivial
    | some handle =>
      refine ⟨rfl, fun x => ?_⟩
      rcases x with e | (_ | i)
      · trivial
      · trivial
      · exact ⟨rfl, fun _ => ⟨rfl, fun _ => trivial⟩⟩
  · trivial

theorem handles_release (env : Env) (s : System) (ino fh : ℕ) :
    ((release s.mount ino fh).run env.serve s).2.handles = (s.handles.close fh).2 := by
  rw [release, CallTree.run_bind, CallTree.run_call, CallTree.run_ret]
  change (HandleTable.close ((flushOpen s.mount ino fh).run env.serve s).2.handles fh).2 = _
  rw [handles_run env _ (uses_flushOpen s.mount ino fh)]

/-- Everything a request can do to the handle table. -/
theorem exec_handleEffect (env : Env) (req : Request) (s : System) :
    HandleEffect s req (exec env req s).1 (exec env req s).2.handles := by
  have hspared : ∀ p : Fuse Reply, p.Uses (fun o => o.sparesHandles = true) → ∀ r,
      HandleEffect s req r (p.run env.serve s).2.handles := by
    intro p hp r
    rw [handles_run env p hp s]
    exact .same
  unfold exec
  cases req with
  | init => exact hspared _ ((uses_init s.mount).mono fun _ h => h.1) _
  | lookup parent name => exact hspared _ ((uses_lookup parent name).mono fun _ h => h.2.1) _
  | getattr ino => exact hspared _ ((uses_getattr ino).mono fun _ h => h.2.1) _
  | setattr ino c => exact hspared _ ((uses_setattr ino c).mono fun _ h => h.1) _
  | mkdir c parent name mode => exact hspared _ ((uses_mkdir c parent name mode).mono fun _ h => h.1) _
  | create c parent name mode flags => exact handleEffect_create env s c parent name mode flags
  | openFile ino flags => exact handleEffect_openFile env s ino flags
  | release ino fh =>
    rw [handler, handles_release]
    exact .released
  | read ino fh offset size =>
    exact hspared _ ((uses_read s.mount ino fh offset size).mono fun _ h => (Op.passive_of_cacheOnly h).2) _
  | write ino fh offset data =>
    rw [handler, handles_write]
    exact .written
  | unlink parent name => exact hspared _ ((uses_unlink parent name).mono fun _ h => h.1) _
  | rmdir parent name => exact hspared _ ((uses_rmdir parent name).mono fun _ h => h.1) _
  | readdir ino offset capacity =>
    exact hspared _ ((uses_readdir ino offset capacity).mono fun _ h => h.2.1) _
  | rename parent name newparent newname =>
    exact hspared _ ((uses_rename parent name newparent newname).mono fun _ h => h.1) _
  | readlink ino => exact hspared _ ((uses_readlink ino).mono fun _ h => h.2.1) _
  | symlink c parent name target =>
    exact hspared _ ((uses_symlink c parent name target).mono fun _ h => h.1) _
  | statfs => exact .same

end TgCryptFs

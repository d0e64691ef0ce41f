import TgCryptFs.Fuse.CrashPoints
import TgCryptFs.Fuse.HandleEffects
import TgCryptFs.Fuse.RowInvariants

set_option autoImplicit false

/-!
# What a request does to the stored data

The block records, the transport's messages and the cache change under `read` and
`release` only. A ROLLBACK goes back to where its own handler began, so it takes no
block record away that an earlier request has written; and the manifest of a row comes
from a `release` or is that of a new inode.
-/
namespace TgCryptFs
open Library

namespace Request

/-- The requests that reach for the stored data. -/
def movesData : Request → Bool
  | .read .. | .release .. => true
  | _ => false

end Request

section

variable {α β : Type}

/-- A program that ends no transaction but one it has begun. -/
inductive Guarded : Fuse α → Prop where
  | ret (a : α) : Guarded (.ret a)
  | inside {o : Op} {k : Ans o → Fuse α} (ho : o.staysInside = true) (hk : ∀ x, Guarded (k x)) :
      Guarded (.call o k)
  | begin {k : Except SqlError Unit → Fuse α} (herr : ∀ e, Guarded (k (.error e))) :
      Guarded (.call .begin k)

theorem staysInside_of_sparesInodes {o : Op} (h : o.sparesInodes = true) : o.staysInside = true := by
  cases o <;> first | rfl | cases h

theorem guarded_of_uses {p : Fuse α} (hp : p.Uses fun o => o.sparesInodes = true) : Guarded p := by
  induction p with
  | ret a => exact .ret a
  | call o k ih => exact .inside (staysInside_of_sparesInodes hp.1) fun x => ih x (hp.2 x)

theorem OneChange.guarded {p : Fuse α} (h : OneChange p) : Guarded p := by
  induction h with
  | ret a => exact .ret a
  | spares ho _ ih => exact .inside (staysInside_of_sparesInodes ho) ih
  | statement ho hk => exact .inside ho fun x => guarded_of_uses (hk x)
  | transaction herr _ => exact .begin fun e => guarded_of_uses (herr e)

theorem guarded_symlink (c : Caller) (parent : ℕ) (name target : OsStr) :
    Guarded (symlink c parent name target) := by
  rcases name with name | raw
  case invalid => exact .ret _
  rcases target with target | raw
  case invalid => exact .ret _
  refine .inside rfl fun x => ?_
  rcases x with e | (_ | p)
  · exact .ret _
  · exact .ret _
  dsimp only
  split
  · exact .ret _
  refine .inside rfl fun x => ?_
  cases x with
  | error e => exact .ret _
  | ok ino =>
    refine .inside rfl fun _ => .inside rfl fun y => ?_
    cases y with
    | error e => exact .ret _
    | ok _ => exact .inside rfl fun _ => .ret _

theorem uses_create (c : Caller) (parent : ℕ) (name : OsStr) (mode : ℕ) (flags : ℤ) :
    (create c parent name mode flags).Uses fun o => o.sparesData = true := by
  cases name with
  | invalid raw => trivial
  | utf8 name =>
    refine CallTree.uses_bind ((uses_linkNew _ _ _ _).mono fun _ h => h.2) fun a => ?_
    cases a with
    | error e => trivial
    | ok i => exact ⟨rfl, fun _ => trivial⟩

theorem uses_write (ino fh offset : ℕ) (data : Bytes) :
    (write ino fh offset data).Uses fun o => o.sparesData = true := by
  refine ⟨rfl, fun updated => ?_⟩
  cases updated with
  | false => trivial
  | true =>
    refine ⟨rfl, fun h => ?_⟩
    cases h with
    | none => trivial
    | some handle =>
      refine ⟨rfl, fun x => ?_⟩
      rcases x with e | (_ | i)
      · trivial
      · trivial
      · exact ⟨rfl, fun _ => ⟨rfl, fun _ => trivial⟩⟩

end

variable [Primitives]

theorem guarded_handler (m : Mount) (req : Request) : Guarded (handler m req) := by
  by_cases h : ∀ c parent name target, req ≠ .symlink c parent name target
  · exact (oneChange_handler m req h).guarded
  · simp only [ne_eq, not_forall, not_not] at h
    obtain ⟨c, parent, name, target, rfl⟩ := h
    exact guarded_symlink c parent name target

theorem uses_handler (m : Mount) {req : Request} (h : req.movesData = false) :
    (handler m req).Uses fun o => o.sparesData = true := by
  cases req with
  | init => exact (uses_init m).mono fun _ h => h.2
  | lookup parent name => exact (uses_lookup parent name).mono fun _ h => h.2.2
  | getattr ino => exact (uses_getattr ino).mono fun _ h => h.2.2
  | setattr ino c => exact (uses_setattr ino c).mono fun _ h => h.2
  | mkdir c parent name mode => exact (uses_mkdir c parent name mode).mono fun _ h => h.2
  | create c parent name mode flags => exact uses_create c parent name mode flags
  | openFile ino flags => exact (uses_openFile ino flags).mono fun _ h => h.2
  | release ino fh => cases h
  | read ino fh offset size => cases h
  | write ino fh offset data => exact uses_write ino fh offset data
  | unlink parent name => exact (uses_unlink parent name).mono fun _ h => h.2
  | rmdir parent name => exact (uses_rmdir parent name).mono fun _ h => h.2
  | readdir ino offset capacity => exact (uses_readdir ino offset capacity).mono fun _ h => h.2.2
  | rename parent name newparent newname =>
    exact (uses_rename parent name newparent newname).mono fun _ h => h.2
  | readlink ino => exact (uses_readlink ino).mono fun _ h => h.2.2
  | symlink c parent name target => exact (uses_symlink c parent name target).mono fun _ h => h.2
  | statfs => trivial

namespace System

/-- The block records as the connection sees them. -/
def blocks (s : System) : Blocks := s.conn.view.blocks

/-- The block records, the transport and the cache are as before. -/
structure SameData (s s' : System) : Prop where
  mount : s'.mount = s.mount
  blocks : s'.blocks = s.blocks
  remote : s'.remote = s.remote
  cache : s'.cache = s.cache

theorem SameData.refl (s : System) : s.SameData s := ⟨rfl, rfl, rfl, rfl⟩

theorem SameData.trans {a b c : System} (h : a.SameData b) (h' : b.SameData c) : a.SameData c :=
  ⟨h'.mount.trans h.mount, h'.blocks.trans h.blocks, h'.remote.trans h.remote,
    h'.cache.trans h.cache⟩

@[simp] theorem blocks_writeInodes (s : System) (t : Inodes) : (s.writeInodes t).blocks = s.blocks := by
  simp [blocks, writeInodes]

@[simp] theorem blocks_writeBlocks (s : System) (t : Blocks) : (s.writeBlocks t).blocks = t := by
  simp [blocks, writeBlocks]

theorem sameData_writeInodes (s : System) (t : Inodes) : s.SameData (s.writeInodes t) :=
  ⟨rfl, s.blocks_writeInodes t, rfl, rfl⟩

end System

theorem sameData_serve (env : Env) {o : Op} (s : System) (ho : o.sparesData = true)
    (hin : o.staysInside = true) :
    s.SameData (env.serve o s).2 ∧ ((env.serve o s).2.conn.IsAutocommit ↔ s.conn.IsAutocommit) := by
  cases o with
  | begin | commit | rollback => cases hin
  | incrementRef | blockInsert | upload | cacheGet | cachePut => cases ho
  | insert i =>
    rw [Env.serve_insert]
    split
    · exact ⟨s.sameData_writeInodes _, Connection.isAutocommit_write _ _⟩
    · exact ⟨.refl s, Iff.rfl⟩
  | update site i =>
    rw [Env.snd_serve_update]
    exact ⟨s.sameData_writeInodes _, Connection.isAutocommit_write _ _⟩
  | delete site ino =>
    rw [Env.snd_serve_delete]
    exact ⟨s.sameData_writeInodes _, Connection.isAutocommit_write _ _⟩
  | _ => exact ⟨⟨rfl, rfl, rfl, rfl⟩, Iff.rfl⟩

/-- Where a transaction is open already, BEGIN fails and nothing behind it is reached. -/
theorem sameData_guarded {α : Type} (env : Env) {p : Fuse α} (hp : Guarded p)
    (hu : p.Uses fun o => o.sparesData = true) (s : System) (hs : ¬ s.conn.IsAutocommit) :
    s.SameData (p.run env.serve s).2 := by
  induction hp generalizing s with
  | ret a => exact .refl s
  | @inside o k ho _ ih =>
    obtain ⟨hd, hmode⟩ := sameData_serve env s hu.1 ho
    exact hd.trans (ih _ (hu.2 _) _ fun h => hs (hmode.1 h))
  | @begin k herr ih =>
    rw [CallTree.run_call, Env.serve_begin, if_neg fun h => hs h.2]
    exact ih _ (hu.2 _) s hs

theorem mode_serve (env : Env) {o : Op} (s : System) (hin : o.staysInside = true) :
    (env.serve o s).2.conn.IsAutocommit ↔ s.conn.IsAutocommit := by
  cases ho : o.sparesInodes with
  | true => exact (sameInodes_serve env o s ho).mode
  | false =>
    cases hd : o.sparesData with
    | true => exact (sameData_serve env s hd hin).2
    | false =>
      have hone : (o.sparesInodes || o.sparesData) = true := by cases o <;> rfl
      rw [ho, hd] at hone
      cases hone

theorem leaked_exec (env : Env) (req : Request) {s : System} (hs : ¬ s.conn.IsAutocommit) :
    ¬ (exec env req s).2.conn.IsAutocommit := by
  rw [exec]
  generalize handler s.mount req = p, guarded_handler s.mount req = hp
  induction hp generalizing s with
  | ret a => exact hs
  | @inside o k ho _ ih => exact ih _ fun h => hs ((mode_serve env s ho).1 h)
  | @begin k herr ih =>
    rw [CallTree.run_call, Env.serve_begin, if_neg fun h => hs h.2]
    exact ih _ hs

/-- The data of `s`, committed and visible. -/
def System.SettledData (s s' : System) : Prop :=
  s.SameData s' ∧ s'.conn.durable.blocks = s.blocks

theorem settledData_writeInodes {s s' : System} (h : s.SettledData s') (t : Inodes) :
    s.SettledData (s'.writeInodes t) := by
  refine ⟨h.1.trans (s'.sameData_writeInodes t), ?_⟩
  change (s'.conn.write _).durable.blocks = _
  rw [Connection.durable_write]
  split
  · exact h.1.blocks
  · exact h.2

theorem settledData_serve (env : Env) (o : Op) {s s' : System} (ho : o.sparesData = true)
    (h : s.SettledData s') : s.SettledData (env.serve o s').2 := by
  cases o with
  | incrementRef | blockInsert | upload | cacheGet | cachePut => cases ho
  | insert i =>
    rw [Env.serve_insert]
    split
    · exact settledData_writeInodes h _
    · exact h
  | update site i =>
    rw [Env.snd_serve_update]
    exact settledData_writeInodes h _
  | delete site ino =>
    rw [Env.snd_serve_delete]
    exact settledData_writeInodes h _
  | begin =>
    rw [Env.serve_begin]
    split
    · exact ⟨⟨h.1.mount, h.1.blocks, h.1.remote, h.1.cache⟩, h.1.blocks⟩
    · exact h
  | commit =>
    obtain ⟨⟨hm, hb, hr, hc⟩, hd⟩ := h
    obtain ⟨mount, conn, handles, cache, remote⟩ := s'
    cases conn with
    | autocommit db => exact ⟨⟨hm, hb, hr, hc⟩, hd⟩
    | inTransaction saved db =>
      change s.SettledData ⟨mount, ((Connection.inTransaction saved db).commit env.commit).2, handles,
        cache, remote⟩
      cases env.commit with
      | done => exact ⟨⟨hm, hb, hr, hc⟩, hb⟩
      | rolledBack => exact ⟨⟨hm, hd, hr, hc⟩, hd⟩
      | stillOpen => exact ⟨⟨hm, hb, hr, hc⟩, hd⟩
  | rollback =>
    obtain ⟨⟨hm, hb, hr, hc⟩, hd⟩ := h
    obtain ⟨mount, conn, handles, cache, remote⟩ := s'
    cases conn with
    | autocommit db => exact ⟨⟨hm, hb, hr, hc⟩, hd⟩
    | inTransaction saved db => exact ⟨⟨hm, hd, hr, hc⟩, hd⟩
  | _ => exact ⟨⟨h.1.mount, h.1.blocks, h.1.remote, h.1.cache⟩, h.2⟩

/-- A request other than `read` and `release` leaves the stored data alone. -/
theorem sameData_exec (env : Env) {req : Request} (h : req.movesData = false) (s : System) :
    s.SameData (exec env req s).2 := by
  have hu := uses_handler s.mount h
  by_cases hs : s.conn.IsAutocommit
  · have hset : s.SettledData s := ⟨.refl s, by rw [← Connection.view_eq_durable hs]; rfl⟩
    exact (CallTree.always_run env.serve _ _ s (CallTree.always_of_uses env.serve s.SettledData _
      (fun o _ ho h => settledData_serve env o ho h) _ hu s hset)).1
  · exact sameData_guarded env (guarded_handler s.mount req) hu s hs

/-! ## Manifests -/

/-- Every row's manifest satisfies `P`. -/
def AllManifests (P : Option FileManifest → Prop) (t : Inodes) : Prop :=
  ∀ n i, t.find n = some i → P i.manifest

omit [Primitives] in
theorem newInode_manifest {req : Request} {ino : ℕ} {now : ℤ} {i : Inode}
    (h : req.newInode ino now = some i) :
    i.manifest = none ∨ i.manifest = some (FileManifest.new ino) := by
  unfold Request.newInode at h
  split at h <;> cases h
  · exact .inl rfl
  · exact .inr rfl
  · exact .inl rfl

/-- What holds of the manifests of new inodes is kept by every request but `release`. -/
theorem allManifests_exec {P : Option FileManifest → Prop} {env : Env} (hnone : P none)
    (hnew : ∀ ino, P (some (FileManifest.new ino))) {req : Request}
    (hreq : req.replacesData = false) {s : System} (hs : AllManifests P s.inodes) :
    AllManifests P (exec env req s).2.inodes := by
  have hrows : AllRows (fun i => P i.manifest) s.inodes := hs
  refine allRows_exec (fun _ _ _ h => h) (fun _ _ _ h => h) hrows (fun _ => hnone) ?_ ?_ ?_
  · intro ino now i _ h _ _
    rcases newInode_manifest h with e | e
    · exact e ▸ hnone
    · exact e ▸ hnew _
  · intro i i' _ hm hi
    rw [hm hreq]
    exact hi
  · exact fun _ _ _ _ _ _ _ hi _ _ => hi

end TgCryptFs

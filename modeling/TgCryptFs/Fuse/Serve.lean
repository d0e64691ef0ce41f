import TgCryptFs.Fuse.Fs

set_option autoImplicit false

/-!
# The calls of the handlers on the inode table

A statement whose result the source discards is a table edit that may not have
happened: `tryUpdate`, `tryDelete` and `tryEdit`, and the tables `removeEntry` and
`rename` build from them before their COMMIT.
-/
namespace TgCryptFs
open Library

variable [Primitives]

namespace System

@[simp] theorem inodes_writeInodes (s : System) (t : Inodes) : (s.writeInodes t).inodes = t := by
  simp [inodes, writeInodes]

@[simp] theorem writeInodes_inodes (s : System) : s.writeInodes s.inodes = s := by
  have h : s.conn.write s.conn.view = s.conn := Connection.write_view s.conn
  change { s with conn := s.conn.write s.conn.view } = s
  rw [h]

@[simp] theorem writeInodes_writeInodes (s : System) (t u : Inodes) :
    (s.writeInodes t).writeInodes u = s.writeInodes u := by
  simp [writeInodes]

@[simp] theorem inodes_writeBlocks (s : System) (t : Blocks) :
    (s.writeBlocks t).inodes = s.inodes := by
  simp [inodes, writeBlocks]

theorem durable_writeInodes (s : System) (t : Inodes) :
    (s.writeInodes t).durable = if s.conn.IsAutocommit then t else s.durable := by
  unfold durable writeInodes
  rw [Connection.durable_write]
  split <;> rfl

theorem durable_writeBlocks (s : System) (t : Blocks) : (s.writeBlocks t).durable = s.durable := by
  unfold durable writeBlocks
  rw [Connection.durable_write]
  split
  · rename_i h
    rw [Connection.view_eq_durable h]
  · rfl

theorem inodes_eq_durable {s : System} (h : s.conn.IsAutocommit) : s.inodes = s.durable :=
  congrArg Db.inodes (Connection.view_eq_durable h)

end System

namespace Env

/-- UPDATE with its result discarded. -/
def tryUpdate (env : Env) (site : Site) (t : Inodes) (i : Inode) : Inodes :=
  match env.read site (InodeStore.update t i) with
  | .ok t' => t'
  | .error _ => t

def tryDelete (env : Env) (site : Site) (t : Inodes) (ino : ℕ) : Inodes :=
  if env.sql site then InodeStore.delete t ino else t

/-- `editRow` on the table. -/
def tryEdit (env : Env) (getSite updateSite : Site) (t : Inodes) (ino : ℕ) (f : Inode → Inode) :
    Inodes :=
  match env.read getSite (.ok (InodeStore.get t ino)) with
  | .ok (some p) => env.tryUpdate updateSite t (f p)
  | _ => t

@[simp] theorem fst_serve_get (env : Env) (site : Site) (ino : ℕ) (s : System) :
    (env.serve (.get site ino) s).1 = env.read site (.ok (InodeStore.get s.inodes ino)) := rfl

@[simp] theorem snd_serve_get (env : Env) (site : Site) (ino : ℕ) (s : System) :
    (env.serve (.get site ino) s).2 = s := rfl

@[simp] theorem fst_serve_lookup (env : Env) (site : Site) (parent : ℕ) (name : String) (s : System) :
    (env.serve (.lookup site parent name) s).1 =
      env.read site (.ok (InodeStore.lookup s.inodes parent name)) := rfl

@[simp] theorem snd_serve_lookup (env : Env) (site : Site) (parent : ℕ) (name : String) (s : System) :
    (env.serve (.lookup site parent name) s).2 = s := rfl

@[simp] theorem fst_serve_nextIno (env : Env) (s : System) :
    (env.serve .nextIno s).1 = env.read .alloc (InodeStore.nextIno s.inodes) := rfl

@[simp] theorem snd_serve_nextIno (env : Env) (s : System) : (env.serve .nextIno s).2 = s := rfl

@[simp] theorem serve_handleGet (env : Env) (fh : ℕ) (s : System) :
    env.serve (.handleGet fh) s = (s.handles.get fh, s) := rfl

@[simp] theorem fst_serve_now (env : Env) (i : ℕ) (s : System) :
    (env.serve (.now i) s).1 = env.now i := rfl

@[simp] theorem snd_serve_now (env : Env) (i : ℕ) (s : System) : (env.serve (.now i) s).2 = s := rfl

@[simp] theorem snd_serve_update (env : Env) (site : Site) (i : Inode) (s : System) :
    (env.serve (.update site i) s).2 = s.writeInodes (env.tryUpdate site s.inodes i) := by
  change (env.modify site s (InodeStore.update s.inodes i)).2 = _
  unfold modify tryUpdate
  cases env.read site (InodeStore.update s.inodes i) <;> simp

@[simp] theorem snd_serve_delete (env : Env) (site : Site) (ino : ℕ) (s : System) :
    (env.serve (.delete site ino) s).2 = s.writeInodes (env.tryDelete site s.inodes ino) := by
  change (env.modify site s (.ok (InodeStore.delete s.inodes ino))).2 = _
  unfold modify tryDelete read
  cases env.sql site <;> simp

theorem run_editRow (env : Env) (getSite updateSite : Site) (ino : ℕ) (f : Inode → Inode)
    (s : System) :
    (editRow getSite updateSite ino f).run env.serve s =
      ((), s.writeInodes (env.tryEdit getSite updateSite s.inodes ino f)) := by
  rw [editRow, CallTree.run_call, snd_serve_get, fst_serve_get, tryEdit]
  rcases env.read getSite (.ok (InodeStore.get s.inodes ino)) with e | (_ | p)
  · simp
  · simp
  · simp

/-- The table `moveEntry` has built when it comes to COMMIT. -/
def moved (env : Env) (parent newparent : ℕ) (newname : String) (inode : Inode) (t : Inodes) :
    Inodes :=
  let t := env.tryEdit .parentGet .parentUpdate t parent (·.dropChild inode.ino inode.isDir)
  let t := env.tryUpdate .update t (inode.renamed newparent newname (systemTimeToNs (env.now 0)))
  env.tryEdit .newParentGet .newParentUpdate t newparent (·.addChild inode.ino inode.isDir)

/-- COMMIT with its result discarded. -/
def committed (env : Env) (s : System) : System := { s with conn := (s.conn.commit env.commit).2 }

theorem run_moveEntry (env : Env) (parent newparent : ℕ) (newname : String) (inode : Inode)
    (s : System) :
    (moveEntry parent newparent newname inode).run env.serve s =
      (.ok, env.committed (s.writeInodes (env.moved parent newparent newname inode s.inodes))) := by
  unfold moveEntry
  simp only [CallTree.run_bind, CallTree.run_call, run_editRow, snd_serve_now, snd_serve_update,
    System.inodes_writeInodes, System.writeInodes_writeInodes]
  rfl

omit [Primitives] in
theorem read_eq_ok {α : Type} {env : Env} {site : Site} {a : Except SqlError α} {x : α}
    (h : env.read site a = .ok x) : env.sql site = true ∧ a = .ok x := by
  unfold read at h
  split at h
  · rename_i hs
    exact ⟨hs, h⟩
  · cases h

omit [Primitives] in
theorem read_ok_eq_ok {α : Type} {env : Env} {site : Site} {a x : α}
    (h : env.read site (.ok a) = .ok x) : env.sql site = true ∧ a = x :=
  ⟨(read_eq_ok h).1, by simpa using (read_eq_ok h).2⟩

end Env

namespace System

/-- Inside a transaction just begun. -/
def begun (s : System) : System := { s with conn := .inTransaction s.conn.view s.conn.view }

@[simp] theorem inodes_begun (s : System) : s.begun.inodes = s.inodes := rfl

end System

namespace Env

theorem serve_begin (env : Env) (s : System) :
    env.serve .begin s =
      if env.sql .begin = true ∧ s.conn.IsAutocommit then (.ok (), s.begun)
      else (.error .failed, s) := by
  obtain ⟨mount, conn, handles, cache, remote⟩ := s
  change env.begin _ = _
  unfold begin read
  cases conn <;> cases env.sql .begin <;> simp [Connection.begin, Connection.IsAutocommit, System.begun]

theorem serve_insert (env : Env) (i : Inode) (s : System) :
    env.serve (.insert i) s =
      match env.read .insert (InodeStore.insert s.inodes i) with
      | .ok t => (.ok (), s.writeInodes t)
      | .error e => (.error e, s) := rfl

theorem serve_update (env : Env) (site : Site) (i : Inode) (s : System) :
    env.serve (.update site i) s =
      match env.read site (InodeStore.update s.inodes i) with
      | .ok t => (.ok (), s.writeInodes t)
      | .error e => (.error e, s) := rfl

theorem serve_delete (env : Env) (site : Site) (ino : ℕ) (s : System) :
    env.serve (.delete site ino) s =
      if env.sql site then (.ok (), s.writeInodes (InodeStore.delete s.inodes ino))
      else (.error .failed, s) := by
  change env.modify site s _ = _
  unfold modify read
  cases env.sql site <;> rfl

/-- A transaction given up leaves no trace. -/
theorem rollback_begun (env : Env) (s : System) (t : Inodes) (h : s.conn.IsAutocommit) :
    (env.serve .rollback (s.begun.writeInodes t)).2 = s := by
  obtain ⟨mount, conn, handles, cache, remote⟩ := s
  cases conn with
  | autocommit db => rfl
  | inTransaction saved db => exact h.elim

theorem fst_serve_commit (env : Env) (s : System) (t : Inodes) :
    (env.serve .commit (s.begun.writeInodes t)).1 =
      if env.commit = .done then .ok () else .error .failed := by
  change (if ((Connection.inTransaction _ _).commit env.commit).1 then _ else _) = _
  cases env.commit <;> rfl

/-- From BEGIN on, `linkNew` either fails without a trace or comes to its COMMIT. -/
theorem run_linkEntry (env : Env) (p inode : Inode) (dir : Bool) (s : System) :
    (∃ e, (linkEntry p inode dir).run env.serve s = (.error e, s)) ∨
    ∃ t₁ t₂, s.conn.IsAutocommit ∧ InodeStore.insert s.inodes inode = .ok t₁ ∧
      InodeStore.update t₁ (p.addChild inode.ino dir) = .ok t₂ ∧
      (linkEntry p inode dir).run env.serve s =
        (if env.commit = .done then .ok inode else .error .eio,
          env.committed (s.begun.writeInodes t₂)) := by
  rw [linkEntry, CallTree.run_call, serve_begin]
  by_cases hb : env.sql .begin = true ∧ s.conn.IsAutocommit
  case neg => exact .inl ⟨.eio, by simp [hb]⟩
  simp only [hb, and_self, if_true, CallTree.run_call, serve_insert, System.inodes_begun]
  rcases h₁ : env.read .insert (InodeStore.insert s.inodes inode) with e | t₁
  · refine .inl ⟨.eio, ?_⟩
    have h := rollback_begun env s s.inodes hb.2
    rw [← System.inodes_begun, System.writeInodes_inodes] at h
    simp [h]
  simp only [CallTree.run_call, serve_update, System.inodes_writeInodes]
  rcases h₂ : env.read .update (InodeStore.update t₁ (p.addChild inode.ino dir)) with e | t₂
  · exact .inl ⟨.eio, by simp [rollback_begun env s t₁ hb.2]⟩
  refine .inr ⟨t₁, t₂, trivial, (read_eq_ok h₁).2, (read_eq_ok h₂).2, ?_⟩
  simp only [CallTree.run_call, System.writeInodes_writeInodes, fst_serve_commit]
  by_cases hc : env.commit = .done
  · simp only [hc, if_true]
    rfl
  · simp only [hc, if_false]
    rfl

theorem run_linkNew (env : Env) (parent : ℕ) (name : String) (make : ℕ → ℤ → Inode) (dir : Bool)
    (s : System) :
    (∃ e, (linkNew parent name make dir).run env.serve s = (.error e, s)) ∨
    ∃ p ino, s.inodes.find parent = some p ∧ p.isDir = true ∧
      InodeStore.nextIno s.inodes = .ok ino ∧
      (linkNew parent name make dir).run env.serve s =
        (linkEntry p (make ino (systemTimeToNs (env.now 0))) dir).run env.serve s := by
  rw [linkNew, CallTree.run_call, snd_serve_get, fst_serve_get]
  rcases hp : env.read .find (.ok (InodeStore.get s.inodes parent)) with e | (_ | p)
  · exact .inl ⟨_, rfl⟩
  · exact .inl ⟨_, rfl⟩
  by_cases hdir : p.isDir = true
  case neg => exact .inl ⟨.enotdir, by simp [hdir]⟩
  simp only [hdir, Bool.not_true, Bool.false_eq_true, if_false, CallTree.run_call, snd_serve_lookup]
  split
  · exact .inl ⟨_, rfl⟩
  rw [linkFresh, CallTree.run_call, snd_serve_nextIno, fst_serve_nextIno]
  rcases hino : env.read .alloc (InodeStore.nextIno s.inodes) with e | ino
  · exact .inl ⟨_, rfl⟩
  · exact .inr ⟨p, ino, (read_ok_eq_ok hp).2, hdir, (read_eq_ok hino).2, rfl⟩

/-- The table once the entry a rename replaces is gone. -/
def cleared (env : Env) (newparent : ℕ) (newname : String) (t : Inodes) : Inodes :=
  match env.read .probe (.ok (InodeStore.lookup t newparent newname)) with
  | .ok (some existing) =>
    env.tryEdit .destParentGet .destParentUpdate (env.tryDelete .destDelete t existing.ino) newparent
      (·.dropChild existing.ino false)
  | _ => t

/-- The table `removeEntry` has built when it comes to COMMIT. -/
def removed (env : Env) (parent : ℕ) (inode : Inode) (dir : Bool) (t : Inodes) : Inodes :=
  InodeStore.delete
    (env.tryEdit .parentGet .parentUpdate t parent (·.dropChild inode.ino dir)) inode.ino

end Env

end TgCryptFs

import TgCryptFs.Fuse.Serve
import TgCryptFs.Fuse.Spared

set_option autoImplicit false

/-!
# What a request does to the inode table

`Effect` lists everything one request can do to the table and to the transaction,
for every environment.
-/
namespace TgCryptFs
open Library

variable [Primitives]

/-- A row rewritten in place: same entry, other contents. -/
structure Inode.SameEntry (i i' : Inode) : Prop where
  ino : i'.ino = i.ino
  parent : i'.parent = i.parent
  name : i'.name = i.name
  fileType : i'.fileType = i.fileType
  nlink : i'.nlink = i.nlink
  symlinkTarget : i'.symlinkTarget = i.symlinkTarget
  children : i'.children = i.children

namespace Request

/-- The row whose contents the request may rewrite. -/
def subject : Request → Option ℕ
  | .setattr ino _ | .write ino _ _ _ | .release ino _ => some ino
  | _ => none

/-- The inode a request makes under the number `ino`. -/
def newInode (ino : ℕ) (now : ℤ) : Request → Option Inode
  | .mkdir c parent (.utf8 name) mode => some (Inode.newDir ino parent name mode c.uid c.gid now)
  | .create c parent (.utf8 name) mode _ =>
    some (Inode.newFile ino parent name mode c.uid c.gid now)
  | .symlink c parent (.utf8 name) (.utf8 target) =>
    some (Inode.newSymlink ino parent name target c.uid c.gid now)
  | _ => none

/-- The entry a request removes, and whether it must be a directory. -/
def removal : Request → Option (ℕ × String × Bool)
  | .unlink parent (.utf8 name) => some (parent, name, false)
  | .rmdir parent (.utf8 name) => some (parent, name, true)
  | _ => none

/-- The request that may give a row another manifest. -/
def replacesData : Request → Bool
  | .release .. => true
  | _ => false

def structural : Request → Bool
  | .mkdir .. | .create .. | .unlink .. | .rmdir .. | .rename .. | .symlink .. => true
  | _ => false

end Request

/-- The inode table and the transaction are as before. -/
structure System.SameInodes (s s' : System) : Prop where
  inodes : s'.inodes = s.inodes
  durable : s'.durable = s.durable
  mode : s'.conn.IsAutocommit ↔ s.conn.IsAutocommit

theorem System.SameInodes.refl (s : System) : s.SameInodes s := ⟨rfl, rfl, Iff.rfl⟩

theorem System.SameInodes.trans {a b c : System} (h : a.SameInodes b) (h' : b.SameInodes c) :
    a.SameInodes c :=
  ⟨h'.inodes.trans h.inodes, h'.durable.trans h.durable, h'.mode.trans h.mode⟩

/-- What `env` and a request can do to the inode table of `s`. -/
inductive Effect (env : Env) (s : System) : Request → Reply → System → Prop where
  | same {req : Request} {r : Reply} {s' : System} (hs : s.SameInodes s')
      (hr : req.structural = true → r.isError = true) : Effect env s req r s'
  | rooted {t : Inodes} (hnone : s.inodes.find 1 = none)
      (ht : InodeStore.insert s.inodes (mountRoot s.mount (systemTimeToNs (env.now 0))) = .ok t) :
      Effect env s .init .ok (s.writeInodes t)
  | edited {req : Request} {r : Reply} {s' : System} {i i' : Inode} {t : Inodes}
      (hreq : req.subject = some i.ino) (hi : s.inodes.find i.ino = some i) (he : i.SameEntry i')
      (ht : InodeStore.update s.inodes i' = .ok t) (hs : (s.writeInodes t).SameInodes s')
      (hm : req.replacesData = false → i'.manifest = i.manifest) : Effect env s req r s'
  | linked {req : Request} {r : Reply} {s' : System} {i p : Inode} {ino : ℕ} {t₁ t₂ : Inodes}
      (hreq : req.newInode ino (systemTimeToNs (env.now 0)) = some i)
      (hino : InodeStore.nextIno s.inodes = .ok ino) (hp : s.inodes.find i.parent = some p)
      (hdir : p.isDir = true) (h₁ : InodeStore.insert s.inodes i = .ok t₁)
      (h₂ : InodeStore.update t₁ (p.addChild i.ino i.isDir) = .ok t₂) (hauto : s.conn.IsAutocommit)
      (hs : (env.committed (s.begun.writeInodes t₂)).SameInodes s')
      (hr : r.isError = true ↔ env.commit ≠ .done) : Effect env s req r s'
  | inserted {caller : Caller} {parent : ℕ} {name target : OsStr} {r : Reply} {i p : Inode}
      {ino : ℕ} {t₁ : Inodes}
      (hreq : (Request.symlink caller parent name target).newInode ino
        (systemTimeToNs (env.now 0)) = some i)
      (hino : InodeStore.nextIno s.inodes = .ok ino) (hp : s.inodes.find i.parent = some p)
      (hdir : p.isDir = true) (h₁ : InodeStore.insert s.inodes i = .ok t₁)
      (hfind : env.sql .find = true) (halloc : env.sql .alloc = true)
      (hinsert : env.sql .insert = true) (hr : r.isError = false) :
      Effect env s (.symlink caller parent name target) r
        (s.writeInodes (env.tryUpdate .update t₁ (p.addChild i.ino i.isDir)))
  | removed {req : Request} {parent : ℕ} {name : String} {inode : Inode}
      (hreq : req.removal = some (parent, name, inode.isDir))
      (hl : InodeStore.lookup s.inodes parent name = some inode)
      (hempty : inode.isDir = true → inode.children = []) (hauto : s.conn.IsAutocommit)
      (hfind : env.sql .find = true) (hbegin : env.sql .begin = true)
      (hdelete : env.sql .delete = true) :
      Effect env s req .ok
        (env.committed (s.begun.writeInodes (env.removed parent inode inode.isDir s.inodes)))
  | renamed {parent newparent : ℕ} {name newname : String} {inode : Inode}
      (hl : InodeStore.lookup s.inodes parent name = some inode)
      (hdest : ∀ e, env.sql .probe = true → InodeStore.lookup s.inodes newparent newname = some e →
        e.isDir = true → e.children = [])
      (hauto : s.conn.IsAutocommit) (hfind : env.sql .find = true)
      (hbegin : env.sql .begin = true) :
      Effect env s (.rename parent (.utf8 name) newparent (.utf8 newname)) .ok
        (env.committed (s.begun.writeInodes
          (env.moved parent newparent newname inode (env.cleared newparent newname s.inodes))))
  | leaked {parent newparent : ℕ} {name newname : String} {inode e : Inode}
      (hl : InodeStore.lookup s.inodes parent name = some inode)
      (hdest : InodeStore.lookup s.inodes newparent newname = some e)
      (hdir : e.isDir = true) (hne : e.children ≠ []) (hauto : s.conn.IsAutocommit)
      (hfind : env.sql .find = true) (hbegin : env.sql .begin = true)
      (hprobe : env.sql .probe = true) :
      Effect env s (.rename parent (.utf8 name) newparent (.utf8 newname)) (.error .enotempty) s.begun

theorem sameInodes_writeBlocks (s : System) (t : Blocks) : s.SameInodes (s.writeBlocks t) :=
  ⟨System.inodes_writeBlocks s t, System.durable_writeBlocks s t,
    Connection.isAutocommit_write s.conn _⟩

theorem sameInodes_serve (env : Env) (o : Op) (s : System) (ho : o.sparesInodes = true) :
    s.SameInodes (env.serve o s).2 := by
  cases o with
  | insert | update | delete | begin | commit | rollback => cases ho
  | incrementRef rid =>
    simp only [Env.serve, Env.modifyBlocks]
    split
    · exact sameInodes_writeBlocks s _
    · exact .refl s
  | blockInsert b =>
    simp only [Env.serve, Env.modifyBlocks]
    split
    · exact sameInodes_writeBlocks s _
    · exact .refl s
  | cacheGet i rid =>
    simp only [Env.serve]
    split <;> exact ⟨rfl, rfl, Iff.rfl⟩
  | cachePut i rid data =>
    simp only [Env.serve]
    split <;> exact ⟨rfl, rfl, Iff.rfl⟩
  | _ => exact ⟨rfl, rfl, Iff.rfl⟩

theorem sameInodes_run {α : Type} (env : Env) (p : Fuse α)
    (hp : p.Uses fun o => o.sparesInodes = true) (s : System) :
    s.SameInodes (p.run env.serve s).2 :=
  CallTree.always_run env.serve _ p s
    (CallTree.always_of_uses env.serve (fun s' => s.SameInodes s') _
      (fun o _ ho h => h.trans (sameInodes_serve env o _ ho)) p hp s (.refl s))

theorem System.SameInodes.writeInodes {s s' : System} (h : s.SameInodes s') (t : Inodes) :
    (s.writeInodes t).SameInodes (s'.writeInodes t) := by
  refine ⟨by simp, ?_, ?_⟩
  · rw [System.durable_writeInodes, System.durable_writeInodes, h.durable]
    simp only [h.mode]
  · exact (Connection.isAutocommit_write _ _).trans (h.mode.trans (Connection.isAutocommit_write _ _).symm)

theorem durable_committed (env : Env) (s : System) (t : Inodes) :
    (env.committed (s.begun.writeInodes t)).durable = if env.commit = .done then t else s.inodes := by
  change Db.inodes ((Connection.inTransaction _ _).commit env.commit).2.durable = _
  cases env.commit <;> rfl

theorem inodes_committed (env : Env) (s : System) (t : Inodes) :
    (env.committed (s.begun.writeInodes t)).inodes =
      if env.commit = .rolledBack then s.inodes else t := by
  change Db.inodes ((Connection.inTransaction _ _).commit env.commit).2.view = _
  cases env.commit <;> rfl

/-- A row read before and now rewritten, from a state that differs in nothing else. -/
theorem effect_update {env : Env} {site : Site} {s s₁ : System} {req : Request} {r : Reply}
    {i i' : Inode} (h : s.SameInodes s₁) (hreq : req.subject = some i.ino)
    (hi : s₁.inodes.find i.ino = some i) (he : i.SameEntry i')
    (hm : req.replacesData = false → i'.manifest = i.manifest) :
    Effect env s req r (env.serve (.update site i') s₁).2 := by
  rw [Env.serve_update]
  rcases ht : env.read site (InodeStore.update s₁.inodes i') with e | t
  · refine .same h fun hst => ?_
    cases req <;> simp_all [Request.subject, Request.structural]
  · rw [h.inodes] at hi ht
    exact .edited hreq hi he (Env.read_eq_ok ht).2 (h.writeInodes t) hm

theorem effect_init (env : Env) (s : System) :
    Effect env s .init ((init s.mount).run env.serve s).1 ((init s.mount).run env.serve s).2 := by
  rw [init, CallTree.run_call, Env.snd_serve_get, Env.fst_serve_get]
  rcases hg : env.read .find (.ok (InodeStore.get s.inodes 1)) with e | (_ | i)
  · exact .same (.refl s) fun h => by cases h
  · simp only [CallTree.run_call, Env.snd_serve_now, Env.serve_insert]
    rcases ht : env.read .insert (InodeStore.insert s.inodes
      (mountRoot s.mount (systemTimeToNs (env.serve (.now 0) s).1))) with e | t
    · exact .same (.refl s) fun h => by cases h
    · exact .rooted (Env.read_ok_eq_ok hg).2 (Env.read_eq_ok ht).2
  · exact .same (.refl s) fun h => by cases h

theorem effect_setattr (env : Env) (s : System) (ino : ℕ) (c : AttrChange) :
    Effect env s (.setattr ino c) ((setattr ino c).run env.serve s).1
      ((setattr ino c).run env.serve s).2 := by
  rw [setattr, CallTree.run_call, Env.snd_serve_get, Env.fst_serve_get]
  rcases hg : env.read .find (.ok (InodeStore.get s.inodes ino)) with e | (_ | i)
  · exact .same (.refl s) fun h => by cases h
  · exact .same (.refl s) fun h => by cases h
  have hi : s.inodes.find ino = some i := (Env.read_ok_eq_ok hg).2
  have hino : i.ino = ino := Table.key_of_find hi
  simp only [CallTree.run_call, Env.snd_serve_now]
  have heff : ∀ r, Effect env s (.setattr ino c) r
      (env.serve (.update .update (c.apply (env.serve (.now 0) s).1 (env.serve (.now 1) s).1
        (env.serve (.now 2) s).1 i)) s).2 := fun r =>
    effect_update (i := i) (.refl s) (by rw [hino]; rfl) (by rw [hino]; exact hi)
      ⟨rfl, rfl, rfl, rfl, rfl, rfl, rfl⟩ fun _ => rfl
  split
  · exact heff _
  · exact heff _

theorem effect_write (env : Env) (s : System) (ino fh offset : ℕ) (data : Bytes) :
    Effect env s (.write ino fh offset data) ((write ino fh offset data).run env.serve s).1
      ((write ino fh offset data).run env.serve s).2 := by
  rw [write, CallTree.run_call]
  have h₁ : s.SameInodes (env.serve (.handleUpdate fh (bufferWrite offset data)) s).2 :=
    ⟨rfl, rfl, Iff.rfl⟩
  generalize env.serve (.handleUpdate fh (bufferWrite offset data)) s = u at h₁ ⊢
  obtain ⟨updated, s₁⟩ := u
  have hsame : ∀ r, Effect env s (.write ino fh offset data) r s₁ := fun r =>
    .same h₁ fun h => by cases h
  cases updated with
  | false => exact hsame _
  | true =>
    simp only [if_true, CallTree.run_call, Env.serve_handleGet]
    cases s₁.handles.get fh with
    | none => exact hsame _
    | some handle =>
      simp only [CallTree.run_call, Env.snd_serve_get, Env.fst_serve_get]
      rcases hg : env.read .find (.ok (InodeStore.get s₁.inodes ino)) with e | (_ | i)
      · exact hsame _
      · exact hsame _
      have hi : s₁.inodes.find ino = some i := (Env.read_ok_eq_ok hg).2
      have hino : i.ino = ino := Table.key_of_find hi
      exact effect_update (i := i) h₁ (by rw [hino]; rfl) (by rw [hino]; exact hi)
        ⟨rfl, rfl, rfl, rfl, rfl, rfl, rfl⟩ fun _ => rfl

theorem effect_flushHandle (env : Env) (s : System) (ino fh : ℕ) (data : Bytes) (r : Reply) :
    Effect env s (.release ino fh) r ((flushHandle s.mount ino data).run env.serve s).2 := by
  rw [flushHandle, CallTree.run_bind]
  have h₁ := sameInodes_run env _ ((uses_flushToTransport s.mount ino data).mono fun _ h => h.1) s
  generalize (flushToTransport s.mount ino data).run env.serve s = u at h₁ ⊢
  obtain ⟨block, s₁⟩ := u
  have hsame : Effect env s (.release ino fh) r s₁ := .same h₁ fun h => by cases h
  cases block with
  | none => exact hsame
  | some block =>
    simp only [CallTree.run_call, Env.snd_serve_get, Env.fst_serve_get]
    rcases hg : env.read .find (.ok (InodeStore.get s₁.inodes ino)) with e | (_ | i)
    · exact hsame
    · exact hsame
    have hi : s₁.inodes.find ino = some i := (Env.read_ok_eq_ok hg).2
    have hino : i.ino = ino := Table.key_of_find hi
    exact effect_update (i := i) h₁ (by rw [hino]; rfl) (by rw [hino]; exact hi)
      ⟨rfl, rfl, rfl, rfl, rfl, rfl, rfl⟩ nofun

theorem Effect.then_same {env : Env} {s s₁ s₂ : System} {ino fh : ℕ} {r : Reply}
    (h : Effect env s (.release ino fh) r s₁) (h' : s₁.SameInodes s₂) :
    Effect env s (.release ino fh) r s₂ := by
  cases h with
  | same hs hr => exact .same (hs.trans h') hr
  | edited hreq hi he ht hs hm => exact .edited hreq hi he ht (hs.trans h') hm
  | linked hreq hino hp hdir h₁ h₂ hauto hs hr =>
    exact .linked hreq hino hp hdir h₁ h₂ hauto (hs.trans h') hr
  | removed hreq => cases hreq

theorem effect_flushOpen (env : Env) (s : System) (ino fh : ℕ) (r : Reply) :
    Effect env s (.release ino fh) r ((flushOpen s.mount ino fh).run env.serve s).2 := by
  rw [flushOpen, CallTree.run_call, Env.serve_handleGet]
  cases s.handles.get fh with
  | none => exact .same (.refl s) fun h => by cases h
  | some handle =>
    dsimp only
    split
    · exact effect_flushHandle env s ino fh handle.writeBuffer r
    · exact .same (.refl s) fun h => by cases h

theorem effect_release (env : Env) (s : System) (ino fh : ℕ) :
    Effect env s (.release ino fh) ((release s.mount ino fh).run env.serve s).1
      ((release s.mount ino fh).run env.serve s).2 := by
  rw [release, CallTree.run_bind, CallTree.run_call]
  exact (effect_flushOpen env s ino fh .ok).then_same ⟨rfl, rfl, Iff.rfl⟩

/-- The common part of `mkdir` and `create`, followed by their replies. -/
theorem effect_linkNew {env : Env} {s : System} {req : Request} {parent : ℕ} {name : String}
    {make : ℕ → ℤ → Inode} {dir : Bool} {f : Except Errno Inode → Fuse Reply}
    (hreq : ∀ ino now, req.newInode ino now = some (make ino now))
    (hparent : ∀ ino now, (make ino now).parent = parent)
    (hdir : ∀ ino now, (make ino now).isDir = dir)
    (herr : ∀ e, f (.error e) = .ret (.error e))
    (hok : ∀ i s, ((f (.ok i)).run env.serve s).1.isError = false ∧
      s.SameInodes ((f (.ok i)).run env.serve s).2) :
    Effect env s req ((linkNew parent name make dir >>= f).run env.serve s).1
      ((linkNew parent name make dir >>= f).run env.serve s).2 := by
  rw [CallTree.run_bind]
  rcases env.run_linkNew parent name make dir s with ⟨e, h⟩ | ⟨p, ino, hp, hpdir, hino, h⟩
  · rw [h, herr]
    exact .same (.refl s) fun _ => rfl
  rw [h]
  generalize hi : make ino (systemTimeToNs (env.now 0)) = i
  have hp' : s.inodes.find i.parent = some p := by rw [← hi, hparent]; exact hp
  have hd' : i.isDir = dir := by rw [← hi]; exact hdir _ _
  rcases env.run_linkEntry p i dir s with ⟨e, h⟩ | ⟨t₁, t₂, hauto, h₁, h₂, h⟩
  · rw [h, herr]
    exact .same (.refl s) fun _ => rfl
  rw [h]
  rw [← hd'] at h₂
  have hnew : req.newInode ino (systemTimeToNs (env.now 0)) = some i := by rw [hreq, hi]
  by_cases hc : env.commit = .done
  · simp only [hc, if_true]
    obtain ⟨hr, hs⟩ := hok i (env.committed (s.begun.writeInodes t₂))
    exact .linked hnew hino hp' hpdir h₁ h₂ hauto hs (by simp [hc, hr])
  · simp only [hc, if_false, herr]
    exact .linked hnew hino hp' hpdir h₁ h₂ hauto (.refl _) (by simp [hc, Reply.isError])

theorem effect_mkdir (env : Env) (s : System) (c : Caller) (parent : ℕ) (name : OsStr) (mode : ℕ) :
    Effect env s (.mkdir c parent name mode) ((mkdir c parent name mode).run env.serve s).1
      ((mkdir c parent name mode).run env.serve s).2 := by
  cases name with
  | invalid raw => exact .same (.refl s) fun _ => rfl
  | utf8 name =>
    exact effect_linkNew (fun _ _ => rfl) (fun _ _ => rfl) (fun _ _ => rfl) (fun _ => rfl)
      fun _ _ => ⟨rfl, .refl _⟩

theorem effect_create (env : Env) (s : System) (c : Caller) (parent : ℕ) (name : OsStr) (mode : ℕ)
    (flags : ℤ) :
    Effect env s (.create c parent name mode flags)
      ((create c parent name mode flags).run env.serve s).1
      ((create c parent name mode flags).run env.serve s).2 := by
  cases name with
  | invalid raw => exact .same (.refl s) fun _ => rfl
  | utf8 name =>
    exact effect_linkNew (fun _ _ => rfl) (fun _ _ => rfl) (fun _ _ => rfl) (fun _ => rfl)
      fun _ _ => ⟨rfl, ⟨rfl, rfl, Iff.rfl⟩⟩

theorem effect_symlink (env : Env) (s : System) (c : Caller) (parent : ℕ) (name target : OsStr) :
    Effect env s (.symlink c parent name target) ((symlink c parent name target).run env.serve s).1
      ((symlink c parent name target).run env.serve s).2 := by
  rcases name with name | raw
  case invalid => exact .same (.refl s) fun _ => rfl
  rcases target with target | raw
  case invalid => exact .same (.refl s) fun _ => rfl
  rw [symlink, OsStr.toStr, OsStr.toStr]
  simp only [CallTree.run_call, Env.snd_serve_get, Env.fst_serve_get]
  rcases hg : env.read .find (.ok (InodeStore.get s.inodes parent)) with e | (_ | p)
  · exact .same (.refl s) fun _ => rfl
  · exact .same (.refl s) fun _ => rfl
  by_cases hdir : p.isDir = true
  case neg =>
    simp only [hdir, Bool.not_false, if_true]
    exact .same (.refl s) fun _ => rfl
  simp only [hdir, Bool.not_true, Bool.false_eq_true, if_false, CallTree.run_call,
    Env.snd_serve_nextIno, Env.fst_serve_nextIno]
  rcases hn : env.read .alloc (InodeStore.nextIno s.inodes) with e | ino
  · exact .same (.refl s) fun _ => rfl
  simp only [CallTree.run_call, Env.snd_serve_now, Env.serve_insert]
  rcases h₁ : env.read .insert (InodeStore.insert s.inodes
    (Inode.newSymlink ino parent name target c.uid c.gid
      (systemTimeToNs (env.serve (.now 0) s).1))) with e | t₁
  · exact .same (.refl s) fun _ => rfl
  simp only [CallTree.run_call, Env.snd_serve_update, System.inodes_writeInodes,
    System.writeInodes_writeInodes]
  have hnew : (Request.symlink c parent (.utf8 name) (.utf8 target)).newInode ino
      (systemTimeToNs (env.now 0)) = some (Inode.newSymlink ino parent name target c.uid c.gid
        (systemTimeToNs (env.now 0))) := rfl
  have heff := fun (r : Reply) (hr : r.isError = false) => Effect.inserted hnew (Env.read_eq_ok hn).2
    (Env.read_ok_eq_ok hg).2 hdir (Env.read_eq_ok h₁).2 (Env.read_ok_eq_ok hg).1
    (Env.read_eq_ok hn).1 (Env.read_eq_ok h₁).1 hr
  exact heff _ rfl

theorem effect_removeEntry (env : Env) (s : System) (req : Request) {parent : ℕ} {name : String}
    {inode : Inode} (hreq : req.removal = some (parent, name, inode.isDir))
    (hl : InodeStore.lookup s.inodes parent name = some inode)
    (hempty : inode.isDir = true → inode.children = []) (hfind : env.sql .find = true) :
    Effect env s req ((removeEntry parent inode inode.isDir).run env.serve s).1
      ((removeEntry parent inode inode.isDir).run env.serve s).2 := by
  rw [removeEntry, CallTree.run_call, Env.serve_begin]
  by_cases hb : env.sql .begin = true ∧ s.conn.IsAutocommit
  case neg =>
    simp only [hb, if_false]
    exact .same (.refl s) fun _ => rfl
  simp only [hb, and_self, if_true, CallTree.run_bind, Env.run_editRow, CallTree.run_call,
    Env.serve_delete, System.inodes_begun, System.inodes_writeInodes]
  cases hd : env.sql .delete with
  | false =>
    simp only [Bool.false_eq_true, if_false, CallTree.run_call, CallTree.run_ret,
      Env.rollback_begun env s _ hb.2]
    exact .same (.refl s) fun _ => rfl
  | true =>
    simp only [if_true, System.writeInodes_writeInodes]
    exact .removed hreq hl hempty hb.2 hfind hb.1 hd

theorem effect_unlink (env : Env) (s : System) (parent : ℕ) (name : OsStr) :
    Effect env s (.unlink parent name) ((unlink parent name).run env.serve s).1
      ((unlink parent name).run env.serve s).2 := by
  cases name with
  | invalid raw => exact .same (.refl s) fun _ => rfl
  | utf8 name =>
    rw [unlink, OsStr.toStr]
    simp only [CallTree.run_call, Env.snd_serve_lookup, Env.fst_serve_lookup]
    rcases hg : env.read .find (.ok (InodeStore.lookup s.inodes parent name)) with e | (_ | i)
    · exact .same (.refl s) fun _ => rfl
    · exact .same (.refl s) fun _ => rfl
    cases hdir : i.isDir with
    | true =>
      simp only [if_true, hdir]
      exact .same (.refl s) fun _ => rfl
    | false =>
      simp only [hdir, Bool.false_eq_true, if_false]
      have h := effect_removeEntry env s (.unlink parent (.utf8 name)) (by rw [hdir]; rfl)
        (Env.read_ok_eq_ok hg).2 (by simp [hdir]) (Env.read_ok_eq_ok hg).1
      rwa [hdir] at h

theorem effect_rmdir (env : Env) (s : System) (parent : ℕ) (name : OsStr) :
    Effect env s (.rmdir parent name) ((rmdir parent name).run env.serve s).1
      ((rmdir parent name).run env.serve s).2 := by
  cases name with
  | invalid raw => exact .same (.refl s) fun _ => rfl
  | utf8 name =>
    rw [rmdir, OsStr.toStr]
    simp only [CallTree.run_call, Env.snd_serve_lookup, Env.fst_serve_lookup]
    rcases hg : env.read .find (.ok (InodeStore.lookup s.inodes parent name)) with e | (_ | i)
    · exact .same (.refl s) fun _ => rfl
    · exact .same (.refl s) fun _ => rfl
    cases hdir : i.isDir with
    | false =>
      simp only [hdir, Bool.not_false, if_true]
      exact .same (.refl s) fun _ => rfl
    | true =>
      simp only [hdir, Bool.not_true, Bool.false_eq_true, if_false]
      cases hc : i.children with
      | cons x xs => exact .same (.refl s) fun _ => rfl
      | nil =>
        have h := effect_removeEntry env s (.rmdir parent (.utf8 name))
          (by rw [hdir]; rfl) (Env.read_ok_eq_ok hg).2 (fun _ => hc) (Env.read_ok_eq_ok hg).1
        rwa [hdir] at h

/-- A rename that finds its source, begins, and is not stopped by its destination. -/
theorem run_rename {env : Env} {s : System} {parent newparent : ℕ} {name newname : String}
    {inode : Inode} (hl : InodeStore.lookup s.inodes parent name = some inode)
    (hdest : ∀ e, env.sql .probe = true → InodeStore.lookup s.inodes newparent newname = some e →
      e.isDir = true → e.children = [])
    (hauto : s.conn.IsAutocommit) (hfind : env.sql .find = true) (hbegin : env.sql .begin = true) :
    (rename parent (.utf8 name) newparent (.utf8 newname)).run env.serve s =
      (.ok, env.committed (s.begun.writeInodes
        (env.moved parent newparent newname inode (env.cleared newparent newname s.inodes)))) := by
  have hg : env.read .find (.ok (InodeStore.lookup s.inodes parent name)) = .ok (some inode) := by
    rw [Env.read, hfind, hl]
    rfl
  rw [rename, OsStr.toStr, OsStr.toStr]
  simp only [CallTree.run_call, Env.snd_serve_lookup, Env.fst_serve_lookup, hg, Env.serve_begin,
    hbegin, hauto, and_self, if_true, System.inodes_begun]
  rcases hp : env.read .probe (.ok (InodeStore.lookup s.inodes newparent newname)) with e | (_ | d)
  · have hcl : env.cleared newparent newname s.inodes = s.inodes := by rw [Env.cleared, hp]
    rw [hcl]
    simp only [Env.run_moveEntry, System.inodes_begun]
  · have hcl : env.cleared newparent newname s.inodes = s.inodes := by rw [Env.cleared, hp]
    rw [hcl]
    simp only [Env.run_moveEntry, System.inodes_begun]
  · obtain ⟨hprobe, hd⟩ := Env.read_ok_eq_ok hp
    have hcond : (d.isDir && !d.children.isEmpty) = false := by
      have := hdest d hprobe hd
      cases hdir : d.isDir <;> simp_all
    have hcl : env.cleared newparent newname s.inodes =
        env.tryEdit .destParentGet .destParentUpdate (env.tryDelete .destDelete s.inodes d.ino)
          newparent (·.dropChild d.ino false) := by rw [Env.cleared, hp]
    rw [hcl]
    simp only [hcond, Bool.false_eq_true, if_false, CallTree.run_call, CallTree.run_bind,
      Env.snd_serve_delete, Env.run_editRow, Env.run_moveEntry, System.inodes_begun,
      System.inodes_writeInodes, System.writeInodes_writeInodes]

theorem effect_rename (env : Env) (s : System) (parent : ℕ) (name : OsStr) (newparent : ℕ)
    (newname : OsStr) :
    Effect env s (.rename parent name newparent newname)
      ((rename parent name newparent newname).run env.serve s).1
      ((rename parent name newparent newname).run env.serve s).2 := by
  rcases name with name | raw
  case invalid => exact .same (.refl s) fun _ => rfl
  rcases newname with newname | raw
  case invalid => exact .same (.refl s) fun _ => rfl
  by_cases hmoves : ∃ inode, InodeStore.lookup s.inodes parent name = some inode ∧
      env.sql .find = true ∧ env.sql .begin = true ∧ s.conn.IsAutocommit ∧
      ∀ e, env.sql .probe = true → InodeStore.lookup s.inodes newparent newname = some e →
        e.isDir = true → e.children = []
  case pos =>
    obtain ⟨inode, hl, hfind, hbegin, hauto, hdest⟩ := hmoves
    rw [run_rename hl hdest hauto hfind hbegin]
    exact .renamed hl hdest hauto hfind hbegin
  rw [rename, OsStr.toStr, OsStr.toStr]
  simp only [CallTree.run_call, Env.snd_serve_lookup, Env.fst_serve_lookup]
  rcases hg : env.read .find (.ok (InodeStore.lookup s.inodes parent name)) with e | (_ | i)
  · exact .same (.refl s) fun _ => rfl
  · exact .same (.refl s) fun _ => rfl
  obtain ⟨hfind, hl⟩ := Env.read_ok_eq_ok hg
  simp only [CallTree.run_call, Env.serve_begin]
  by_cases hb : env.sql .begin = true ∧ s.conn.IsAutocommit
  case neg =>
    simp only [hb, if_false]
    exact .same (.refl s) fun _ => rfl
  have hstop : ∃ e, env.sql .probe = true ∧
      InodeStore.lookup s.inodes newparent newname = some e ∧ e.isDir = true ∧ e.children ≠ [] := by
    by_contra hc
    refine hmoves ⟨i, hl, hfind, hb.1, hb.2, fun e hprobe he hdir => ?_⟩
    by_contra hne
    exact hc ⟨e, hprobe, he, hdir, hne⟩
  obtain ⟨d, hprobe, hdest, hdir, hne⟩ := hstop
  have hp : env.read .probe (.ok (InodeStore.lookup s.inodes newparent newname)) = .ok (some d) := by
    rw [Env.read, hprobe, hdest]
    rfl
  simp only [hb, and_self, if_true, CallTree.run_call, Env.snd_serve_lookup, Env.fst_serve_lookup,
    System.inodes_begun, hp, hdir, Bool.true_and, Bool.not_eq_true', List.isEmpty_eq_false_iff,
    ne_eq, hne, not_false_eq_true, CallTree.run_ret]
  exact .leaked hl hdest hdir hne hb.2 hfind hb.1 hprobe

/-- Everything a request can do to the inode table. -/
theorem exec_effect (env : Env) (req : Request) (s : System) :
    Effect env s req (exec env req s).1 (exec env req s).2 := by
  have hspared : ∀ p : Fuse Reply, p.Uses (fun o => o.sparesInodes = true) →
      req.structural = false → Effect env s req (p.run env.serve s).1 (p.run env.serve s).2 :=
    fun p hp hst => .same (sameInodes_run env p hp s) fun h => by rw [hst] at h; cases h
  unfold exec
  cases req with
  | init => exact effect_init env s
  | setattr ino c => exact effect_setattr env s ino c
  | mkdir c parent name mode => exact effect_mkdir env s c parent name mode
  | create c parent name mode flags => exact effect_create env s c parent name mode flags
  | release ino fh => exact effect_release env s ino fh
  | write ino fh offset data => exact effect_write env s ino fh offset data
  | unlink parent name => exact effect_unlink env s parent name
  | rmdir parent name => exact effect_rmdir env s parent name
  | rename parent name newparent newname => exact effect_rename env s parent name newparent newname
  | symlink c parent name target => exact effect_symlink env s c parent name target
  | read ino fh offset size =>
    exact hspared _ ((uses_read s.mount ino fh offset size).mono fun _ h => (Op.passive_of_cacheOnly h).1) rfl
  | lookup parent name => exact hspared _ ((uses_lookup parent name).mono fun _ h => h.1) rfl
  | getattr ino => exact hspared _ ((uses_getattr ino).mono fun _ h => h.1) rfl
  | openFile ino flags => exact hspared _ ((uses_openFile ino flags).mono fun _ h => h.1) rfl
  | readdir ino offset capacity =>
    exact hspared _ ((uses_readdir ino offset capacity).mono fun _ h => h.1) rfl
  | readlink ino => exact hspared _ ((uses_readlink ino).mono fun _ h => h.1) rfl
  | statfs => exact hspared _ trivial rfl

end TgCryptFs

import TgCryptFs.Library.Runs
import TgCryptFs.Core.Sample
import TgCryptFs.Fuse.Effects

set_option autoImplicit false

/-!
# The mount as a server of requests

An event is a request together with what its surroundings do while it is served.
-/
namespace TgCryptFs
open Library

structure Event where
  env : Env
  req : Request

/-- A volume no request has reached yet. -/
def System.fresh (m : Mount) (cache : Option BlockCache) [Primitives] : System where
  mount := m
  conn := .autocommit .empty
  handles := .new
  cache := cache
  remote := ⟨[], []⟩

/-- Every statement goes through. -/
structure Env.AllOk (env : Env) : Prop where
  sql : ∀ site, env.sql site = true
  commit : env.commit = .done

/-- Nothing fails, and the transport serves what it accepted. -/
structure Env.Works (env : Env) : Prop extends env.AllOk where
  served : ∀ i, env.download i = .served
  cached : ∀ i, env.cacheCut i = none

/-- COMMIT ends the transaction, whether it succeeds or not. -/
def Env.CommitCloses (env : Env) : Prop := env.commit ≠ .stillOpen

theorem Env.AllOk.commitCloses {env : Env} (h : env.AllOk) : env.CommitCloses := by
  rw [CommitCloses, h.commit]
  exact nofun

/-- The statements of a rename that replace an entry. -/
structure Env.ClearsOk (env : Env) : Prop where
  probe : env.sql .probe = true
  destDelete : env.sql .destDelete = true
  destParentGet : env.sql .destParentGet = true
  destParentUpdate : env.sql .destParentUpdate = true

/-- The statements of a rename that move the entry. -/
structure Env.MovesOk (env : Env) : Prop where
  parentGet : env.sql .parentGet = true
  parentUpdate : env.sql .parentUpdate = true
  update : env.sql .update = true
  newParentGet : env.sql .newParentGet = true
  newParentUpdate : env.sql .newParentUpdate = true

theorem Env.AllOk.clearsOk {env : Env} (h : env.AllOk) : env.ClearsOk :=
  ⟨h.sql _, h.sql _, h.sql _, h.sql _⟩

theorem Env.AllOk.movesOk {env : Env} (h : env.AllOk) : env.MovesOk :=
  ⟨h.sql _, h.sql _, h.sql _, h.sql _, h.sql _⟩

theorem removal_eq_some {req : Request} {parent : ℕ} {name : String} {dir : Bool}
    (h : req.removal = some (parent, name, dir)) :
    req = .unlink parent (.utf8 name) ∨ req = .rmdir parent (.utf8 name) := by
  unfold Request.removal at h
  split at h
  · simp only [Option.some.injEq, Prod.mk.injEq] at h
    obtain ⟨rfl, rfl, -⟩ := h
    exact .inl rfl
  · simp only [Option.some.injEq, Prod.mk.injEq] at h
    obtain ⟨rfl, rfl, -⟩ := h
    exact .inr rfl
  · cases h

namespace Sample

/-- Surroundings in which nothing fails. -/
def env (upload : Option ℤ) (rid : Bytes) : Env where
  sql _ := true
  commit := .done
  now _ := 0
  upload := upload
  rid := rid
  download _ := .served
  cacheRead _ := true
  cacheCut _ := none
  nonce _ := ⟨List.replicate 24 0, rfl⟩

theorem allOk_env (upload : Option ℤ) (rid : Bytes) : (env upload rid).AllOk := ⟨fun _ => rfl, rfl⟩

theorem works_env (upload : Option ℤ) (rid : Bytes) : (env upload rid).Works :=
  ⟨allOk_env upload rid, fun _ => rfl, fun _ => rfl⟩

def caller : Caller := ⟨0, 0⟩

def event (req : Request) : Event := ⟨env none [], req⟩

theorem works_events (reqs : List Request) : ∀ e ∈ reqs.map event, e.env.Works := by
  intro e he
  obtain ⟨req, -, rfl⟩ := List.mem_map.1 he
  exact works_env none []

def mount : Mount := ⟨true, true, 0, 0, 0⟩

end Sample

variable [Primitives]

theorem isAutocommit_fresh (m : Mount) (cache : Option BlockCache) :
    (System.fresh m cache).conn.IsAutocommit := trivial

namespace Event

/-- `unlink` or `rmdir` comes to its COMMIT, with `i` the inode it removes. -/
structure Removes (e : Event) (s : System) (i : Inode) : Prop where
  find : e.env.sql .find = true
  begin : e.env.sql .begin = true
  delete : e.env.sql .delete = true
  autocommit : s.conn.IsAutocommit
  entry : ∃ parent name, e.req.removal = some (parent, name, i.isDir) ∧
    InodeStore.lookup s.inodes parent name = some i
  empty : i.isDir = true → i.children = []

/-- `rename` has found its source `i`, begun, and not stopped at the destination. -/
structure Moves (e : Event) (s : System) (i : Inode) (newparent : ℕ) (newname : String) : Prop where
  find : e.env.sql .find = true
  begin : e.env.sql .begin = true
  autocommit : s.conn.IsAutocommit
  entry : ∃ name, e.req = .rename i.parent (.utf8 name) newparent (.utf8 newname) ∧
    InodeStore.lookup s.inodes i.parent name = some i
  dest : ∀ d, e.env.sql .probe = true → InodeStore.lookup s.inodes newparent newname = some d →
    d.isDir = true → d.children = []

/-- `symlink` has inserted its row. -/
structure Inserts (e : Event) (s : System) : Prop where
  find : e.env.sql .find = true
  alloc : e.env.sql .alloc = true
  insert : e.env.sql .insert = true
  entry : ∃ caller parent name target ino i p t, e.req = .symlink caller parent name target ∧
    InodeStore.nextIno s.inodes = .ok ino ∧
    e.req.newInode ino (systemTimeToNs (e.env.now 0)) = some i ∧
    s.inodes.find i.parent = some p ∧ p.isDir = true ∧ InodeStore.insert s.inodes i = .ok t

/-- Where a handler goes on without looking at a statement's result, the statement has
    gone through. -/
structure KeepsTree (e : Event) (s : System) : Prop where
  removes : ∀ i, e.Removes s i → e.env.sql .parentGet = true ∧ e.env.sql .parentUpdate = true
  clears : ∀ i newparent newname, e.Moves s i newparent newname →
    InodeStore.lookup s.inodes newparent newname ≠ none → e.env.ClearsOk
  moves : ∀ i newparent newname, e.Moves s i newparent newname → e.env.MovesOk
  inserts : e.Inserts s → e.env.sql .update = true

end Event

theorem Env.AllOk.keepsTree {e : Event} (h : e.env.AllOk) (s : System) : e.KeepsTree s where
  removes _ _ := ⟨h.sql _, h.sql _⟩
  clears _ _ _ _ _ := h.clearsOk
  moves _ _ _ _ := h.movesOk
  inserts _ := h.sql _

def Event.step (e : Event) (s : System) : System := (exec e.env e.req s).2

section
open scoped Sample

/-- A volume that has been mounted once. -/
def Sample.rooted : System := (exec (Sample.env none []) .init (.fresh Sample.mount none)).2

end

end TgCryptFs

import TgCryptFs.Library.CallTree
import TgCryptFs.Library.Transaction
import TgCryptFs.Library.ByteRange
import TgCryptFs.Store.Database
import TgCryptFs.Cache.BlockCache
import TgCryptFs.Fuse.Handle

set_option autoImplicit false

/-!
# What a request handler calls

The SQLite connection, the handle table, the transport, the block cache and the
clock. `Env` is everything outside the program's control during one request: which
of its SQL statements fail, how COMMIT ends, what the transport and the disk do,
the clock and the random block id. Each site occurs at most once in a handler, so
a function on sites is a free choice for each statement.
-/
namespace TgCryptFs
open Library

/-- The SQL statements of the handlers. -/
inductive Site where
  | find | probe | alloc | begin | insert | update | delete
  | parentGet | parentUpdate
  | destDelete | destParentGet | destParentUpdate
  | newParentGet | newParentUpdate
  | list | dedup | incrementRef | blockInsert
deriving DecidableEq, Repr

inductive Download where
  | served | refused
  | substituted (data : Bytes)
deriving DecidableEq, Repr

structure Env where
  sql : Site → Bool
  commit : CommitOutcome
  now : ℕ → ℤ
  /-- The message id under which the transport accepts an upload. -/
  upload : Option ℤ
  rid : Bytes
  download : ℕ → Download
  cacheRead : ℕ → Bool
  /-- A failing cache write, with the bytes it leaves. -/
  cacheCut : ℕ → Option ℕ
  nonce : ℕ → Aead.Nonce

/-- The parts of `CryptFs` no handler changes. -/
structure Mount where
  transport : Bool
  rt : Bool
  currentEpoch : ℕ
  uid : ℕ
  gid : ℕ
deriving DecidableEq, Repr

/-- The transport's side: the messages it keeps, and everything it was handed. -/
structure Remote where
  messages : List (ℤ × Bytes)
  seen : List (Bytes × String)
deriving DecidableEq, Repr

namespace Remote

def message (r : Remote) (id : ℤ) : Option Bytes := (r.messages.find? (·.1 = id)).map (·.2)

/-- An id is given out once; the payload is seen also when it is then refused. -/
def upload (r : Remote) (id : Option ℤ) (data : Bytes) (filename : String) :
    Option ℤ × Remote :=
  let r := { r with seen := (data, filename) :: r.seen }
  match id with
  | none => (none, r)
  | some id =>
    if (r.message id).isSome then (none, r)
    else (some id, { r with messages := (id, data) :: r.messages })

end Remote

variable [Primitives]

structure System where
  mount : Mount
  conn : Connection Db
  handles : HandleTable
  cache : Option BlockCache
  remote : Remote
deriving DecidableEq

namespace System

/-- The inode table as the connection sees it. -/
def inodes (s : System) : Inodes := s.conn.view.inodes

/-- The inode table a crash would leave. -/
def durable (s : System) : Inodes := s.conn.durable.inodes

def writeInodes (s : System) (t : Inodes) : System :=
  { s with conn := s.conn.write { s.conn.view with inodes := t } }

def writeBlocks (s : System) (t : Blocks) : System :=
  { s with conn := s.conn.write { s.conn.view with blocks := t } }

end System

inductive Op where
  | get (site : Site) (ino : ℕ)
  | lookup (site : Site) (parent : ℕ) (name : String)
  | listChildren (parent : ℕ)
  | nextIno
  | insert (i : Inode)
  | update (site : Site) (i : Inode)
  | delete (site : Site) (ino : ℕ)
  | begin
  | commit
  | rollback
  | findByContentHash (contentHash : Bytes)
  | incrementRef (rid : Bytes)
  | blockInsert (b : BlockRecord)
  | upload (data : Bytes) (filename : String)
  | download (i : ℕ) (messageId : ℤ)
  | cacheGet (i : ℕ) (rid : Bytes)
  | cachePut (i : ℕ) (rid data : Bytes)
  | handleOpen (ino : ℕ) (flags : ℤ)
  | handleGet (fh : ℕ)
  | handleUpdate (fh : ℕ) (f : FileHandle → FileHandle)
  | handleClose (fh : ℕ)
  | now (i : ℕ)
  | fillBytes

@[reducible] def Ans : Op → Type
  | .get _ _ | .lookup _ _ _ => Except SqlError (Option Inode)
  | .listChildren _ => Except SqlError (List Inode)
  | .nextIno => Except SqlError ℕ
  | .insert _ | .update _ _ | .delete _ _ | .begin | .commit => Except SqlError Unit
  | .incrementRef _ | .blockInsert _ => Except SqlError Unit
  | .rollback | .handleClose _ => Unit
  | .findByContentHash _ => Except SqlError (Option BlockRecord)
  | .upload _ _ => Option ℤ
  | .download _ _ => Option Bytes
  | .cacheGet _ _ => Except CacheError Bytes
  | .cachePut _ _ _ => Except CacheError Unit
  | .handleOpen _ _ => ℕ
  | .handleGet _ => Option FileHandle
  | .handleUpdate _ _ => Bool
  | .now _ => ℤ
  | .fillBytes => Bytes

abbrev Fuse (α : Type) := CallTree Op Ans α

namespace Env

/-- A query: its answer, unless the statement fails. -/
def read {α : Type} (env : Env) (site : Site) (a : Except SqlError α) : Except SqlError α :=
  if env.sql site then a else .error .failed

/-- A modifying statement on the inode table. -/
def modify (env : Env) (site : Site) (s : System) (t : Except SqlError Inodes) :
    Except SqlError Unit × System :=
  match env.read site t with
  | .ok t => (.ok (), s.writeInodes t)
  | .error e => (.error e, s)

/-- A modifying statement on the block table. -/
def modifyBlocks (env : Env) (site : Site) (s : System) (t : Except SqlError Blocks) :
    Except SqlError Unit × System :=
  match env.read site t with
  | .ok t => (.ok (), s.writeBlocks t)
  | .error e => (.error e, s)

def begin (env : Env) (s : System) : Except SqlError Unit × System :=
  match env.read .begin (s.conn.begin.elim (.error .failed) .ok) with
  | .ok c => (.ok (), { s with conn := c })
  | .error e => (.error e, s)

def serve (env : Env) : (o : Op) → System → Ans o × System
  | .get site ino, s => (env.read site (.ok (InodeStore.get s.inodes ino)), s)
  | .lookup site parent name, s => (env.read site (.ok (InodeStore.lookup s.inodes parent name)), s)
  | .listChildren parent, s => (env.read .list (.ok (InodeStore.listChildren s.inodes parent)), s)
  | .nextIno, s => (env.read .alloc (InodeStore.nextIno s.inodes), s)
  | .insert i, s => env.modify .insert s (InodeStore.insert s.inodes i)
  | .update site i, s => env.modify site s (InodeStore.update s.inodes i)
  | .delete site ino, s => env.modify site s (.ok (InodeStore.delete s.inodes ino))
  | .begin, s => env.begin s
  | .commit, s =>
    (if (s.conn.commit env.commit).1 then .ok () else .error .failed,
      { s with conn := (s.conn.commit env.commit).2 })
  | .rollback, s => ((), { s with conn := s.conn.rollback })
  | .findByContentHash h, s =>
    (env.read .dedup (.ok (BlockStore.findByContentHash s.conn.view.blocks h)), s)
  | .incrementRef rid, s =>
    env.modifyBlocks .incrementRef s (.ok (BlockStore.incrementRef s.conn.view.blocks rid))
  | .blockInsert b, s => env.modifyBlocks .blockInsert s (BlockStore.insert s.conn.view.blocks b)
  | .upload data filename, s =>
    ((s.remote.upload env.upload data filename).1,
      { s with remote := (s.remote.upload env.upload data filename).2 })
  | .download i id, s =>
    (match env.download i with
      | .served => s.remote.message id
      | .refused => none
      | .substituted data => some data, s)
  | .cacheGet i rid, s =>
    match s.cache with
    | none => (.error .miss, s)
    | some c => ((c.get (env.cacheRead i) rid).1,
        { s with cache := some (c.get (env.cacheRead i) rid).2 })
  | .cachePut i rid data, s =>
    match s.cache with
    | none => (.ok (), s)
    | some c => ((c.put (env.nonce i) (env.cacheCut i) rid data).1,
        { s with cache := some (c.put (env.nonce i) (env.cacheCut i) rid data).2 })
  | .handleOpen ino flags, s =>
    ((s.handles.openHandle ino flags).1, { s with handles := (s.handles.openHandle ino flags).2 })
  | .handleGet fh, s => (s.handles.get fh, s)
  | .handleUpdate fh f, s =>
    ((s.handles.update fh f).1, { s with handles := (s.handles.update fh f).2 })
  | .handleClose fh, s => ((), { s with handles := (s.handles.close fh).2 })
  | .now i, s => (env.now i, s)
  | .fillBytes, s => (env.rid, s)

end Env
end TgCryptFs

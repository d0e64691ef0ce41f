import TgCryptFs.Core.Policy
import TgCryptFs.Core.Volume
import TgCryptFs.Store.Identity

set_option autoImplicit false

/-!
# The policy, volume, user, deadman and snapshot tables

A record is written by one INSERT OR REPLACE and read by its key, but for the snapshots, which
are appended. A statement that fails has no effect, so the calls here are those that succeed.
-/
namespace TgCryptFs
open Library

structure PolicyRow where
  pid : UInt32
  data : Bytes
deriving DecidableEq, Repr

structure VolumeRow where
  volumeId : String
  data : Bytes
deriving DecidableEq, Repr

structure UserRow where
  uid : String
  data : Bytes
  active : Bool
deriving DecidableEq, Repr

structure DeadmanRow where
  vid : String
  data : Bytes
  armed : Bool
  lastCheck : Option ℤ
deriving DecidableEq, Repr

structure SnapshotRow where
  sid : ℕ
  timestamp : ℤ
  data : Bytes
  ino : ℤ
deriving DecidableEq, Repr

abbrev Policies := Table PolicyRow.pid PolicyRow.pid
abbrev Volumes := Table VolumeRow.volumeId VolumeRow.volumeId
abbrev Users := Table UserRow.uid UserRow.uid
abbrev Deadmen := Table DeadmanRow.vid DeadmanRow.vid
abbrev Snapshots := Table SnapshotRow.sid SnapshotRow.sid

/-- A `VolumeConfig` with its id. -/
structure StoredConfig where
  volumeId : String
  config : VolumeConfig
deriving DecidableEq

structure UserRecord where
  userId : String
  telegramUserId : ℤ
  displayName : String
  accessLevel : String
  mlkemPublicKey : Bytes
  wrappedKeys : Bytes
  grantedAt : ℤ
  lastValidated : Option ℤ
  active : Bool
deriving DecidableEq, Repr

structure DeadmanRecord where
  volumeId : String
  armed : Bool
  configData : Bytes
  lastCheck : Option ℤ
deriving DecidableEq, Repr

inductive SnapshotOperation where
  | create | write | delete
  | rename (oldName newName : String)
  | mkdir | rmdir | link | symlink | setAttr
  | restore (fromSnapshot : ℕ)
deriving DecidableEq, Repr

structure SnapshotState where
  inodeSnapshot : Inode
  manifest : Option FileManifest
deriving DecidableEq, Repr

/-- `timestamp` is in nanoseconds. -/
structure SnapshotEntry where
  snapshotId : ℕ
  timestamp : ℤ
  operation : SnapshotOperation
  inode : ℕ
  before : Option SnapshotState
  after : Option SnapshotState
  userId : Option String
deriving DecidableEq, Repr

variable [Primitives]

/-- INSERT OR REPLACE of the row made from the sealed record. -/
def putSealed {α Row K : Type} [DecidableEq K] [Postcard α] {key : Row → K} (metaKey : Bytes)
    (nonce : Aead.Nonce) (aad : String) (record : α) (row : Bytes → Row) (t : Table key key) :
    Except RowError (Table key key) :=
  match sealRecord metaKey nonce aad record with
  | none => .error .toSqlConversion
  | some encrypted => .ok (t.put (row encrypted))

namespace PolicyStore

variable [Postcard MutabilityPolicy]

def insert (metaKey : Bytes) (nonce : Aead.Nonce) (policy : MutabilityPolicy) (t : Policies) :
    Except RowError Policies :=
  putSealed metaKey nonce (policyAad policy.policyId.toNat) policy (⟨policy.policyId, ·⟩) t

def get (metaKey : Bytes) (policyId : UInt32) (t : Policies) :
    Except RowError (Option MutabilityPolicy) :=
  openRow metaKey PolicyRow.data (fun _ => policyAad policyId.toNat) (t.find policyId)

def listAll (metaKey : Bytes) (t : Policies) : Except RowError (List MutabilityPolicy) :=
  openRows metaKey PolicyRow.data (fun row => policyAad row.pid.toNat) t.rows

omit [Primitives] [Postcard MutabilityPolicy] in
def delete (policyId : UInt32) (t : Policies) : Policies := t.erase policyId

end PolicyStore

namespace VolumeStore

variable [Postcard StoredConfig]

def saveConfig (metaKey : Bytes) (nonce : Aead.Nonce) (config : StoredConfig) (t : Volumes) :
    Except RowError Volumes :=
  putSealed metaKey nonce (volumeAad config.volumeId) config (⟨config.volumeId, ·⟩) t

def loadConfig (metaKey : Bytes) (volumeId : String) (t : Volumes) :
    Except RowError (Option StoredConfig) :=
  openRow metaKey VolumeRow.data (fun _ => volumeAad volumeId) (t.find volumeId)

end VolumeStore

namespace UserStore

variable [Postcard UserRecord]

def insert (metaKey : Bytes) (nonce : Aead.Nonce) (user : UserRecord) (t : Users) :
    Except RowError Users :=
  putSealed metaKey nonce (userAad user.userId) user (⟨user.userId, ·, user.active⟩) t

def get (metaKey : Bytes) (userId : String) (t : Users) : Except RowError (Option UserRecord) :=
  openRow metaKey UserRow.data (fun _ => userAad userId) (t.find userId)

/-- `WHERE active = 1`. -/
def listActive (metaKey : Bytes) (t : Users) : Except RowError (List UserRecord) :=
  openRows metaKey UserRow.data (fun row => userAad row.uid) (t.rows.filter UserRow.active)

omit [Primitives] [Postcard UserRecord] in
/-- Only the column is changed. -/
def deactivate (userId : String) (t : Users) : Users :=
  t.modify userId (fun row => { row with active := false }) fun _ => rfl

end UserStore

namespace DeadmanStore

variable [Postcard DeadmanRecord]

def upsert (metaKey : Bytes) (nonce : Aead.Nonce) (record : DeadmanRecord) (t : Deadmen) :
    Except RowError Deadmen :=
  putSealed metaKey nonce (deadmanAad record.volumeId) record
    (⟨record.volumeId, ·, record.armed, record.lastCheck⟩) t

def get (metaKey : Bytes) (volumeId : String) (t : Deadmen) :
    Except RowError (Option DeadmanRecord) :=
  openRow metaKey DeadmanRow.data (fun _ => deadmanAad volumeId) (t.find volumeId)

omit [Primitives] [Postcard DeadmanRecord] in
def setArmed (volumeId : String) (armed : Bool) (t : Deadmen) : Deadmen :=
  t.modify volumeId (fun row => { row with armed }) fun _ => rfl

omit [Primitives] [Postcard DeadmanRecord] in
def updateLastCheck (volumeId : String) (timestamp : ℤ) (t : Deadmen) : Deadmen :=
  t.modify volumeId (fun row => { row with lastCheck := some timestamp }) fun _ => rfl

end DeadmanStore

namespace SnapshotStore

variable [Postcard SnapshotEntry]

omit [Primitives] [Postcard SnapshotEntry] in
/-- AUTOINCREMENT. -/
def nextSid (t : Snapshots) : ℕ := t.rows.foldr (fun row m => max row.sid m) 0 + 1

/-- Answers with the id of the row. -/
def append (metaKey : Bytes) (nonce : Aead.Nonce) (entry : SnapshotEntry) (t : Snapshots) :
    Except RowError (ℕ × Snapshots) :=
  match sealRecord metaKey nonce (snapshotAad entry.inode) entry with
  | none => .error .toSqlConversion
  | some encrypted =>
    let ts := wrapI64 (entry.timestamp.tdiv 1000000000)
    .ok (nextSid t, t.put ⟨nextSid t, ts, encrypted, wrapI64 entry.inode⟩)

/-- The row is found by its id alone. -/
def get (metaKey : Bytes) (rowId : ℕ) (ino : ℕ) (t : Snapshots) :
    Except RowError (Option SnapshotEntry) :=
  openRow metaKey SnapshotRow.data (fun _ => snapshotAad ino) (t.find rowId)

omit [Primitives] [Postcard SnapshotEntry] in
/-- `ORDER BY timestamp DESC`, in one of the orders that this leaves. -/
def NewestFirst (rows ordered : List SnapshotRow) : Prop :=
  ordered.Perm rows ∧ ordered.Pairwise fun a b => b.timestamp ≤ a.timestamp

omit [Primitives] [Postcard SnapshotEntry] in
/-- What `list_for_inode` may select. -/
def SelectsInode (t : Snapshots) (ino : ℕ) (selected : List SnapshotRow) : Prop :=
  NewestFirst (t.rows.filter fun row => row.ino = wrapI64 ino) selected

omit [Primitives] [Postcard SnapshotEntry] in
/-- What `list_recent` may select. -/
def SelectsRecent (t : Snapshots) (limit : UInt32) (selected : List SnapshotRow) : Prop :=
  ∃ ordered, NewestFirst t.rows ordered ∧ selected = ordered.take limit.toNat

def listForInode (metaKey : Bytes) (ino : ℕ) (selected : List SnapshotRow) :
    Except RowError (List SnapshotEntry) :=
  openRows metaKey SnapshotRow.data (fun _ => snapshotAad ino) selected

def listRecent (metaKey : Bytes) (selected : List SnapshotRow) :
    Except RowError (List SnapshotEntry) :=
  openRows metaKey SnapshotRow.data (fun row => snapshotAad (wrapU64 row.ino)) selected

end SnapshotStore
end TgCryptFs

import TgCryptFs.Store.SealedRows

set_option autoImplicit false

/-!
# Reading the stores

Every method that reads selects rows and opens each under associated data that it builds from
the arguments or from the columns of the row.
-/
namespace TgCryptFs
open Library

/-- A row, by its table and primary key. -/
inductive RowId where
  | inode (ino : ℤ)
  | policy (pid : UInt32)
  | volume (volumeId : String)
  | user (uid : String)
  | deadman (vid : String)
  | share (sid : String)
  | invite (inviteId : String)
  | snapshot (sid : ℕ)
deriving DecidableEq, Repr

namespace MetaDb

/-- The blob of a row, with its table and what its columns name the record by. -/
def stored (db : MetaDb) : RowId → Option (Bytes × Identity)
  | .inode ino => (db.inodes.find ino).map RecordRow.stored
  | .policy pid => (db.policies.find pid).map RecordRow.stored
  | .volume volumeId => (db.volumes.find volumeId).map RecordRow.stored
  | .user uid => (db.users.find uid).map RecordRow.stored
  | .deadman vid => (db.deadmen.find vid).map RecordRow.stored
  | .share sid => (db.shares.find sid).map RecordRow.stored
  | .invite inviteId => (db.invites.find inviteId).map RecordRow.stored
  | .snapshot sid => (db.snapshots.find sid).map RecordRow.stored

/-- The database with another blob in a row. -/
def overwrite (db : MetaDb) (row : RowId) (blob : Bytes) : MetaDb :=
  match row with
  | .inode ino =>
    { db with inodes := db.inodes.patch ino ({ · with data := blob }) (fun _ => rfl) fun _ => rfl }
  | .policy pid =>
    { db with
      policies := db.policies.patch pid ({ · with data := blob }) (fun _ => rfl) fun _ => rfl }
  | .volume volumeId =>
    { db with
      volumes := db.volumes.patch volumeId ({ · with data := blob }) (fun _ => rfl) fun _ => rfl }
  | .user uid =>
    { db with users := db.users.patch uid ({ · with data := blob }) (fun _ => rfl) fun _ => rfl }
  | .deadman vid =>
    { db with deadmen := db.deadmen.patch vid ({ · with data := blob }) (fun _ => rfl) fun _ => rfl }
  | .share sid =>
    { db with shares := db.shares.patch sid ({ · with data := blob }) (fun _ => rfl) fun _ => rfl }
  | .invite inviteId =>
    { db with
      invites := db.invites.patch inviteId ({ · with data := blob }) (fun _ => rfl) fun _ => rfl }
  | .snapshot sid =>
    { db with
      snapshots := db.snapshots.patch sid ({ · with data := blob }) (fun _ => rfl) fun _ => rfl }

end MetaDb

/-- The methods that read. The rows of a snapshot listing come in one of the orders that the
    query leaves. -/
inductive MetaRead where
  | getInode (ino : ℕ)
  | listChildren (parentIno : ℕ)
  | lookup (parentIno : ℕ) (name : String)
  | getPolicy (policyId : UInt32)
  | listPolicies
  | loadConfig (volumeId : String)
  | getUser (userId : String)
  | listActiveUsers
  | getDeadman (volumeId : String)
  | getShare (userId : String)
  | listShares (volumeId : String)
  | getInvite (inviteId : String)
  | useInvite (nonce : Aead.Nonce) (now : ℤ) (inviteId : String)
  | getSnapshot (rowId ino : ℕ)
  | listSnapshots (ino : ℕ) (selected : List SnapshotRow)
  | listRecentSnapshots (limit : UInt32) (selected : List SnapshotRow)

namespace MetaRead

/-- An inode number is a u64, and a listing selects what its query may. -/
def Admitted (db : MetaDb) : MetaRead → Prop
  | getInode ino => ino < 2 ^ 64
  | listSnapshots ino selected =>
    ino < 2 ^ 64 ∧ SnapshotStore.SelectsInode db.snapshots ino selected
  | listRecentSnapshots limit selected => SnapshotStore.SelectsRecent db.snapshots limit selected
  | _ => True

/-- The rows that a method selects, each with the associated data it opens the row under. -/
def opens [Primitives] (db : MetaDb) : MetaRead → List (RowId × String)
  | getInode ino =>
    (db.inodes.find (wrapI64 ino)).toList.map fun row => (.inode row.ino, inodeAad ino)
  | listChildren parentIno =>
    (db.inodes.rows.filter fun row => row.parent = wrapI64 parentIno).map fun row =>
      (.inode row.ino, inodeAad (wrapU64 row.ino))
  | lookup parentIno name =>
    (db.inodes.findUniq (wrapI64 parentIno, nameHash name)).toList.map fun row =>
      (.inode row.ino, inodeAad row.ino)
  | getPolicy policyId =>
    (db.policies.find policyId).toList.map fun row => (.policy row.pid, policyAad policyId.toNat)
  | listPolicies => db.policies.rows.map fun row => (.policy row.pid, policyAad row.pid.toNat)
  | loadConfig volumeId =>
    (db.volumes.find volumeId).toList.map fun row => (.volume row.volumeId, volumeAad volumeId)
  | getUser userId => (db.users.find userId).toList.map fun row => (.user row.uid, userAad userId)
  | listActiveUsers =>
    (db.users.rows.filter UserRow.active).map fun row => (.user row.uid, userAad row.uid)
  | getDeadman volumeId =>
    (db.deadmen.find volumeId).toList.map fun row => (.deadman row.vid, deadmanAad volumeId)
  | getShare userId =>
    (db.shares.find userId).toList.map fun row => (.share row.sid, shareAad userId)
  | listShares volumeId =>
    (db.shares.rows.filter fun row => row.volumeId = volumeId && row.active).map fun row =>
      (.share row.sid, shareAad row.sid)
  | getInvite inviteId | useInvite _ _ inviteId =>
    (db.invites.find inviteId).toList.map fun row => (.invite row.inviteId, inviteAad inviteId)
  | getSnapshot rowId ino =>
    (db.snapshots.find rowId).toList.map fun row => (.snapshot row.sid, snapshotAad ino)
  | listSnapshots ino selected =>
    selected.map fun row => (.snapshot row.sid, snapshotAad ino)
  | listRecentSnapshots _ selected =>
    selected.map fun row => (.snapshot row.sid, snapshotAad (wrapU64 row.ino))

variable [Primitives] [Postcard Inode] [Postcard MutabilityPolicy] [Postcard StoredConfig]
  [Postcard UserRecord] [Postcard DeadmanRecord] [Postcard ShareRecord] [Postcard Invite]
  [Postcard SnapshotEntry]

/-- The method returns an error. -/
def Fails (metaKey : Bytes) (db : MetaDb) : MetaRead → Prop
  | getInode ino => ∃ e, InodeRows.get metaKey ino db.inodes = .error e
  | listChildren parentIno => ∃ e, InodeRows.listChildren metaKey parentIno db.inodes = .error e
  | lookup parentIno name => ∃ e, InodeRows.lookup metaKey parentIno name db.inodes = .error e
  | getPolicy policyId => ∃ e, PolicyStore.get metaKey policyId db.policies = .error e
  | listPolicies => ∃ e, PolicyStore.listAll metaKey db.policies = .error e
  | loadConfig volumeId => ∃ e, VolumeStore.loadConfig metaKey volumeId db.volumes = .error e
  | getUser userId => ∃ e, UserStore.get metaKey userId db.users = .error e
  | listActiveUsers => ∃ e, UserStore.listActive metaKey db.users = .error e
  | getDeadman volumeId => ∃ e, DeadmanStore.get metaKey volumeId db.deadmen = .error e
  | getShare userId => ∃ e, SharingStore.getShare metaKey userId .working db.shares = .error e
  | listShares volumeId => ∃ e, SharingStore.listShares metaKey volumeId .working db.shares = .error e
  | getInvite inviteId => ∃ e, SharingStore.getInvite metaKey inviteId .working db.invites = .error e
  | useInvite nonce now inviteId =>
    ∃ e, SharingStore.useInvite metaKey nonce now inviteId .working db.invites = .error e
  | getSnapshot rowId ino => ∃ e, SnapshotStore.get metaKey rowId ino db.snapshots = .error e
  | listSnapshots ino selected => ∃ e, SnapshotStore.listForInode metaKey ino selected = .error e
  | listRecentSnapshots _ selected => ∃ e, SnapshotStore.listRecent metaKey selected = .error e

end MetaRead
end TgCryptFs

import TgCryptFs.Store.InodeMap
import TgCryptFs.Store.MetaStores

set_option autoImplicit false

/-!
# The stores under one meta key

The eight tables that keep encrypted records, the calls that write them, and the encryptions
that these calls make.
-/
namespace TgCryptFs
open Library

structure MetaDb where
  inodes : InodeRows
  policies : Policies
  volumes : Volumes
  users : Users
  deadmen : Deadmen
  shares : Shares
  invites : Invites
  snapshots : Snapshots

def MetaDb.empty : MetaDb :=
  ⟨.empty, .empty, .empty, .empty, .empty, .empty, .empty, .empty⟩

/-- The methods that write, with the nonce of the encryption they make. -/
inductive MetaCall where
  | insertInode (nonce : Aead.Nonce) (inode : Inode)
  | updateInode (nonce : Aead.Nonce) (inode : Inode)
  | deleteInode (ino : ℕ)
  | insertPolicy (nonce : Aead.Nonce) (policy : MutabilityPolicy)
  | deletePolicy (policyId : UInt32)
  | saveConfig (nonce : Aead.Nonce) (config : StoredConfig)
  | insertUser (nonce : Aead.Nonce) (user : UserRecord)
  | deactivateUser (userId : String)
  | upsertDeadman (nonce : Aead.Nonce) (record : DeadmanRecord)
  | setArmed (volumeId : String) (armed : Bool)
  | updateLastCheck (volumeId : String) (timestamp : ℤ)
  | insertShare (nonce : Aead.Nonce) (volumeId : String) (share : ShareRecord) (sql : Sql)
  | revokeShare (userId : String) (sql : Sql)
  | invite (c : InviteCall)
  | appendSnapshot (nonce : Aead.Nonce) (entry : SnapshotEntry)

/-- An inode number is a u64. -/
def MetaCall.Admitted : MetaCall → Prop
  | insertInode _ inode | updateInode _ inode => inode.ino < 2 ^ 64
  | appendSnapshot _ entry => entry.inode < 2 ^ 64
  | _ => True

/-- The table that a call leaves: a call that fails leaves it as it was. -/
def orElse {T : Type} (t : T) : Except RowError T → T
  | .ok t' => t'
  | .error _ => t

section

variable [Primitives] [Postcard Inode] [Postcard MutabilityPolicy] [Postcard StoredConfig]
  [Postcard UserRecord] [Postcard DeadmanRecord] [Postcard ShareRecord] [Postcard Invite]
  [Postcard SnapshotEntry]

/-- The encryption of a record under its identity. -/
def sealing {α : Type} [Postcard α] (nonce : Aead.Nonce) (i : Identity) (record : α) :
    Aead.Sealing :=
  ⟨nonce, Postcard.toAllocvec record, utf8 i.aad⟩

/-- A use encrypts the record with the new count, a revocation the one with the flag. -/
def InviteCall.sealings (metaKey : Bytes) (t : Invites) : InviteCall → List Aead.Sealing
  | insert nonce invite _ => [sealing nonce (.invite invite.inviteId) invite]
  | use nonce now inviteId sql =>
    match SharingStore.getInvite metaKey inviteId sql t with
    | .ok (some invite) =>
      match invite.tryUse now with
      | .ok used => [sealing nonce (.invite used.inviteId) used]
      | .error _ => []
    | _ => []
  | get _ _ => []
  | revoke nonce inviteId sql =>
    if sql.update then
      match SharingStore.getInvite metaKey inviteId sql t with
      | .ok (some invite) => [sealing nonce (.invite invite.inviteId) invite.revoke]
      | _ => []
    else []

namespace MetaCall

def step (metaKey : Bytes) (c : MetaCall) (db : MetaDb) : MetaDb :=
  match c with
  | insertInode nonce inode =>
    { db with inodes := orElse db.inodes (InodeRows.insert metaKey nonce inode db.inodes) }
  | updateInode nonce inode =>
    { db with inodes := orElse db.inodes (InodeRows.update metaKey nonce inode db.inodes) }
  | deleteInode ino => { db with inodes := InodeRows.delete ino db.inodes }
  | insertPolicy nonce policy =>
    { db with policies := orElse db.policies (PolicyStore.insert metaKey nonce policy db.policies) }
  | deletePolicy policyId => { db with policies := PolicyStore.delete policyId db.policies }
  | saveConfig nonce config =>
    { db with volumes := orElse db.volumes (VolumeStore.saveConfig metaKey nonce config db.volumes) }
  | insertUser nonce user =>
    { db with users := orElse db.users (UserStore.insert metaKey nonce user db.users) }
  | deactivateUser userId => { db with users := UserStore.deactivate userId db.users }
  | upsertDeadman nonce record =>
    { db with deadmen := orElse db.deadmen (DeadmanStore.upsert metaKey nonce record db.deadmen) }
  | setArmed volumeId armed =>
    { db with deadmen := DeadmanStore.setArmed volumeId armed db.deadmen }
  | updateLastCheck volumeId timestamp =>
    { db with deadmen := DeadmanStore.updateLastCheck volumeId timestamp db.deadmen }
  | insertShare nonce volumeId share sql =>
    { db with
      shares := orElse db.shares
        (SharingStore.insertShare metaKey nonce volumeId share sql db.shares) }
  | revokeShare userId sql =>
    { db with shares := orElse db.shares (SharingStore.revokeShare userId sql db.shares) }
  | invite c => { db with invites := c.step metaKey db.invites }
  | appendSnapshot nonce entry =>
    { db with
      snapshots := orElse db.snapshots
        ((SnapshotStore.append metaKey nonce entry db.snapshots).map Prod.snd) }

def sealings (metaKey : Bytes) (db : MetaDb) : MetaCall → List Aead.Sealing
  | insertInode nonce inode | updateInode nonce inode => [sealing nonce (.inode inode.ino) inode]
  | insertPolicy nonce policy => [sealing nonce (.policy policy.policyId.toNat) policy]
  | saveConfig nonce config => [sealing nonce (.volume config.volumeId) config]
  | insertUser nonce user => [sealing nonce (.user user.userId) user]
  | upsertDeadman nonce record => [sealing nonce (.deadman record.volumeId) record]
  | insertShare nonce _ share _ => [sealing nonce (.share share.userId) share]
  | invite c => c.sealings metaKey db.invites
  | appendSnapshot nonce entry => [sealing nonce (.snapshot entry.inode) entry]
  | _ => []

/-- The database, with the encryptions that led to it. -/
def stepLogged (metaKey : Bytes) (c : MetaCall) (s : MetaDb × List Aead.Sealing) :
    MetaDb × List Aead.Sealing :=
  (c.step metaKey s.1, s.2 ++ c.sealings metaKey s.1)

end MetaCall

/-- The databases that the stores produce under the key, each with all encryptions made. -/
def Produced (metaKey : Bytes) (db : MetaDb) (log : List Aead.Sealing) : Prop :=
  Runs (MetaCall.stepLogged metaKey) (fun c _ => c.Admitted) (MetaDb.empty, []) (db, log)

end
end TgCryptFs

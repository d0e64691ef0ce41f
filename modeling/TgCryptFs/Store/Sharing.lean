import TgCryptFs.Library.Runs
import TgCryptFs.Library.Table
import TgCryptFs.Sharing.Invite
import TgCryptFs.Store.Records

set_option autoImplicit false

/-!
# The share and invite tables

Every method says for each of its SQL statements whether the statement succeeds. A failed
one has no effect. The `active` column of an invite is written and never read.
-/
namespace TgCryptFs
open Library

structure ShareRow where
  sid : String
  volumeId : String
  uid : String
  data : Bytes
  active : Bool
deriving DecidableEq, Repr

structure InviteRow where
  inviteId : String
  volumeId : String
  data : Bytes
  active : Bool
deriving DecidableEq, Repr

abbrev Shares := Table ShareRow.sid ShareRow.sid
abbrev Invites := Table InviteRow.inviteId InviteRow.inviteId

/-- Which statements of a call succeed. -/
structure Sql where
  select : Bool
  update : Bool
  insert : Bool
deriving DecidableEq, Repr

def Sql.working : Sql := ⟨true, true, true⟩

def shareAad (userId : String) : String := "share:" ++ userId
def inviteAad (inviteId : String) : String := "invite:" ++ inviteId

namespace SharingStore

/-- Only the column is changed. -/
def revokeShare (userId : String) (sql : Sql) (t : Shares) : Except RowError Shares :=
  if sql.update then .ok (t.modify userId (fun row => { row with active := false }) fun _ => rfl)
  else .error .failed

variable [Primitives]

section Shares

variable [Postcard ShareRecord]

def insertShare (metaKey : Bytes) (nonce : Aead.Nonce) (volumeId : String) (share : ShareRecord)
    (sql : Sql) (t : Shares) : Except RowError Shares :=
  match sealRecord metaKey nonce (shareAad share.userId) share with
  | none => .error .toSqlConversion
  | some encrypted =>
    if sql.insert then .ok (t.put ⟨share.userId, volumeId, share.userId, encrypted, share.active⟩)
    else .error .failed

def getShare (metaKey : Bytes) (userId : String) (sql : Sql) (t : Shares) :
    Except RowError (Option ShareRecord) :=
  if sql.select then openRow metaKey ShareRow.data (fun _ => shareAad userId) (t.find userId)
  else .error .failed

/-- `WHERE volume_id = ? AND active = 1`. -/
def listShares (metaKey : Bytes) (volumeId : String) (sql : Sql) (t : Shares) :
    Except RowError (List ShareRecord) :=
  if sql.select then
    openRows metaKey ShareRow.data (fun row => shareAad row.sid)
      (t.rows.filter fun row => row.volumeId = volumeId && row.active)
  else .error .failed

end Shares

section Invites

variable [Postcard Invite]

def insertInvite (metaKey : Bytes) (nonce : Aead.Nonce) (invite : Invite) (sql : Sql)
    (t : Invites) : Except RowError Invites :=
  match sealRecord metaKey nonce (inviteAad invite.inviteId) invite with
  | none => .error .toSqlConversion
  | some encrypted =>
    if sql.insert then .ok (t.put ⟨invite.inviteId, invite.volumeId, encrypted, !invite.revoked⟩)
    else .error .failed

def getInvite (metaKey : Bytes) (inviteId : String) (sql : Sql) (t : Invites) :
    Except RowError (Option Invite) :=
  if sql.select then openRow metaKey InviteRow.data (fun _ => inviteAad inviteId) (t.find inviteId)
  else .error .failed

/-- `now` is the clock of `is_valid`. An invalid invite is answered like a missing one. -/
def useInvite (metaKey : Bytes) (nonce : Aead.Nonce) (now : ℤ) (inviteId : String) (sql : Sql)
    (t : Invites) : Except RowError (Option Invite × Invites) :=
  match getInvite metaKey inviteId sql t with
  | .error e => .error e
  | .ok none => .ok (none, t)
  | .ok (some invite) =>
    match invite.tryUse now with
    | .error _ => .ok (none, t)
    | .ok used =>
      match insertInvite metaKey nonce used sql t with
      | .error e => .error e
      | .ok t' => .ok (some used, t')

/-- After the column is set, neither a failed read nor a failed write of the record counts. -/
def revokeInvite (metaKey : Bytes) (nonce : Aead.Nonce) (inviteId : String) (sql : Sql)
    (t : Invites) : Except RowError Invites :=
  if sql.update then
    let t := t.modify inviteId (fun row => { row with active := false }) fun _ => rfl
    match getInvite metaKey inviteId sql t with
    | .ok (some invite) =>
      match insertInvite metaKey nonce invite.revoke sql t with
      | .ok t' => .ok t'
      | .error _ => .ok t
    | _ => .ok t
  else .error .failed

end Invites

end SharingStore

/-- The calls that concern invites. -/
inductive InviteCall where
  | insert (nonce : Aead.Nonce) (invite : Invite) (sql : Sql)
  | use (nonce : Aead.Nonce) (now : ℤ) (inviteId : String) (sql : Sql)
  | get (inviteId : String) (sql : Sql)
  | revoke (nonce : Aead.Nonce) (inviteId : String) (sql : Sql)

inductive InviteReply where
  | done
  | invite (found : Option Invite)
  | failed (e : RowError)
deriving DecidableEq

namespace InviteCall

def target : InviteCall → String
  | insert _ invite _ => invite.inviteId
  | use _ _ inviteId _ => inviteId
  | get inviteId _ => inviteId
  | revoke _ inviteId _ => inviteId

def sql : InviteCall → Sql
  | insert _ _ sql => sql
  | use _ _ _ sql => sql
  | get _ sql => sql
  | revoke _ _ sql => sql

variable [Primitives] [Postcard Invite]

def serve (metaKey : Bytes) (t : Invites) : InviteCall → InviteReply × Invites
  | insert nonce invite sql =>
    match SharingStore.insertInvite metaKey nonce invite sql t with
    | .error e => (.failed e, t)
    | .ok t' => (.done, t')
  | use nonce now inviteId sql =>
    match SharingStore.useInvite metaKey nonce now inviteId sql t with
    | .error e => (.failed e, t)
    | .ok (found, t') => (.invite found, t')
  | get inviteId sql =>
    match SharingStore.getInvite metaKey inviteId sql t with
    | .error e => (.failed e, t)
    | .ok found => (.invite found, t)
  | revoke nonce inviteId sql =>
    match SharingStore.revokeInvite metaKey nonce inviteId sql t with
    | .error e => (.failed e, t)
    | .ok t' => (.done, t')

def step (metaKey : Bytes) (c : InviteCall) (t : Invites) : Invites := (serve metaKey t c).2

end InviteCall

/-- The tables that calls of the store lead to. -/
def ReachableInvites [Primitives] [Postcard Invite] (metaKey : Bytes) : Invites → Prop :=
  Runs (InviteCall.step metaKey) (fun _ _ => True) Table.empty

end TgCryptFs

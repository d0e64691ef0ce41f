import TgCryptFs.Api.Session
import TgCryptFs.Store.InviteRecords

set_option autoImplicit false

/-!
# Shares and invites of an open session

The service takes the connection of the session, and each statement it issues commits by
itself.
-/
namespace TgCryptFs
open Library

/-- The two tables behind the connection. -/
structure SharingDb where
  shares : Shares
  invites : Invites

/-- The calls of the store. -/
inductive SharingCall where
  | insertShare (nonce : Aead.Nonce) (volumeId : String) (share : ShareRecord) (sql : Sql)
  | revokeShare (userId : String) (sql : Sql)
  | invite (c : InviteCall)

/-- The variants of `ApiError` the service uses, with the text before the cause. -/
inductive ServiceError where
  | internal (message : String)
  | storage (operation : String) (e : RowError)
  | invalidArgument (message : String)
  | sessionNotOpen (volumeId : String)
deriving DecidableEq, Repr

/-- What `accept_invite` meets: the lock, the clock when the invite is checked and when the
    share is dated, the nonces, and how the statements of its two store calls go. -/
structure AcceptEnv where
  poisoned : Bool
  clock : ℤ
  unixNow : Option ℤ
  useNonce : Aead.Nonce
  shareNonce : Aead.Nonce
  useSql : Sql
  shareSql : Sql

/-- The share that an accepted invite gives. -/
def acceptedShare (userId : String) (accessLevel : AccessLevel) (now : ℤ) : ShareRecord :=
  { userId, telegramUserId := 0, displayName := userId, accessLevel, wrappedKey := [],
    grantedAt := now, active := true }

section

variable [Primitives] [Postcard ShareRecord] [Postcard Invite]

def SharingCall.step (metaKey : Bytes) (c : SharingCall) (db : SharingDb) : SharingDb :=
  match c with
  | insertShare nonce volumeId share sql =>
    match SharingStore.insertShare metaKey nonce volumeId share sql db.shares with
    | .error _ => db
    | .ok shares => { db with shares }
  | revokeShare userId sql =>
    match SharingStore.revokeShare userId sql db.shares with
    | .error _ => db
    | .ok shares => { db with shares }
  | invite c => { db with invites := c.step metaKey db.invites }

def ReachableSharing (metaKey : Bytes) : SharingDb → Prop :=
  Runs (SharingCall.step metaKey) (fun _ _ => True) ⟨Table.empty, Table.empty⟩

namespace SharingService

/-- `uuid` and `now` are what `Invite::new` draws. -/
def createInvite (session : VolumeSession) (accessLevel : AccessLevel) (maxUses : UInt32)
    (expiresAt : ℤ) (poisoned : Bool) (uuid : String) (now : ℤ) (nonce : Aead.Nonce) (sql : Sql)
    (db : SharingDb) : Except ServiceError Invite × SharingDb :=
  let invite := Invite.new uuid now session.volumeId "api" accessLevel expiresAt maxUses
  if poisoned then (.error (.internal "lock poisoned"), db)
  else
    match SharingStore.insertInvite session.metaKey nonce invite sql db.invites with
    | .error e => (.error (.storage "create invite" e), db)
    | .ok invites => (.ok invite, { db with invites })

def acceptInvite (session : VolumeSession) (inviteId userId : String) (env : AcceptEnv)
    (db : SharingDb) : Except ServiceError ShareRecord × SharingDb :=
  if env.poisoned then (.error (.internal "lock poisoned"), db)
  else
    match SharingStore.useInvite session.metaKey env.useNonce env.clock inviteId env.useSql
      db.invites with
    | .error e => (.error (.storage "use invite" e), db)
    | .ok (none, invites) =>
      (.error (.invalidArgument ("invite not found or expired: " ++ inviteId)), { db with invites })
    | .ok (some invite, invites) =>
      match env.unixNow with
      | none => (.error (.internal "system clock error"), { db with invites })
      | some now =>
        let share := acceptedShare userId invite.accessLevel now
        match SharingStore.insertShare session.metaKey env.shareNonce session.volumeId share
          env.shareSql db.shares with
        | .error e => (.error (.storage "create share from invite" e), { db with invites })
        | .ok shares => (.ok share, { shares, invites })

end SharingService
end
end TgCryptFs

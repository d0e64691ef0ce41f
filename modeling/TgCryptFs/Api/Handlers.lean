import Mathlib.Data.Rat.Init
import Mathlib.Data.Rat.Cast.Defs
import TgCryptFs.Api.Sharing

set_option autoImplicit false

/-!
# Requests with a JSON body

`serde_json` keeps an integer that fits 64 bits as such and everything else as a float. The
accessors `as_u64` and `as_i64` answer for integers only.
-/
namespace TgCryptFs

/-- A finite float is its value. -/
inductive JsonNumber where
  | posInt (n : UInt64)
  | negInt (n : ℤ) (h : -2 ^ 63 ≤ n ∧ n < 0)
  | float (x : ℚ)

inductive Json where
  | null
  | bool (b : Bool)
  | number (n : JsonNumber)
  | string (s : String)
  | array (elems : List Json)
  | object (fields : List (String × Json))

def JsonNumber.value : JsonNumber → ℚ
  | posInt n => n.toNat
  | negInt n _ => n
  | float x => x

namespace Json

/-- `body.get("..")`, of which anything but an object has nothing. -/
def get (key : String) : Json → Option Json
  | object fields => fields.lookup key
  | _ => none

def asStr : Json → Option String
  | string s => some s
  | _ => none

def asU64 : Json → Option UInt64
  | number (.posInt n) => some n
  | _ => none

def asI64 : Json → Option ℤ
  | number (.posInt n) => if n.toNat < 2 ^ 63 then some n.toNat else none
  | number (.negInt n _) => some n
  | _ => none

end Json

namespace Handlers

def accessLevel : String → Option AccessLevel
  | "read-only" | "ReadOnly" => some .readOnly
  | "read-write" | "ReadWrite" => some .readWrite
  | "admin" | "Admin" => some .admin
  | _ => none

/-- The cast to 32 bits takes the low ones. -/
def maxUses (body : Json) : UInt32 := (((body.get "max_uses").bind Json.asU64).getD 0).toUInt32

def expiresAt (body : Json) : ℤ := ((body.get "expires_at").bind Json.asI64).getD 0

/-- What `create_invite` meets in the service. -/
structure CreateEnv where
  poisoned : Bool
  uuid : String
  clock : ℤ
  nonce : Aead.Nonce
  sql : Sql

variable [Primitives] [Postcard Invite]

/-- `db` is behind the session that the body names. The answer shows the invite. -/
def createInvite (sessions : String → Option VolumeSession) (body : Json) (env : CreateEnv)
    (db : SharingDb) : Except ServiceError Invite × SharingDb :=
  match (body.get "volume_id").bind Json.asStr with
  | none => (.error (.invalidArgument "volume_id is required"), db)
  | some volumeId =>
    let access := ((body.get "access_level").bind Json.asStr).getD "read-only"
    match accessLevel access with
    | none => (.error (.invalidArgument ("invalid access level: " ++ access)), db)
    | some level =>
      match sessions volumeId with
      | none => (.error (.sessionNotOpen volumeId), db)
      | some session =>
        SharingService.createInvite session level (maxUses body) (expiresAt body) env.poisoned
          env.uuid env.clock env.nonce env.sql db

end Handlers

variable [Primitives] [Postcard Invite] {metaKey : Bytes} {db db' : SharingDb} {invite : Invite}

/-- The invite that the service answers with is the one in the table. -/
theorem SharingService.createInvite_ok {session : VolumeSession} {accessLevel : AccessLevel}
    {maxUses : UInt32} {expiresAt : ℤ} {poisoned : Bool} {uuid : String} {now : ℤ}
    {nonce : Aead.Nonce} {sql : Sql}
    (h : createInvite session accessLevel maxUses expiresAt poisoned uuid now nonce sql db =
      (.ok invite, db')) :
    inviteRecord session.metaKey db'.invites invite.inviteId = some (.ok invite) ∧
      invite.maxUses = maxUses ∧ invite.expiresAt = expiresAt := by
  unfold createInvite at h
  dsimp only at h
  split at h
  · cases h
  · split at h
    · cases h
    · rename_i invites hinsert
      cases h
      refine ⟨?_, rfl, rfl⟩
      rw [SharingStore.inviteRecord_insertInvite hinsert]
      exact Function.update_self ..

theorem Handlers.createInvite_ok {sessions : String → Option VolumeSession} {body : Json}
    {env : CreateEnv} (h : createInvite sessions body env db = (.ok invite, db')) :
    ∃ volumeId session, body.get "volume_id" = some (.string volumeId) ∧
      sessions volumeId = some session ∧
      inviteRecord session.metaKey db'.invites invite.inviteId = some (.ok invite) ∧
      invite.maxUses = maxUses body ∧ invite.expiresAt = expiresAt body := by
  unfold createInvite at h
  split at h
  · cases h
  · rename_i volumeId hvolume
    dsimp only at h
    split at h
    · cases h
    · split at h
      · cases h
      · rename_i session hsession
        obtain ⟨v, hget, hstr⟩ := Option.bind_eq_some_iff.1 hvolume
        have hv : v = .string volumeId := by
          cases v with
          | string s =>
            cases hstr
            rfl
          | _ => cases hstr
        subst hv
        exact ⟨volumeId, session, hget, hsession, SharingService.createInvite_ok h⟩

end TgCryptFs

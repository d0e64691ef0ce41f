import TgCryptFs.Library.Words
import TgCryptFs.Store.InviteRecords

set_option autoImplicit false

/-!
# The `share invite` command

Arithmetic on 64 bits wraps in a release build.
-/
namespace TgCryptFs
open Library

namespace Cli

inductive CliError where
  | invalidAccessLevel (s : String)
  /-- The volume was not found, or not opened with the password given. -/
  | openVolume
  | clock
  | createInvite (e : RowError)
deriving DecidableEq

/-- What `open_volume_db` gives: the key, the id of the volume and the table of invites. -/
structure OpenedDb where
  metaKey : Bytes
  volumeId : String
  invites : Invites

/-- What the command meets: the seconds since the epoch when the expiry is computed and when the
    invite is dated, the fresh id, the nonce, and how the statement goes. -/
structure InviteEnv where
  secs : Option UInt64
  clock : ℤ
  uuid : String
  nonce : Aead.Nonce
  sql : Sql

def parseAccessLevel (s : String) : Except CliError AccessLevel :=
  match s.toLower with
  | "read-only" | "readonly" | "ro" => .ok .readOnly
  | "read-write" | "readwrite" | "rw" => .ok .readWrite
  | "admin" => .ok .admin
  | _ => .error (.invalidAccessLevel s)

def expiresAt (expiresHours : Option UInt64) (secs : Option UInt64) : Except CliError ℤ :=
  match expiresHours with
  | none => .ok 0
  | some h =>
    match secs with
    | none => .error .clock
    | some secs => .ok (wrapI64 (wrapI64 secs.toNat + wrapI64 (wrapI64 h.toNat * 3600)))

variable [Primitives] [Postcard Invite]

/-- The id of the invite is printed; the table is the one of the volume. -/
def createInvite (opened : Option OpenedDb) (access : String) (maxUses : Option UInt32)
    (expiresHours : Option UInt64) (env : InviteEnv) : Except CliError (String × Invites) :=
  match parseAccessLevel access with
  | .error e => .error e
  | .ok level =>
    match opened with
    | none => .error .openVolume
    | some volume =>
      match expiresAt expiresHours env.secs with
      | .error e => .error e
      | .ok expires =>
        let invite := Invite.new env.uuid env.clock volume.volumeId "owner" level expires
          (maxUses.getD 0)
        match SharingStore.insertInvite volume.metaKey env.nonce invite env.sql volume.invites with
        | .error e => .error (.createInvite e)
        | .ok invites => .ok (invite.inviteId, invites)

end Cli
end TgCryptFs

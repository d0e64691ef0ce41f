import Mathlib.Data.Int.Notation
import TgCryptFs.Core.Crypto

set_option autoImplicit false

namespace TgCryptFs

inductive AccessLevel where
  | readOnly | readWrite | admin
deriving DecidableEq, Repr

structure ShareRecord where
  userId : String
  telegramUserId : ℤ
  displayName : String
  accessLevel : AccessLevel
  wrappedKey : Bytes
  grantedAt : ℤ
  active : Bool
deriving DecidableEq, Repr

inductive SharingError where
  | invalidInvite (message : String)
deriving DecidableEq, Repr

/-- `expiresAt = 0` is never, `maxUses = 0` is without limit. -/
structure Invite where
  inviteId : String
  volumeId : String
  createdBy : String
  accessLevel : AccessLevel
  createdAt : ℤ
  expiresAt : ℤ
  maxUses : UInt32
  useCount : UInt32
  revoked : Bool
  wrappedKey : Option Bytes
deriving DecidableEq, Repr

theorem toNat_succ_eq_iff (n : UInt32) : (n + 1).toNat = n.toNat + 1 ↔ n.toNat + 1 < 2 ^ 32 := by
  have hn := n.toNat_lt
  rw [UInt32.toNat_add, UInt32.toNat_one]
  omega

theorem toNat_succ_ne (n : UInt32) : (n + 1).toNat ≠ n.toNat := by
  have hn := n.toNat_lt
  rw [UInt32.toNat_add, UInt32.toNat_one]
  omega

namespace Invite

/-- `now` is the clock and `uuid` the fresh id. -/
def new (uuid : String) (now : ℤ) (volumeId createdBy : String) (accessLevel : AccessLevel)
    (expiresAt : ℤ) (maxUses : UInt32) : Invite :=
  { inviteId := uuid, volumeId, createdBy, accessLevel, createdAt := now, expiresAt, maxUses,
    useCount := 0, revoked := false, wrappedKey := none }

/-- `now` is what the clock says at the call. -/
def isValid (i : Invite) (now : ℤ) : Bool :=
  if i.revoked then false
  else if i.maxUses > 0 && i.useCount >= i.maxUses then false
  else if i.expiresAt > 0 then
    if now > i.expiresAt then false else true
  else true

/-- The count wraps in a release build. -/
def tryUse (i : Invite) (now : ℤ) : Except SharingError Invite :=
  if !i.isValid now then
    .error (.invalidInvite ("invite " ++ i.inviteId ++ " is no longer valid"))
  else .ok { i with useCount := i.useCount + 1 }

def revoke (i : Invite) : Invite := { i with revoked := true }

/-- Past a positive `expires_at`. -/
def Expired (i : Invite) (now : ℤ) : Prop := 0 < i.expiresAt ∧ i.expiresAt < now

/-- A positive limit is reached. -/
def UsedUp (i : Invite) : Prop := 0 < i.maxUses ∧ i.maxUses ≤ i.useCount

theorem isValid_iff {i : Invite} {now : ℤ} :
    i.isValid now = true ↔ i.revoked = false ∧ ¬ i.UsedUp ∧ ¬ i.Expired now := by
  unfold isValid UsedUp Expired
  cases i.revoked with
  | true => simp
  | false =>
    by_cases hused : 0 < i.maxUses ∧ i.maxUses ≤ i.useCount
    · simp [hused.1, hused.2]
    · have hcond : (decide (i.maxUses > 0) && decide (i.useCount ≥ i.maxUses)) = false := by
        simpa using hused
      by_cases hexp : 0 < i.expiresAt
      · simp [hcond, hused, hexp]
      · simp [hcond, hused, hexp]

theorem tryUse_ok {i j : Invite} {now : ℤ} :
    i.tryUse now = .ok j ↔ i.isValid now = true ∧ j = { i with useCount := i.useCount + 1 } := by
  unfold tryUse
  cases h : i.isValid now with
  | true => simp [eq_comm]
  | false => simp

end Invite
end TgCryptFs

import TgCryptFs.Core.Crypto

set_option autoImplicit false

/-!
# Mutability policies
-/
namespace TgCryptFs

inductive DeleteBehavior where
  | immediate | soft | reject
deriving DecidableEq, Repr

inductive ExpiryBehavior where
  | purge | hold
deriving DecidableEq, Repr

structure PolicyRule where
  pathPattern : String
  onDelete : DeleteBehavior
  recordChanges : Bool
  mutable : Bool
  retentionSecs : Option ℕ
  onExpiry : ExpiryBehavior
deriving DecidableEq, Repr

structure MutabilityPolicy where
  policyId : UInt32
  name : String
  rules : List PolicyRule
deriving DecidableEq, Repr

end TgCryptFs

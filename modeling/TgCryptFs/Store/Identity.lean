import TgCryptFs.Store.InodeRows
import TgCryptFs.Store.Sharing

set_option autoImplicit false

/-!
# What a record is bound to

Each store writes its records under associated data of its own form: a tag, and what names
the record in its table. No tag starts with another, so no two forms meet, whatever the
names are.
-/
namespace TgCryptFs

def policyAad (policyId : ℕ) : String := "policy:" ++ policyId.repr
def volumeAad (volumeId : String) : String := "volume:" ++ volumeId
def userAad (userId : String) : String := "user:" ++ userId
def deadmanAad (volumeId : String) : String := "deadman:" ++ volumeId
def snapshotAad (ino : ℕ) : String := "snapshot:ino:" ++ ino.repr

/-- A table, with what its store names a record by. -/
inductive Identity where
  | inode (ino : ℕ)
  | policy (policyId : ℕ)
  | volume (volumeId : String)
  | user (userId : String)
  | deadman (volumeId : String)
  | share (userId : String)
  | invite (inviteId : String)
  | snapshot (ino : ℕ)
deriving DecidableEq, Repr

namespace Identity

def aad : Identity → String
  | inode ino => inodeAad ino
  | policy policyId => policyAad policyId
  | volume volumeId => volumeAad volumeId
  | user userId => userAad userId
  | deadman volumeId => deadmanAad volumeId
  | share userId => shareAad userId
  | invite inviteId => inviteAad inviteId
  | snapshot ino => snapshotAad ino

/-- The tables by number. -/
def table : Identity → Fin 8
  | inode _ => 0
  | policy _ => 1
  | volume _ => 2
  | user _ => 3
  | deadman _ => 4
  | share _ => 5
  | invite _ => 6
  | snapshot _ => 7

def tags : List String :=
  ["inode:", "policy:", "volume:", "user:", "deadman:", "share:", "invite:", "snapshot:ino:"]

def tag (t : Fin 8) : List Char := (tags.get t).toList

/-- What follows the tag. -/
def name : Identity → String
  | inode ino => ino.repr
  | policy policyId => policyId.repr
  | volume volumeId => volumeId
  | user userId => userId
  | deadman volumeId => volumeId
  | share userId => userId
  | invite inviteId => inviteId
  | snapshot ino => ino.repr

theorem toList_aad (i : Identity) : i.aad.toList = tag i.table ++ i.name.toList := by
  cases i <;> exact String.toList_append

theorem tag_isolated : ∀ a b : Fin 8, tag a <+: tag b → a = b := by
  decide

theorem tag_append_inj {a b : Fin 8} {x y : List Char} (h : tag a ++ x = tag b ++ y) :
    a = b ∧ x = y := by
  have hab : a = b := by
    rcases List.prefix_or_prefix_of_prefix (List.prefix_append (tag a) x)
      (h ▸ List.prefix_append (tag b) y) with hp | hp
    · exact tag_isolated a b hp
    · exact (tag_isolated b a hp).symm
  subst hab
  exact ⟨rfl, List.append_cancel_left h⟩

theorem aad_injective : Function.Injective aad := by
  intro i j h
  have hlist := congrArg String.toList h
  rw [toList_aad, toList_aad] at hlist
  obtain ⟨htable, hname⟩ := tag_append_inj hlist
  have hname : i.name = j.name := String.toList_inj.1 hname
  cases i <;> cases j <;> simp_all [table, name, repr_injective.eq_iff]

theorem repr_ne_of_neg {z : ℤ} (hz : z < 0) (n : ℕ) : z.repr ≠ (n : ℤ).repr := by
  intro h
  obtain ⟨m, rfl⟩ := Int.eq_negSucc_of_lt_zero hz
  have hlist : '-' :: m.succ.repr.toList = n.repr.toList := by
    rw [← show (Int.negSucc m).repr.toList = '-' :: m.succ.repr.toList from String.toList_append]
    exact congrArg String.toList h
  have hsign : '-' ∈ Nat.toDigits 10 n := by
    rw [← Nat.toList_repr, ← hlist]
    exact List.mem_cons_self
  exact absurd (Nat.isDigit_of_mem_toDigits (by decide) (by decide) hsign) (by decide)

theorem inodeAad_ne_of_neg {z : ℤ} (hz : z < 0) (i : Identity) : inodeAad z ≠ i.aad := by
  intro h
  have hlist : tag 0 ++ z.repr.toList = tag i.table ++ i.name.toList := by
    rw [← toList_aad, ← h]
    exact String.toList_append.symm
  obtain ⟨htable, hname⟩ := tag_append_inj hlist
  cases i with
  | inode ino => exact repr_ne_of_neg hz ino (String.toList_inj.1 hname)
  | _ => cases htable

end Identity
end TgCryptFs

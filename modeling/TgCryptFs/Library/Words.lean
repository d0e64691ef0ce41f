import Mathlib.Algebra.Group.Int.Defs
import Mathlib.Algebra.Group.Nat.Defs
import Mathlib.Tactic.Common

set_option autoImplicit false

/-!
# 64-bit words

What `as i64` and `as u64` make of an integer, and what a build makes of a sum or a product.
-/
namespace TgCryptFs.Library

@[irreducible] def wrapI64 (z : ℤ) : ℤ := z.bmod (2 ^ 64)

@[irreducible] def wrapU64 (z : ℤ) : ℕ := (z % 2 ^ 64).toNat

theorem wrapI64_of_lt {n : ℕ} (h : n < 2 ^ 63) : wrapI64 n = n := by
  rw [wrapI64, Int.bmod_eq_iff (by decide)]
  omega

theorem wrapU64_wrapI64 {n : ℕ} (h : n < 2 ^ 64) : wrapU64 (wrapI64 n) = n := by
  have hmod : wrapI64 n % 2 ^ 64 = n % 2 ^ 64 := by
    rw [wrapI64]
    exact Int.bmod_emod
  rw [wrapU64, hmod]
  omega

theorem wrapI64_inj {m n : ℕ} (hm : m < 2 ^ 64) (hn : n < 2 ^ 64) :
    wrapI64 m = wrapI64 n ↔ m = n := by
  constructor
  · intro h
    have := congrArg wrapU64 h
    rwa [wrapU64_wrapI64 hm, wrapU64_wrapI64 hn] at this
  · exact congrArg fun n : ℕ => wrapI64 n

theorem wrapU64_of_nonneg {n : ℕ} (h : n < 2 ^ 64) : wrapU64 n = n := by
  unfold wrapU64
  omega

/-! ## Sums and products -/

/-- What a build makes of an addition that overflows. -/
inductive Overflow where
  | panics
  | wraps
deriving DecidableEq, Repr

/-- `a + b` on `u64`. There is no result after a panic. -/
def Overflow.addU64 (build : Overflow) (a b : ℕ) : Option ℕ :=
  if a + b < 2 ^ 64 then some (a + b)
  else
    match build with
    | panics => none
    | wraps => some ((a + b) % 2 ^ 64)

/-- `a * b` on `u64`. -/
def Overflow.mulU64 (build : Overflow) (a b : ℕ) : Option ℕ :=
  if a * b < 2 ^ 64 then some (a * b)
  else
    match build with
    | panics => none
    | wraps => some (a * b % 2 ^ 64)

/-- `a.pow(n)` on `u64`. -/
def Overflow.powU64 (build : Overflow) (a n : ℕ) : Option ℕ :=
  if a ^ n < 2 ^ 64 then some (a ^ n)
  else
    match build with
    | panics => none
    | wraps => some (a ^ n % 2 ^ 64)

theorem Overflow.addU64_of_lt {build : Overflow} {a b : ℕ} (h : a + b < 2 ^ 64) :
    build.addU64 a b = some (a + b) := if_pos h

theorem Overflow.mulU64_of_lt {build : Overflow} {a b : ℕ} (h : a * b < 2 ^ 64) :
    build.mulU64 a b = some (a * b) := if_pos h

theorem Overflow.powU64_of_lt {build : Overflow} {a n : ℕ} (h : a ^ n < 2 ^ 64) :
    build.powU64 a n = some (a ^ n) := if_pos h

theorem Overflow.powU64_panics_iff {build : Overflow} {a n : ℕ} :
    build.powU64 a n = none ↔ build = .panics ∧ 2 ^ 64 ≤ a ^ n := by
  unfold powU64
  split
  · exact iff_of_false nofun fun h => by omega
  · rename_i hge
    cases build with
    | panics => exact iff_of_true rfl ⟨rfl, Nat.le_of_not_lt hge⟩
    | wraps => exact iff_of_false nofun fun h => nomatch h.1

theorem Overflow.mulU64_panics_iff {build : Overflow} {a b : ℕ} :
    build.mulU64 a b = none ↔ build = .panics ∧ 2 ^ 64 ≤ a * b := by
  unfold mulU64
  split
  · exact iff_of_false nofun fun h => by omega
  · rename_i hge
    cases build with
    | panics => exact iff_of_true rfl ⟨rfl, Nat.le_of_not_lt hge⟩
    | wraps => exact iff_of_false nofun fun h => nomatch h.1

theorem Overflow.addU64_panics {a b n : ℕ} (h : panics.addU64 a b = some n) :
    n = a + b ∧ a + b < 2 ^ 64 := by
  unfold addU64 at h
  split at h
  · rename_i hlt
    exact ⟨(Option.some.inj h).symm, hlt⟩
  · cases h

end TgCryptFs.Library

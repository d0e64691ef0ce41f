import Mathlib.Data.Nat.Notation
import Mathlib.Logic.Function.Basic

set_option autoImplicit false

/-!
# Shared items with their holders

What is held of each key, and how often. Who comes first brings the item that all later ones
share, and the last to leave takes the key away.
-/
namespace TgCryptFs.Library

abbrev RefCounts (K V : Type) := K → Option (V × ℕ)

namespace RefCounts

variable {K V : Type} [DecidableEq K]

def empty : RefCounts K V := fun _ => none

def count (m : RefCounts K V) (k : K) : ℕ := (m k).elim 0 Prod.snd

def acquire (m : RefCounts K V) (k : K) (v : V) : RefCounts K V :=
  Function.update m k (some (((m k).elim v Prod.fst), m.count k + 1))

def release (m : RefCounts K V) (k : K) : RefCounts K V :=
  Function.update m k (if m.count k ≤ 1 then none else (m k).map fun e => (e.1, e.2 - 1))

/-- The release of a key takes it away. -/
def last (m : RefCounts K V) (k : K) : Bool := (m k).isSome && decide (m.count k ≤ 1)

variable {m : RefCounts K V} {k : K} {v : V}

omit [DecidableEq K] in
theorem count_of_eq {e : V × ℕ} (h : m k = some e) : m.count k = e.2 := by
  rw [count, h]
  rfl

omit [DecidableEq K] in
theorem count_of_none (h : m k = none) : m.count k = 0 := by
  rw [count, h]
  rfl

theorem acquire_of_eq {e : V × ℕ} (h : m k = some e) :
    m.acquire k v = Function.update m k (some (e.1, e.2 + 1)) := by
  rw [acquire, count_of_eq h, h]
  rfl

theorem acquire_of_none (h : m k = none) : m.acquire k v = Function.update m k (some (v, 1)) := by
  rw [acquire, count_of_none h, h]
  rfl

theorem release_of_eq {e : V × ℕ} (h : m k = some e) :
    m.release k = Function.update m k (if e.2 ≤ 1 then none else some (e.1, e.2 - 1)) := by
  rw [release, count_of_eq h, h]
  rfl

omit [DecidableEq K] in
theorem last_of_eq {e : V × ℕ} (h : m k = some e) : m.last k = decide (e.2 ≤ 1) := by
  rw [last, count_of_eq h, h]
  rfl

omit [DecidableEq K] in
theorem last_of_none (h : m k = none) : m.last k = false := by
  rw [last, h]
  rfl

theorem release_of_none (h : m k = none) : m.release k = m := by
  rw [release, if_pos (by rw [count_of_none h]; exact Nat.zero_le 1)]
  exact Function.update_eq_self_iff.2 h.symm

end RefCounts
end TgCryptFs.Library

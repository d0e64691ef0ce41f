import Mathlib.Algebra.Order.Ring.Nat
import Mathlib.Data.List.Basic
import Mathlib.Tactic.Common

set_option autoImplicit false

/-!
# Length prefixes

A field behind its length in a fixed number of bytes, lowest first. What follows a field cannot be
taken for a part of it, so a row of fields is determined by its bytes.
-/
namespace TgCryptFs.Library

/-- The `width` lowest bytes of a number. -/
def leBytes : ℕ → ℕ → List UInt8
  | 0, _ => []
  | width + 1, n => UInt8.ofNat n :: leBytes width (n / 256)

@[simp] theorem length_leBytes (width n : ℕ) : (leBytes width n).length = width := by
  induction width generalizing n with
  | zero => rfl
  | succ width ih => rw [leBytes, List.length_cons, ih]

theorem leBytes_injOn {width m n : ℕ} (hm : m < 256 ^ width) (hn : n < 256 ^ width)
    (h : leBytes width m = leBytes width n) : m = n := by
  induction width generalizing m n with
  | zero => omega
  | succ width ih =>
    obtain ⟨hlow, hrest⟩ := List.cons.inj h
    have hlow' : m % 256 = n % 256 := by
      have := congrArg UInt8.toNat hlow
      rwa [UInt8.toNat_ofNat', UInt8.toNat_ofNat'] at this
    rw [pow_succ] at hm hn
    have hhigh : m / 256 = n / 256 := ih (by omega) (by omega) hrest
    omega

/-- A field behind its length. -/
def lengthPrefixed (width : ℕ) (field : List UInt8) : List UInt8 := leBytes width field.length ++ field

theorem lengthPrefixed_append_inj {width : ℕ} {a b r s : List UInt8} (ha : a.length < 256 ^ width)
    (hb : b.length < 256 ^ width) (h : lengthPrefixed width a ++ r = lengthPrefixed width b ++ s) :
    a = b ∧ r = s := by
  rw [lengthPrefixed, lengthPrefixed, List.append_assoc, List.append_assoc] at h
  obtain ⟨hlen, hrest⟩ := List.append_inj h (by rw [length_leBytes, length_leBytes])
  exact List.append_inj hrest (leBytes_injOn ha hb hlen)

/-- A row of fields. -/
def lengthPrefixedAll (width : ℕ) (fields : List (List UInt8)) : List UInt8 :=
  fields.flatMap (lengthPrefixed width)

theorem lengthPrefixedAll_inj {width : ℕ} {as bs : List (List UInt8)} (hlen : as.length = bs.length)
    (ha : ∀ a ∈ as, a.length < 256 ^ width) (hb : ∀ b ∈ bs, b.length < 256 ^ width)
    (h : lengthPrefixedAll width as = lengthPrefixedAll width bs) : as = bs := by
  induction as generalizing bs with
  | nil => exact (List.length_eq_zero_iff.1 hlen.symm).symm
  | cons a as ih =>
    cases bs with
    | nil => cases hlen
    | cons b bs =>
      rw [lengthPrefixedAll, lengthPrefixedAll, List.flatMap_cons, List.flatMap_cons] at h
      obtain ⟨rfl, hrest⟩ := lengthPrefixed_append_inj (ha a List.mem_cons_self) (hb b List.mem_cons_self) h
      rw [ih (Nat.succ.inj hlen) (fun x hx => ha x (List.mem_cons_of_mem _ hx))
        (fun x hx => hb x (List.mem_cons_of_mem _ hx)) hrest]

end TgCryptFs.Library

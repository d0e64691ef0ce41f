import TgCryptFs.Library.ByteRange

set_option autoImplicit false

/-!
# Parts in a row

A list of parts, each with an offset and a length, that follow one another without gap or
overlap.
-/
namespace TgCryptFs.Library

variable {α β : Type} {offset length : α → ℕ}

def Consecutive (offset length : α → ℕ) (start : ℕ) : List α → ℕ → Prop
  | [], stop => start = stop
  | x :: xs, stop => offset x = start ∧ Consecutive offset length (start + length x) xs stop

namespace Consecutive

variable {start stop : ℕ} {xs : List α}

theorem le (h : Consecutive offset length start xs stop) : start ≤ stop := by
  induction xs generalizing start with
  | nil => exact Nat.le_of_eq h
  | cons x xs ih => exact Nat.le_trans (Nat.le_add_right _ _) (ih h.2)

theorem bounds (h : Consecutive offset length start xs stop) {x : α} (hx : x ∈ xs) :
    start ≤ offset x ∧ offset x + length x ≤ stop := by
  induction xs generalizing start with
  | nil => cases hx
  | cons y xs ih =>
    obtain ⟨rfl, hrest⟩ := h
    rcases List.mem_cons.1 hx with rfl | hx
    · exact ⟨Nat.le_refl _, hrest.le⟩
    · have hlater := ih hrest hx
      omega

theorem count_eq_one [DecidableEq α] (h : Consecutive offset length start xs stop) {x : α}
    (hx : x ∈ xs) (hpos : 0 < length x) : xs.count x = 1 := by
  induction xs generalizing start with
  | nil => cases hx
  | cons y xs ih =>
    obtain ⟨rfl, hrest⟩ := h
    by_cases hy : y = x
    · subst hy
      have hlater : y ∉ xs := fun hmem => by
        have hbounds := hrest.bounds hmem
        omega
      rw [List.count_cons_self, List.count_eq_zero_of_not_mem hlater]
    · rw [List.count_cons_of_ne hy]
      exact ih hrest ((List.mem_cons.1 hx).resolve_left fun he => hy he.symm)

/-- The parts of an array, one after the other, are the array between the ends. -/
theorem flatten_slices (h : Consecutive offset length start xs stop) (b : List β) :
    (xs.map fun x => slice b (offset x) (length x)).flatten = slice b start (stop - start) := by
  induction xs generalizing start with
  | nil =>
    obtain rfl : start = stop := h
    simp [slice]
  | cons x xs ih =>
    obtain ⟨rfl, hrest⟩ := h
    have hle := hrest.le
    have hlen : stop - offset x = length x + (stop - (offset x + length x)) := by omega
    rw [List.map_cons, List.flatten_cons, ih hrest, hlen]
    unfold slice
    rw [List.take_add, List.drop_drop]

end Consecutive
end TgCryptFs.Library

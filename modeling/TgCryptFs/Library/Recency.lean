import Mathlib.Algebra.BigOperators.Group.Finset.Basic
import Mathlib.Order.Bounds.Basic

set_option autoImplicit false

/-!
# The most recent part of a set

A set with an order of use, of which the most recent part is to fit a bound. Taking the least
recent element away as long as the rest does not fit ends in the largest part that does.
-/
namespace TgCryptFs.Library

variable {α : Type} {order order' weight : α → ℕ} {all S : Finset α}

/-- With an element come all that were used no earlier. -/
def Recent (order : α → ℕ) (all S : Finset α) : Prop :=
  S ⊆ all ∧ ∀ x ∈ S, ∀ y ∈ all, order x ≤ order y → y ∈ S

/-- The most recent parts that fit, and the empty one. -/
def RecentFits (order weight : α → ℕ) (bound needed : ℕ) (all : Finset α) : Set (Finset α) :=
  {S | Recent order all S ∧ (S = ∅ ∨ ∑ x ∈ S, weight x + needed ≤ bound)}

theorem recent_self : Recent order all all :=
  ⟨Finset.Subset.refl _, fun _ _ _ hy _ => hy⟩

theorem Recent.congr (h : ∀ x ∈ all, ∀ y ∈ all, order x ≤ order y ↔ order' x ≤ order' y) :
    Recent order all S ↔ Recent order' all S := by
  constructor
  · rintro ⟨hsub, hup⟩
    exact ⟨hsub, fun x hx y hy hle => hup x hx y hy ((h x (hsub hx) y hy).2 hle)⟩
  · rintro ⟨hsub, hup⟩
    exact ⟨hsub, fun x hx y hy hle => hup x hx y hy ((h x (hsub hx) y hy).1 hle)⟩

theorem recentFits_congr (h : ∀ x ∈ all, ∀ y ∈ all, order x ≤ order y ↔ order' x ≤ order' y)
    (bound needed : ℕ) :
    RecentFits order weight bound needed all = RecentFits order' weight bound needed all := by
  ext S
  exact and_congr_left fun _ => Recent.congr h

theorem isGreatest_all {bound needed : ℕ} (h : all = ∅ ∨ ∑ x ∈ all, weight x + needed ≤ bound) :
    IsGreatest (RecentFits order weight bound needed all) all :=
  ⟨⟨recent_self, h⟩, fun _ hT => hT.1.1⟩

variable [DecidableEq α]

/-- Taking away the least recent element loses no part that fits, if all of it does not. -/
theorem isGreatest_of_erase {bound needed : ℕ} {m : α} (hm : m ∈ all)
    (hleast : ∀ y ∈ all, y ≠ m → order m < order y) (hover : bound < ∑ x ∈ all, weight x + needed)
    (h : IsGreatest (RecentFits order weight bound needed (all.erase m)) S) :
    IsGreatest (RecentFits order weight bound needed all) S := by
  obtain ⟨⟨⟨hsub, hup⟩, hfits⟩, hmax⟩ := h
  refine ⟨⟨⟨fun x hx => Finset.mem_of_mem_erase (hsub hx), fun x hx y hy hle => ?_⟩, hfits⟩, ?_⟩
  · obtain ⟨hne, hx'⟩ := Finset.mem_erase.1 (hsub hx)
    have hlt := hleast x hx' hne
    have hy' : y ≠ m := by
      rintro rfl
      omega
    exact hup x hx y (Finset.mem_erase.2 ⟨hy', hy⟩) hle
  · rintro T ⟨⟨hTsub, hTup⟩, hTfits⟩
    have hmT : m ∉ T := by
      intro hmT
      have hall : T = all := by
        apply Finset.Subset.antisymm hTsub
        intro y hy
        by_cases hym : y = m
        · exact hym ▸ hmT
        · exact hTup m hmT y hy (Nat.le_of_lt (hleast y hy hym))
      rcases hTfits with rfl | hTfits
      · exact absurd hmT (Finset.notMem_empty m)
      · rw [hall] at hTfits
        omega
    refine hmax ⟨⟨fun x hx => ?_, fun x hx y hy hle => ?_⟩, hTfits⟩
    · refine Finset.mem_erase.2 ⟨?_, hTsub hx⟩
      rintro rfl
      exact hmT hx
    · exact hTup x hx y (Finset.mem_of_mem_erase hy) hle

end TgCryptFs.Library

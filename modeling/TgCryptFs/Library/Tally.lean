import Mathlib.Algebra.BigOperators.Group.Finset.Basic
import Mathlib.Algebra.GroupWithZero.Nat
import TgCryptFs.Library.Table

set_option autoImplicit false

/-!
# Sums over the rows of a table

A sum of a quantity that is read off one observation of each row, and how it changes with
that observation at one key.
-/
namespace TgCryptFs.Library
namespace Table

variable {Row K U β : Type} {key : Row → K} {uniq : Row → U} [DecidableEq K]

/-- What is observed of the row under a key. -/
def observe (g : Row → β) (t : Table key uniq) (k : K) : Option β := (t.find k).map g

section

variable {g : Row → β} {t t' : Table key uniq} {k : K}

theorem observe_of_find {r : Row} (h : t.find k = some r) : t.observe g k = some (g r) := by
  rw [observe, h]
  rfl

theorem observe_eq_none : t.observe g k = none ↔ t.find k = none := Option.map_eq_none_iff

theorem observe_of_update {x : Option Row} (h : t'.find = Function.update t.find k x) :
    t'.observe g = Function.update (t.observe g) k (x.map g) := by
  funext m
  simp only [observe, h, Function.update_apply]
  split <;> rfl

end

def tally (f : Row → ℕ) (t : Table key uniq) : ℕ := (t.rows.map f).sum

theorem tally_eq_sum (g : Row → β) (h : β → ℕ) (t : Table key uniq) {S : Finset K}
    (hS : ∀ r ∈ t.rows, key r ∈ S) :
    t.tally (fun r => h (g r)) = ∑ k ∈ S, (t.observe g k).elim 0 h := by
  have hrow : ∀ r ∈ t.rows, (t.observe g (key r)).elim 0 h = h (g r) := by
    intro r hr
    rw [observe, find_of_mem hr]
    rfl
  have hsub : (t.rows.map key).toFinset ⊆ S := by
    intro k hk
    obtain ⟨r, hr, rfl⟩ := List.mem_map.1 (List.mem_toFinset.1 hk)
    exact hS r hr
  rw [← Finset.sum_subset hsub, List.sum_toFinset _ t.key_nodup, List.map_map, tally]
  · exact congrArg List.sum (List.map_congr_left fun r hr => (hrow r hr).symm)
  · intro k _ hk
    have hnone : t.find k = none := find_eq_none.2 fun r hr e =>
      hk (List.mem_toFinset.2 (List.mem_map.2 ⟨r, hr, e⟩))
    rw [observe, hnone]
    rfl

theorem eq_zero_of_tally {f : Row → ℕ} {t : Table key uniq} (h : t.tally f = 0) {k : K} {r : Row}
    (hr : t.find k = some r) : f r = 0 :=
  List.sum_eq_zero_iff_forall_eq_nat.1 h _ (List.mem_map_of_mem (mem_of_find hr))

/-- The keys of two tables. -/
def bothKeys (t t' : Table key uniq) : Finset K :=
  (t.rows.map key).toFinset ∪ (t'.rows.map key).toFinset

theorem mem_bothKeys {t t' : Table key uniq} {r : Row} (h : r ∈ t.rows ∨ r ∈ t'.rows) :
    key r ∈ bothKeys t t' := by
  rw [bothKeys, Finset.mem_union, List.mem_toFinset, List.mem_toFinset]
  exact h.imp (List.mem_map_of_mem ·) (List.mem_map_of_mem ·)

theorem tally_congr (g : Row → β) (h : β → ℕ) {t t' : Table key uniq}
    (hx : t'.observe g = t.observe g) :
    t'.tally (fun r => h (g r)) = t.tally (fun r => h (g r)) := by
  rw [tally_eq_sum g h t fun r hr => (mem_bothKeys (.inl hr) : key r ∈ bothKeys t t'),
    tally_eq_sum g h t' fun r hr => mem_bothKeys (t := t) (.inr hr), hx]

theorem tally_update (g : Row → β) (h : β → ℕ) {t t' : Table key uniq} {k : K} {x : Option β}
    (hx : t'.observe g = Function.update (t.observe g) k x) :
    t'.tally (fun r => h (g r)) + (t.observe g k).elim 0 h =
      t.tally (fun r => h (g r)) + x.elim 0 h := by
  let S : Finset K := {k} ∪ bothKeys t t'
  have hk : k ∈ S := Finset.mem_union_left _ (Finset.mem_singleton_self k)
  have hS : ∀ r, r ∈ t.rows ∨ r ∈ t'.rows → key r ∈ S := fun r hr =>
    Finset.mem_union_right _ (mem_bothKeys hr)
  rw [tally_eq_sum g h t fun r hr => hS r (.inl hr),
    tally_eq_sum g h t' fun r hr => hS r (.inr hr), hx, ← Finset.add_sum_erase S _ hk,
    ← Finset.add_sum_erase S (fun j => (t.observe g j).elim 0 h) hk, Function.update_self]
  have hrest : ∑ j ∈ S.erase k, (Function.update (t.observe g) k x j).elim 0 h =
      ∑ j ∈ S.erase k, (t.observe g j).elim 0 h :=
    Finset.sum_congr rfl fun j hj => by rw [Function.update_of_ne (Finset.ne_of_mem_erase hj)]
  rw [hrest]
  omega

end Table
end TgCryptFs.Library

import Mathlib.Data.List.Basic
import Mathlib.Data.List.Pairwise
import Mathlib.Data.List.Perm.Basic
import Mathlib.Order.Lattice
import Mathlib.Tactic.Common

set_option autoImplicit false

/-!
# Ordering by a key that loses information

Rows are sorted by a key, greatest first, and ties may stand in any order. When the answer is to be
right for a value that the key only approximates, every pair of rows that the key does not separate
counts, unless a limit cuts both off.
-/
namespace TgCryptFs.Library

variable {α ι κ : Type} [LinearOrder ι] [LinearOrder κ]

/-- An order of the rows by the key, greatest first. -/
def Descending (k : α → ι) (rows ordered : List α) : Prop :=
  ordered.Perm rows ∧ ordered.Pairwise fun a b => k b ≤ k a

/-- The `n` rows with the greatest values, or all if there are fewer, in the order of the values. -/
structure Greatest (v : α → κ) (rows : List α) (n : ℕ) (l : List α) : Prop where
  length_eq : l.length = min n rows.length
  sorted : l.Pairwise fun a b => v b ≤ v a
  others : ∃ rest, (l ++ rest).Perm rows ∧ ∀ a ∈ l, ∀ b ∈ rest, v b ≤ v a

theorem exists_descending (k : α → ι) (rows : List α) : ∃ ordered, Descending k rows ordered := by
  refine ⟨rows.mergeSort fun a b => decide (k b ≤ k a), List.mergeSort_perm _ _, ?_⟩
  have hsorted := @List.pairwise_mergeSort α (fun a b => decide (k b ≤ k a))
    (fun a b c hab hbc => decide_eq_true ((of_decide_eq_true hbc).trans (of_decide_eq_true hab)))
    (fun a b => by simpa using le_total (k b) (k a)) rows
  exact hsorted.imp fun h => of_decide_eq_true h

theorem greatest_take_iff {v : α → κ} {rows ordered : List α} (hperm : ordered.Perm rows) (n : ℕ) :
    Greatest v rows n (ordered.take n) ↔ (ordered.take n).Pairwise (fun a b => v b ≤ v a) ∧
      ∀ a ∈ ordered.take n, ∀ b ∈ ordered.drop n, v b ≤ v a := by
  constructor
  · rintro ⟨-, hsorted, rest, hrest, hle⟩
    have hdrop : rest.Perm (ordered.drop n) := by
      rw [← List.perm_append_left_iff (ordered.take n), List.take_append_drop]
      exact hrest.trans hperm.symm
    exact ⟨hsorted, fun a ha b hb => hle a ha b (hdrop.mem_iff.2 hb)⟩
  · rintro ⟨hsorted, hle⟩
    refine ⟨?_, hsorted, ordered.drop n, ?_, hle⟩
    · rw [List.length_take, hperm.length_eq]
    · rw [List.take_append_drop]
      exact hperm

/-- Among the first `n` of a list, each is in the relation to all that follow. -/
theorem pairwise_take_iff {R : α → α → Prop} (l : List α) (n : ℕ) :
    ((l.take n).Pairwise R ∧ ∀ a ∈ l.take n, ∀ b ∈ l.drop n, R a b) ↔
      ∀ before a after, l = before ++ a :: after → before.length < n → ∀ b ∈ after, R a b := by
  constructor
  · rintro ⟨hpairwise, hcross⟩ before a after rfl hlt b hb
    obtain ⟨m, rfl⟩ : ∃ m, n = before.length + (m + 1) := ⟨n - before.length - 1, by omega⟩
    rw [List.take_length_add_append, List.take_succ_cons] at hpairwise hcross
    rw [List.drop_length_add_append, List.drop_succ_cons] at hcross
    rw [← List.take_append_drop m after] at hb
    rcases List.mem_append.1 hb with hb | hb
    · exact (List.pairwise_cons.1 (List.pairwise_append.1 hpairwise).2.1).1 b hb
    · exact hcross a (List.mem_append_right _ List.mem_cons_self) b hb
  · intro h
    induction l generalizing n with
    | nil => simp
    | cons x l ih =>
      cases n with
      | zero => simp
      | succ n =>
        have hfirst : ∀ b ∈ l, R x b := h [] x l rfl n.succ_pos
        obtain ⟨hpairwise, hcross⟩ := ih n fun before a after heq hlt =>
          h (x :: before) a after (congrArg (x :: ·) heq) (Nat.succ_lt_succ hlt)
        rw [List.take_succ_cons, List.drop_succ_cons]
        refine ⟨List.pairwise_cons.2 ⟨fun b hb => hfirst b (List.mem_of_mem_take hb), hpairwise⟩, ?_⟩
        intro a ha b hb
        rcases List.mem_cons.1 ha with rfl | ha
        · exact hfirst b (List.mem_of_mem_drop hb)
        · exact hcross a ha b hb

theorem countP_eq_of_descending {k : α → ι} {before after : List α} {a : α}
    (h : (before ++ a :: after).Pairwise fun a b => k b ≤ k a) :
    (before ++ a :: after).countP (fun c => k a < k c) ≤ before.length := by
  have hafter : after.countP (fun c => k a < k c) = 0 := by
    refine List.countP_eq_zero.2 fun c hc => ?_
    have hle := (List.pairwise_cons.1 (List.pairwise_append.1 h).2.1).1 c hc
    simpa using hle
  rw [List.countP_append, List.countP_cons, hafter]
  simpa using List.countP_le_length

/-- Any row can be the first of those whose key is not above its own. -/
theorem exists_descending_at (k : α → ι) {rows : List α} {a : α} (ha : a ∈ rows) :
    ∃ before after, Descending k rows (before ++ a :: after) ∧
      before.length = rows.countP (fun c => k a < k c) ∧
      ∀ b ∈ rows, b ≠ a → k b ≤ k a → b ∈ after := by
  classical
  obtain ⟨before, hbefore, hsortedBefore⟩ := exists_descending k (rows.filter fun c => k a < k c)
  have hmem : a ∈ rows.filter fun c => !decide (k a < k c) := by
    simpa using ha
  obtain ⟨after, hafter, hsortedAfter⟩ :=
    exists_descending k ((rows.filter fun c => !decide (k a < k c)).erase a)
  have hlow : ∀ c ∈ after, k c ≤ k a := by
    intro c hc
    have := List.mem_of_mem_erase (hafter.mem_iff.1 hc)
    simpa using (List.mem_filter.1 this).2
  refine ⟨before, after, ⟨?_, ?_⟩, ?_, ?_⟩
  · have hrest : (a :: after).Perm (rows.filter fun c => !decide (k a < k c)) :=
      (hafter.cons a).trans (List.perm_cons_erase hmem).symm
    exact (hbefore.append hrest).trans (List.filter_append_perm _ rows)
  · refine List.pairwise_append.2 ⟨hsortedBefore, List.pairwise_cons.2 ⟨hlow, hsortedAfter⟩, ?_⟩
    intro c hc d hd
    have hhigh : k a < k c := by simpa using (List.mem_filter.1 (hbefore.mem_iff.1 hc)).2
    rcases List.mem_cons.1 hd with rfl | hd
    · exact hhigh.le
    · exact (hlow d hd).trans hhigh.le
  · rw [hbefore.length_eq, List.countP_eq_length_filter]
  · intro b hb hne hle
    rw [hafter.mem_iff, List.mem_erase_of_ne hne]
    exact List.mem_filter.2 ⟨hb, by simpa using hle⟩

/-- With a limit the answer is right for every order of the ties exactly if each pair that the key
puts the wrong way or ties is beyond the limit. -/
theorem greatest_take_of_descending_iff (k : α → ι) (v : α → κ) (rows : List α) (n : ℕ) :
    (∀ ordered, Descending k rows ordered → Greatest v rows n (ordered.take n)) ↔
      ∀ a ∈ rows, ∀ b ∈ rows, v a < v b → k b ≤ k a → n ≤ rows.countP fun c => k a < k c := by
  constructor
  · intro h a ha b hb hv hk
    by_contra hlt
    obtain ⟨before, after, hdesc, hlen, hmem⟩ := exists_descending_at k ha
    have hright := (pairwise_take_iff _ n).1 ((greatest_take_iff hdesc.1 n).1 (h _ hdesc))
      before a after rfl (by omega) b (hmem b hb (by rintro rfl; exact lt_irrefl _ hv) hk)
    exact absurd hv (not_lt.2 hright)
  · intro h ordered hdesc
    refine (greatest_take_iff hdesc.1 n).2 ((pairwise_take_iff ordered n).2 ?_)
    rintro before a after rfl hlt b hb
    by_contra hv
    have hkey := (List.pairwise_cons.1 (List.pairwise_append.1 hdesc.2).2.1).1 b hb
    have hbound := h a (hdesc.1.mem_iff.1 (by simp)) b (hdesc.1.mem_iff.1 (by simp [hb])) (not_le.1 hv) hkey
    rw [← hdesc.1.countP_eq] at hbound
    exact absurd (countP_eq_of_descending hdesc.2) (by omega)

/-- Without a limit the order is right for every order of the ties exactly if the key separates all
that the value separates. -/
theorem pairwise_of_descending_iff (k : α → ι) (v : α → κ) (rows : List α) :
    (∀ ordered, Descending k rows ordered → ordered.Pairwise fun a b => v b ≤ v a) ↔
      ∀ a ∈ rows, ∀ b ∈ rows, v a < v b → k a < k b := by
  have hall : ∀ ordered, Descending k rows ordered →
      (Greatest v rows rows.length (ordered.take rows.length) ↔ ordered.Pairwise fun a b => v b ≤ v a) := by
    intro ordered hdesc
    rw [greatest_take_iff hdesc.1, ← hdesc.1.length_eq, List.take_length, List.drop_length]
    simp
  have hlt : ∀ a ∈ rows, rows.countP (fun c => k a < k c) < rows.length := by
    intro a ha
    refine Nat.lt_of_le_of_ne List.countP_le_length fun hall => ?_
    exact lt_irrefl _ (of_decide_eq_true (List.countP_eq_length.1 hall a ha))
  rw [← forall₂_congr fun ordered hdesc => hall ordered hdesc, greatest_take_of_descending_iff]
  refine forall₄_congr fun a ha b hb => forall_congr' fun hv => ?_
  have := hlt a ha
  constructor
  · intro h
    by_contra hk
    have := h (not_lt.1 hk)
    omega
  · exact fun h hk => absurd h (not_lt.2 hk)

end TgCryptFs.Library

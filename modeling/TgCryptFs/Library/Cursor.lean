import Mathlib.Data.List.Nodup

set_option autoImplicit false

/-!
# A list read in pages

The reader resumes at an offset, and the list may be another one by then. What it has got and
what it is still to get stay on their sides of the offset, or an element is read twice or not
at all.
-/
namespace TgCryptFs.Library

/-- How far a reader has come: what it has taken, and what has been there since it began. -/
structure Cursor (α : Type) where
  offset : ℕ
  taken : List α
  steady : List α
  /-- A page has come back empty. -/
  ended : Bool

namespace Cursor

variable {α : Type}

def start (xs : List α) : Cursor α := ⟨0, [], xs, false⟩

/-- A page of at most `n` elements. -/
def page (xs : List α) (n : ℕ) (c : Cursor α) : Cursor α :=
  let got := (xs.drop c.offset).take n
  { c with
    offset := c.offset + got.length
    taken := c.taken ++ got
    ended := c.ended || got.isEmpty }

variable [DecidableEq α]

/-- The list is `xs` now. -/
def change (xs : List α) (c : Cursor α) : Cursor α :=
  { c with steady := c.steady.filter (· ∈ xs) }

omit [DecidableEq α] in
/-- In `xs` no element is on the wrong side of the offset: none that was taken stands behind it,
    and none that is waited for before it. -/
structure Uncrossed (xs : List α) (c : Cursor α) : Prop where
  taken : ∀ x ∈ c.taken, x ∉ xs.drop c.offset
  waiting : ∀ x ∈ c.steady, x ∉ c.taken → x ∉ xs.take c.offset

/-- Nothing was taken twice, and when the reader is through, what was always there was taken once. -/
structure Exact (c : Cursor α) : Prop where
  nodup : c.taken.Nodup
  once : c.ended = true → ∀ x ∈ c.steady, c.taken.count x = 1

omit [DecidableEq α] in
structure Aligned (xs : List α) (c : Cursor α) : Prop extends c.Uncrossed xs where
  nodup : c.taken.Nodup
  present : ∀ x ∈ c.steady, x ∈ xs
  ended : c.ended = true → ∀ x ∈ c.steady, x ∈ c.taken

variable {xs : List α} {c : Cursor α}

theorem Aligned.exact (h : c.Aligned xs) : c.Exact :=
  ⟨h.nodup, fun hended x hx => List.count_eq_one_of_mem h.nodup (h.ended hended x hx)⟩

omit [DecidableEq α] in
theorem aligned_start (xs : List α) : (start xs).Aligned xs where
  taken x hx := by cases hx
  waiting x _ _ hx := by cases hx
  nodup := List.nodup_nil
  present _ hx := hx
  ended h := by cases h

omit [DecidableEq α] in
theorem mem_taken_page {n : ℕ} {x : α} :
    x ∈ (page xs n c).taken ↔ x ∈ c.taken ∨ x ∈ (xs.drop c.offset).take n := List.mem_append

omit [DecidableEq α] in
theorem offset_page (xs : List α) (n : ℕ) (c : Cursor α) :
    (page xs n c).offset = c.offset + ((xs.drop c.offset).take n).length := rfl

omit [DecidableEq α] in
/-- Up to the new offset stands what stood before the old one, and the page. -/
theorem take_offset_page (xs : List α) (n : ℕ) (c : Cursor α) :
    xs.take (page xs n c).offset = xs.take c.offset ++ (xs.drop c.offset).take n := by
  rw [offset_page, List.take_add, List.length_take, ← List.take_take, List.take_length]

omit [DecidableEq α] in
theorem drop_offset_page (xs : List α) (n : ℕ) (c : Cursor α) :
    xs.drop (page xs n c).offset = (xs.drop c.offset).drop ((xs.drop c.offset).take n).length := by
  rw [offset_page, List.drop_drop]

omit [DecidableEq α] in
theorem Aligned.page (h : c.Aligned xs) (hxs : xs.Nodup) {n : ℕ} (hn : 0 < n) :
    (c.page xs n).Aligned xs where
  taken x hx hdrop := by
    rw [drop_offset_page] at hdrop
    rcases mem_taken_page.1 hx with hold | hgot
    · exact h.taken x hold (List.mem_of_mem_drop hdrop)
    · have hrest : (xs.drop c.offset).Nodup := hxs.sublist (List.drop_sublist _ _)
      rw [List.length_take] at hdrop
      by_cases hle : n ≤ (xs.drop c.offset).length
      · rw [Nat.min_eq_left hle] at hdrop
        exact List.disjoint_take_drop hrest (Nat.le_refl n) hgot hdrop
      · rw [Nat.min_eq_right (Nat.le_of_not_le hle), List.drop_length] at hdrop
        cases hdrop
  waiting x hx hnot htake := by
    rw [take_offset_page] at htake
    rw [mem_taken_page, not_or] at hnot
    rcases List.mem_append.1 htake with hold | hgot
    · exact h.waiting x hx hnot.1 hold
    · exact hnot.2 hgot
  nodup := by
    have hgot : ((xs.drop c.offset).take n).Nodup :=
      hxs.sublist ((List.take_sublist _ _).trans (List.drop_sublist _ _))
    refine List.nodup_append.2 ⟨h.nodup, hgot, fun x hx y hy e => ?_⟩
    subst e
    exact h.taken x hx (List.mem_of_mem_take hy)
  present := h.present
  ended hended x hx := by
    rcases Bool.or_eq_true_iff.1 hended with hold | hempty
    · exact List.mem_append_left _ (h.ended hold x hx)
    · -- an empty page leaves nothing behind the offset, so all stands before it
      have hdrop : xs.drop c.offset = [] := by
        rcases List.take_eq_nil_iff.1 (List.isEmpty_iff.1 hempty) with hzero | hnil
        · omega
        · exact hnil
      have htake : x ∈ xs.take c.offset := by
        have hsplit := List.take_append_drop c.offset xs
        rw [hdrop, List.append_nil] at hsplit
        rw [hsplit]
        exact h.present x hx
      by_contra hnot
      rw [mem_taken_page, not_or] at hnot
      exact h.waiting x hx hnot.1 htake

/-- The list changes, and nothing crosses the offset. -/
theorem Aligned.change (h : c.Aligned xs) {xs' : List α} (hc : c.Uncrossed xs') :
    (c.change xs').Aligned xs' where
  taken := hc.taken
  waiting x hx := hc.waiting x (List.mem_of_mem_filter hx)
  nodup := h.nodup
  present x hx := by simpa using List.of_mem_filter hx
  ended hended x hx := h.ended hended x (List.mem_of_mem_filter hx)

omit [DecidableEq α] in
theorem Aligned.uncrossed (h : c.Aligned xs) : c.Uncrossed xs := h.toUncrossed

omit [DecidableEq α] in
/-- What is new at the end crosses nothing. -/
theorem Aligned.uncrossed_append (h : c.Aligned xs) {ys : List α}
    (hys : ∀ y ∈ ys, y ∉ xs ∧ y ∉ c.taken) : c.Uncrossed (xs ++ ys) where
  taken x hx hdrop := by
    rw [List.drop_append, List.mem_append] at hdrop
    rcases hdrop with hold | hnew
    · exact h.taken x hx hold
    · exact (hys x (List.mem_of_mem_drop hnew)).2 hx
  waiting x hx hnot htake := by
    rw [List.take_append, List.mem_append] at htake
    rcases htake with hold | hnew
    · exact h.waiting x hx hnot hold
    · exact (hys x (List.mem_of_mem_take hnew)).1 (h.present x hx)

/-- Where something has crossed the offset, reading the rest takes it twice or leaves it out. -/
theorem not_exact_of_crossed (hxs : xs.Nodup) (h : ¬ c.Uncrossed xs) {n : ℕ} (hn : xs.length ≤ n) :
    ¬ (((c.change xs).page xs n).page xs n).Exact := by
  have hgot : (xs.drop c.offset).take n = xs.drop c.offset :=
    List.take_of_length_le (by rw [List.length_drop]; omega)
  have hdone : xs.drop ((c.change xs).page xs n).offset = [] := by
    rw [drop_offset_page]
    change (xs.drop c.offset).drop ((xs.drop c.offset).take n).length = []
    rw [hgot, List.drop_length]
  have htaken : (((c.change xs).page xs n).page xs n).taken = c.taken ++ xs.drop c.offset := by
    change (c.taken ++ (xs.drop c.offset).take n) ++
      (xs.drop ((c.change xs).page xs n).offset).take n = _
    rw [hdone, List.take_nil, List.append_nil, hgot]
  intro hexact
  apply h
  constructor
  · intro x hx hdrop
    have hnodup := hexact.nodup
    rw [htaken, List.nodup_append] at hnodup
    exact hnodup.2.2 x hx x hdrop rfl
  · intro x hx hnot htake
    have hended : (((c.change xs).page xs n).page xs n).ended = true := by
      change (_ || ((xs.drop ((c.change xs).page xs n).offset).take n).isEmpty) = true
      rw [hdone, List.take_nil]
      exact Bool.or_true _
    have hmem : x ∈ (c.change xs).steady :=
      List.mem_filter.2 ⟨hx, decide_eq_true (List.mem_of_mem_take htake)⟩
    have hcount := hexact.once hended x hmem
    rw [htaken, List.count_eq_zero_of_not_mem] at hcount
    · cases hcount
    · rw [List.mem_append, not_or]
      exact ⟨hnot, List.disjoint_take_drop hxs (Nat.le_refl _) htake⟩

end Cursor
end TgCryptFs.Library

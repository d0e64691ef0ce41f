import Mathlib.Data.List.Basic

set_option autoImplicit false

/-!
# Patterns with wildcards

Some symbols of a pattern are wild and stand for any sequence. Each of the others stands for
one element it is related to.
-/
namespace TgCryptFs.Library

variable {π α : Type}

/-- The elements arise from the pattern, symbol by symbol. -/
inductive Denotes (wild : π → Prop) (R : π → α → Prop) : List π → List α → Prop where
  | nil : Denotes wild R [] []
  | wild {p : π} {ps : List π} {xs : List α} (skip : List α) (hp : wild p)
      (h : Denotes wild R ps xs) : Denotes wild R (p :: ps) (skip ++ xs)
  | one {p : π} {ps : List π} {x : α} {xs : List α} (hp : ¬ wild p) (hx : R p x)
      (h : Denotes wild R ps xs) : Denotes wild R (p :: ps) (x :: xs)

variable {wild : π → Prop} {R : π → α → Prop} {p : π} {ps qs : List π} {xs : List α}

theorem denotes_nil_iff : Denotes wild R [] xs ↔ xs = [] := by
  constructor
  · rintro ⟨⟩
    rfl
  · rintro rfl
    exact .nil

theorem denotes_wild_iff (hp : wild p) :
    Denotes wild R (p :: ps) xs ↔ ∃ i ≤ xs.length, Denotes wild R ps (xs.drop i) := by
  constructor
  · intro h
    cases h with
    | @wild _ _ rest skip _ h =>
      refine ⟨skip.length, ?_, ?_⟩
      · rw [List.length_append]
        exact Nat.le_add_right _ _
      · rw [List.drop_left]
        exact h
    | one hp' => exact absurd hp hp'
  · rintro ⟨i, -, h⟩
    rw [← List.take_append_drop i xs]
    exact .wild _ hp h

theorem denotes_one_iff (hp : ¬ wild p) :
    Denotes wild R (p :: ps) xs ↔ ∃ x rest, xs = x :: rest ∧ R p x ∧ Denotes wild R ps rest := by
  constructor
  · intro h
    cases h with
    | wild _ hp' => exact absurd hp' hp
    | one _ hx h => exact ⟨_, _, rfl, hx, h⟩
  · rintro ⟨x, rest, rfl, hx, h⟩
    exact .one hp hx h

theorem denotes_append_iff : Denotes wild R (ps ++ qs) xs ↔
    ∃ ys zs, xs = ys ++ zs ∧ Denotes wild R ps ys ∧ Denotes wild R qs zs := by
  induction ps generalizing xs with
  | nil =>
    constructor
    · exact fun h => ⟨[], xs, rfl, .nil, h⟩
    · rintro ⟨ys, zs, rfl, h, h'⟩
      rw [denotes_nil_iff.1 h]
      exact h'
  | cons p ps ih =>
    constructor
    · intro h
      cases h with
      | wild skip hp h =>
        obtain ⟨ys, zs, rfl, hy, hz⟩ := ih.1 h
        exact ⟨skip ++ ys, zs, (List.append_assoc _ _ _).symm, .wild skip hp hy, hz⟩
      | one hp hx h =>
        obtain ⟨ys, zs, rfl, hy, hz⟩ := ih.1 h
        exact ⟨_ :: ys, zs, rfl, .one hp hx hy, hz⟩
    · rintro ⟨ys, zs, rfl, h, hz⟩
      cases h with
      | @wild _ _ rest skip hp h =>
        rw [List.append_assoc]
        exact .wild skip hp (ih.2 ⟨rest, zs, rfl, h, hz⟩)
      | @one _ _ _ rest hp hx h => exact .one hp hx (ih.2 ⟨rest, zs, rfl, h, hz⟩)

/-- The relation matters for the symbols of the pattern that are not wild. -/
theorem Denotes.imp {R' : π → α → Prop} (h : Denotes wild R ps xs)
    (himp : ∀ p ∈ ps, ¬ wild p → ∀ x, R p x → R' p x) : Denotes wild R' ps xs := by
  induction h with
  | nil => exact .nil
  | wild skip hp _ ih => exact .wild skip hp (ih fun q hq => himp q (List.mem_cons_of_mem _ hq))
  | one hp hx _ ih =>
    exact .one hp (himp _ List.mem_cons_self hp _ hx) (ih fun q hq => himp q (List.mem_cons_of_mem _ hq))

/-- A wild symbol alone stands for everything. -/
theorem denotes_wild (hp : wild p) (xs : List α) : Denotes wild R [p] xs :=
  (denotes_wild_iff hp).2 ⟨xs.length, Nat.le_refl _, by rw [List.drop_length]; exact .nil⟩

section

variable {qs : List α} {wild : α → Prop}

/-- A pattern without wild symbols stands for itself. -/
theorem denotes_literal_iff (h : ∀ q ∈ qs, ¬ wild q) : Denotes wild Eq qs xs ↔ qs = xs := by
  induction qs generalizing xs with
  | nil => exact denotes_nil_iff.trans eq_comm
  | cons q qs ih =>
    rw [denotes_one_iff (h q List.mem_cons_self)]
    constructor
    · rintro ⟨x, rest, rfl, rfl, hrest⟩
      rw [(ih fun q hq => h q (List.mem_cons_of_mem _ hq)).1 hrest]
    · rintro rfl
      exact ⟨q, qs, rfl, rfl, (ih fun q hq => h q (List.mem_cons_of_mem _ hq)).2 rfl⟩

/-- A wild symbol may stand for itself. -/
theorem denotes_self (wild : α → Prop) (qs : List α) : Denotes wild Eq qs qs := by
  induction qs with
  | nil => exact .nil
  | cons q qs ih =>
    by_cases hq : wild q
    · exact .wild [q] hq ih
    · exact .one hq rfl ih

/-- Each wild symbol may stand for nothing. -/
theorem denotes_filter [DecidablePred wild] (qs : List α) :
    Denotes wild Eq qs (qs.filter fun q => ¬ wild q) := by
  induction qs with
  | nil => exact .nil
  | cons q qs ih =>
    by_cases hq : wild q
    · rw [List.filter_cons_of_neg (by simpa using hq)]
      exact .wild [] hq ih
    · rw [List.filter_cons_of_pos (by simpa using hq)]
      exact .one hq rfl ih

end

end TgCryptFs.Library

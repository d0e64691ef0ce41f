import Mathlib.Data.List.Forall2
import TgCryptFs.Library.Table

set_option autoImplicit false

/-!
# Tables that stand for each other

Two tables whose rows are related one by one, by a relation that keeps both keys apart,
answer every query alike and accept the same statements.
-/
namespace TgCryptFs.Library.Table

variable {Row K U Row' K' U' : Type} [DecidableEq K] [DecidableEq U] [DecidableEq K']
  [DecidableEq U'] {key : Row → K} {uniq : Row → U} {key' : Row' → K'} {uniq' : Row' → U'}

/-- Related rows agree on which keys are the same. -/
structure Matches (key : Row → K) (uniq : Row → U) (key' : Row' → K') (uniq' : Row' → U')
    (R : Row → Row' → Prop) : Prop where
  key : ∀ {r s x y}, R r s → R x y → (key x = key r ↔ key' y = key' s)
  uniq : ∀ {r s x y}, R r s → R x y → (uniq x = uniq r ↔ uniq' y = uniq' s)

def Related (R : Row → Row' → Prop) (t : Table key uniq) (u : Table key' uniq') : Prop :=
  List.Forall₂ R t.rows u.rows

variable {R : Row → Row' → Prop} {t : Table key uniq} {u : Table key' uniq'} {r : Row} {s : Row'}

omit [DecidableEq K] [DecidableEq U] [DecidableEq K'] [DecidableEq U'] in
theorem related_empty :
    Related R (Table.empty : Table key uniq) (Table.empty : Table key' uniq') := .nil

theorem forall_mem_congr {rows : List Row} {rows' : List Row'} (h : List.Forall₂ R rows rows')
    {p : Row → Prop} {q : Row' → Prop} (hpq : ∀ x y, R x y → (p x ↔ q y)) :
    (∀ x ∈ rows, p x) ↔ ∀ y ∈ rows', q y := by
  induction h with
  | nil => exact iff_of_true (fun _ hx => by cases hx) fun _ hx => by cases hx
  | cons hxy _ ih => rw [List.forall_mem_cons, List.forall_mem_cons, hpq _ _ hxy, ih]

theorem rel_find? {rows : List Row} {rows' : List Row'} (h : List.Forall₂ R rows rows')
    {p : Row → Bool} {q : Row' → Bool} (hpq : ∀ x y, R x y → p x = q y) :
    Option.Rel R (rows.find? p) (rows'.find? q) := by
  induction h with
  | nil => exact .none
  | @cons x y xs ys hxy _ ih =>
    rw [List.find?_cons, List.find?_cons, hpq x y hxy]
    cases q y with
    | true => exact .some hxy
    | false => exact ih

theorem rel_cases {α β : Type} {S : α → β → Prop} {a : Option α} {b : Option β}
    (h : Option.Rel S a b) :
    (a = none ∧ b = none) ∨ ∃ x y, a = some x ∧ b = some y ∧ S x y := by
  cases h with
  | none => exact .inl ⟨rfl, rfl⟩
  | some hxy => exact .inr ⟨_, _, rfl, rfl, hxy⟩

namespace Related

theorem insert (h : Related R t u) (hm : Matches key uniq key' uniq' R) (hr : R r s) :
    Option.Rel (Related R) (t.insert r) (u.insert s) := by
  have hfree : (∀ x ∈ t.rows, key x ≠ key r ∧ uniq x ≠ uniq r) ↔
      ∀ y ∈ u.rows, key' y ≠ key' s ∧ uniq' y ≠ uniq' s :=
    forall_mem_congr h fun x y hxy =>
      and_congr (not_congr (hm.key hr hxy)) (not_congr (hm.uniq hr hxy))
  unfold Table.insert
  by_cases ht : ∀ x ∈ t.rows, key x ≠ key r ∧ uniq x ≠ uniq r
  · rw [dif_pos ht, dif_pos (hfree.1 ht)]
    exact .some (List.rel_append h (.cons hr .nil))
  · rw [dif_neg ht, dif_neg (mt hfree.2 ht)]
    exact .none

omit [DecidableEq U] [DecidableEq U'] in
theorem replace {rows : List Row} {rows' : List Row'} (h : List.Forall₂ R rows rows')
    (hm : Matches key uniq key' uniq' R) (hr : R r s) :
    List.Forall₂ R (replace key r rows) (replace key' s rows') := by
  refine List.rel_map (fun x y hxy => ?_) h
  by_cases hx : key x = key r
  · rw [if_pos hx, if_pos ((hm.key hr hxy).1 hx)]
    exact hr
  · rw [if_neg hx, if_neg (mt (hm.key hr hxy).2 hx)]
    exact hxy

theorem update (h : Related R t u) (hm : Matches key uniq key' uniq' R) (hr : R r s) :
    Option.Rel (Related R) (t.update r) (u.update s) := by
  have habsent : (∀ x ∈ t.rows, key x ≠ key r) ↔ ∀ y ∈ u.rows, key' y ≠ key' s :=
    forall_mem_congr h fun x y hxy => not_congr (hm.key hr hxy)
  have hfree : (∀ x ∈ t.rows, key x ≠ key r → uniq x ≠ uniq r) ↔
      ∀ y ∈ u.rows, key' y ≠ key' s → uniq' y ≠ uniq' s :=
    forall_mem_congr h fun x y hxy =>
      imp_congr (not_congr (hm.key hr hxy)) (not_congr (hm.uniq hr hxy))
  unfold Table.update
  by_cases ht : ∀ x ∈ t.rows, key x ≠ key r
  · rw [if_pos ht, if_pos (habsent.1 ht)]
    exact .some h
  · rw [if_neg ht, if_neg (mt habsent.2 ht)]
    by_cases hu : ∀ x ∈ t.rows, key x ≠ key r → uniq x ≠ uniq r
    · rw [dif_pos hu, dif_pos (hfree.1 hu)]
      exact .some (replace h hm hr)
    · rw [dif_neg hu, dif_neg (mt hfree.2 hu)]
      exact .none

omit [DecidableEq U] [DecidableEq U'] in
theorem erase (h : Related R t u) {k : K} {k' : K'}
    (hk : ∀ x y, R x y → (key x = k ↔ key' y = k')) : Related R (t.erase k) (u.erase k') := by
  refine List.rel_filter (fun x y hxy => ?_) h
  change decide (key x ≠ k) = true ↔ decide (key' y ≠ k') = true
  rw [decide_eq_true_iff, decide_eq_true_iff]
  exact not_congr (hk x y hxy)

omit [DecidableEq U] [DecidableEq U'] in
theorem find (h : Related R t u) {k : K} {k' : K'}
    (hk : ∀ x y, R x y → (key x = k ↔ key' y = k')) : Option.Rel R (t.find k) (u.find k') :=
  rel_find? h fun x y hxy => decide_eq_decide.2 (hk x y hxy)

omit [DecidableEq K] [DecidableEq K'] in
theorem findUniq (h : Related R t u) {k : U} {k' : U'}
    (hk : ∀ x y, R x y → (uniq x = k ↔ uniq' y = k')) :
    Option.Rel R (t.findUniq k) (u.findUniq k') :=
  rel_find? h fun x y hxy => decide_eq_decide.2 (hk x y hxy)

end Related
end TgCryptFs.Library.Table

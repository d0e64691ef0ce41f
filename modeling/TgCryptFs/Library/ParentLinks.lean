import Mathlib.Logic.Relation

set_option autoImplicit false

/-!
# Following parent links

`up` sends a node to its parent. The three ways a rooted forest changes: a leaf
comes or goes, or one node is hung below another that is not below it.
-/
namespace TgCryptFs.Library

variable {N : Type}

/-- `b` is met on the way up from `a`, `a` itself included. -/
def Reaches (up : N → Option N) : N → N → Prop := Relation.ReflTransGen fun a b => up a = some b

theorem Reaches.refl (up : N → Option N) (a : N) : Reaches up a a := Relation.ReflTransGen.refl

theorem Reaches.head {up : N → Option N} {a b c : N} (h : up a = some b) (hbc : Reaches up b c) :
    Reaches up a c :=
  Relation.ReflTransGen.head h hbc

/-- From a node that is its own parent one gets nowhere else. -/
theorem Reaches.of_loop {up : N → Option N} {a b : N} (h : up a = some a) (hab : Reaches up a b) :
    b = a := by
  induction hab with
  | refl => rfl
  | tail _ hcb ih =>
    subst ih
    exact (Option.some.inj (h.symm.trans hcb)).symm

theorem Reaches.of_top {up : N → Option N} {r z a : N} (hr : up r = some z) (hz : up z = none)
    (h : Reaches up r a) : a = r ∨ a = z := by
  induction h with
  | refl => exact .inl rfl
  | tail _ hcb ih =>
    rcases ih with rfl | rfl
    · exact .inr (Option.some.inj (hcb.symm.trans hr))
    · cases hz.symm.trans hcb

/-- Only the links met on the way count. -/
theorem Reaches.congr {up up' : N → Option N} {a b : N}
    (h : ∀ x, Reaches up a x → up' x = up x) (hab : Reaches up a b) : Reaches up' a b := by
  induction hab with
  | refl => exact Reaches.refl up' a
  | tail hac hcb ih => exact ih.tail ((h _ hac).trans hcb)

/-- A leaf `e` is on nobody else's way, so its own link may change at will. -/
theorem Reaches.of_leaf {up up' : N → Option N} {e a b : N} (hleaf : ∀ x, up x ≠ some e)
    (hother : ∀ x, x ≠ e → up' x = up x) (ha : a ≠ e) (hab : Reaches up a b) : Reaches up' a b := by
  refine Reaches.congr (fun x hx => hother x ?_) hab
  rintro rfl
  rcases Relation.ReflTransGen.cases_tail hx with e | ⟨y, _, hy⟩
  · exact ha e.symm
  · exact hleaf y hy

/-- Hanging `m` below `np`, which is not below `m`, keeps everybody's way to `r`. -/
theorem Reaches.of_move {up up' : N → Option N} {m np r a : N} (hm : up' m = some np)
    (hother : ∀ x, x ≠ m → up' x = up x) (havoid : ¬ Reaches up np m) (hnp : Reaches up np r)
    (har : Reaches up a r) : Reaches up' a r := by
  have hnp' : Reaches up' np r := by
    refine Reaches.congr (fun x hx => hother x ?_) hnp
    rintro rfl
    exact havoid hx
  induction har using Relation.ReflTransGen.head_induction_on with
  | refl => exact Reaches.refl up' r
  | @head x c hxc _ ih =>
    by_cases hx : x = m
    · subst hx
      exact hnp'.head hm
    · exact ih.head ((hother x hx).trans hxc)

end TgCryptFs.Library

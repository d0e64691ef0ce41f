import Mathlib.Tactic.Common

set_option autoImplicit false

/-!
# Results of chains and loops

A chain of fallible steps succeeds where each of its steps does. A loop with an early return
ends at the first item that settles the matter.
-/
namespace TgCryptFs.Library

variable {ε ε' α β : Type}

theorem bind_eq_ok {x : Except ε α} {f : α → Except ε β} {b : β} :
    (x >>= f) = .ok b ↔ ∃ a, x = .ok a ∧ f a = .ok b := by
  cases x with
  | error e => exact ⟨nofun, fun ⟨_, h, _⟩ => nomatch h⟩
  | ok a =>
    constructor
    · exact fun h => ⟨a, rfl, h⟩
    · rintro ⟨_, h, hf⟩
      cases h
      exact hf

theorem mapError_eq_ok {x : Except ε α} {f : ε → ε'} {a : α} :
    x.mapError f = .ok a ↔ x = .ok a := by
  cases x with
  | error e => exact ⟨nofun, nofun⟩
  | ok b => exact ⟨fun h => by cases h; rfl, fun h => by cases h; rfl⟩

theorem elim_error_eq_ok {x : Option α} {e : ε} {a : α} :
    x.elim (Except.error e) Except.ok = .ok a ↔ x = some a := by
  cases x with
  | none => exact ⟨nofun, nofun⟩
  | some b => exact ⟨fun h => by cases h; rfl, fun h => by cases h; rfl⟩

theorem mapM_of_ok {f : α → Except ε β} {g : α → β} {l : List α} (h : ∀ a ∈ l, f a = .ok (g a)) :
    l.mapM f = .ok (l.map g) := by
  induction l with
  | nil => rfl
  | cons a l ih =>
    have htail := ih fun x hx => h x (by simp [hx])
    simp [List.mapM_cons, h a (by simp), htail, bind, Except.bind, pure, Except.pure]

section

variable {σ ι ρ : Type}

/-- A `for` loop over the items: `none` goes on with the next one. -/
def firstReturn (body : ι → σ → σ × Option ρ) : List ι → σ → σ × Option ρ
  | [], s => (s, none)
  | i :: is, s =>
    match (body i s).2 with
    | some r => ((body i s).1, some r)
    | none => firstReturn body is (body i s).1

variable {body : ι → σ → σ × Option ρ} {i : ι} {is : List ι} {s : σ}

theorem firstReturn_cons_some {r : ρ} (h : (body i s).2 = some r) :
    firstReturn body (i :: is) s = ((body i s).1, some r) := by
  simp only [firstReturn, h]

theorem firstReturn_cons_none (h : (body i s).2 = none) :
    firstReturn body (i :: is) s = firstReturn body is (body i s).1 := by
  simp only [firstReturn, h]

/-- What each turn of the loop keeps holds where it ends. -/
theorem firstReturn_keeps {P : σ → Prop} (hbody : ∀ i s, P s → P (body i s).1) (is : List ι)
    (hs : P s) : P (firstReturn body is s).1 := by
  induction is generalizing s with
  | nil => exact hs
  | cons i is ih =>
    cases h : (body i s).2 with
    | some r => simpa only [firstReturn_cons_some h] using hbody i s hs
    | none =>
      rw [firstReturn_cons_none h]
      exact ih (hbody i s hs)

theorem firstReturn_ne_some {P : σ → Prop} {r : ρ}
    (hbody : ∀ i s, P s → (body i s).2 ≠ some r ∧ P (body i s).1) (is : List ι) (hs : P s) :
    (firstReturn body is s).2 ≠ some r := by
  induction is generalizing s with
  | nil => simp [firstReturn]
  | cons i is ih =>
    have hi := hbody i s hs
    cases h : (body i s).2 with
    | some r' =>
      rw [firstReturn_cons_some h]
      exact h ▸ hi.1
    | none =>
      rw [firstReturn_cons_none h]
      exact ih hi.2

/-- A loop whose turns each settle the matter or, where they go on, keep `P`, settles it with
    `r` exactly where the first turn that settles it does. -/
theorem firstReturn_eq_some_iff {P : σ → Prop} {goes settles : ι → Prop} {r : ρ}
    (hgo : ∀ i s, P s → goes i → (body i s).2 = none ∧ P (body i s).1)
    (hsettle : ∀ i s, P s → settles i → (body i s).2 = some r)
    (hother : ∀ is i s, P s → ¬ goes i → ¬ settles i →
      (firstReturn body (i :: is) s).2 ≠ some r) (is : List ι) (hs : P s) :
    (firstReturn body is s).2 = some r ↔
      ∃ pre i post, is = pre ++ i :: post ∧ (∀ j ∈ pre, goes j) ∧ settles i := by
  induction is generalizing s with
  | nil => simp [firstReturn]
  | cons i is ih =>
    constructor
    · intro h
      by_cases hi : settles i
      · exact ⟨[], i, is, rfl, by simp, hi⟩
      · have hgoes : goes i := by
          by_contra hstop
          exact hother is i s hs hstop hi h
        rw [firstReturn_cons_none (hgo i s hs hgoes).1] at h
        obtain ⟨pre, k, post, rfl, hpre, hk⟩ := (ih (hgo i s hs hgoes).2).1 h
        refine ⟨i :: pre, k, post, rfl, ?_, hk⟩
        simpa using ⟨hgoes, hpre⟩
    · rintro ⟨pre, k, post, heq, hpre, hk⟩
      cases pre with
      | nil =>
        obtain ⟨rfl, rfl⟩ := List.cons.inj heq
        rw [firstReturn_cons_some (hsettle i s hs hk)]
      | cons j pre =>
        obtain ⟨rfl, rfl⟩ := List.cons.inj heq
        have hgoes : goes i := hpre i (by simp)
        rw [firstReturn_cons_none (hgo i s hs hgoes).1]
        apply (ih (hgo i s hs hgoes).2).2
        exact ⟨pre, k, post, rfl, fun j hj => hpre j (by simp [hj]), hk⟩

end

end TgCryptFs.Library

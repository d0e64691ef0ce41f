import Mathlib.Data.List.Basic
import TgCryptFs.Library.Runs

set_option autoImplicit false

/-!
# Clients whose events do not matter

The events of some clients are apart from all others. Where they change nothing but what these
clients have, the system runs as it would without them. Where they are answered from a view of
the state, what the clients are shown depends on nothing but the views.
-/
namespace TgCryptFs.Library

variable {σ ε ν : Type} {step : ε → σ → σ} {allowed theirs : ε → Prop} {view : σ → ν}
  {R : σ → σ → Prop}

/-- `R` relates a state to the one that the system would be in without the clients. -/
structure Unnoticed (step : ε → σ → σ) (allowed theirs : ε → Prop) (R : σ → σ → Prop) : Prop where
  skip : ∀ e s t, theirs e → allowed e → R s t → R (step e s) t
  keep : ∀ e s t, ¬ theirs e → R s t → R (step e s) (step e t)

theorem Unnoticed.runAll [DecidablePred theirs] (h : Unnoticed step allowed theirs R) (es : List ε)
    (hes : ∀ e ∈ es, allowed e) {s t : σ} (hst : R s t) :
    R (Runs.runAll step es s) (Runs.runAll step (es.filter fun e => ¬ theirs e) t) := by
  induction es generalizing s t with
  | nil => exact hst
  | cons e es ih =>
    have hrest : ∀ e ∈ es, allowed e := fun e he => hes e (List.mem_cons_of_mem _ he)
    by_cases htheirs : theirs e
    · rw [List.filter_cons_of_neg (by simpa using htheirs)]
      exact ih hrest (h.skip e s t htheirs (hes e List.mem_cons_self) hst)
    · rw [List.filter_cons_of_pos (by simpa using htheirs)]
      exact ih hrest (h.keep e s t htheirs hst)

/-- Two histories in which the clients do the same, and whenever they do something the two
    systems look the same. Between that either may do what it likes. -/
inductive SideBySide (step : ε → σ → σ) (theirs : ε → Prop) (view : σ → ν) :
    List ε → List ε → σ → σ → Prop where
  | nil {s t : σ} : SideBySide step theirs view [] [] s t
  | both {e : ε} {es es' : List ε} {s t : σ} (he : theirs e) (hview : view s = view t)
      (h : SideBySide step theirs view es es' (step e s) (step e t)) :
      SideBySide step theirs view (e :: es) (e :: es') s t
  | left {e : ε} {es es' : List ε} {s t : σ} (he : ¬ theirs e)
      (h : SideBySide step theirs view es es' (step e s) t) :
      SideBySide step theirs view (e :: es) es' s t
  | right {e : ε} {es es' : List ε} {s t : σ} (he : ¬ theirs e)
      (h : SideBySide step theirs view es es' s (step e t)) :
      SideBySide step theirs view es (e :: es') s t

/-- `R` relates states in which the clients have been shown the same. -/
structure DeterminedByView (step : ε → σ → σ) (allowed theirs : ε → Prop) (view : σ → ν)
    (R : σ → σ → Prop) : Prop where
  both : ∀ e s t, theirs e → allowed e → view s = view t → R s t → R (step e s) (step e t)
  left : ∀ e s t, ¬ theirs e → R s t → R (step e s) t
  right : ∀ e s t, ¬ theirs e → R s t → R s (step e t)

theorem DeterminedByView.runAll (h : DeterminedByView step allowed theirs view R) {es es' : List ε} {s t : σ}
    (hes : ∀ e ∈ es, allowed e) (hside : SideBySide step theirs view es es' s t) (hst : R s t) :
    R (Runs.runAll step es s) (Runs.runAll step es' t) := by
  induction hside with
  | nil => exact hst
  | both he hview _ ih =>
    apply ih fun e he => hes e (List.mem_cons_of_mem _ he)
    exact h.both _ _ _ he (hes _ List.mem_cons_self) hview hst
  | left he _ ih =>
    apply ih fun e he => hes e (List.mem_cons_of_mem _ he)
    exact h.left _ _ _ he hst
  | right he _ ih => exact ih hes (h.right _ _ _ he hst)

end TgCryptFs.Library

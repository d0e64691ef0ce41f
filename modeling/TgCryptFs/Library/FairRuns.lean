import Mathlib.Order.Nat
import TgCryptFs.Library.Runs

set_option autoImplicit false

/-!
# Endless runs

Events without end, and a goal that is so many steps away. Where a step towards it comes again
and again and no event leads away from it, the goal is reached again and again.
-/
namespace TgCryptFs.Library.Runs

variable {σ ε : Type}

/-- The states that an endless sequence of events leads through. -/
def trace (step : ε → σ → σ) (es : ℕ → ε) (s : σ) : ℕ → σ
  | 0 => s
  | n + 1 => step (es n) (trace step es s n)

/-- Again and again there comes an event that is a progress in the state it comes in. -/
def Fair (step : ε → σ → σ) (progress : ε → σ → Prop) (es : ℕ → ε) (s : σ) : Prop :=
  ∀ n, ∃ m, n ≤ m ∧ progress (es m) (trace step es s m)

variable {step : ε → σ → σ} {admitted progress : ε → σ → Prop} {es : ℕ → ε} {s : σ}

theorem trace_invariant {I : σ → Prop} (hstart : I s)
    (hstep : ∀ e s, I s → admitted e s → I (step e s))
    (hes : ∀ n, admitted (es n) (trace step es s n)) (n : ℕ) : I (trace step es s n) := by
  induction n with
  | zero => exact hstart
  | succ n ih => exact hstep _ _ ih (hes n)

theorem measure_le_of_ne_zero {μ : σ → ℕ}
    (hkeep : ∀ n, μ (trace step es s n) ≠ 0 → μ (trace step es s (n + 1)) ≤ μ (trace step es s n))
    {n m : ℕ} (hnm : n ≤ m) (hne : ∀ k, n ≤ k → μ (trace step es s k) ≠ 0) :
    μ (trace step es s m) ≤ μ (trace step es s n) := by
  induction m, hnm using Nat.le_induction with
  | base => exact le_rfl
  | succ m hnm ih => exact (hkeep m (hne m hnm)).trans ih

/-- Short of the goal every progress lowers the measure and no event raises it, so that the goal
    is reached again and again. -/
theorem Fair.again_and_again {I : σ → Prop} {μ : σ → ℕ} (hfair : Fair step progress es s)
    (hstart : I s) (hstep : ∀ e s, I s → admitted e s → I (step e s))
    (hes : ∀ n, admitted (es n) (trace step es s n))
    (hkeep : ∀ e s, I s → admitted e s → μ s ≠ 0 → μ (step e s) ≤ μ s)
    (hdown : ∀ e s, I s → admitted e s → μ s ≠ 0 → progress e s → μ (step e s) < μ s) (n : ℕ) :
    ∃ m, n ≤ m ∧ μ (trace step es s m) = 0 := by
  by_contra hnever
  have hne : ∀ k, n ≤ k → μ (trace step es s k) ≠ 0 := fun k hk hz => hnever ⟨k, hk, hz⟩
  clear hnever
  have hI := trace_invariant hstart hstep hes
  -- by induction on the measure where the goal is never reached any more
  induction hμ : μ (trace step es s n) using Nat.strong_induction_on generalizing n with
  | h k ih =>
    obtain ⟨m, hnm, hm⟩ := hfair n
    have hle : μ (trace step es s m) ≤ μ (trace step es s n) :=
      measure_le_of_ne_zero (fun j hj => hkeep _ _ (hI j) (hes j) hj) hnm hne
    have hlt : μ (trace step es s (m + 1)) < μ (trace step es s m) :=
      hdown _ _ (hI m) (hes m) (hne m hnm) hm
    refine ih _ (hμ ▸ hlt.trans_le hle) (m + 1) (fun j hj => ?_) rfl
    exact hne j (hnm.trans ((Nat.le_succ m).trans hj))

end TgCryptFs.Library.Runs

import Mathlib.Data.List.Basic

set_option autoImplicit false

/-!
# Programs as trees of calls

A program returns a value or issues one call and continues on the answer. The
state lives behind the calls, so one tree has several readings: its complete
run, the states a crash between two calls can leave, and the invariants that
hold at every one of those points.
-/
namespace TgCryptFs.Library

inductive CallTree (Op : Type) (Ans : Op → Type) (α : Type) : Type where
  | ret (a : α)
  | call (o : Op) (k : Ans o → CallTree Op Ans α)

namespace CallTree

variable {Op : Type} {Ans : Op → Type} {α β σ : Type}

def bind : CallTree Op Ans α → (α → CallTree Op Ans β) → CallTree Op Ans β
  | .ret a, f => f a
  | .call o k, f => .call o fun x => (k x).bind f

instance : Monad (CallTree Op Ans) where
  pure := .ret
  bind := .bind

variable (serve : (o : Op) → σ → Ans o × σ)

def run : CallTree Op Ans α → σ → α × σ
  | .ret a, s => (a, s)
  | .call o k, s => (k (serve o s).1).run (serve o s).2

/-- The state once at most `n` calls have been served: a crash point. -/
def stateAfter : ℕ → CallTree Op Ans α → σ → σ
  | 0, _, s => s
  | _ + 1, .ret _, s => s
  | n + 1, .call o k, s => stateAfter n (k (serve o s).1) (serve o s).2

/-- `I` holds in every state between two calls, the first and last included. -/
def Always (I : σ → Prop) : CallTree Op Ans α → σ → Prop
  | .ret _, s => I s
  | .call o k, s => I s ∧ Always I (k (serve o s).1) (serve o s).2

@[simp] theorem stateAfter_zero (p : CallTree Op Ans α) (s : σ) : stateAfter serve 0 p s = s := by
  cases p <;> rfl

@[simp] theorem stateAfter_ret (n : ℕ) (a : α) (s : σ) :
    stateAfter serve n (.ret a : CallTree Op Ans α) s = s := by
  cases n <;> rfl

@[simp] theorem stateAfter_call (n : ℕ) (o : Op) (k : Ans o → CallTree Op Ans α) (s : σ) :
    stateAfter serve (n + 1) (.call o k) s = stateAfter serve n (k (serve o s).1) (serve o s).2 := rfl

@[simp] theorem run_ret (a : α) (s : σ) : run serve (.ret a : CallTree Op Ans α) s = (a, s) := rfl

@[simp] theorem run_call (o : Op) (k : Ans o → CallTree Op Ans α) (s : σ) :
    run serve (.call o k) s = run serve (k (serve o s).1) (serve o s).2 := rfl

@[simp] theorem run_bind (p : CallTree Op Ans α) (f : α → CallTree Op Ans β) (s : σ) :
    run serve (p >>= f) s = run serve (f (run serve p s).1) (run serve p s).2 := by
  change run serve (p.bind f) s = _
  induction p generalizing s with
  | ret a => rfl
  | call o k ih => exact ih _ _

theorem always_of_stateAfter (I : σ → Prop) (p : CallTree Op Ans α) (s : σ)
    (h : Always serve I p s) (n : ℕ) : I (stateAfter serve n p s) := by
  induction p generalizing s n with
  | ret a => cases n <;> exact h
  | call o k ih =>
    cases n with
    | zero => exact h.1
    | succ n => exact ih _ _ h.2 n

theorem always_run (I : σ → Prop) (p : CallTree Op Ans α) (s : σ)
    (h : Always serve I p s) : I (run serve p s).2 := by
  induction p generalizing s with
  | ret a => exact h
  | call o k ih => exact ih _ _ h.2

/-- The calls of a run, in order. -/
def calls : CallTree Op Ans α → σ → List Op
  | .ret _, _ => []
  | .call o k, s => o :: calls (k (serve o s).1) (serve o s).2

theorem calls_bind (p : CallTree Op Ans α) (f : α → CallTree Op Ans β) (s : σ) :
    calls serve (p >>= f) s =
      calls serve p s ++ calls serve (f (run serve p s).1) (run serve p s).2 := by
  change calls serve (p.bind f) s = _
  induction p generalizing s with
  | ret a => rfl
  | call o k ih => exact congrArg (o :: ·) (ih _ _)

/-- Every call the program can come to satisfies `P`. -/
def Uses (P : Op → Prop) : CallTree Op Ans α → Prop
  | .ret _ => True
  | .call o k => P o ∧ ∀ x, Uses P (k x)

theorem Uses.mono {P Q : Op → Prop} (hPQ : ∀ o, P o → Q o) {p : CallTree Op Ans α} (h : Uses P p) :
    Uses Q p := by
  induction p with
  | ret a => trivial
  | call o k ih => exact ⟨hPQ o h.1, fun x => ih x (h.2 x)⟩

theorem uses_bind {P : Op → Prop} {p : CallTree Op Ans α} {f : α → CallTree Op Ans β}
    (hp : Uses P p) (hf : ∀ a, Uses P (f a)) : Uses P (p >>= f) := by
  change Uses P (p.bind f)
  induction p with
  | ret a => exact hf a
  | call o k ih => exact ⟨hp.1, fun x => ih x (hp.2 x)⟩

theorem always_of_uses (I : σ → Prop) (P : Op → Prop)
    (hI : ∀ (o : Op) (s : σ), P o → I s → I (serve o s).2)
    (p : CallTree Op Ans α) (hp : Uses P p) (s : σ) (hs : I s) : Always serve I p s := by
  induction p generalizing s with
  | ret a => exact hs
  | call o k ih => exact ⟨hs, ih _ (hp.2 _) _ (hI o s hp.1 hs)⟩

end CallTree
end TgCryptFs.Library

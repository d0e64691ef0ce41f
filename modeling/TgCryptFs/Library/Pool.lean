import Mathlib.Algebra.Order.BigOperators.Group.List
import Mathlib.Algebra.Order.Ring.Nat
import Mathlib.Tactic.Common
import TgCryptFs.Library.Runs

set_option autoImplicit false

/-!
# A pool of workers

Workers beside the state that they share. They come in at any time, and then go on one
action at a time in any order. What an action moves between its worker and the shared state
stays in balance over the pool.
-/
namespace TgCryptFs.Library

structure Pool (σ ω : Type) where
  shared : σ
  workers : List ω

/-- A worker comes in for a job, or the one at a place does something. -/
inductive PoolEvent (κ α : Type) where
  | enter (k : κ)
  | act (i : ℕ) (a : α)

namespace PoolEvent

variable {κ α : Type}

def isAct : PoolEvent κ α → Bool
  | enter _ => false
  | act _ _ => true

end PoolEvent

namespace Pool

variable {σ ω κ α : Type}

/-- A quantity summed over the workers. -/
def tally (f : ω → ℕ) (p : Pool σ ω) : ℕ := (p.workers.map f).sum

theorem tally_set {f : ω → ℕ} {ws : List ω} {i : ℕ} {w : ω} (h : ws[i]? = some w) (w' : ω) :
    ((ws.set i w').map f).sum + f w = (ws.map f).sum + f w' := by
  induction ws generalizing i with
  | nil => cases h
  | cons x ws ih =>
    cases i with
    | zero =>
      obtain rfl : x = w := Option.some.inj h
      simp only [List.set_cons_zero, List.map_cons, List.sum_cons]
      omega
    | succ i =>
      have hrest := ih (i := i) h
      simp only [List.set_cons_succ, List.map_cons, List.sum_cons]
      omega

theorem tally_append (f : ω → ℕ) (ws : List ω) (w : ω) :
    ((ws ++ [w]).map f).sum = (ws.map f).sum + f w := by
  rw [List.map_append, List.sum_append, List.map_singleton, List.sum_singleton]

theorem le_tally {f : ω → ℕ} {p : Pool σ ω} {i : ℕ} {w : ω} (hw : p.workers[i]? = some w) :
    f w ≤ p.tally f :=
  List.le_sum_of_mem (List.mem_map_of_mem (List.mem_of_getElem? hw))

theorem tally_le {f : ω → ℕ} {p : Pool σ ω} {B : ℕ} (h : ∀ w ∈ p.workers, f w ≤ B) :
    p.tally f ≤ p.workers.length * B := by
  have hsum := List.sum_le_card_nsmul (p.workers.map f) B fun n hn => by
    obtain ⟨w, hw, rfl⟩ := List.mem_map.1 hn
    exact h w hw
  rwa [List.length_map, Nat.nsmul_eq_mul] at hsum

theorem exists_of_tally_pos {f : ω → ℕ} {p : Pool σ ω} (h : 0 < p.tally f) :
    ∃ (i : ℕ) (w : ω), p.workers[i]? = some w ∧ 0 < f w := by
  obtain ⟨n, hn, hpos⟩ := List.exists_mem_ne_zero_of_sum_ne_zero h.ne'
  obtain ⟨w, hw, rfl⟩ := List.mem_map.1 hn
  obtain ⟨i, hi⟩ := List.getElem?_of_mem hw
  exact ⟨i, w, hi, Nat.pos_of_ne_zero hpos⟩

section

variable (enter : σ → κ → ω) (advance : α → σ → ω → Option (σ × ω))

def next : PoolEvent κ α → Pool σ ω → Option (Pool σ ω)
  | .enter k, p => some ⟨p.shared, p.workers ++ [enter p.shared k]⟩
  | .act i a, p =>
    (p.workers[i]?).bind fun w =>
      (advance a p.shared w).map fun r => ⟨r.1, p.workers.set i r.2⟩

/-- An event that cannot come changes nothing. -/
def step (e : PoolEvent κ α) (p : Pool σ ω) : Pool σ ω := (next enter advance e p).getD p

def admitted (e : PoolEvent κ α) (p : Pool σ ω) : Prop := (next enter advance e p).isSome

instance (e : PoolEvent κ α) (p : Pool σ ω) : Decidable (admitted enter advance e p) :=
  inferInstanceAs (Decidable (_ = true))

/-- The pools that come of an empty one. -/
abbrev Reachable (s₀ : σ) : Pool σ ω → Prop :=
  Runs (step enter advance) (admitted enter advance) ⟨s₀, []⟩

end

variable {enter : σ → κ → ω} {advance : α → σ → ω → Option (σ × ω)}

/-- All that an event does. -/
theorem next_cases {e : PoolEvent κ α} {p p' : Pool σ ω} (h : next enter advance e p = some p') :
    (∃ k, e = .enter k ∧ p' = ⟨p.shared, p.workers ++ [enter p.shared k]⟩) ∨
    ∃ i a w s w', e = .act i a ∧ p.workers[i]? = some w ∧ advance a p.shared w = some (s, w') ∧
      p' = ⟨s, p.workers.set i w'⟩ := by
  cases e with
  | enter k => exact .inl ⟨k, rfl, (Option.some.inj h).symm⟩
  | act i a =>
    obtain ⟨w, hw, h⟩ := Option.bind_eq_some_iff.1 h
    obtain ⟨⟨s, w'⟩, hadv, rfl⟩ := Option.map_eq_some_iff.1 h
    exact .inr ⟨i, a, w, s, w', rfl, hw, hadv, rfl⟩

theorem next_act {p : Pool σ ω} {i : ℕ} {a : α} {w w' : ω} {s : σ} (hw : p.workers[i]? = some w)
    (hadv : advance a p.shared w = some (s, w')) :
    next enter advance (.act i a) p = some ⟨s, p.workers.set i w'⟩ := by
  rw [next, hw, Option.bind_some, hadv]
  rfl

theorem step_of_next {e : PoolEvent κ α} {p p' : Pool σ ω}
    (h : next enter advance e p = some p') : step enter advance e p = p' := by
  rw [step, h]
  rfl

theorem exists_next {e : PoolEvent κ α} {p : Pool σ ω} (h : admitted enter advance e p) :
    ∃ p', next enter advance e p = some p' := Option.isSome_iff_exists.1 h

theorem Reachable.of_next {s₀ : σ} {e : PoolEvent κ α} {p p' : Pool σ ω}
    (h : Reachable enter advance s₀ p) (hp : next enter advance e p = some p') :
    Reachable enter advance s₀ p' := by
  have he : admitted enter advance e p := by simp [admitted, hp]
  simpa only [step_of_next hp] using Runs.next h he

theorem Reachable.entered {s₀ s : σ} {ws : List ω} (h : Reachable enter advance s₀ ⟨s, ws⟩) (k : κ) :
    Reachable enter advance s₀ ⟨s, ws ++ [enter s k]⟩ :=
  h.of_next (e := .enter k) rfl

/-- The worker that came in last goes on. -/
theorem Reachable.act_last {s₀ s s' : σ} {ws : List ω} {w w' : ω} {a : α}
    (h : Reachable enter advance s₀ ⟨s, ws ++ [w]⟩) (hadv : advance a s w = some (s', w')) :
    Reachable enter advance s₀ ⟨s', ws ++ [w']⟩ := by
  have hw : (ws ++ [w])[ws.length]? = some w := by simp
  have hset : (ws ++ [w]).set ws.length w' = ws ++ [w'] := by simp
  have hnext : next enter advance (.act ws.length a) ⟨s, ws ++ [w]⟩ = _ := next_act hw hadv
  rw [hset] at hnext
  exact h.of_next hnext

/-- `K` of the shared state and `J` of each worker are kept by all that happens. -/
structure Kept (enter : σ → κ → ω) (advance : α → σ → ω → Option (σ × ω)) (K : σ → Prop)
    (J : ω → Prop) : Prop where
  enter : ∀ s k, K s → J (enter s k)
  advance : ∀ a s w s' w', K s → J w → advance a s w = some (s', w') → K s' ∧ J w'

def Holds (K : σ → Prop) (J : ω → Prop) (p : Pool σ ω) : Prop :=
  K p.shared ∧ ∀ w ∈ p.workers, J w

section Invariants

variable {K : σ → Prop} {J : ω → Prop}

theorem Holds.of_getElem? {p : Pool σ ω} (h : p.Holds K J) {i : ℕ} {w : ω}
    (hw : p.workers[i]? = some w) : J w := h.2 w (List.mem_of_getElem? hw)

theorem Kept.holds_next (hkept : Kept enter advance K J) {e : PoolEvent κ α} {p p' : Pool σ ω}
    (hp : p.Holds K J) (h : next enter advance e p = some p') : p'.Holds K J := by
  obtain ⟨k, rfl, rfl⟩ | ⟨i, a, w, s, w', rfl, hw, hadv, rfl⟩ := next_cases h
  · refine ⟨hp.1, fun w hw => ?_⟩
    obtain hw | hw := List.mem_append.1 hw
    · exact hp.2 w hw
    · exact List.mem_singleton.1 hw ▸ hkept.enter _ k hp.1
  · obtain ⟨hs, hw'⟩ := hkept.advance a _ w s w' hp.1 (hp.of_getElem? hw) hadv
    refine ⟨hs, fun x hx => ?_⟩
    obtain hx | rfl := List.mem_or_eq_of_mem_set hx
    · exact hp.2 x hx
    · exact hw'

theorem Kept.holds_step (hkept : Kept enter advance K J) {e : PoolEvent κ α} {p : Pool σ ω}
    (hp : p.Holds K J) (h : admitted enter advance e p) :
    (step enter advance e p).Holds K J := by
  obtain ⟨p', hp'⟩ := exists_next h
  rw [step_of_next hp']
  exact hkept.holds_next hp hp'

theorem Kept.reachable (hkept : Kept enter advance K J) {s₀ : σ} (hs : K s₀) {p : Pool σ ω}
    (h : Reachable enter advance s₀ p) : p.Holds K J :=
  h.invariant _ ⟨hs, List.forall_mem_nil J⟩ fun _ _ hp he => hkept.holds_step hp he

/-- What the workers hold and what is left of it stay in balance. A worker never holds more
    than there is. -/
theorem Kept.balance (hkept : Kept enter advance K J) {s₀ : σ} (hs : K s₀) {g : σ → ℕ}
    {f : ω → ℕ} (henter : ∀ s k, K s → f (enter s k) = 0)
    (hadv : ∀ a s w s' w', K s → J w → g s + f w ≤ g s₀ → advance a s w = some (s', w') →
      g s' + f w' = g s + f w)
    {p : Pool σ ω} (h : Reachable enter advance s₀ p) : g p.shared + p.tally f = g s₀ := by
  suffices hall : p.Holds K J ∧ g p.shared + p.tally f = g s₀ from hall.2
  refine h.invariant (fun p => p.Holds K J ∧ g p.shared + p.tally f = g s₀)
    ⟨⟨hs, List.forall_mem_nil J⟩, rfl⟩ ?_
  rintro e p ⟨hp, heq⟩ he
  obtain ⟨p', hp'⟩ := exists_next he
  rw [step_of_next hp']
  refine ⟨hkept.holds_next hp hp', ?_⟩
  obtain ⟨k, rfl, rfl⟩ | ⟨i, a, w, s, w', rfl, hw, hact, rfl⟩ := next_cases hp'
  · rw [tally, tally_append, henter _ k hp.1]
    exact heq
  · have hle : g p.shared + f w ≤ g s₀ := heq ▸ Nat.add_le_add_left (le_tally hw) _
    have hmove := hadv a _ w s w' hp.1 (hp.of_getElem? hw) hle hact
    have hset := tally_set (f := f) hw w'
    simp only [tally] at heq ⊢
    omega

/-- A counter that wraps at `M` counts what the workers did. -/
theorem Kept.counter (hkept : Kept enter advance K J) {s₀ : σ} (hs : K s₀) {M : ℕ} {g : σ → ℕ}
    {f : ω → ℕ} (hstart : g s₀ = 0) (henter : ∀ s k, K s → f (enter s k) = 0)
    (hadv : ∀ a s w s' w', K s → J w → advance a s w = some (s', w') →
      f w ≤ f w' ∧ (g s < M → g s' = (g s + (f w' - f w)) % M))
    (hM : 0 < M) {p : Pool σ ω} (h : Reachable enter advance s₀ p) :
    g p.shared = p.tally f % M := by
  suffices hall : p.Holds K J ∧ g p.shared = p.tally f % M from hall.2
  refine h.invariant (fun p => p.Holds K J ∧ g p.shared = p.tally f % M)
    ⟨⟨hs, List.forall_mem_nil J⟩, hstart.trans (Nat.zero_mod M).symm⟩ ?_
  rintro e p ⟨hp, heq⟩ he
  obtain ⟨p', hp'⟩ := exists_next he
  rw [step_of_next hp']
  refine ⟨hkept.holds_next hp hp', ?_⟩
  obtain ⟨k, rfl, rfl⟩ | ⟨i, a, w, s, w', rfl, hw, hact, rfl⟩ := next_cases hp'
  · rw [tally, tally_append, henter _ k hp.1]
    exact heq
  · obtain ⟨hle, hcount⟩ := hadv a _ w s w' hp.1 (hp.of_getElem? hw) hact
    have hset := tally_set (f := f) hw w'
    have hlt : g p.shared < M := heq ▸ Nat.mod_lt _ hM
    simp only [tally] at heq ⊢
    rw [hcount hlt, heq, Nat.mod_add_mod]
    congr 1
    omega

end Invariants

/-! ## Termination -/

section Termination

variable {K : σ → Prop} {J : ω → Prop} {budget : ω → ℕ}

/-- Actions are paid from the budgets of those who do them. -/
theorem Kept.length_le (hkept : Kept enter advance K J)
    (hadv : ∀ a s w s' w', K s → J w → advance a s w = some (s', w') → budget w' < budget w)
    {es : List (PoolEvent κ α)} (hacts : ∀ e ∈ es, e.isAct) {p : Pool σ ω} (hp : p.Holds K J)
    (hes : Runs.Admits (step enter advance) (admitted enter advance) es p) :
    es.length ≤ p.tally budget := by
  induction es generalizing p with
  | nil => exact Nat.zero_le _
  | cons e es ih =>
    obtain ⟨he, hes⟩ := hes
    obtain ⟨p', hp'⟩ := exists_next he
    have hrest := ih (fun e he => hacts e (List.mem_cons_of_mem _ he)) (hkept.holds_step hp he) hes
    rw [step_of_next hp'] at hrest
    obtain ⟨k, rfl, -⟩ | ⟨i, a, w, s, w', -, hw, hact, rfl⟩ := next_cases hp'
    · cases hacts _ List.mem_cons_self
    · have hless := hadv a _ w s w' hp.1 (hp.of_getElem? hw) hact
      have hset := tally_set (f := budget) hw w'
      simp only [tally, List.length_cons] at hrest ⊢
      omega

/-- Where one of the actions `A` can always be done as long as some worker is not at its end,
    they bring all of them there. -/
theorem Kept.exists_completion (hkept : Kept enter advance K J) {A : α → Prop} {done : ω → Prop}
    {P : Pool σ ω → Prop}
    (hadv : ∀ a s w s' w', K s → J w → advance a s w = some (s', w') → budget w' < budget w)
    (hP : ∀ e p, P p → admitted enter advance e p → P (step enter advance e p))
    (hlive : ∀ p : Pool σ ω, P p → p.Holds K J → (∃ w ∈ p.workers, ¬ done w) →
      ∃ i a, A a ∧ admitted enter advance (.act i a) p)
    {p : Pool σ ω} (hp : p.Holds K J) (h : P p) :
    ∃ es : List (PoolEvent κ α), (∀ e ∈ es, ∃ i a, e = .act i a ∧ A a) ∧
      Runs.Admits (step enter advance) (admitted enter advance) es p ∧
      ∀ w ∈ (Runs.runAll (step enter advance) es p).workers, done w := by
  induction hn : p.tally budget using Nat.strongRecOn generalizing p with
  | ind n ih =>
    by_cases hdone : ∀ w ∈ p.workers, done w
    · exact ⟨[], nofun, trivial, hdone⟩
    · push Not at hdone
      obtain ⟨i, a, ha, he⟩ := hlive p h hp hdone
      obtain ⟨p', hp'⟩ := exists_next he
      have hless : p'.tally budget < n := by
        obtain ⟨k, heq, -⟩ | ⟨i', a', w, s, w', -, hw, hact, rfl⟩ := next_cases hp'
        · cases heq
        · have hless := hadv a' _ w s w' hp.1 (hp.of_getElem? hw) hact
          have hset := tally_set (f := budget) hw w'
          simp only [tally] at hn ⊢
          omega
      have hstep := step_of_next hp'
      obtain ⟨es, hacts, hes, hend⟩ :=
        ih _ hless (hstep ▸ hkept.holds_step hp he) (hstep ▸ hP _ p h he) rfl
      refine ⟨.act i a :: es, ?_, ⟨he, hstep ▸ hes⟩, ?_⟩
      · intro e hmem
        obtain rfl | hmem := List.mem_cons.1 hmem
        · exact ⟨i, a, rfl, ha⟩
        · exact hacts e hmem
      · rw [Runs.runAll, List.foldl_cons, hstep]
        exact hend

end Termination

end Pool
end TgCryptFs.Library

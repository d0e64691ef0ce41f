set_option autoImplicit false

/-!
# Runs of a system that serves events

`admitted` says which events may come in which state.
-/
namespace TgCryptFs.Library

variable {σ ε : Type}

/-- The states reached from `s₀` through admitted events. -/
inductive Runs (step : ε → σ → σ) (admitted : ε → σ → Prop) (s₀ : σ) : σ → Prop where
  | start : Runs step admitted s₀ s₀
  | next {s : σ} {e : ε} (h : Runs step admitted s₀ s) (he : admitted e s) :
      Runs step admitted s₀ (step e s)

namespace Runs

variable {step : ε → σ → σ} {admitted : ε → σ → Prop} {s₀ s : σ}

/-- What holds at the start and is kept by every admitted event holds throughout. -/
theorem invariant (I : σ → Prop) (hstart : I s₀)
    (hstep : ∀ e s, I s → admitted e s → I (step e s)) (h : Runs step admitted s₀ s) : I s := by
  induction h with
  | start => exact hstart
  | next _ he ih => exact hstep _ _ ih he

theorem next_eq {s' : σ} (h : Runs step admitted s₀ s) (e : ε) (he : admitted e s)
    (hs : step e s = s') : Runs step admitted s₀ s' := hs ▸ h.next he

/-- A list of events, each admitted when its turn comes. -/
def Admits (step : ε → σ → σ) (admitted : ε → σ → Prop) : List ε → σ → Prop
  | [], _ => True
  | e :: es, s => admitted e s ∧ Admits step admitted es (step e s)

def runAll (step : ε → σ → σ) (es : List ε) (s : σ) : σ := es.foldl (fun s e => step e s) s

theorem of_admits (es : List ε) (h : Runs step admitted s₀ s) (hes : Admits step admitted es s) :
    Runs step admitted s₀ (runAll step es s) := by
  induction es generalizing s with
  | nil => exact h
  | cons e es ih => exact ih (h.next hes.1) hes.2

theorem admits_of_forall (es : List ε) (h : ∀ e ∈ es, ∀ s, admitted e s) (s : σ) :
    Admits step admitted es s := by
  induction es generalizing s with
  | nil => trivial
  | cons e es ih =>
    refine ⟨h e List.mem_cons_self s, ih (fun x hx => ?_) _⟩
    exact h x (List.mem_cons_of_mem e hx)

theorem admits_append {es es' : List ε} {s : σ} :
    Admits step admitted (es ++ es') s ↔
      Admits step admitted es s ∧ Admits step admitted es' (runAll step es s) := by
  induction es generalizing s with
  | nil => exact ⟨fun h => ⟨trivial, h⟩, fun h => h.2⟩
  | cons e es ih => exact (and_congr_right fun _ => ih).trans and_assoc.symm

theorem admits_congr {admitted' : ε → σ → Prop} (h : ∀ e s, admitted e s ↔ admitted' e s)
    (es : List ε) (s : σ) : Admits step admitted es s ↔ Admits step admitted' es s := by
  induction es generalizing s with
  | nil => exact Iff.rfl
  | cons e es ih => exact and_congr (h e s) (ih _)

/-- What holds in the first state and in every state that the events lead to. -/
def Throughout (step : ε → σ → σ) (I : σ → Prop) : List ε → σ → Prop
  | [], s => I s
  | e :: es, s => I s ∧ Throughout step I es (step e s)

/-- Where `J` is kept by every event that may come, and `I` by exactly the admitted ones of
    them, `I` holds throughout a run if and only if every event of it is admitted. -/
theorem throughout_iff_admits_of {V : ε → σ → Prop} {I J : σ → Prop}
    (hJ : ∀ e s, J s → V e s → J (step e s))
    (hI : ∀ e s, J s → V e s → I s → (I (step e s) ↔ admitted e s)) (es : List ε) {s : σ}
    (hes : Admits step V es s) (hs : J s) (h : I s) :
    Throughout step I es s ↔ Admits step admitted es s := by
  induction es generalizing s with
  | nil => exact ⟨fun _ => trivial, fun _ => h⟩
  | cons e es ih =>
    obtain ⟨hv, hes⟩ := hes
    constructor
    · rintro ⟨-, hrest⟩
      have hnext : I (step e s) := by
        cases es with
        | nil => exact hrest
        | cons _ _ => exact hrest.1
      exact ⟨(hI e s hs hv h).1 hnext, (ih hes (hJ e s hs hv) hnext).1 hrest⟩
    · rintro ⟨he, hrest⟩
      have hnext := (hI e s hs hv h).2 he
      exact ⟨h, (ih hes (hJ e s hs hv) hnext).2 hrest⟩

theorem throughout_iff_admits {I J : σ → Prop} (hJ : ∀ e s, J s → J (step e s))
    (hI : ∀ e s, J s → I s → (I (step e s) ↔ admitted e s)) (es : List ε) {s : σ} (hs : J s)
    (h : I s) : Throughout step I es s ↔ Admits step admitted es s :=
  throughout_iff_admits_of (V := fun _ _ => True) (fun e s hs _ => hJ e s hs)
    (fun e s hs _ => hI e s hs) es (admits_of_forall es (fun _ _ _ => trivial) s) hs h

/-- What an invariant of the admitted events implies holds throughout. -/
theorem Admits.throughout {I P : σ → Prop} (hI : ∀ e s, I s → admitted e s → I (step e s))
    (hP : ∀ s, I s → P s) {es : List ε} {s : σ} (hs : I s) (hes : Admits step admitted es s) :
    Throughout step P es s := by
  induction es generalizing s with
  | nil => exact hP s hs
  | cons e es ih => exact ⟨hP s hs, ih (hI e s hs hes.1) hes.2⟩

/-- What an admitted event does in a state of the invariants holds at every event of the run. -/
theorem Admits.imp {I J : σ → Prop} {P : ε → σ → Prop} (hJ : ∀ e s, J s → J (step e s))
    (hI : ∀ e s, J s → I s → admitted e s → I (step e s))
    (hP : ∀ e s, J s → I s → admitted e s → P e s) {es : List ε} {s : σ} (hs : J s) (h : I s)
    (hes : Admits step admitted es s) : Admits step P es s := by
  induction es generalizing s with
  | nil => trivial
  | cons e es ih => exact ⟨hP e s hs h hes.1, ih (hJ e s hs) (hI e s hs h hes.1) hes.2⟩

end Runs
end TgCryptFs.Library

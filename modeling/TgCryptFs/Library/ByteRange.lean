import Mathlib.Data.List.Basic
import Mathlib.Data.List.GetD
import Mathlib.Order.Lattice

set_option autoImplicit false

/-!
# Positioned writes and truncation on flat arrays

`pwrite` fills a hole with `z`, `resize` cuts or extends with `z`. An array is
determined by its length and its values with `z` past the end, and both
operations are described there, position by position.
-/
namespace TgCryptFs.Library

variable {α : Type}

/-- `Vec::resize`: cut to `n`, or pad with `z` up to `n`. -/
def resize (z : α) (b : List α) (n : ℕ) : List α := b.take n ++ List.replicate (n - b.length) z

/-- Copy `d` over the positions `[o, o + |d|)`, which must exist. -/
def splice (b : List α) (o : ℕ) (d : List α) : List α := b.take o ++ d ++ b.drop (o + d.length)

def pwrite (z : α) (b : List α) (o : ℕ) (d : List α) : List α :=
  splice (if o + d.length > b.length then resize z b (o + d.length) else b) o d

def slice (b : List α) (o n : ℕ) : List α := (b.drop o).take n

/-- A write covers position `p`. -/
def Covers (w : ℕ × List α) (p : ℕ) : Prop := w.1 ≤ p ∧ p < w.1 + w.2.length

instance (w : ℕ × List α) (p : ℕ) : Decidable (Covers w p) :=
  inferInstanceAs (Decidable (_ ∧ _))

/-- One change of an array in place. -/
inductive Edit (α : Type) where
  | write (o : ℕ) (d : List α)
  | truncate (n : ℕ)

namespace Edit

def apply (z : α) (b : List α) : Edit α → List α
  | .write o d => pwrite z b o d
  | .truncate n => resize z b n

/-- The length of an array of length `s` after the edit. -/
def size (s : ℕ) : Edit α → ℕ
  | .write o d => max s (o + d.length)
  | .truncate n => n

/-- What the edit puts at `p`; a truncation puts `z` where it cuts. -/
def valueAt (z : α) (p : ℕ) : Edit α → Option α
  | .write o d => if Covers (o, d) p then d[p - o]? else none
  | .truncate n => if n ≤ p then some z else none

end Edit

def edits (z : α) (b : List α) (es : List (Edit α)) : List α := es.foldl (fun b e => e.apply z b) b

def sizeAfter (s : ℕ) (es : List (Edit α)) : ℕ := es.foldl Edit.size s

/-- The value the last edit that concerns `p` put there. -/
def lastEdit (z : α) (p : ℕ) : List (Edit α) → Option α
  | [] => none
  | e :: es => (lastEdit z p es).or (e.valueAt z p)

def writesOf (ws : List (ℕ × List α)) : List (Edit α) := ws.map fun w => .write w.1 w.2

def pwrites (z : α) (b : List α) (ws : List (ℕ × List α)) : List α := edits z b (writesOf ws)

/-- Where the furthest of the writes ends. -/
def extent : List (ℕ × List α) → ℕ
  | [] => 0
  | w :: ws => max (w.1 + w.2.length) (extent ws)

/-- The value the last write over `p` put there. -/
def lastWrite (p : ℕ) : List (ℕ × List α) → Option α
  | [] => none
  | w :: ws => (lastWrite p ws).or (if Covers w p then w.2[p - w.1]? else none)

@[simp] theorem length_resize (z : α) (b : List α) (n : ℕ) : (resize z b n).length = n := by
  simp [resize]; omega

theorem getD_resize (z : α) (b : List α) (n p : ℕ) :
    (resize z b n).getD p z = if p < n then b.getD p z else z := by
  simp only [resize, List.getD_eq_getElem?_getD, List.getElem?_append, List.length_take,
    List.getElem?_take, List.getElem?_replicate]
  by_cases h : p < n <;> by_cases hb : p < b.length
  · have : p < min n b.length := by omega
    simp [this, h]
  · have h1 : ¬ p < min n b.length := by omega
    have h2 : p - min n b.length < n - b.length := by omega
    simp [h1, h2, h, Nat.le_of_not_lt hb]
  · have h1 : ¬ p < min n b.length := by omega
    have h2 : ¬ p - min n b.length < n - b.length := by omega
    simp [h1, h2, h]
  · have h1 : ¬ p < min n b.length := by omega
    have h2 : ¬ p - min n b.length < n - b.length := by omega
    simp [h1, h2, h]

theorem length_splice (b : List α) (o : ℕ) (d : List α) (h : o + d.length ≤ b.length) :
    (splice b o d).length = b.length := by
  simp [splice]; omega

theorem getD_splice (z : α) (b : List α) (o : ℕ) (d : List α) (h : o + d.length ≤ b.length) (p : ℕ) :
    (splice b o d).getD p z = if Covers (o, d) p then d.getD (p - o) z else b.getD p z := by
  have ho : min o b.length = o := by omega
  simp only [splice, Covers, List.getD_eq_getElem?_getD, List.append_assoc, List.getElem?_append,
    List.length_take, ho, List.getElem?_take, List.getElem?_drop]
  by_cases h1 : p < o
  · have : ¬ (o ≤ p ∧ p < o + d.length) := by omega
    simp [h1, this]
  · by_cases h2 : p - o < d.length
    · have : o ≤ p ∧ p < o + d.length := by omega
      simp [h1, h2, this]
    · have h3 : ¬ (o ≤ p ∧ p < o + d.length) := by omega
      have h4 : o + d.length + (p - o - d.length) = p := by omega
      simp [h1, h2, h3, h4]

@[simp] theorem length_pwrite (z : α) (b : List α) (o : ℕ) (d : List α) :
    (pwrite z b o d).length = max b.length (o + d.length) := by
  unfold pwrite
  split
  · rw [length_splice _ _ _ (by simp), length_resize]; omega
  · rw [length_splice _ _ _ (by omega)]; omega

theorem getD_pwrite (z : α) (b : List α) (o : ℕ) (d : List α) (p : ℕ) :
    (pwrite z b o d).getD p z = if Covers (o, d) p then d.getD (p - o) z else b.getD p z := by
  unfold pwrite
  split
  · rename_i h
    rw [getD_splice z _ o d (by simp) p, getD_resize]
    by_cases hc : Covers (o, d) p
    · simp [hc]
    · by_cases hp : p < o + d.length
      · simp [hp]
      · have : b.length ≤ p := by omega
        simp [hp, List.getD_eq_getElem?_getD, this]
  · exact getD_splice z _ o d (by omega) p

theorem ext_getD (z : α) {a b : List α} (hl : a.length = b.length)
    (h : ∀ p < b.length, a.getD p z = b.getD p z) : a = b := by
  refine List.ext_getElem hl fun p h1 h2 => ?_
  simpa [List.getD_eq_getElem?_getD, h1, h2] using h p h2

theorem length_apply (z : α) (b : List α) (e : Edit α) : (e.apply z b).length = e.size b.length := by
  cases e with
  | write o d => exact length_pwrite z b o d
  | truncate n => exact length_resize z b n

theorem getD_apply (z : α) (b : List α) (e : Edit α) (p : ℕ) :
    (e.apply z b).getD p z = (e.valueAt z p).getD (b.getD p z) := by
  cases e with
  | write o d =>
    rw [Edit.apply, Edit.valueAt, getD_pwrite]
    split
    · rename_i hc
      have hp : p - o < d.length := by have h1 := hc.1; have h2 := hc.2; dsimp only at h1 h2; omega
      simp [hp, List.getD_eq_getElem?_getD]
    · rfl
  | truncate n =>
    rw [Edit.apply, Edit.valueAt, getD_resize]
    by_cases h : p < n
    · rw [if_pos h, if_neg (by omega)]
      rfl
    · rw [if_neg h, if_pos (by omega)]
      rfl

theorem length_edits (z : α) (b : List α) (es : List (Edit α)) :
    (edits z b es).length = sizeAfter b.length es := by
  induction es generalizing b with
  | nil => rfl
  | cons e es ih =>
    change (edits z (e.apply z b) es).length = sizeAfter (e.size b.length) es
    rw [ih, length_apply]

theorem getD_edits (z : α) (b : List α) (es : List (Edit α)) (p : ℕ) :
    (edits z b es).getD p z = (lastEdit z p es).getD (b.getD p z) := by
  induction es generalizing b with
  | nil => rfl
  | cons e es ih =>
    change (edits z (e.apply z b) es).getD p z = _
    rw [ih, getD_apply, lastEdit]
    cases lastEdit z p es <;> rfl

theorem sizeAfter_writesOf (s : ℕ) (ws : List (ℕ × List α)) :
    sizeAfter s (writesOf ws) = max s (extent ws) := by
  induction ws generalizing s with
  | nil => simp [sizeAfter, writesOf, extent]
  | cons w ws ih =>
    change sizeAfter (max s (w.1 + w.2.length)) (writesOf ws) = _
    rw [ih, extent, max_assoc]

theorem lastEdit_writesOf (z : α) (p : ℕ) (ws : List (ℕ × List α)) :
    lastEdit z p (writesOf ws) = lastWrite p ws := by
  induction ws with
  | nil => rfl
  | cons w ws ih =>
    change (lastEdit z p (writesOf ws)).or _ = _
    rw [ih]
    rfl

theorem length_pwrites (z : α) (b : List α) (ws : List (ℕ × List α)) :
    (pwrites z b ws).length = max b.length (extent ws) := by
  rw [pwrites, length_edits, sizeAfter_writesOf]

theorem getD_pwrites (z : α) (b : List α) (ws : List (ℕ × List α)) (p : ℕ) :
    (pwrites z b ws).getD p z = (lastWrite p ws).getD (b.getD p z) := by
  rw [pwrites, getD_edits, lastEdit_writesOf]

theorem lastWrite_isSome {p : ℕ} {ws : List (ℕ × List α)} :
    (lastWrite p ws).isSome ↔ ∃ w ∈ ws, Covers w p := by
  induction ws with
  | nil => simp [lastWrite]
  | cons w ws ih =>
    rw [lastWrite, Option.isSome_or, Bool.or_eq_true, ih]
    by_cases hc : Covers w p
    · have : p - w.1 < w.2.length := by have := hc.1; have := hc.2; omega
      simp [hc, this]
    · simp [hc]

theorem lastWrite_eq_none {p : ℕ} {ws : List (ℕ × List α)} :
    lastWrite p ws = none ↔ ∀ w ∈ ws, ¬ Covers w p := by
  rw [← Option.not_isSome_iff_eq_none, lastWrite_isSome]
  simp

theorem lt_extent {p : ℕ} {ws : List (ℕ × List α)} :
    p < extent ws ↔ ∃ w ∈ ws, p < w.1 + w.2.length := by
  induction ws with
  | nil => simp [extent]
  | cons w ws ih => simp [extent, ih]

theorem length_slice (b : List α) (o n : ℕ) : (slice b o n).length = min n (b.length - o) := by
  simp [slice]

theorem getD_slice (z : α) (b : List α) (o n p : ℕ) :
    (slice b o n).getD p z = if p < n then b.getD (o + p) z else z := by
  simp only [slice, List.getD_eq_getElem?_getD, List.getElem?_take, List.getElem?_drop]
  split <;> rfl

theorem getElem?_eq_some_iff_getD (z : α) {b : List α} {p : ℕ} {v : α} :
    b[p]? = some v ↔ p < b.length ∧ b.getD p z = v := by
  rw [List.getElem?_eq_some_iff]
  constructor
  · rintro ⟨hp, rfl⟩
    exact ⟨hp, by simp [hp]⟩
  · rintro ⟨hp, rfl⟩
    exact ⟨hp, by simp [hp]⟩

theorem prefix_iff_getD (z : α) {a b : List α} :
    a <+: b ↔ a.length ≤ b.length ∧ ∀ p < a.length, a.getD p z = b.getD p z := by
  constructor
  · intro h
    refine ⟨h.length_le, fun p hp => ?_⟩
    obtain ⟨t, rfl⟩ := h
    rw [List.getD_append _ _ _ _ hp]
  · rintro ⟨hle, h⟩
    rw [List.prefix_iff_eq_take]
    refine ext_getD z (by rw [List.length_take]; omega) fun p hp => ?_
    rw [List.length_take] at hp
    have hslice : b.take a.length = slice b 0 a.length := by rw [slice, List.drop_zero]
    rw [h p (by omega), hslice, getD_slice, if_pos (by omega), Nat.zero_add]

theorem edits_prefix_iff (z : α) (c : List α) (es : List (Edit α)) (b : List α) :
    edits z c es <+: b ↔ sizeAfter c.length es ≤ b.length ∧
      ∀ p < sizeAfter c.length es, (lastEdit z p es).getD (c.getD p z) = b.getD p z := by
  simp only [prefix_iff_getD z, length_edits, getD_edits]

theorem sizeAfter_append (s : ℕ) (es es' : List (Edit α)) :
    sizeAfter s (es ++ es') = sizeAfter (sizeAfter s es) es' := List.foldl_append

theorem pwrites_append (z : α) (b : List α) (ws ws' : List (ℕ × List α)) :
    pwrites z b (ws ++ ws') = pwrites z (pwrites z b ws) ws' := by
  simp [pwrites, edits, writesOf]

/-- The array has what the writes put, wherever one of them came last. -/
def Contains (b : List α) (ws : List (ℕ × List α)) : Prop :=
  ∀ p v, lastWrite p ws = some v → b[p]? = some v

theorem lt_extent_of_lastWrite {p : ℕ} {v : α} {ws : List (ℕ × List α)} (h : lastWrite p ws = some v) :
    p < extent ws := by
  obtain ⟨w, hw, hc⟩ := lastWrite_isSome.1 (by rw [h]; rfl)
  exact lt_extent.2 ⟨w, hw, hc.2⟩

theorem contains_pwrites (z : α) (b : List α) (ws : List (ℕ × List α)) :
    Contains (pwrites z b ws) ws := by
  intro p v h
  rw [getElem?_eq_some_iff_getD z, length_pwrites, getD_pwrites, h]
  exact ⟨Nat.lt_of_lt_of_le (lt_extent_of_lastWrite h) (Nat.le_max_right _ _), rfl⟩

/-- What is written elsewhere is not among these writes, but for zeros in their holes. -/
theorem contains_pwrites_other (z : α) {ws ws' : List (ℕ × List α)}
    (hdisj : ∀ w ∈ ws, ∀ w' ∈ ws', ∀ p, ¬ (Covers w p ∧ Covers w' p)) :
    Contains (pwrites z [] ws') ws ↔ ∀ p v, lastWrite p ws = some v → v = z ∧ p < extent ws' := by
  refine forall_congr' fun p => forall_congr' fun v => imp_congr_right fun h => ?_
  obtain ⟨w, hw, hc⟩ := lastWrite_isSome.1 (by rw [h]; rfl)
  have hnone : lastWrite p ws' = none :=
    lastWrite_eq_none.2 fun w' hw' hc' => hdisj w hw w' hw' p ⟨hc, hc'⟩
  rw [getElem?_eq_some_iff_getD z, length_pwrites, getD_pwrites, hnone, List.length_nil,
    Nat.zero_max, Option.getD_none]
  exact ⟨fun h => ⟨h.2.symm, h.1⟩, fun h => ⟨h.2, h.1.symm⟩⟩

/-- Old values survive being forgotten where they are written over, or are `z` anyway. -/
theorem pwrites_eq_iff (z : α) (c : List α) (ws : List (ℕ × List α)) :
    pwrites z c ws = pwrites z [] ws ↔
      ∀ p < c.length, (∃ w ∈ ws, Covers w p) ∨ c.getD p z = z ∧ p < extent ws := by
  constructor
  · intro h p hp
    by_cases hc : ∃ w ∈ ws, Covers w p
    · exact .inl hc
    have hlen := congrArg List.length h
    rw [length_pwrites, length_pwrites, List.length_nil] at hlen
    have hval := congrArg (fun l => l.getD p z) h
    have hnone : lastWrite p ws = none := lastWrite_eq_none.2 fun w hw hcov => hc ⟨w, hw, hcov⟩
    simp only [getD_pwrites, hnone, Option.getD_none] at hval
    exact .inr ⟨hval, by omega⟩
  · intro h
    have hlt : ∀ p < c.length, p < extent ws := by
      intro p hp
      rcases h p hp with ⟨w, hw, hcov⟩ | ⟨-, hp'⟩
      · exact lt_extent.2 ⟨w, hw, hcov.2⟩
      · exact hp'
    have hle : c.length ≤ extent ws := by
      by_contra hgt
      have := hlt (c.length - 1) (by omega)
      omega
    refine ext_getD z ?_ fun p _ => ?_
    · rw [length_pwrites, length_pwrites, List.length_nil]
      omega
    rw [getD_pwrites, getD_pwrites]
    cases hlast : lastWrite p ws with
    | some v => rfl
    | none =>
      by_cases hp : p < c.length
      · rcases h p hp with ⟨w, hw, hcov⟩ | ⟨hz, -⟩
        · exact (lastWrite_eq_none.1 hlast w hw hcov).elim
        · rw [Option.getD_none, Option.getD_none, hz]
          rfl
      · simp [List.getD_eq_getElem?_getD, Nat.le_of_not_lt hp]

/-- A window of a padded array, from a padded window. -/
theorem take_resize_drop (z : α) (b : List α) (o n s : ℕ) :
    (resize z (b.drop o) n).take (min n (s - o)) = slice (resize z b s) o n := by
  have htake : (resize z (b.drop o) n).take (min n (s - o)) =
      slice (resize z (b.drop o) n) 0 (min n (s - o)) := by rw [slice, List.drop_zero]
  rw [htake]
  refine ext_getD z (by simp only [length_slice, length_resize]; omega) fun p hp => ?_
  have hdrop : (b.drop o).getD p z = b.getD (o + p) z := by
    simp [List.getD_eq_getElem?_getD, List.getElem?_drop]
  rw [length_slice, length_resize] at hp
  rw [getD_slice, getD_slice, getD_resize, getD_resize, Nat.zero_add, hdrop, if_pos (by omega),
    if_pos (by omega), if_pos (by omega), if_pos (by omega)]

end TgCryptFs.Library

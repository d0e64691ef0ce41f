import Mathlib.Data.Nat.Notation
import Mathlib.Data.Int.Notation
import TgCryptFs.Core.Crypto

set_option autoImplicit false

namespace TgCryptFs

structure FileHandle where
  fh : ℕ
  ino : ℕ
  flags : ℤ
  writeBuffer : Bytes
  dirty : Bool
deriving DecidableEq, Repr

/-- Open handles by number. Numbers are handed out in order and never again. -/
structure HandleTable where
  nextFh : ℕ
  handles : List (ℕ × FileHandle)
  lt_nextFh : ∀ e ∈ handles, e.1 < nextFh

namespace HandleTable

instance : DecidableEq HandleTable := fun a b =>
  decidable_of_iff (a.nextFh = b.nextFh ∧ a.handles = b.handles) (by
    cases a; cases b; simp)

def new : HandleTable := ⟨1, [], by simp⟩

def openHandle (t : HandleTable) (ino : ℕ) (flags : ℤ) : ℕ × HandleTable :=
  (t.nextFh,
    { nextFh := t.nextFh + 1
      handles := (t.nextFh, ⟨t.nextFh, ino, flags, [], false⟩) :: t.handles
      lt_nextFh := by
        intro e he
        rcases List.mem_cons.1 he with rfl | he
        · exact Nat.lt_succ_self _
        · exact Nat.lt_succ_of_lt (t.lt_nextFh e he) })

def get (t : HandleTable) (fh : ℕ) : Option FileHandle :=
  (t.handles.find? (·.1 = fh)).map (·.2)

def update (t : HandleTable) (fh : ℕ) (f : FileHandle → FileHandle) : Bool × HandleTable :=
  ((t.get fh).isSome,
    { t with
      handles := t.handles.map fun e => if e.1 = fh then (e.1, f e.2) else e
      lt_nextFh := by
        intro e he
        obtain ⟨x, hx, rfl⟩ := List.mem_map.1 he
        split <;> exact t.lt_nextFh x hx })

/-- The returned handle has its buffer zeroized. -/
def close (t : HandleTable) (fh : ℕ) : Option FileHandle × HandleTable :=
  ((t.get fh).map fun h => { h with writeBuffer := [] },
    { t with
      handles := t.handles.filter (·.1 ≠ fh)
      lt_nextFh := fun e he => t.lt_nextFh e (List.mem_of_mem_filter he) })

theorem get_openHandle (t : HandleTable) (ino : ℕ) (flags : ℤ) (fh : ℕ) :
    (t.openHandle ino flags).2.get fh =
      if fh = t.nextFh then some ⟨t.nextFh, ino, flags, [], false⟩ else t.get fh := by
  by_cases h : fh = t.nextFh
  · simp [get, openHandle, h]
  · have h' : ¬ t.nextFh = fh := fun e => h e.symm
    simp [get, openHandle, h, h']

theorem get_update (t : HandleTable) (k : ℕ) (f : FileHandle → FileHandle) (fh : ℕ) :
    (t.update k f).2.get fh = if fh = k then (t.get fh).map f else t.get fh := by
  simp only [get, update, List.find?_map, Option.map_map]
  have hp : ((fun e : ℕ × FileHandle => decide (e.1 = fh)) ∘
      fun e => if e.1 = k then (e.1, f e.2) else e) = fun e => decide (e.1 = fh) := by
    funext e
    simp only [Function.comp]
    split <;> rfl
  rw [hp]
  cases hf : t.handles.find? fun e => decide (e.1 = fh) with
  | none => split <;> rfl
  | some e =>
    have he : e.1 = fh := by simpa using List.find?_some hf
    by_cases h : fh = k
    · simp [he, h]
    · simp [he, h]

theorem get_close (t : HandleTable) (k fh : ℕ) :
    (t.close k).2.get fh = if fh = k then none else t.get fh := by
  simp only [get, close, List.find?_filter]
  split
  · rename_i h
    subst h
    rw [List.find?_eq_none.2 fun e _ => by simp]
    rfl
  · rename_i h
    congr 2
    funext e
    by_cases he : e.1 = fh <;> simp [he, h]

theorem lt_of_get {t : HandleTable} {fh : ℕ} {h : FileHandle} (hg : t.get fh = some h) :
    fh < t.nextFh := by
  obtain ⟨e, he, -⟩ := Option.map_eq_some_iff.1 hg
  have hk : e.1 = fh := by simpa using List.find?_some he
  exact hk ▸ t.lt_nextFh e (List.mem_of_find?_eq_some he)

end HandleTable
end TgCryptFs

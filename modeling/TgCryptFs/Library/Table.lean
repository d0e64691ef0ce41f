import Mathlib.Data.List.Nodup
import Mathlib.Logic.Function.Basic

set_option autoImplicit false

/-!
# Keyed tables

Rows under a primary key and one further unique key. The two constraints are
fields of the table, so a statement that would break one has no result. As a
finite map, a table is its `find`, and each statement is one point update.
-/
namespace TgCryptFs.Library

structure Table {Row K U : Type} (key : Row → K) (uniq : Row → U) where
  rows : List Row
  key_nodup : (rows.map key).Nodup
  uniq_nodup : (rows.map uniq).Nodup

namespace Table

variable {Row K U : Type} {key : Row → K} {uniq : Row → U}

@[ext] theorem ext {t u : Table key uniq} (h : t.rows = u.rows) : t = u := by
  cases t; cases u; cases h; rfl

def empty : Table key uniq := ⟨[], by simp, by simp⟩

variable [DecidableEq K] [DecidableEq U]

instance [DecidableEq Row] : DecidableEq (Table key uniq) := fun t u =>
  decidable_of_iff (t.rows = u.rows) ⟨Table.ext, fun h => h ▸ rfl⟩

def find (t : Table key uniq) (k : K) : Option Row := t.rows.find? fun r => key r = k

def findUniq (t : Table key uniq) (u : U) : Option Row := t.rows.find? fun r => uniq r = u

/-- INSERT: refused when either key is taken. -/
def insert (t : Table key uniq) (r : Row) : Option (Table key uniq) :=
  if h : ∀ x ∈ t.rows, key x ≠ key r ∧ uniq x ≠ uniq r then
    some ⟨t.rows ++ [r],
      by simpa [List.nodup_append, t.key_nodup] using fun x hx => (h x hx).1,
      by simpa [List.nodup_append, t.uniq_nodup] using fun x hx => (h x hx).2⟩
  else none

def replace (key : Row → K) (r : Row) (rows : List Row) : List Row :=
  rows.map fun x => if key x = key r then r else x

omit [DecidableEq U] in
theorem map_key_replace (r : Row) (rows : List Row) :
    (replace key r rows).map key = rows.map key := by
  simp only [replace, List.map_map]
  refine List.map_congr_left fun x _ => ?_
  by_cases h : key x = key r <;> simp [h]

omit [DecidableEq U] in
theorem replace_of_absent (r : Row) (rows : List Row) (h : ∀ x ∈ rows, key x ≠ key r) :
    replace key r rows = rows := by
  rw [replace, List.map_congr_left (g := id) fun x hx => by simp [h x hx], List.map_id]

omit [DecidableEq U] in
theorem nodup_uniq_replace (r : Row) (rows : List Row) (hk : (rows.map key).Nodup)
    (hu : (rows.map uniq).Nodup) (h : ∀ x ∈ rows, key x ≠ key r → uniq x ≠ uniq r) :
    ((replace key r rows).map uniq).Nodup := by
  induction rows with
  | nil => simp [replace]
  | cons y ys ih =>
    simp only [List.map_cons, List.nodup_cons] at hk hu
    by_cases hy : key y = key r
    · have habs : ∀ x ∈ ys, key x ≠ key r := fun x hx e =>
        hk.1 (List.mem_map.2 ⟨x, hx, e.trans hy.symm⟩)
      have hrest := replace_of_absent r ys habs
      simp only [replace] at hrest ⊢
      simp only [List.map_cons, hy, if_true, List.nodup_cons, hrest]
      refine ⟨fun hm => ?_, hu.2⟩
      obtain ⟨x, hx, e⟩ := List.mem_map.1 hm
      exact h x (List.mem_cons_of_mem _ hx) (habs x hx) e
    · have hrec := ih hk.2 hu.2 fun x hx => h x (List.mem_cons_of_mem _ hx)
      simp only [replace] at hrec ⊢
      simp only [List.map_cons, hy, if_false, List.nodup_cons]
      refine ⟨fun hm => ?_, hrec⟩
      obtain ⟨x, hx, e⟩ := List.mem_map.1 hm
      obtain ⟨z, hz, rfl⟩ := List.mem_map.1 hx
      by_cases hzr : key z = key r
      · simp only [hzr, if_true] at e
        exact h y List.mem_cons_self hy e.symm
      · simp only [hzr, if_false] at e
        exact hu.1 (List.mem_map.2 ⟨z, hz, e⟩)

/-- UPDATE of the row under `key r`: refused when another row holds its unique
key, and without effect when there is no such row. -/
def update (t : Table key uniq) (r : Row) : Option (Table key uniq) :=
  if ∀ x ∈ t.rows, key x ≠ key r then some t
  else if h : ∀ x ∈ t.rows, key x ≠ key r → uniq x ≠ uniq r then
    some ⟨replace key r t.rows, by rw [map_key_replace]; exact t.key_nodup,
      nodup_uniq_replace r t.rows t.key_nodup t.uniq_nodup h⟩
  else none

def erase (t : Table key uniq) (k : K) : Table key uniq where
  rows := t.rows.filter fun r => key r ≠ k
  key_nodup := t.key_nodup.sublist (List.filter_sublist.map key)
  uniq_nodup := t.uniq_nodup.sublist (List.filter_sublist.map uniq)

theorem find?_eq_some_of_nodup {A : Type} [DecidableEq A] {f : Row → A} {rows : List Row}
    (hn : (rows.map f).Nodup) {a : A} {r : Row} :
    (rows.find? fun x => f x = a) = some r ↔ r ∈ rows ∧ f r = a := by
  constructor
  · intro h
    exact ⟨List.mem_of_find?_eq_some h, by simpa using List.find?_some h⟩
  · rintro ⟨hr, rfl⟩
    cases h : rows.find? fun x => f x = f r with
    | none => simpa using List.find?_eq_none.1 h r hr
    | some x =>
      have hx := List.mem_of_find?_eq_some h
      have hk : f x = f r := by simpa using List.find?_some h
      rw [List.inj_on_of_nodup_map hn hx hr hk]

omit [DecidableEq U] in
theorem find_eq_some {t : Table key uniq} {k : K} {r : Row} :
    t.find k = some r ↔ r ∈ t.rows ∧ key r = k :=
  find?_eq_some_of_nodup t.key_nodup

omit [DecidableEq K] in
theorem findUniq_eq_some {t : Table key uniq} {u : U} {r : Row} :
    t.findUniq u = some r ↔ r ∈ t.rows ∧ uniq r = u :=
  find?_eq_some_of_nodup t.uniq_nodup

omit [DecidableEq U] in
theorem find_eq_none {t : Table key uniq} {k : K} :
    t.find k = none ↔ ∀ r ∈ t.rows, key r ≠ k := by
  simp [find, List.find?_eq_none]

omit [DecidableEq K] in
theorem findUniq_eq_none {t : Table key uniq} {u : U} :
    t.findUniq u = none ↔ ∀ r ∈ t.rows, uniq r ≠ u := by
  simp [findUniq, List.find?_eq_none]

omit [DecidableEq U] in
theorem mem_of_find {t : Table key uniq} {k : K} {r : Row} (h : t.find k = some r) : r ∈ t.rows :=
  (find_eq_some.1 h).1

omit [DecidableEq U] in
theorem key_of_find {t : Table key uniq} {k : K} {r : Row} (h : t.find k = some r) : key r = k :=
  (find_eq_some.1 h).2

omit [DecidableEq U] in
theorem find_of_mem {t : Table key uniq} {r : Row} (h : r ∈ t.rows) : t.find (key r) = some r :=
  find_eq_some.2 ⟨h, rfl⟩

theorem insert_eq_some {t : Table key uniq} {r : Row}
    (hk : t.find (key r) = none) (hu : t.findUniq (uniq r) = none) : ∃ t', t.insert r = some t' := by
  have h : ∀ x ∈ t.rows, key x ≠ key r ∧ uniq x ≠ uniq r := fun x hx =>
    ⟨find_eq_none.1 hk x hx, findUniq_eq_none.1 hu x hx⟩
  exact ⟨_, dif_pos h⟩

theorem rows_insert {t t' : Table key uniq} {r : Row} (h : t.insert r = some t') :
    t'.rows = t.rows ++ [r] ∧ t.find (key r) = none ∧ t.findUniq (uniq r) = none := by
  unfold insert at h
  split at h
  · rename_i hc
    cases h
    exact ⟨rfl, find_eq_none.2 fun x hx => (hc x hx).1, findUniq_eq_none.2 fun x hx => (hc x hx).2⟩
  · cases h

theorem mem_insert {t t' : Table key uniq} {r x : Row} (h : t.insert r = some t')
    (hx : x ∈ t'.rows) : x = r ∨ x ∈ t.rows := by
  rw [(rows_insert h).1, List.mem_append, List.mem_singleton] at hx
  exact hx.symm

theorem mem_update {t t' : Table key uniq} {r x : Row} (h : t.update r = some t')
    (hx : x ∈ t'.rows) : x = r ∨ x ∈ t.rows := by
  unfold update at h
  split at h
  · cases h
    exact .inr hx
  · split at h
    · cases h
      obtain ⟨y, hy, rfl⟩ := List.mem_map.1 hx
      by_cases hk : key y = key r
      · exact .inl (if_pos hk)
      · rw [if_neg hk]
        exact .inr hy
    · cases h

/-- An UPDATE that leaves `f` of its row alone leaves it alone everywhere. -/
theorem map_rows_update {t t' : Table key uniq} {r : Row} {A : Type} {f : Row → A}
    (h : t.update r = some t') (hf : ∀ x ∈ t.rows, key x = key r → f r = f x) :
    t'.rows.map f = t.rows.map f := by
  unfold update at h
  split at h
  · cases h
    rfl
  · split at h
    · cases h
      change (t.rows.map fun x => if key x = key r then r else x).map f = _
      rw [List.map_map]
      refine List.map_congr_left fun x hx => ?_
      by_cases hk : key x = key r
      · simp [hk, hf x hx hk]
      · simp [hk]
    · cases h

theorem find_insert {t t' : Table key uniq} {r : Row} (h : t.insert r = some t') :
    t'.find = Function.update t.find (key r) (some r) := by
  obtain ⟨hrows, hk, _⟩ := rows_insert h
  funext k
  simp only [Function.update_apply]
  split
  · rename_i e
    subst e
    exact find_eq_some.2 ⟨by simp [hrows], rfl⟩
  · rename_i e
    have : ¬ key r = k := fun h => e h.symm
    simp [find, hrows, List.find?_append, this]

theorem find_update {t t' : Table key uniq} {r : Row} (h : t.update r = some t') :
    t'.find = Function.update t.find (key r) ((t.find (key r)).map fun _ => r) := by
  unfold update at h
  split at h
  · rename_i habs
    cases h
    rw [find_eq_none.2 habs, Option.map_none]
    exact (Function.update_eq_self_iff.2 (find_eq_none.2 habs).symm).symm
  · split at h
    · cases h
      funext k
      simp only [Function.update_apply, find, replace]
      induction t.rows with
      | nil => simp
      | cons x xs ih =>
        simp only [List.map_cons, List.find?_cons]
        by_cases hx : key x = key r <;> by_cases hk : k = key r
        · subst hk; simp [hx]
        · have h1 : ¬ key r = k := fun e => hk e.symm
          simpa [hx, h1, hk] using ih
        · subst hk; simpa [hx] using ih
        · by_cases hxk : key x = k
          · simp [hk, hxk]
          · simpa [hx, hk, hxk] using ih
    · cases h

theorem update_eq_some {t : Table key uniq} {r : Row}
    (h : ∀ x, t.findUniq (uniq r) = some x → key x = key r) : ∃ t', t.update r = some t' := by
  unfold update
  split
  · exact ⟨t, rfl⟩
  · have hc : ∀ x ∈ t.rows, key x ≠ key r → uniq x ≠ uniq r := fun x hx hne e =>
      hne (h x (findUniq_eq_some.2 ⟨hx, e⟩))
    exact ⟨_, dif_pos hc⟩

theorem update_eq_some_iff {t : Table key uniq} {r : Row} :
    (∃ t', t.update r = some t') ↔
      t.find (key r) = none ∨ ∀ x, t.findUniq (uniq r) = some x → key x = key r := by
  constructor
  · rintro ⟨t', ht'⟩
    unfold update at ht'
    split at ht'
    · rename_i habsent
      exact .inl (find_eq_none.2 habsent)
    · split at ht'
      · rename_i hfree
        refine .inr fun x hx => ?_
        obtain ⟨hmem, huniq⟩ := findUniq_eq_some.1 hx
        by_contra hne
        exact hfree x hmem hne huniq
      · cases ht'
  · rintro (habsent | hfree)
    · exact ⟨t, if_pos (find_eq_none.1 habsent)⟩
    · exact update_eq_some hfree

omit [DecidableEq U] in
theorem find_erase (t : Table key uniq) (k : K) :
    (t.erase k).find = Function.update t.find k none := by
  funext j
  simp only [Function.update_apply]
  split
  · rename_i e
    subst e
    simp [find_eq_none, erase]
  · rename_i e
    simp only [find, erase, List.find?_filter]
    congr 1
    funext r
    by_cases hr : key r = j
    · simp [hr, e]
    · simp [hr]

theorem findUniq_eq_some_iff_find {t : Table key uniq} {u : U} {r : Row} :
    t.findUniq u = some r ↔ t.find (key r) = some r ∧ uniq r = u := by
  rw [findUniq_eq_some, find_eq_some]
  simp

omit [DecidableEq U] in
theorem mem_erase {t : Table key uniq} {k : K} {x : Row} (h : x ∈ (t.erase k).rows) : x ∈ t.rows :=
  (List.mem_filter.1 h).1

omit [DecidableEq U] in
/-- The row under a key with other columns, both keys as they were. -/
def patch (t : Table key uniq) (k : K) (f : Row → Row) (hk : ∀ r, key (f r) = key r)
    (hu : ∀ r, uniq (f r) = uniq r) : Table key uniq where
  rows := t.rows.map fun r => if key r = k then f r else r
  key_nodup := by
    rw [List.map_map]
    refine (List.map_congr_left fun r _ => ?_) ▸ t.key_nodup
    by_cases h : key r = k <;> simp [h, hk]
  uniq_nodup := by
    rw [List.map_map]
    refine (List.map_congr_left fun r _ => ?_) ▸ t.uniq_nodup
    by_cases h : key r = k <;> simp [h, hu]

omit [DecidableEq U] in
theorem find_patch_self {t : Table key uniq} {k : K} {f : Row → Row}
    {hk : ∀ r, key (f r) = key r} {hu : ∀ r, uniq (f r) = uniq r} {r : Row}
    (h : t.find k = some r) : (t.patch k f hk hu).find k = some (f r) := by
  obtain ⟨hr, hkey⟩ := find_eq_some.1 h
  refine find_eq_some.2 ⟨List.mem_map.2 ⟨r, hr, if_pos hkey⟩, ?_⟩
  rw [hk, hkey]

/-! Tables with one key. -/

section OneKey

omit [DecidableEq U]

/-- INSERT OR REPLACE: the row that was there goes. -/
def put (t : Table key key) (r : Row) : Table key key :=
  have hn : ((t.rows.filter (fun x => key x ≠ key r) ++ [r]).map key).Nodup := by
    have hkept := t.key_nodup.sublist ((List.filter_sublist (p := fun x => key x ≠ key r)).map key)
    rw [List.map_append, List.nodup_append]
    refine ⟨hkept, by simp, ?_⟩
    intro k hk k' hk' e
    obtain ⟨x, hx, rfl⟩ := List.mem_map.1 hk
    simp only [List.map_cons, List.map_nil, List.mem_singleton] at hk'
    simpa [e, hk'] using (List.mem_filter.1 hx).2
  ⟨t.rows.filter (fun x => key x ≠ key r) ++ [r], hn, hn⟩

theorem find_put (t : Table key key) (r : Row) :
    (t.put r).find = Function.update t.find (key r) (some r) := by
  funext k
  simp only [Function.update_apply]
  split
  · rename_i e
    subst e
    exact find_eq_some.2 ⟨by simp [put], rfl⟩
  · rename_i e
    have hr : ¬ key r = k := fun h => e h.symm
    have hkept : ∀ x : Row, (!decide (key x = key r) && decide (key x = k)) = decide (key x = k) := by
      intro x
      by_cases hx : key x = k <;> simp [hx, e]
    simp [find, put, List.find?_append, List.find?_filter, hr, hkept]

theorem mem_put_iff {t : Table key key} {r x : Row} :
    x ∈ (t.put r).rows ↔ x = r ∨ (x ∈ t.rows ∧ key x ≠ key r) := by
  rw [put, List.mem_append, List.mem_filter, List.mem_singleton, decide_eq_true_eq, or_comm]

theorem mem_put {t : Table key key} {r x : Row} (h : x ∈ (t.put r).rows) :
    x = r ∨ x ∈ t.rows := (mem_put_iff.1 h).imp_right And.left

/-- UPDATE of columns outside the key. -/
def modify (t : Table key key) (k : K) (f : Row → Row) (hf : ∀ r, key (f r) = key r) :
    Table key key :=
  have hn : ((t.rows.map fun r => if key r = k then f r else r).map key).Nodup := by
    rw [List.map_map]
    refine (List.map_congr_left fun r _ => ?_) ▸ t.key_nodup
    by_cases h : key r = k <;> simp [h, hf]
  ⟨t.rows.map fun r => if key r = k then f r else r, hn, hn⟩

theorem find_modify (t : Table key key) (k : K) (f : Row → Row) (hf : ∀ r, key (f r) = key r) :
    (t.modify k f hf).find = Function.update t.find k ((t.find k).map f) := by
  funext j
  simp only [find, modify, List.find?_map, Function.comp_def, Function.update_apply]
  have hkey : (fun r => decide (key (if key r = k then f r else r) = j)) =
      fun r => decide (key r = j) := by
    funext r
    by_cases h : key r = k <;> simp [h, hf]
  rw [hkey]
  by_cases hj : j = k
  · subst hj
    rw [if_pos rfl]
    cases h : t.rows.find? fun r => decide (key r = j) with
    | none => rfl
    | some r =>
      have hr : key r = j := by simpa using List.find?_some h
      simp [hr]
  · rw [if_neg hj]
    cases h : t.rows.find? fun r => decide (key r = j) with
    | none => rfl
    | some r =>
      have hr : key r = j := by simpa using List.find?_some h
      simp [hr, hj]

theorem mem_modify {t : Table key key} {k : K} {f : Row → Row} {hf : ∀ r, key (f r) = key r}
    {x : Row} (h : x ∈ (t.modify k f hf).rows) : x ∈ t.rows ∨ ∃ r ∈ t.rows, x = f r := by
  obtain ⟨r, hr, rfl⟩ := List.mem_map.1 h
  split
  · exact .inr ⟨r, hr, rfl⟩
  · exact .inl hr

end OneKey

end Table
end TgCryptFs.Library

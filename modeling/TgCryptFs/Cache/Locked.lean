import Mathlib.Algebra.GroupWithZero.Nat
import TgCryptFs.Cache.BlockCache

set_option autoImplicit false

/-!
# The cache under its lock

What `put`, `get`, `remove` and `clear` do while they hold the lock. A subtraction from the
current size that would go below zero panics, and then the section has no result. A file
that cannot be removed stays, and nobody is told. Sums have no upper bound: what they count is
on disk.
-/
namespace TgCryptFs.BlockCache

/-- `let _ = std::fs::remove_file(..)`. -/
def tryRemoveFile (removable : Bytes → Bool) (c : BlockCache) (rid : Bytes) : BlockCache :=
  if removable rid then c.removeFile rid else c

namespace Locked

variable (removable : Bytes → Bool)

/-- The entry leaves the index, its size the current size, and its file the directory. -/
def drop (e : CacheEntry) (c : BlockCache) : Option BlockCache :=
  if e.size ≤ c.currentSize then
    some (tryRemoveFile removable
      { c with
        entries := c.entries.filter (·.rid ≠ e.rid)
        currentSize := c.currentSize - e.size } e.rid)
  else none

/-- At most one round per entry. -/
def evictLoop (neededSize : ℕ) : ℕ → BlockCache → Option BlockCache
  | 0, c => some c
  | fuel + 1, c =>
    if c.currentSize + neededSize > c.maxSize then
      match lru c.entries with
      | none => some c
      | some e =>
        match drop removable e c with
        | none => none
        | some c => evictLoop neededSize fuel c
    else some c

def evictIfNeeded (neededSize : ℕ) (c : BlockCache) : Option BlockCache :=
  evictLoop removable neededSize c.entries.length c

/-- The second section of `put`. -/
def index (rid : Bytes) (size : ℕ) (c : BlockCache) : Option BlockCache :=
  if (c.entries.find? (·.rid = rid)).elim 0 (·.size) ≤ c.currentSize then some (c.index rid size)
  else none

def remove (rid : Bytes) (c : BlockCache) : Option BlockCache :=
  match c.entries.find? (·.rid = rid) with
  | some e => drop removable e c
  | none => some c

def clear (c : BlockCache) : BlockCache :=
  { c.entries.foldl (fun c e => tryRemoveFile removable c e.rid) c with
    entries := []
    currentSize := 0
    hits := 0
    misses := 0 }

end Locked

/-- The sizes of the index entries together. -/
def indexed (c : BlockCache) : ℕ := (c.entries.map (·.size)).sum

/-- A block has one entry, and the current size is the size of the entries. -/
structure Exact (c : BlockCache) : Prop where
  rids : (c.entries.map (·.rid)).Nodup
  size : c.currentSize = c.indexed

/-! ## The index -/

theorem sum_filter_rid {entries : List CacheEntry} (h : (entries.map (·.rid)).Nodup)
    {e : CacheEntry} (he : e ∈ entries) :
    ((entries.filter (·.rid ≠ e.rid)).map (·.size)).sum + e.size =
      (entries.map (·.size)).sum := by
  induction entries with
  | nil => cases he
  | cons x xs ih =>
    rw [List.map_cons, List.nodup_cons] at h
    by_cases hx : x.rid = e.rid
    · have hrest : xs.filter (·.rid ≠ e.rid) = xs := by
        apply List.filter_eq_self.2
        intro y hy
        have hne : y.rid ≠ x.rid := fun hyx => h.1 (hyx ▸ List.mem_map_of_mem hy)
        simpa [← hx] using hne
      have hself : x = e := by
        rcases List.mem_cons.1 he with rfl | hmem
        · rfl
        · exact absurd (hx ▸ List.mem_map_of_mem hmem) h.1
      subst hself
      rw [List.filter_cons_of_neg (by simp), hrest, List.map_cons, List.sum_cons]
      omega
    · have hmem : e ∈ xs := (List.mem_cons.1 he).resolve_left fun hxe => hx (hxe ▸ rfl)
      have hrest := ih h.2 hmem
      rw [List.filter_cons_of_pos (by simpa using hx), List.map_cons, List.map_cons, List.sum_cons,
        List.sum_cons]
      omega

theorem filter_rid_of_absent {entries : List CacheEntry} {rid : Bytes}
    (h : entries.find? (·.rid = rid) = none) : entries.filter (·.rid ≠ rid) = entries := by
  apply List.filter_eq_self.2
  intro e he
  simpa using List.find?_eq_none.1 h e he

theorem length_filter_rid_lt {entries : List CacheEntry} {e : CacheEntry} (he : e ∈ entries) :
    (entries.filter (·.rid ≠ e.rid)).length < entries.length :=
  List.length_filter_lt_length_iff_exists.2 ⟨e, he, by simp⟩

theorem found {entries : List CacheEntry} {rid : Bytes} {e : CacheEntry}
    (h : entries.find? (·.rid = rid) = some e) : e ∈ entries ∧ e.rid = rid :=
  ⟨List.mem_of_find?_eq_some h, by simpa using List.find?_some h⟩

theorem lru_eq_none {entries : List CacheEntry} : lru entries = none ↔ entries = [] := by
  cases entries with
  | nil => simp [lru]
  | cons x xs =>
    rw [lru]
    cases lru xs with
    | none => simp
    | some m =>
      dsimp only
      split <;> simp

theorem mem_of_lru {entries : List CacheEntry} {e : CacheEntry} (h : lru entries = some e) :
    e ∈ entries ∧ ∀ x ∈ entries, e.accessOrder ≤ x.accessOrder := by
  induction entries generalizing e with
  | nil => cases h
  | cons x xs ih =>
    rw [lru] at h
    cases hm : lru xs with
    | none =>
      rw [hm] at h
      cases h
      rw [lru_eq_none.1 hm]
      simp
    | some m =>
      obtain ⟨hmem, hleast⟩ := ih hm
      rw [hm] at h
      dsimp only at h
      split at h
      · rename_i hlt
        cases h
        refine ⟨List.mem_cons_of_mem _ hmem, fun y hy => ?_⟩
        rcases List.mem_cons.1 hy with rfl | hy
        · omega
        · exact hleast y hy
      · rename_i hle
        cases h
        refine ⟨List.mem_cons_self, fun y hy => ?_⟩
        rcases List.mem_cons.1 hy with rfl | hy
        · exact Nat.le_refl _
        · have := hleast y hy
          omega

theorem contains_iff {c : BlockCache} {rid : Bytes} :
    c.contains rid = true ↔ ∃ e ∈ c.entries, e.rid = rid := by
  simp [contains]

theorem any_filter_rid (entries : List CacheEntry) (rid r : Bytes) :
    (entries.filter (·.rid ≠ rid)).any (·.rid = r) = (r ≠ rid && entries.any (·.rid = r)) := by
  rw [List.any_filter]
  by_cases hr : r = rid
  · subst hr
    simp
  · simp only [ne_eq, hr, not_false_eq_true, decide_true, Bool.true_and]
    congr 1
    funext x
    by_cases hx : x.rid = r <;> simp [hx, hr]

theorem find_eq_none_iff {c : BlockCache} {rid : Bytes} :
    c.entries.find? (·.rid = rid) = none ↔ c.contains rid = false := by
  simp [contains, List.find?_eq_none]

/-! ## Files -/

theorem readFile_tryRemoveFile (removable : Bytes → Bool) (c : BlockCache) (rid r : Bytes) :
    (tryRemoveFile removable c rid).readFile r =
      if r = rid ∧ removable rid = true then none else c.readFile r := by
  unfold tryRemoveFile
  by_cases hyes : removable rid = true
  · rw [if_pos hyes]
    simp only [removeFile, readFile, List.find?_filter]
    by_cases hr : r = rid
    · subst hr
      simp [hyes]
    · rw [if_neg fun h => hr h.1]
      congr 2
      funext x
      by_cases hx : x.1 = r <;> simp [hx, hr]
  · rw [if_neg hyes, if_neg fun h => hyes h.2]

section

variable (removable : Bytes → Bool) (c : BlockCache) (rid : Bytes)

@[simp] theorem entries_tryRemoveFile : (tryRemoveFile removable c rid).entries = c.entries := by
  unfold tryRemoveFile
  split <;> rfl

@[simp] theorem currentSize_tryRemoveFile :
    (tryRemoveFile removable c rid).currentSize = c.currentSize := by
  unfold tryRemoveFile
  split <;> rfl

@[simp] theorem maxSize_tryRemoveFile : (tryRemoveFile removable c rid).maxSize = c.maxSize := by
  unfold tryRemoveFile
  split <;> rfl

@[simp] theorem encryptAtRest_tryRemoveFile :
    (tryRemoveFile removable c rid).encryptAtRest = c.encryptAtRest := by
  unfold tryRemoveFile
  split <;> rfl

@[simp] theorem cacheKey_tryRemoveFile :
    (tryRemoveFile removable c rid).cacheKey = c.cacheKey := by
  unfold tryRemoveFile
  split <;> rfl

@[simp] theorem accessCounter_tryRemoveFile :
    (tryRemoveFile removable c rid).accessCounter = c.accessCounter := by
  unfold tryRemoveFile
  split <;> rfl

end

/-- `c'` has lost entries of `c` and their files, as far as these could be removed. -/
structure Lost (removable : Bytes → Bool) (c c' : BlockCache) : Prop extends Shrunk c c' where
  maxSize : c'.maxSize = c.maxSize
  accessCounter : c'.accessCounter = c.accessCounter
  entries : c'.entries.Sublist c.entries
  kept : ∀ r, c'.contains r = true ∨ c.contains r = false → c'.readFile r = c.readFile r
  gone : ∀ r, c.contains r = true → c'.contains r = false → removable r = true →
    c'.readFile r = none

theorem Lost.refl (removable : Bytes → Bool) (c : BlockCache) : Lost removable c c where
  toShrunk := Shrunk.refl c
  maxSize := rfl
  accessCounter := rfl
  entries := List.Sublist.refl _
  kept _ _ := rfl
  gone r h h' := by
    rw [h] at h'
    cases h'

theorem Lost.trans {removable : Bytes → Bool} {a b c : BlockCache} (h : Lost removable a b)
    (h' : Lost removable b c) : Lost removable a c where
  toShrunk := h.toShrunk.trans h'.toShrunk
  maxSize := h'.maxSize.trans h.maxSize
  accessCounter := h'.accessCounter.trans h.accessCounter
  entries := h'.entries.trans h.entries
  kept r hr := by
    rcases hr with hr | hr
    · rw [h'.kept r (.inl hr), h.kept r (.inl (h'.contains r hr))]
    · have hb : b.contains r = false := by
        by_contra hb
        rw [h.contains r (by simpa using hb)] at hr
        cases hr
      rw [h'.kept r (.inr hb), h.kept r (.inr hr)]
  gone r ha hc hr := by
    cases hb : b.contains r with
    | true => exact h'.gone r hb hc hr
    | false => rw [h'.kept r (.inr hb), h.gone r ha hb hr]

/-! ## The sections -/

namespace Locked

variable {removable : Bytes → Bool} {c : BlockCache}

theorem lost_drop {c' : BlockCache} {e : CacheEntry} (he : e ∈ c.entries)
    (h : drop removable e c = some c') : Lost removable c c' := by
  unfold drop at h
  split at h
  · cases h
    have hcontains : ∀ r, (tryRemoveFile removable
        { c with
          entries := c.entries.filter (·.rid ≠ e.rid)
          currentSize := c.currentSize - e.size } e.rid).contains r =
        (r ≠ e.rid && c.contains r) := by
      intro r
      unfold contains
      rw [entries_tryRemoveFile, any_filter_rid]
    have hself : c.contains e.rid = true := contains_iff.2 ⟨e, he, rfl⟩
    refine ⟨⟨by simp, by simp, fun r raw hr => ?_, fun r hr => ?_⟩, by simp, by simp, ?_,
      fun r hr => ?_, fun r hr hr' hyes => ?_⟩
    · rw [readFile_tryRemoveFile] at hr
      split at hr
      · cases hr
      · exact hr
    · rw [hcontains, Bool.and_eq_true] at hr
      exact hr.2
    · rw [entries_tryRemoveFile]
      exact List.filter_sublist
    · have hne : r ≠ e.rid := by
        rintro rfl
        rw [hcontains] at hr
        simp [hself] at hr
      rw [readFile_tryRemoveFile, if_neg fun heq => hne heq.1]
      rfl
    · have heq : r = e.rid := by
        rw [hcontains, hr] at hr'
        simpa using hr'
      rw [readFile_tryRemoveFile, if_pos ⟨heq, heq ▸ hyes⟩]
  · cases h

theorem exists_drop (removable : Bytes → Bool) (hc : c.Exact) {e : CacheEntry} (he : e ∈ c.entries) :
    ∃ c', drop removable e c = some c' ∧ c'.entries = c.entries.filter (·.rid ≠ e.rid) ∧
      c'.Exact ∧ Lost removable c c' := by
  have hsum := sum_filter_rid hc.rids he
  have hsize := hc.size
  unfold indexed at hsize
  have hdrop : drop removable e c = some _ := if_pos (by omega)
  refine ⟨_, hdrop, by simp, ⟨?_, ?_⟩, lost_drop he hdrop⟩
  · rw [entries_tryRemoveFile]
    exact hc.rids.sublist (List.filter_sublist.map _)
  · unfold indexed
    rw [entries_tryRemoveFile, currentSize_tryRemoveFile]
    dsimp only
    omega

theorem exists_evictLoop (neededSize fuel : ℕ) (hc : c.Exact) (hfuel : c.entries.length ≤ fuel) :
    ∃ c', evictLoop removable neededSize fuel c = some c' ∧ c'.Exact ∧ Lost removable c c' ∧
      (c'.currentSize + neededSize ≤ c'.maxSize ∨ c'.entries = []) := by
  induction fuel generalizing c with
  | zero =>
    exact ⟨c, rfl, hc, .refl removable c, .inr (List.eq_nil_of_length_eq_zero (by omega))⟩
  | succ fuel ih =>
    rw [evictLoop]
    split
    · cases he : lru c.entries with
      | none => exact ⟨c, rfl, hc, .refl removable c, .inr (lru_eq_none.1 he)⟩
      | some e =>
        have hmem := (mem_of_lru he).1
        obtain ⟨d, hdrop, hentries, hd, hlost⟩ := exists_drop removable hc hmem
        have hshorter : d.entries.length ≤ fuel := by
          have hlt := length_filter_rid_lt hmem
          rw [hentries]
          omega
        obtain ⟨c', hloop, hc', hlost', hexit⟩ := ih hd hshorter
        dsimp only
        rw [hdrop]
        exact ⟨c', hloop, hc', hlost.trans hlost', hexit⟩
    · rename_i hfits
      exact ⟨c, rfl, hc, .refl removable c, .inl (by omega)⟩

theorem exists_evictIfNeeded (removable : Bytes → Bool) (neededSize : ℕ) (hc : c.Exact) :
    ∃ c', evictIfNeeded removable neededSize c = some c' ∧ c'.Exact ∧ Lost removable c c' ∧
      (c'.currentSize + neededSize ≤ c'.maxSize ∨ c'.entries = []) :=
  exists_evictLoop neededSize _ hc (Nat.le_refl _)

theorem exists_remove (removable : Bytes → Bool) (rid : Bytes) (hc : c.Exact) :
    ∃ c', remove removable rid c = some c' ∧ c'.Exact ∧ Lost removable c c' ∧
      c'.contains rid = false := by
  unfold remove
  cases he : c.entries.find? (·.rid = rid) with
  | none => exact ⟨c, rfl, hc, .refl removable c, find_eq_none_iff.1 he⟩
  | some e =>
    obtain ⟨hmem, rfl⟩ := found he
    obtain ⟨c', hdrop, hentries, hc', hlost⟩ := exists_drop removable hc hmem
    refine ⟨c', hdrop, hc', hlost, ?_⟩
    unfold contains
    rw [hentries, any_filter_rid]
    simp

theorem nodup_index (c : BlockCache) (rid : Bytes) (size : ℕ)
    (h : (c.entries.map (·.rid)).Nodup) : ((c.index rid size).entries.map (·.rid)).Nodup := by
  change (rid :: (c.entries.filter (·.rid ≠ rid)).map (·.rid)).Nodup
  refine List.nodup_cons.2 ⟨fun hmem => ?_, h.sublist (List.filter_sublist.map _)⟩
  obtain ⟨e, he, heq⟩ := List.mem_map.1 hmem
  have hne := (List.mem_filter.1 he).2
  simp [heq] at hne

/-- The sizes of the entries of other blocks. -/
def others (c : BlockCache) (rid : Bytes) : ℕ :=
  ((c.entries.filter (·.rid ≠ rid)).map (·.size)).sum

theorem others_add (hc : c.Exact) (rid : Bytes) :
    others c rid + (c.entries.find? (·.rid = rid)).elim 0 (·.size) = c.currentSize := by
  rw [hc.size]
  unfold others indexed
  cases he : c.entries.find? (·.rid = rid) with
  | none =>
    rw [filter_rid_of_absent he]
    rfl
  | some e =>
    obtain ⟨hmem, rfl⟩ := found he
    exact sum_filter_rid hc.rids hmem

theorem exists_index (rid : Bytes) (size : ℕ) (hc : c.Exact) :
    index rid size c = some (c.index rid size) ∧ (c.index rid size).Exact ∧
      (c.index rid size).currentSize = others c rid + size := by
  have hsum := others_add hc rid
  have hsize : (c.index rid size).currentSize = others c rid + size := by
    change c.currentSize - _ + size = _
    omega
  refine ⟨if_pos (by omega), ⟨nodup_index c rid size hc.rids, ?_⟩, hsize⟩
  rw [hsize]
  unfold indexed others
  change _ = (size :: (c.entries.filter (·.rid ≠ rid)).map (·.size)).sum
  rw [List.sum_cons, Nat.add_comm]

end Locked

theorem Exact.touch {c : BlockCache} (hc : c.Exact) (rid : Bytes) : (c.touch rid).Exact := by
  have hrids : (c.touch rid).entries.map (·.rid) = c.entries.map (·.rid) := by
    unfold BlockCache.touch
    split
    · rw [List.map_map]
      apply List.map_congr_left
      intro e _
      by_cases h : e.rid = rid <;> simp [h]
    · rfl
  have hsizes : (c.touch rid).entries.map (·.size) = c.entries.map (·.size) := by
    unfold BlockCache.touch
    split
    · rw [List.map_map]
      apply List.map_congr_left
      intro e _
      by_cases h : e.rid = rid <;> simp [h]
    · rfl
  refine ⟨hrids ▸ hc.rids, ?_⟩
  unfold indexed
  rw [hsizes]
  have hsame : (c.touch rid).currentSize = c.currentSize := by
    unfold BlockCache.touch
    split <;> rfl
  rw [hsame]
  exact hc.size

namespace Locked

variable {removable : Bytes → Bool} {c : BlockCache}

theorem exact_clear (c : BlockCache) : (clear removable c).Exact := ⟨List.nodup_nil, rfl⟩

/-- The files of some entries, and nothing else. -/
theorem foldl_tryRemoveFile (removable : Bytes → Bool) (es : List CacheEntry) (c : BlockCache) :
    (∀ r, (es.foldl (fun c e => tryRemoveFile removable c e.rid) c).readFile r =
      if es.any (·.rid = r) = true ∧ removable r = true then none else c.readFile r) ∧
    (es.foldl (fun c e => tryRemoveFile removable c e.rid) c).maxSize = c.maxSize ∧
    (es.foldl (fun c e => tryRemoveFile removable c e.rid) c).encryptAtRest = c.encryptAtRest ∧
    (es.foldl (fun c e => tryRemoveFile removable c e.rid) c).cacheKey = c.cacheKey ∧
    (es.foldl (fun c e => tryRemoveFile removable c e.rid) c).accessCounter = c.accessCounter := by
  induction es generalizing c with
  | nil => simp
  | cons e es ih =>
    obtain ⟨hread, hmax, hrest, hkey, hcounter⟩ := ih (tryRemoveFile removable c e.rid)
    rw [List.foldl_cons]
    refine ⟨fun r => ?_, by simp [hmax], by simp [hrest], by simp [hkey], by simp [hcounter]⟩
    rw [hread, readFile_tryRemoveFile, List.any_cons]
    by_cases hr : e.rid = r
    · subst hr
      by_cases hyes : removable e.rid = true <;> simp [hyes]
    · have hne : ¬ r = e.rid := fun h => hr h.symm
      simp [hr, hne]

theorem lost_clear (removable : Bytes → Bool) (c : BlockCache) :
    Lost removable c (clear removable c) := by
  obtain ⟨hread, hmax, hrest, hkey, hcounter⟩ := foldl_tryRemoveFile removable c.entries c
  have hread' : ∀ r, (clear removable c).readFile r =
      if c.contains r = true ∧ removable r = true then none else c.readFile r := hread
  refine ⟨⟨hrest, hkey, fun r raw hr => ?_, fun r hr => ?_⟩, hmax, hcounter,
    List.nil_sublist _, fun r hr => ?_, fun r hr _ hyes => ?_⟩
  · rw [hread'] at hr
    split at hr
    · cases hr
    · exact hr
  · cases hr
  · have hnot : c.contains r = false := hr.resolve_left fun h => by cases h
    rw [hread', if_neg]
    simp [hnot]
  · rw [hread', if_pos ⟨hr, hyes⟩]

/-! ## Where every file can be removed -/

theorem drop_eq (hc : c.Exact) {e : CacheEntry} (he : e ∈ c.entries) :
    drop (fun _ => true) e c = some (c.evictOne e) := by
  obtain ⟨c', hdrop, -⟩ := exists_drop (fun _ => true) hc he
  rw [hdrop]
  unfold drop at hdrop
  split at hdrop
  · cases hdrop
    rfl
  · cases hdrop

theorem evictLoop_eq (neededSize fuel : ℕ) (hc : c.Exact) :
    evictLoop (fun _ => true) neededSize fuel c = some (BlockCache.evictLoop neededSize fuel c) := by
  induction fuel generalizing c with
  | zero => rfl
  | succ fuel ih =>
    rw [evictLoop, BlockCache.evictLoop]
    split
    · cases he : lru c.entries with
      | none => rfl
      | some e =>
        have hmem := (mem_of_lru he).1
        have hdrop := drop_eq hc hmem
        obtain ⟨d, hd, -, hexact, -⟩ := exists_drop (fun _ => true) hc hmem
        obtain rfl : d = c.evictOne e := Option.some.inj (hd.symm.trans hdrop)
        dsimp only
        rw [hdrop]
        exact ih hexact
    · rfl

theorem evictIfNeeded_eq (neededSize : ℕ) (hc : c.Exact) :
    evictIfNeeded (fun _ => true) neededSize c = some (c.evictIfNeeded neededSize) :=
  evictLoop_eq neededSize _ hc

end Locked
end TgCryptFs.BlockCache

import TgCryptFs.Cache.SharedCache
import TgCryptFs.Library.Recency

set_option autoImplicit false

/-!
# What eviction keeps

Beside the cache, the number of the event in which each block was last stored or found. The
access counters order the entries in the same way, and no two are equal, so that the scan for
the lowest one finds the entry that was used first.
-/
namespace TgCryptFs
open Library

structure UsedCache (τ : Type) where
  shared : SharedCache τ
  clock : ℕ
  lastUse : Bytes → ℕ

/-- The block that an event puts into the index or finds there. -/
def CacheEvent.uses {τ : Type} (e : CacheEvent τ) (s : SharedCache τ) : Option Bytes :=
  match e with
  | .index t =>
    match s.pc t with
    | .indexing rid _ _ => some rid
    | _ => none
  | .get t rid => if s.pc t = .idle ∧ s.cache.contains rid = true then some rid else none
  | _ => none

theorem uses_of_not_follows {τ : Type} {e : CacheEvent τ} {s : SharedCache τ}
    (h : e.follows (s.pc e.thread) = false) : e.uses s = none := by
  cases e with
  | index t =>
    rw [CacheEvent.uses]
    split
    · rename_i hpc
      rw [CacheEvent.thread, hpc] at h
      cases h
    · rfl
  | get t rid =>
    apply if_neg
    rintro ⟨hpc, -⟩
    rw [CacheEvent.thread, hpc] at h
    cases h
  | _ => rfl

/-- The access counters order the entries as their last uses do. -/
structure UseOrder (entries : List CacheEntry) (counter clock : ℕ) (lastUse : Bytes → ℕ) : Prop where
  counter : ∀ e ∈ entries, e.accessOrder ≤ counter
  clock : ∀ e ∈ entries, lastUse e.rid < clock
  order : ∀ x ∈ entries, ∀ y ∈ entries,
    (x.accessOrder ≤ y.accessOrder ↔ lastUse x.rid ≤ lastUse y.rid)
  distinct : ∀ x ∈ entries, ∀ y ∈ entries, x.accessOrder = y.accessOrder → x.rid = y.rid

namespace UseOrder

variable {entries entries' : List CacheEntry} {counter counter' clock : ℕ} {lastUse : Bytes → ℕ}

theorem mono (h : UseOrder entries counter clock lastUse) (hsub : ∀ e ∈ entries', e ∈ entries)
    (hcounter : counter ≤ counter') : UseOrder entries' counter' (clock + 1) lastUse where
  counter e he := (h.counter e (hsub e he)).trans hcounter
  clock e he := Nat.lt_succ_of_lt (h.clock e (hsub e he))
  order x hx y hy := h.order x (hsub x hx) y (hsub y hy)
  distinct x hx y hy := h.distinct x (hsub x hx) y (hsub y hy)

/-- The entry that is used gets the next counter. -/
theorem used (h : UseOrder entries counter clock lastUse) {rid : Bytes}
    (hnew : ∀ e ∈ entries', e.rid = rid ∧ e.accessOrder = counter + 1 ∨ e ∈ entries ∧ e.rid ≠ rid) :
    UseOrder entries' (counter + 1) (clock + 1) (Function.update lastUse rid clock) := by
  have hself : ∀ e : CacheEntry, e.rid = rid → Function.update lastUse rid clock e.rid = clock := by
    rintro e rfl
    exact Function.update_self _ _ _
  have hother : ∀ e : CacheEntry, e.rid ≠ rid →
      Function.update lastUse rid clock e.rid = lastUse e.rid :=
    fun e he => Function.update_of_ne he _ _
  constructor
  · intro e he
    rcases hnew e he with ⟨-, heq⟩ | ⟨hold, -⟩
    · omega
    · have := h.counter e hold
      omega
  · intro e he
    rcases hnew e he with ⟨hrid, -⟩ | ⟨hold, hrid⟩
    · rw [hself e hrid]
      omega
    · rw [hother e hrid]
      have := h.clock e hold
      omega
  · intro x hx y hy
    rcases hnew x hx with ⟨hxr, hxo⟩ | ⟨hxold, hxr⟩
    · rcases hnew y hy with ⟨hyr, hyo⟩ | ⟨hyold, hyr⟩
      · rw [hself x hxr, hself y hyr]
        omega
      · rw [hself x hxr, hother y hyr]
        have hcounter := h.counter y hyold
        have hclock := h.clock y hyold
        omega
    · rcases hnew y hy with ⟨hyr, hyo⟩ | ⟨hyold, hyr⟩
      · rw [hother x hxr, hself y hyr]
        have hcounter := h.counter x hxold
        have hclock := h.clock x hxold
        omega
      · rw [hother x hxr, hother y hyr]
        exact h.order x hxold y hyold
  · intro x hx y hy heq
    rcases hnew x hx with ⟨hxr, hxo⟩ | ⟨hxold, hxr⟩
    · rcases hnew y hy with ⟨hyr, hyo⟩ | ⟨hyold, hyr⟩
      · rw [hxr, hyr]
      · have hcounter := h.counter y hyold
        omega
    · rcases hnew y hy with ⟨hyr, hyo⟩ | ⟨hyold, hyr⟩
      · have hcounter := h.counter x hxold
        omega
      · exact h.distinct x hxold y hyold heq

end UseOrder

theorem mem_index {c : BlockCache} {rid : Bytes} {size : ℕ} {e : CacheEntry}
    (he : e ∈ (c.index rid size).entries) :
    e.rid = rid ∧ e.accessOrder = c.accessCounter + 1 ∨ e ∈ c.entries ∧ e.rid ≠ rid := by
  rcases List.mem_cons.1 he with rfl | he
  · exact .inl ⟨rfl, rfl⟩
  · obtain ⟨hmem, hne⟩ := List.mem_filter.1 he
    exact .inr ⟨hmem, by simpa using hne⟩

theorem mem_touch {c : BlockCache} {rid : Bytes} (hfound : c.contains rid = true) {e : CacheEntry}
    (he : e ∈ (c.touch rid).entries) :
    e.rid = rid ∧ e.accessOrder = c.accessCounter + 1 ∨ e ∈ c.entries ∧ e.rid ≠ rid := by
  rw [BlockCache.touch, if_pos hfound] at he
  obtain ⟨x, hx, rfl⟩ := List.mem_map.1 he
  by_cases hrid : x.rid = rid
  · exact .inl (by simp [hrid])
  · exact .inr (by simp [hrid, hx])

namespace UsedCache

variable {τ : Type} [DecidableEq τ] [Primitives]

def new (c : BlockCache) : UsedCache τ := ⟨.new c, 0, fun _ => 0⟩

def step (e : CacheEvent τ) (u : UsedCache τ) : UsedCache τ where
  shared := u.shared.step e
  clock := u.clock + 1
  lastUse :=
    match e.uses u.shared with
    | some rid => Function.update u.lastUse rid u.clock
    | none => u.lastUse

/-- The access counters know the history. -/
structure Remembers (u : UsedCache τ) : Prop where
  sound : u.shared.Sound
  order : UseOrder u.shared.cache.entries u.shared.cache.accessCounter u.clock u.lastUse

theorem remembers_step {u : UsedCache τ} (h : u.Remembers) (e : CacheEvent τ) :
    (step e u).Remembers := by
  refine ⟨SharedCache.sound_step h.sound e, ?_⟩
  have heffect := SharedCache.effect_step h.sound e
  unfold step
  dsimp only
  generalize hs : u.shared.step e = s' at heffect
  cases heffect with
  | ignored hno =>
    rw [uses_of_not_follows hno]
    exact h.order.mono (fun _ he => he) (Nat.le_refl _)
  | unsealed => exact h.order.mono (fun _ he => he) (Nat.le_refl _)
  | called => exact h.order.mono (fun _ he => he) (Nat.le_refl _)
  | evicted hpc hevict hexact hlost =>
    exact h.order.mono (fun _ he => hlost.entries.subset he) (Nat.le_of_eq hlost.accessCounter.symm)
  | wrote => exact h.order.mono (fun _ he => he) (Nat.le_refl _)
  | cut => exact h.order.mono (fun _ he => he) (Nat.le_refl _)
  | refused => exact h.order.mono (fun _ he => he) (Nat.le_refl _)
  | indexed hpc =>
    simp only [CacheEvent.uses, hpc]
    exact h.order.used fun _ he => mem_index he
  | touched hpc =>
    rename_i t rid
    by_cases hfound : u.shared.cache.contains rid = true
    · have huses : CacheEvent.uses (.get t rid) u.shared = some rid := if_pos ⟨hpc, hfound⟩
      have hcounter : (u.shared.cache.touch rid).accessCounter =
          u.shared.cache.accessCounter + 1 := by
        rw [BlockCache.touch, if_pos hfound]
      rw [huses]
      dsimp only
      rw [hcounter]
      exact h.order.used fun _ he => mem_touch hfound he
    · have huses : CacheEvent.uses (.get t rid) u.shared = none := if_neg fun hh => hfound hh.2
      have hentries : (u.shared.cache.touch rid).entries = u.shared.cache.entries := by
        rw [BlockCache.touch, if_neg hfound]
      have hcounter : u.shared.cache.accessCounter ≤ (u.shared.cache.touch rid).accessCounter := by
        rw [BlockCache.touch, if_neg hfound]
        exact Nat.le_succ _
      rw [huses]
      exact h.order.mono (fun _ he => hentries ▸ he) hcounter
  | finished => exact h.order.mono (fun _ he => he) (Nat.le_refl _)
  | removed hpc hexact hlost =>
    exact h.order.mono (fun _ he => hlost.entries.subset he) (Nat.le_of_eq hlost.accessCounter.symm)
  | cleared hpc =>
    exact h.order.mono nofun (Nat.le_of_eq
      (BlockCache.Locked.lost_clear _ u.shared.cache).accessCounter.symm)

theorem remembers_runs {admitted : CacheEvent τ → UsedCache τ → Prop} {maxSize : ℕ}
    {encryptAtRest : Bool} {cacheKey : Bytes} {disk : List (Bytes × Bytes)} {u : UsedCache τ}
    (h : Runs step admitted (new (.new maxSize encryptAtRest cacheKey disk)) u) : u.Remembers := by
  refine h.invariant Remembers ⟨SharedCache.sound_new _ _ _ _, ?_⟩ fun e _ hu _ =>
    remembers_step hu e
  exact ⟨nofun, nofun, nofun, nofun⟩

end UsedCache

/-! ## Eviction -/

theorem toFinset_filter_rid {entries : List CacheEntry} (h : (entries.map (·.rid)).Nodup)
    {e : CacheEntry} (he : e ∈ entries) :
    (entries.filter (·.rid ≠ e.rid)).toFinset = entries.toFinset.erase e := by
  ext x
  rw [List.mem_toFinset, List.mem_filter, Finset.mem_erase, List.mem_toFinset]
  constructor
  · rintro ⟨hx, hne⟩
    refine ⟨?_, hx⟩
    rintro rfl
    simp at hne
  · rintro ⟨hne, hx⟩
    refine ⟨hx, decide_eq_true fun hrid => hne ?_⟩
    exact List.inj_on_of_nodup_map h hx he hrid

theorem sum_sizes {c : BlockCache} (hc : c.Exact) :
    ∑ e ∈ c.entries.toFinset, e.size = c.currentSize := by
  rw [List.sum_toFinset _ hc.rids.of_map, hc.size]
  rfl

/-- The loop ends with the most recent entries that fit. -/
theorem isGreatest_evictLoop {removable : Bytes → Bool} {neededSize fuel : ℕ} {c c' : BlockCache}
    (hc : c.Exact) (hfuel : c.entries.length ≤ fuel)
    (hdistinct : ∀ x ∈ c.entries, ∀ y ∈ c.entries, x.accessOrder = y.accessOrder → x.rid = y.rid)
    (h : BlockCache.Locked.evictLoop removable neededSize fuel c = some c') :
    IsGreatest (RecentFits CacheEntry.accessOrder CacheEntry.size c.maxSize neededSize
      c.entries.toFinset) c'.entries.toFinset := by
  induction fuel generalizing c with
  | zero =>
    obtain rfl : c = c' := Option.some.inj h
    have hnil : c.entries = [] := List.eq_nil_of_length_eq_zero (by omega)
    exact isGreatest_all (.inl (by rw [hnil]; rfl))
  | succ fuel ih =>
    rw [BlockCache.Locked.evictLoop] at h
    split at h
    · rename_i hover
      cases he : BlockCache.lru c.entries with
      | none =>
        rw [he] at h
        obtain rfl : c = c' := Option.some.inj h
        exact isGreatest_all (.inl (by rw [BlockCache.lru_eq_none.1 he]; rfl))
      | some e =>
        obtain ⟨hmem, hleast⟩ := BlockCache.mem_of_lru he
        obtain ⟨d, hdrop, hentries, hd, hlost⟩ :=
          BlockCache.Locked.exists_drop removable hc hmem
        rw [he] at h
        dsimp only at h
        rw [hdrop] at h
        have hsub : ∀ x ∈ d.entries, x ∈ c.entries := fun x hx => hlost.entries.subset hx
        have hshorter : d.entries.length ≤ fuel := by
          have hlt := BlockCache.length_filter_rid_lt hmem
          rw [hentries]
          omega
        have hrest := ih hd hshorter (fun x hx y hy => hdistinct x (hsub x hx) y (hsub y hy)) h
        rw [hlost.maxSize, hentries, toFinset_filter_rid hc.rids hmem] at hrest
        refine isGreatest_of_erase (List.mem_toFinset.2 hmem) (fun y hy hne => ?_) ?_ hrest
        · rw [List.mem_toFinset] at hy
          refine Nat.lt_of_le_of_ne (hleast y hy) fun heq => hne ?_
          exact List.inj_on_of_nodup_map hc.rids hy hmem (hdistinct e hmem y hy heq).symm
        · rw [sum_sizes hc]
          exact hover
    · obtain rfl : c = c' := Option.some.inj h
      refine isGreatest_all (.inr ?_)
      rw [sum_sizes hc]
      omega

/-- In every history eviction ends, and keeps of the entries, ordered by their last use, the
    longest most recent part that leaves the room needed. -/
theorem evict_keeps_most_recent {τ : Type} [DecidableEq τ] [Primitives] {maxSize : ℕ}
    {encryptAtRest : Bool} {cacheKey : Bytes} {disk : List (Bytes × Bytes)} {u : UsedCache τ}
    (h : Runs UsedCache.step (fun _ _ => True)
      (UsedCache.new (.new maxSize encryptAtRest cacheKey disk)) u)
    (removable : Bytes → Bool) (neededSize : ℕ) :
    ∃ c, BlockCache.Locked.evictIfNeeded removable neededSize u.shared.cache = some c ∧
      c.entries.Sublist u.shared.cache.entries ∧
      (∀ x ∈ u.shared.cache.entries, ∀ y ∈ u.shared.cache.entries,
        u.lastUse x.rid = u.lastUse y.rid → x = y) ∧
      IsGreatest (RecentFits (fun e => u.lastUse e.rid) CacheEntry.size maxSize neededSize
        u.shared.cache.entries.toFinset) c.entries.toFinset := by
  obtain ⟨hsound, horder⟩ := UsedCache.remembers_runs h
  obtain ⟨c, hc, -, hlost, -⟩ :=
    BlockCache.Locked.exists_evictIfNeeded removable neededSize hsound.exact
  have hmax : u.shared.cache.maxSize = maxSize :=
    (h.invariant (fun u => u.shared.Sound ∧ u.shared.cache.maxSize = maxSize)
      ⟨SharedCache.sound_new _ _ _ _, rfl⟩ fun e u hu _ =>
        ⟨SharedCache.sound_step hu.1 e, (SharedCache.config_step hu.1 e).1.trans hu.2⟩).2
  refine ⟨c, hc, hlost.entries, fun x hx y hy heq => ?_, ?_⟩
  · have hle := (horder.order x hx y hy).2 (Nat.le_of_eq heq)
    have hge := (horder.order y hy x hx).2 (Nat.le_of_eq heq.symm)
    exact List.inj_on_of_nodup_map hsound.exact.rids hx hy
      (horder.distinct x hx y hy (Nat.le_antisymm hle hge))
  · have hgreatest := isGreatest_evictLoop hsound.exact (Nat.le_refl _) horder.distinct hc
    rw [hmax] at hgreatest
    rwa [recentFits_congr fun x hx y hy => (horder.order x (List.mem_toFinset.1 hx) y
      (List.mem_toFinset.1 hy)).symm]

section

open scoped Sample

namespace Sample

/-- Blocks 1 and 2 are stored, and then 1 is found again. -/
def usingEvents : List (CacheEvent ℕ) :=
  SharedCache.putEvents 0 zeroNonce none [1] [5, 5] ++
    SharedCache.putEvents 0 zeroNonce none [2] [6] ++ [.get 0 [3], .get 1 [1]]

def usedCache : UsedCache ℕ := Runs.runAll UsedCache.step usingEvents (.new (.new 4 false [] []))

end Sample

theorem usedCache_keeps_most_recent :
    (Sample.usedCache.shared.cache.entries.map (·.rid)) = [[2], [1]] ∧
    ∃ c, BlockCache.Locked.evictIfNeeded (fun _ => true) 2 Sample.usedCache.shared.cache = some c ∧
      IsGreatest (RecentFits (fun e => Sample.usedCache.lastUse e.rid) CacheEntry.size 4 2
        Sample.usedCache.shared.cache.entries.toFinset) c.entries.toFinset := by
  refine ⟨by decide, ?_⟩
  obtain ⟨c, hc, -, -, hgreatest⟩ := evict_keeps_most_recent
    (Runs.of_admits Sample.usingEvents .start (Runs.admits_of_forall _ (fun _ _ _ => trivial) _) :
      Runs UsedCache.step (fun _ _ => True) (UsedCache.new (.new 4 false [] [])) Sample.usedCache)
    (fun _ => true) 2
  exact ⟨c, hc, hgreatest⟩

end

end TgCryptFs

import Mathlib.Algebra.Order.BigOperators.Group.List
import Mathlib.Algebra.Order.Group.Nat
import TgCryptFs.Cache.SharedCache

set_option autoImplicit false

/-!
# The size of the cache

`put` makes room in one section and takes it in a later one. What it takes fits if nobody
else has indexed a block in between and the block is no longer than the whole cache; for a
longer one everything is evicted, and it is indexed all the same.
-/
namespace TgCryptFs
open Library

/-- The thread is in a `put`. -/
def CachePc.putting : CachePc → Bool
  | .evicting .. | .writing .. | .indexing .. => true
  | .idle | .reading _ => false

theorem BlockCache.Lost.currentSize_le {removable : Bytes → Bool} {c c' : BlockCache}
    (h : BlockCache.Lost removable c c') (hc : c.Exact) (hc' : c'.Exact) :
    c'.currentSize ≤ c.currentSize := by
  rw [hc.size, hc'.size]
  exact (h.entries.map _).sum_le_sum fun _ _ => Nat.zero_le _

namespace SharedCache

variable {τ : Type} [DecidableEq τ] [Primitives]

/-- No `put` is in progress. -/
def Quiet (s : SharedCache τ) : Prop := ∀ t, (s.pc t).putting = false

def Within (s : SharedCache τ) : Prop := s.cache.currentSize ≤ s.cache.maxSize

/-- A block longer than the limit evicts nothing, and a block comes into the index only if it
    fits beside the entries of the others. -/
def Fits (e : CacheEvent τ) (s : SharedCache τ) : Prop :=
  match e with
  | .evict t _ => ∀ rid data bytes, s.pc t = .evicting rid data bytes →
      bytes.length ≤ s.cache.maxSize ∨ s.cache.entries = []
  | .index t => ∀ rid data bytes, s.pc t = .indexing rid data bytes →
      BlockCache.Locked.others s.cache rid + bytes.length ≤ s.cache.maxSize
  | _ => True

/-- For a block longer than the limit nothing is evicted. -/
def Spares (e : CacheEvent τ) (s : SharedCache τ) : Prop :=
  match e with
  | .evict t _ => ∀ rid data bytes, s.pc t = .evicting rid data bytes →
      s.cache.maxSize < bytes.length → (step e s).cache.entries = s.cache.entries
  | _ => True

/-- What else happens never makes the cache outgrow its limit. -/
theorem within_of_effect {s s' : SharedCache τ} {e : CacheEvent τ} (h : s.Sound)
    (hwithin : s.Within) (heffect : Effect s e s') (hindex : ∀ t, e ≠ .index t) : s'.Within := by
  unfold Within at hwithin ⊢
  cases heffect with
  | evicted hpc hevict hexact hlost =>
    have hle := hlost.currentSize_le h.exact hexact
    have hmax := hlost.maxSize
    dsimp only
    omega
  | indexed => exact absurd rfl (hindex _)
  | touched =>
    dsimp only
    unfold BlockCache.touch
    split <;> exact hwithin
  | removed hpc hexact hlost =>
    have hle := hlost.currentSize_le h.exact hexact
    have hmax := hlost.maxSize
    dsimp only
    omega
  | cleared => exact Nat.zero_le _
  | _ => exact hwithin

theorem fits_evict_iff {s : SharedCache τ} (h : s.Sound) (t : τ) (removable : Bytes → Bool) :
    Fits (.evict t removable) s ↔ Spares (.evict t removable) s := by
  have heffect := effect_step h (.evict t removable)
  unfold Fits Spares
  generalize step (.evict t removable) s = s' at heffect ⊢
  cases heffect with
  | ignored hno =>
    have hnot : ∀ rid data bytes, s.pc t ≠ .evicting rid data bytes := by
      intro rid data bytes hpc
      rw [CacheEvent.thread, hpc] at hno
      cases hno
    exact ⟨fun _ rid data bytes hpc => absurd hpc (hnot rid data bytes),
      fun _ rid data bytes hpc => absurd hpc (hnot rid data bytes)⟩
  | evicted hpc hevict hexact hlost hroom =>
    constructor
    · intro hfits rid data bytes hpc' hlong
      rcases hfits rid data bytes hpc' with hshort | hnil
      · omega
      · have hsub := hlost.entries
        rw [hnil] at hsub
        rw [hnil]
        exact List.sublist_nil.1 hsub
    · intro hspares rid' data' bytes' hpc'
      rename_i rid data bytes c
      have hspared := hspares rid data bytes hpc
      rw [hpc'] at hpc
      cases hpc
      have hmax := hlost.maxSize
      by_cases hshort : bytes.length ≤ s.cache.maxSize
      · exact .inl hshort
      · have hempty := hroom.resolve_left (by omega)
        exact .inr ((hspared (by omega)).symm.trans hempty)

theorem fits_index_iff {s : SharedCache τ} (h : s.Sound) (hwithin : s.Within) (t : τ) :
    Fits (.index t) s ↔ (step (.index t) s).Within := by
  have heffect := effect_step h (.index t)
  unfold Fits
  generalize step (.index t) s = s' at heffect ⊢
  cases heffect with
  | ignored hno =>
    refine ⟨fun _ => hwithin, fun _ rid data bytes hpc => ?_⟩
    rw [CacheEvent.thread, hpc] at hno
    cases hno
  | indexed hpc hexact hsize =>
    unfold Within
    dsimp only
    rw [hsize]
    constructor
    · exact fun hfits => hfits _ _ _ hpc
    · intro hle rid data bytes hpc'
      rw [hpc] at hpc'
      cases hpc'
      exact hle

/-- An event that meets the condition is one after which the cache is within its limit, and that
    evicts nothing in vain. -/
theorem fits_iff {s : SharedCache τ} (h : s.Sound) (hwithin : s.Within) (e : CacheEvent τ) :
    Fits e s ↔ (step e s).Within ∧ Spares e s := by
  cases e with
  | evict t removable =>
    have hkept := within_of_effect h hwithin (effect_step h (.evict t removable)) nofun
    rw [fits_evict_iff h]
    exact ⟨fun hspares => ⟨hkept, hspares⟩, fun hboth => hboth.2⟩
  | index t =>
    rw [fits_index_iff h hwithin]
    exact ⟨fun hkept => ⟨hkept, trivial⟩, fun hboth => hboth.1⟩
  | put t nonce rid data =>
    exact ⟨fun _ => ⟨within_of_effect h hwithin (effect_step h _) nofun, trivial⟩, fun _ => trivial⟩
  | write t outcome =>
    exact ⟨fun _ => ⟨within_of_effect h hwithin (effect_step h _) nofun, trivial⟩, fun _ => trivial⟩
  | get t rid =>
    exact ⟨fun _ => ⟨within_of_effect h hwithin (effect_step h _) nofun, trivial⟩, fun _ => trivial⟩
  | read t =>
    exact ⟨fun _ => ⟨within_of_effect h hwithin (effect_step h _) nofun, trivial⟩, fun _ => trivial⟩
  | remove t removable rid =>
    exact ⟨fun _ => ⟨within_of_effect h hwithin (effect_step h _) nofun, trivial⟩, fun _ => trivial⟩
  | clear t removable =>
    exact ⟨fun _ => ⟨within_of_effect h hwithin (effect_step h _) nofun, trivial⟩, fun _ => trivial⟩

/-- Where every event meets the condition, the cache is within its limit and no block evicts in
    vain; and an event that does not meet it breaks one of the two. -/
theorem within_limit {maxSize : ℕ} {encryptAtRest : Bool} {cacheKey : Bytes}
    {disk : List (Bytes × Bytes)} {s : SharedCache τ}
    (h : Runs step Fits (new (.new maxSize encryptAtRest cacheKey disk)) s) :
    (s.Quiet → s.cache.currentSize ≤ maxSize) ∧ (∀ e, Fits e s → Spares e s) ∧
      ∀ e, ¬ Fits e s → maxSize < (step e s).cache.currentSize ∨ ¬ Spares e s := by
  have hinv : s.Sound ∧ s.Within ∧ s.cache.maxSize = maxSize := by
    refine h.invariant (fun s => s.Sound ∧ s.Within ∧ s.cache.maxSize = maxSize)
      ⟨sound_new _ _ _ _, Nat.zero_le _, rfl⟩ fun e s hs he => ?_
    obtain ⟨hsound, hwithin, hmax⟩ := hs
    exact ⟨sound_step hsound e, ((fits_iff hsound hwithin e).1 he).1,
      (config_step hsound e).1.trans hmax⟩
  obtain ⟨hsound, hwithin, rfl⟩ := hinv
  refine ⟨fun _ => hwithin, fun e he => ((fits_iff hsound hwithin e).1 he).2, fun e he => ?_⟩
  rw [fits_iff hsound hwithin, not_and_or, Within, (config_step hsound e).1, Nat.not_le] at he
  exact he

end SharedCache

/-! ## One `put` at a time -/

/-- What the cache has to hold when the thread is done. -/
def CachePc.needed (currentSize : ℕ) : CachePc → ℕ
  | .evicting _ _ bytes => bytes.length
  | .writing _ _ bytes | .indexing _ _ bytes => currentSize + bytes.length
  | .idle | .reading _ => 0

theorem CachePc.needed_mono {m n : ℕ} (h : m ≤ n) (pc : CachePc) : pc.needed m ≤ pc.needed n := by
  cases pc with
  | writing rid data bytes => exact Nat.add_le_add_right h _
  | indexing rid data bytes => exact Nat.add_le_add_right h _
  | _ => exact Nat.le_refl _

theorem CachePc.needed_of_not_putting {pc : CachePc} (h : pc.putting = false) (n : ℕ) :
    pc.needed n = 0 := by
  cases pc with
  | idle | reading rid => rfl
  | _ => cases h

namespace SharedCache

variable {τ : Type} [DecidableEq τ] [Primitives]

/-- Nobody begins a `put` while another is in progress, or with a block longer than the limit. -/
def OneFittingPut (e : CacheEvent τ) (s : SharedCache τ) : Prop :=
  match e with
  | .put _ nonce rid data => s.Quiet ∧
      ∀ bytes, s.cache.image nonce rid data = some bytes → bytes.length ≤ s.cache.maxSize
  | _ => True

/-- There is room for the one `put` that is in progress. -/
structure Room (s : SharedCache τ) : Prop where
  one : ∀ t t', (s.pc t).putting = true → (s.pc t').putting = true → t = t'
  needed : ∀ t, (s.pc t).needed s.cache.currentSize ≤ s.cache.maxSize

omit [DecidableEq τ] [Primitives] in
/-- Who is in a `put` is alone in it. -/
theorem Room.alone {s : SharedCache τ} (h : s.Room) {t t' : τ} (ht : (s.pc t).putting = true)
    (hne : t' ≠ t) : (s.pc t').putting = false := by
  by_contra hcontra
  exact hne (h.one t' t (by simpa using hcontra) ht)

omit [Primitives] in
/-- A thread goes on, and the cache does not grow. -/
theorem Room.goto {s : SharedCache τ} (h : s.Room) {t : τ} {pc : CachePc} {c : BlockCache}
    (hone : pc.putting = true → (s.pc t).putting = true ∨ s.Quiet)
    (hneeded : pc.needed c.currentSize ≤ s.cache.maxSize)
    (hsize : c.currentSize ≤ s.cache.currentSize) (hmax : c.maxSize = s.cache.maxSize) :
    ({ s.goto t pc with cache := c } : SharedCache τ).Room := by
  have hother : ∀ t', t' ≠ t → pc.putting = true → (s.pc t').putting = false := by
    intro t' hne hput
    rcases hone hput with hwas | hquiet
    · exact h.alone hwas hne
    · exact hquiet t'
  constructor
  · intro t₁ t₂ h₁ h₂
    simp only [SharedCache.goto, Function.update_apply] at h₁ h₂
    by_cases e₁ : t₁ = t <;> by_cases e₂ : t₂ = t
    · rw [e₁, e₂]
    · rw [if_pos e₁] at h₁
      rw [if_neg e₂, hother t₂ e₂ h₁] at h₂
      cases h₂
    · rw [if_pos e₂] at h₂
      rw [if_neg e₁, hother t₁ e₁ h₂] at h₁
      cases h₁
    · rw [if_neg e₁] at h₁
      rw [if_neg e₂] at h₂
      exact h.one t₁ t₂ h₁ h₂
  · intro t'
    simp only [SharedCache.goto, Function.update_apply]
    rw [hmax]
    split
    · exact hneeded
    · exact (CachePc.needed_mono hsize _).trans (h.needed t')

theorem room_step {s : SharedCache τ} (hs : s.Sound) (h : s.Room) {e : CacheEvent τ}
    (he : OneFittingPut e s) : (step e s).Room := by
  have heffect := effect_step hs e
  generalize step e s = s' at heffect ⊢
  cases heffect with
  | ignored => exact h
  | unsealed => exact h
  | called hpc him =>
    exact h.goto (fun _ => .inr he.1) (he.2 _ him) (Nat.le_refl _) rfl
  | evicted hpc hevict hexact hlost hroom =>
    rename_i t removable rid data bytes c
    have hputting : (s.pc t).putting = true := congrArg CachePc.putting hpc
    have hfit := h.needed t
    rw [hpc] at hfit
    refine h.goto (fun _ => .inl hputting) ?_ (hlost.currentSize_le hs.exact hexact) hlost.maxSize
    rcases hroom with hroom | hempty
    · rwa [← hlost.maxSize]
    · have hzero : c.currentSize = 0 := by
        rw [hexact.size, BlockCache.indexed, hempty]
        rfl
      change bytes.length ≤ s.cache.maxSize at hfit
      change c.currentSize + bytes.length ≤ s.cache.maxSize
      omega
  | wrote hpc =>
    rename_i t rid data bytes
    have hputting : (s.pc t).putting = true := congrArg CachePc.putting hpc
    have hfit := h.needed t
    rw [hpc] at hfit
    exact h.goto (fun _ => .inl hputting) hfit (Nat.le_refl _) rfl
  | cut => exact h.goto nofun (Nat.zero_le _) (Nat.le_refl _) rfl
  | refused => exact h.goto nofun (Nat.zero_le _) (Nat.le_refl _) rfl
  | indexed hpc =>
    rename_i t rid data bytes hexact hsize
    have hputting : (s.pc t).putting = true := congrArg CachePc.putting hpc
    have hnobody : ∀ t', (Function.update s.pc t .idle t').putting = false := by
      intro t'
      rw [Function.update_apply]
      split
      · rfl
      · rename_i hne
        exact h.alone hputting hne
    refine ⟨fun t₁ t₂ h₁ => ?_, fun t' => ?_⟩
    · exact absurd ((hnobody t₁).symm.trans h₁) nofun
    · have hnone := CachePc.needed_of_not_putting (hnobody t')
      exact Nat.le_trans (Nat.le_of_eq (hnone _)) (Nat.zero_le _)
  | touched hpc =>
    rename_i t rid
    have hsame : (s.cache.touch rid).currentSize = s.cache.currentSize ∧
        (s.cache.touch rid).maxSize = s.cache.maxSize := by
      unfold BlockCache.touch
      split <;> exact ⟨rfl, rfl⟩
    have hreading : (if s.cache.contains rid then CachePc.reading rid else .idle).putting = false := by
      split <;> rfl
    refine h.goto (fun hput => ?_) ?_ (Nat.le_of_eq hsame.1) hsame.2
    · rw [hreading] at hput
      cases hput
    · rw [CachePc.needed_of_not_putting hreading]
      exact Nat.zero_le _
  | finished => exact h.goto nofun (Nat.zero_le _) (Nat.le_refl _) rfl
  | removed hpc hexact hlost =>
    exact h.goto nofun (Nat.zero_le _) (hlost.currentSize_le hs.exact hexact) hlost.maxSize
  | cleared =>
    rename_i t removable hpc
    have hlost := BlockCache.Locked.lost_clear removable s.cache
    exact h.goto nofun (Nat.zero_le _)
      (hlost.currentSize_le hs.exact (BlockCache.Locked.exact_clear _)) hlost.maxSize

/-- One fitting `put` at a time meets the condition at every event. -/
theorem fits_of_oneFittingPut {maxSize : ℕ} {encryptAtRest : Bool} {cacheKey : Bytes}
    {disk : List (Bytes × Bytes)} {s : SharedCache τ}
    (h : Runs step OneFittingPut (new (.new maxSize encryptAtRest cacheKey disk)) s) :
    Runs step Fits (new (.new maxSize encryptAtRest cacheKey disk)) s := by
  have hroom : ∀ {s : SharedCache τ},
      Runs step OneFittingPut (new (.new maxSize encryptAtRest cacheKey disk)) s →
      s.Sound ∧ s.Room := by
    intro s hs
    refine hs.invariant (fun s => s.Sound ∧ s.Room) ⟨sound_new _ _ _ _, ?_⟩ fun e s hs he =>
      ⟨sound_step hs.1 e, room_step hs.1 hs.2 he⟩
    exact ⟨fun _ _ ht => absurd ht nofun, fun _ => Nat.zero_le _⟩
  induction h with
  | start => exact .start
  | next hs he ih =>
    rename_i s e
    obtain ⟨hsound, hroom⟩ := hroom hs
    refine ih.next ?_
    cases e with
    | evict t removable =>
      intro rid data bytes hpc
      have hfit := hroom.needed t
      rw [hpc] at hfit
      exact .inl hfit
    | index t =>
      intro rid data bytes hpc
      have hfit := hroom.needed t
      have hothers := BlockCache.Locked.others_add hsound.exact rid
      rw [hpc] at hfit
      change s.cache.currentSize + bytes.length ≤ s.cache.maxSize at hfit
      omega
    | _ => trivial

end SharedCache

section

open scoped Sample

namespace Sample

def smallCache : SharedCache Unit := .new (.new 2 false [] [])

def firstPut : List (CacheEvent Unit) := SharedCache.putEvents () zeroNonce none [1] [5]

/-- For a cache of two bytes. -/
def oversizedPut : List (CacheEvent Unit) :=
  SharedCache.putEvents () zeroNonce none [2] [6, 6, 6]

end Sample

theorem firstPut_within :
    (Runs.runAll SharedCache.step Sample.firstPut Sample.smallCache).cache.currentSize ≤ 2 := by
  have hruns : Runs SharedCache.step SharedCache.OneFittingPut Sample.smallCache
      (Runs.runAll SharedCache.step Sample.firstPut Sample.smallCache) := by
    refine Runs.of_admits Sample.firstPut .start ⟨⟨fun _ => rfl, fun bytes him => ?_⟩, trivial,
      trivial, trivial, trivial⟩
    cases him
    decide
  exact (SharedCache.within_limit (SharedCache.fits_of_oneFittingPut hruns)).1 fun _ => rfl

theorem oversizedPut_outgrows :
    (Runs.runAll SharedCache.step Sample.firstPut Sample.smallCache).cache.contains [1] = true ∧
    (Runs.runAll SharedCache.step (Sample.firstPut ++ Sample.oversizedPut) Sample.smallCache).Quiet ∧
    2 < (Runs.runAll SharedCache.step (Sample.firstPut ++ Sample.oversizedPut)
      Sample.smallCache).cache.currentSize ∧
    (Runs.runAll SharedCache.step (Sample.firstPut ++ Sample.oversizedPut)
      Sample.smallCache).cache.contains [1] = false :=
  ⟨by decide, fun _ => rfl, by decide, by decide⟩

end

end TgCryptFs

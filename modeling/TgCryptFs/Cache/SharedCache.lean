import TgCryptFs.Cache.Locked
import TgCryptFs.Core.Sample
import TgCryptFs.Library.Runs

set_option autoImplicit false

/-!
# The cache and its callers

Any number of threads call one cache. A section under the lock is one event, and so is each
file operation outside of it. A panic under the lock poisons it, and after that no section
runs.
-/
namespace TgCryptFs
open Library

/-- Where a thread is in its call. -/
inductive CachePc where
  | idle
  /-- `put` has the bytes for the disk and comes to make room. -/
  | evicting (rid data bytes : Bytes)
  | writing (rid data bytes : Bytes)
  | indexing (rid data bytes : Bytes)
  /-- `get` has found an entry and comes to read its file. -/
  | reading (rid : Bytes)
deriving DecidableEq, Repr

/-- How the write of a file ends: what it leaves of the bytes, or that it was not opened. -/
inductive DiskWrite where
  | done
  | cut (n : ℕ)
  | refused
deriving DecidableEq, Repr

structure SharedCache (τ : Type) where
  cache : BlockCache
  pc : τ → CachePc
  poisoned : Bool

inductive CacheEvent (τ : Type) where
  | put (t : τ) (nonce : Aead.Nonce) (rid data : Bytes)
  | evict (t : τ) (removable : Bytes → Bool)
  | write (t : τ) (outcome : DiskWrite)
  | index (t : τ)
  | get (t : τ) (rid : Bytes)
  | read (t : τ)
  | remove (t : τ) (removable : Bytes → Bool) (rid : Bytes)
  | clear (t : τ) (removable : Bytes → Bool)

namespace CacheEvent

variable {τ : Type}

def thread : CacheEvent τ → τ
  | put t .. | evict t _ | write t _ | index t | get t _ | read t | remove t .. | clear t _ => t

/-- The event is the next one of a thread that is there. -/
def follows : CacheEvent τ → CachePc → Bool
  | put .., .idle | get .., .idle | remove .., .idle | clear .., .idle => true
  | evict .., .evicting .. | write .., .writing .. | index .., .indexing .. => true
  | read .., .reading .. => true
  | _, _ => false

end CacheEvent

namespace SharedCache

variable {τ : Type}

def new (c : BlockCache) : SharedCache τ := ⟨c, fun _ => .idle, false⟩

variable [DecidableEq τ]

/-- A section under the lock, after which the thread goes on at `pc`. -/
def locked (t : τ) (pc : CachePc) (result : Option BlockCache) (s : SharedCache τ) : SharedCache τ :=
  if s.poisoned then s
  else
    match result with
    | none => { s with poisoned := true }
    | some c => { s with cache := c, pc := Function.update s.pc t pc }

def goto (t : τ) (pc : CachePc) (s : SharedCache τ) : SharedCache τ :=
  { s with pc := Function.update s.pc t pc }

variable [Primitives]

/-- An event that is not the thread's next one changes nothing. -/
def step (e : CacheEvent τ) (s : SharedCache τ) : SharedCache τ :=
  match e with
  | .put t nonce rid data =>
    match s.pc t with
    | .idle =>
      match s.cache.image nonce rid data with
      | none => s
      | some bytes => s.goto t (.evicting rid data bytes)
    | _ => s
  | .evict t removable =>
    match s.pc t with
    | .evicting rid data bytes =>
      s.locked t (.writing rid data bytes)
        (BlockCache.Locked.evictIfNeeded removable bytes.length s.cache)
    | _ => s
  | .write t outcome =>
    match s.pc t with
    | .writing rid data bytes =>
      match outcome with
      | .done =>
        { s.goto t (.indexing rid data bytes) with cache := s.cache.writeFile rid bytes }
      | .cut n => { s.goto t .idle with cache := s.cache.writeFile rid (bytes.take n) }
      | .refused => s.goto t .idle
    | _ => s
  | .index t =>
    match s.pc t with
    | .indexing rid _ bytes =>
      s.locked t .idle (BlockCache.Locked.index rid bytes.length s.cache)
    | _ => s
  | .get t rid =>
    match s.pc t with
    | .idle =>
      s.locked t (if s.cache.contains rid then .reading rid else .idle) (some (s.cache.touch rid))
    | _ => s
  | .read t =>
    match s.pc t with
    | .reading _ => s.goto t .idle
    | _ => s
  | .remove t removable rid =>
    match s.pc t with
    | .idle => s.locked t .idle (BlockCache.Locked.remove removable rid s.cache)
    | _ => s
  | .clear t removable =>
    match s.pc t with
    | .idle => s.locked t .idle (some (BlockCache.Locked.clear removable s.cache))
    | _ => s

/-- The accounts are right and nobody has panicked. -/
structure Sound (s : SharedCache τ) : Prop where
  exact : s.cache.Exact
  running : s.poisoned = false

/-- What an event can do to a cache whose accounts are right. -/
inductive Effect (s : SharedCache τ) : CacheEvent τ → SharedCache τ → Prop where
  | ignored {e : CacheEvent τ} (h : e.follows (s.pc e.thread) = false) : Effect s e s
  | unsealed {t : τ} {nonce : Aead.Nonce} {rid data : Bytes} :
      Effect s (.put t nonce rid data) s
  | called {t : τ} {nonce : Aead.Nonce} {rid data bytes : Bytes} (hpc : s.pc t = .idle)
      (him : s.cache.image nonce rid data = some bytes) :
      Effect s (.put t nonce rid data) (s.goto t (.evicting rid data bytes))
  | evicted {t : τ} {removable : Bytes → Bool} {rid data bytes : Bytes} {c : BlockCache}
      (hpc : s.pc t = .evicting rid data bytes)
      (hevict : BlockCache.Locked.evictIfNeeded removable bytes.length s.cache = some c)
      (hexact : c.Exact) (hlost : BlockCache.Lost removable s.cache c)
      (hroom : c.currentSize + bytes.length ≤ c.maxSize ∨ c.entries = []) :
      Effect s (.evict t removable) { s.goto t (.writing rid data bytes) with cache := c }
  | wrote {t : τ} {rid data bytes : Bytes} (hpc : s.pc t = .writing rid data bytes) :
      Effect s (.write t .done)
        { s.goto t (.indexing rid data bytes) with cache := s.cache.writeFile rid bytes }
  | cut {t : τ} {n : ℕ} {rid data bytes : Bytes} (hpc : s.pc t = .writing rid data bytes) :
      Effect s (.write t (.cut n))
        { s.goto t .idle with cache := s.cache.writeFile rid (bytes.take n) }
  | refused {t : τ} {rid data bytes : Bytes} (hpc : s.pc t = .writing rid data bytes) :
      Effect s (.write t .refused) (s.goto t .idle)
  | indexed {t : τ} {rid data bytes : Bytes} (hpc : s.pc t = .indexing rid data bytes)
      (hexact : (s.cache.index rid bytes.length).Exact)
      (hsize : (s.cache.index rid bytes.length).currentSize =
        BlockCache.Locked.others s.cache rid + bytes.length) :
      Effect s (.index t) { s.goto t .idle with cache := s.cache.index rid bytes.length }
  | touched {t : τ} {rid : Bytes} (hpc : s.pc t = .idle) :
      Effect s (.get t rid)
        { s.goto t (if s.cache.contains rid then .reading rid else .idle) with
          cache := s.cache.touch rid }
  | finished {t : τ} {rid : Bytes} (hpc : s.pc t = .reading rid) :
      Effect s (.read t) (s.goto t .idle)
  | removed {t : τ} {removable : Bytes → Bool} {rid : Bytes} {c : BlockCache}
      (hpc : s.pc t = .idle) (hexact : c.Exact) (hlost : BlockCache.Lost removable s.cache c)
      (hgone : c.contains rid = false) :
      Effect s (.remove t removable rid) { s.goto t .idle with cache := c }
  | cleared {t : τ} {removable : Bytes → Bool} (hpc : s.pc t = .idle) :
      Effect s (.clear t removable)
        { s.goto t .idle with cache := BlockCache.Locked.clear removable s.cache }

omit [Primitives] in
theorem locked_of_sound {s : SharedCache τ} (h : s.Sound) (t : τ) (pc : CachePc) (c : BlockCache) :
    s.locked t pc (some c) = { s.goto t pc with cache := c } := by
  rw [locked, if_neg (by rw [h.running]; nofun)]
  rfl

/-- One lemma for all that a step does. -/
theorem effect_step {s : SharedCache τ} (h : s.Sound) (e : CacheEvent τ) :
    Effect s e (step e s) := by
  cases e with
  | put t nonce rid data =>
    rw [step]
    cases hpc : s.pc t with
    | idle =>
      cases him : s.cache.image nonce rid data with
      | none => exact .unsealed
      | some bytes => exact .called hpc him
    | _ => exact .ignored (by rw [CacheEvent.thread, hpc]; rfl)
  | evict t removable =>
    rw [step]
    cases hpc : s.pc t with
    | evicting rid data bytes =>
      obtain ⟨c, hc, hexact, hlost, hroom⟩ :=
        BlockCache.Locked.exists_evictIfNeeded removable bytes.length h.exact
      dsimp only
      rw [hc, locked_of_sound h]
      exact .evicted hpc hc hexact hlost hroom
    | _ => exact .ignored (by rw [CacheEvent.thread, hpc]; rfl)
  | write t outcome =>
    rw [step]
    cases hpc : s.pc t with
    | writing rid data bytes =>
      cases outcome with
      | done => exact .wrote hpc
      | cut n => exact .cut hpc
      | refused => exact .refused hpc
    | _ => exact .ignored (by rw [CacheEvent.thread, hpc]; rfl)
  | index t =>
    rw [step]
    cases hpc : s.pc t with
    | indexing rid data bytes =>
      obtain ⟨hindex, hexact, hsize⟩ := BlockCache.Locked.exists_index rid bytes.length h.exact
      dsimp only
      rw [hindex, locked_of_sound h]
      exact .indexed hpc hexact hsize
    | _ => exact .ignored (by rw [CacheEvent.thread, hpc]; rfl)
  | get t rid =>
    rw [step]
    cases hpc : s.pc t with
    | idle =>
      dsimp only
      rw [locked_of_sound h]
      exact .touched hpc
    | _ => exact .ignored (by rw [CacheEvent.thread, hpc]; rfl)
  | read t =>
    rw [step]
    cases hpc : s.pc t with
    | reading rid => exact .finished hpc
    | _ => exact .ignored (by rw [CacheEvent.thread, hpc]; rfl)
  | remove t removable rid =>
    rw [step]
    cases hpc : s.pc t with
    | idle =>
      obtain ⟨c, hc, hexact, hlost, hgone⟩ :=
        BlockCache.Locked.exists_remove removable rid h.exact
      dsimp only
      rw [hc, locked_of_sound h]
      exact .removed hpc hexact hlost hgone
    | _ => exact .ignored (by rw [CacheEvent.thread, hpc]; rfl)
  | clear t removable =>
    rw [step]
    cases hpc : s.pc t with
    | idle =>
      dsimp only
      rw [locked_of_sound h]
      exact .cleared hpc
    | _ => exact .ignored (by rw [CacheEvent.thread, hpc]; rfl)

theorem sound_step {s : SharedCache τ} (h : s.Sound) (e : CacheEvent τ) : (step e s).Sound := by
  generalize hs : step e s = s'
  have heffect := effect_step h e
  rw [hs] at heffect
  cases heffect with
  | ignored => exact h
  | unsealed => exact h
  | called => exact ⟨h.exact, h.running⟩
  | evicted hpc hevict hexact => exact ⟨hexact, h.running⟩
  | wrote => exact ⟨⟨h.exact.rids, h.exact.size⟩, h.running⟩
  | cut => exact ⟨⟨h.exact.rids, h.exact.size⟩, h.running⟩
  | refused => exact ⟨h.exact, h.running⟩
  | indexed hpc hexact => exact ⟨hexact, h.running⟩
  | touched => exact ⟨h.exact.touch _, h.running⟩
  | finished => exact ⟨h.exact, h.running⟩
  | removed hpc hexact => exact ⟨hexact, h.running⟩
  | cleared => exact ⟨BlockCache.Locked.exact_clear _, h.running⟩

omit [DecidableEq τ] [Primitives] in
theorem sound_new (maxSize : ℕ) (encryptAtRest : Bool) (cacheKey : Bytes)
    (disk : List (Bytes × Bytes)) :
    (new (.new maxSize encryptAtRest cacheKey disk) : SharedCache τ).Sound :=
  ⟨⟨List.nodup_nil, rfl⟩, rfl⟩

theorem sound_runs {admitted : CacheEvent τ → SharedCache τ → Prop} {maxSize : ℕ}
    {encryptAtRest : Bool} {cacheKey : Bytes} {disk : List (Bytes × Bytes)} {s : SharedCache τ}
    (h : Runs step admitted (new (.new maxSize encryptAtRest cacheKey disk)) s) : s.Sound :=
  h.invariant Sound (sound_new maxSize encryptAtRest cacheKey disk)
    fun e _ hs _ => sound_step hs e

/-- The events of a `put` that no other thread interrupts. -/
def putEvents (t : τ) (nonce : Aead.Nonce) (cut : Option ℕ) (rid data : Bytes) :
    List (CacheEvent τ) :=
  [.put t nonce rid data, .evict t fun _ => true, .write t (cut.elim .done .cut), .index t]

/-- Uninterrupted, and where every file can be removed, they are the call. -/
theorem runAll_putEvents {s : SharedCache τ} (h : s.Sound) {t : τ} (hpc : s.pc t = .idle)
    (nonce : Aead.Nonce) (cut : Option ℕ) (rid data : Bytes) :
    (Runs.runAll step (putEvents t nonce cut rid data) s).cache =
      (s.cache.put nonce cut rid data).2 := by
  unfold Runs.runAll putEvents BlockCache.put
  simp only [List.foldl_cons, List.foldl_nil]
  cases him : s.cache.image nonce rid data with
  | none => simp [step, hpc, him]
  | some bytes =>
    have hcalled : step (.put t nonce rid data) s = s.goto t (.evicting rid data bytes) := by
      simp [step, hpc, him]
    obtain ⟨c, hc, hexact, -⟩ :=
      BlockCache.Locked.exists_evictIfNeeded (fun _ => true) bytes.length h.exact
    have hsame : c = s.cache.evictIfNeeded bytes.length :=
      Option.some.inj (hc.symm.trans (BlockCache.Locked.evictIfNeeded_eq bytes.length h.exact))
    have hevicted : step (.evict t fun _ => true) (s.goto t (.evicting rid data bytes)) =
        { s.goto t (.writing rid data bytes) with cache := c } := by
      have hsound : (s.goto t (.evicting rid data bytes)).Sound := ⟨h.exact, h.running⟩
      have hlocked := locked_of_sound hsound t (.writing rid data bytes) c
      simp only [goto, Function.update_idem] at hlocked ⊢
      rw [← hlocked, ← hc]
      simp [step]
    rw [hcalled, hevicted]
    cases cut with
    | some n =>
      simp [step, goto, hsame]
    | none =>
      have hwritten : (c.writeFile rid bytes).Exact := ⟨hexact.rids, hexact.size⟩
      have hindex := (BlockCache.Locked.exists_index rid bytes.length hwritten).1
      simp [step, goto, locked, h.running, hindex, ← hsame]

/-- The configuration stays. -/
theorem config_step {s : SharedCache τ} (h : s.Sound) (e : CacheEvent τ) :
    (step e s).cache.maxSize = s.cache.maxSize ∧
      (step e s).cache.encryptAtRest = s.cache.encryptAtRest ∧
      (step e s).cache.cacheKey = s.cache.cacheKey := by
  have heffect := effect_step h e
  generalize step e s = s' at heffect
  cases heffect with
  | evicted hpc hevict hexact hlost => exact ⟨hlost.maxSize, hlost.encryptAtRest, hlost.cacheKey⟩
  | touched hpc =>
    dsimp only
    unfold BlockCache.touch
    split <;> exact ⟨rfl, rfl, rfl⟩
  | removed hpc hexact hlost => exact ⟨hlost.maxSize, hlost.encryptAtRest, hlost.cacheKey⟩
  | cleared hpc =>
    rename_i removable
    have hlost := BlockCache.Locked.lost_clear removable s.cache
    exact ⟨hlost.maxSize, hlost.encryptAtRest, hlost.cacheKey⟩
  | _ => exact ⟨rfl, rfl, rfl⟩

/-- In every interleaving the current size is the size of the entries, and no subtraction from it
    goes below zero. -/
theorem accounting_exact {maxSize : ℕ} {encryptAtRest : Bool} {cacheKey : Bytes}
    {disk : List (Bytes × Bytes)} {s : SharedCache τ}
    (h : Runs step (fun _ _ => True) (new (.new maxSize encryptAtRest cacheKey disk)) s) :
    s.cache.currentSize = (s.cache.entries.map (·.size)).sum ∧ s.poisoned = false :=
  ⟨(sound_runs h).exact.size, (sound_runs h).running⟩

end SharedCache

section

open scoped Sample

namespace Sample

/-- Two threads put one block, a third clears the cache between their two sections. -/
def racingEvents : List (CacheEvent ℕ) :=
  [.put 0 zeroNonce [1] [7, 7], .put 1 zeroNonce [1] [8],
    .evict 0 fun _ => true, .write 0 .done, .index 0,
    .evict 1 fun _ => false, .write 1 .done, .clear 2 fun _ => true, .index 1]

def racedCache : SharedCache ℕ :=
  Runs.runAll SharedCache.step racingEvents (.new (.new 2 false [] []))

end Sample

theorem racedCache_exact : Sample.racedCache.cache.currentSize = 1 ∧
    Sample.racedCache.cache.currentSize = (Sample.racedCache.cache.entries.map (·.size)).sum ∧
    Sample.racedCache.poisoned = false :=
  ⟨by decide, SharedCache.accounting_exact
    (Runs.of_admits Sample.racingEvents .start (Runs.admits_of_forall _ (fun _ _ _ => trivial) _))⟩

end

end TgCryptFs

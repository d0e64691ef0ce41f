import TgCryptFs.Core.Crypto

set_option autoImplicit false

/-!
# The local block cache

An in-memory index over files named by block id. A disk write may fail and leave
the first bytes of the file; a disk read may fail. Under `Holds` neither makes a
lookup return anything but the block.
-/
namespace TgCryptFs

structure CacheEntry where
  rid : Bytes
  size : ℕ
  accessOrder : ℕ
deriving DecidableEq, Repr

structure BlockCache where
  maxSize : ℕ
  encryptAtRest : Bool
  cacheKey : Bytes
  entries : List CacheEntry
  currentSize : ℕ
  accessCounter : ℕ
  hits : ℕ
  misses : ℕ
  /-- The cache directory: file contents by block id. -/
  disk : List (Bytes × Bytes)
deriving DecidableEq, Repr

inductive CacheError where
  | miss | encryption | decryption | io
deriving DecidableEq, Repr

namespace BlockCache

def new (maxSize : ℕ) (encryptAtRest : Bool) (cacheKey : Bytes) (disk : List (Bytes × Bytes)) :
    BlockCache :=
  { maxSize, encryptAtRest, cacheKey, entries := [], currentSize := 0, accessCounter := 0,
    hits := 0, misses := 0, disk }

def readFile (c : BlockCache) (rid : Bytes) : Option Bytes :=
  (c.disk.find? (·.1 = rid)).map (·.2)

def writeFile (c : BlockCache) (rid data : Bytes) : BlockCache :=
  { c with disk := (rid, data) :: c.disk.filter (·.1 ≠ rid) }

def removeFile (c : BlockCache) (rid : Bytes) : BlockCache :=
  { c with disk := c.disk.filter (·.1 ≠ rid) }

def contains (c : BlockCache) (rid : Bytes) : Bool := c.entries.any (·.rid = rid)

/-- The entry with the lowest access order. -/
def lru : List CacheEntry → Option CacheEntry
  | [] => none
  | e :: es =>
    match lru es with
    | none => some e
    | some m => if m.accessOrder < e.accessOrder then some m else some e

def evictOne (c : BlockCache) (e : CacheEntry) : BlockCache :=
  { c with
    entries := c.entries.filter (·.rid ≠ e.rid)
    currentSize := c.currentSize - e.size }.removeFile e.rid

/-- At most one round per entry. -/
def evictLoop (neededSize : ℕ) : ℕ → BlockCache → BlockCache
  | 0, c => c
  | fuel + 1, c =>
    if c.currentSize + neededSize > c.maxSize then
      match lru c.entries with
      | none => c
      | some e => evictLoop neededSize fuel (c.evictOne e)
    else c

def evictIfNeeded (c : BlockCache) (neededSize : ℕ) : BlockCache :=
  evictLoop neededSize c.entries.length c

def index (c : BlockCache) (rid : Bytes) (size : ℕ) : BlockCache :=
  let old := (c.entries.find? (·.rid = rid)).elim 0 (·.size)
  { c with
    accessCounter := c.accessCounter + 1
    entries := ⟨rid, size, c.accessCounter + 1⟩ :: c.entries.filter (·.rid ≠ rid)
    currentSize := c.currentSize - old + size }

variable [Primitives]

def aad (rid : Bytes) : Bytes := utf8 "cache:" ++ utf8 (hexEncode rid)

/-- What `put` writes to disk. -/
def image (c : BlockCache) (nonce : Aead.Nonce) (rid data : Bytes) : Option Bytes :=
  if c.encryptAtRest then Aead.encrypt c.cacheKey nonce data (aad rid) else some data

/-- `cut` is how many bytes a failing disk write leaves behind. -/
def put (c : BlockCache) (nonce : Aead.Nonce) (cut : Option ℕ) (rid data : Bytes) :
    Except CacheError Unit × BlockCache :=
  match c.image nonce rid data with
  | none => (.error .encryption, c)
  | some bytes =>
    let c := c.evictIfNeeded bytes.length
    match cut with
    | some n => (.error .io, c.writeFile rid (bytes.take n))
    | none => (.ok (), (c.writeFile rid bytes).index rid bytes.length)

def touch (c : BlockCache) (rid : Bytes) : BlockCache :=
  if c.contains rid then
    { c with
      accessCounter := c.accessCounter + 1
      hits := c.hits + 1
      entries := c.entries.map fun e =>
        if e.rid = rid then { e with accessOrder := c.accessCounter + 1 } else e }
  else { c with accessCounter := c.accessCounter + 1, misses := c.misses + 1 }

def get (c : BlockCache) (readable : Bool) (rid : Bytes) : Except CacheError Bytes × BlockCache :=
  let c' := c.touch rid
  if c.contains rid then
    match (if readable then c.readFile rid else none) with
    | none => (.error .io, c')
    | some raw =>
      if c.encryptAtRest then
        match Aead.decrypt c.cacheKey raw (aad rid) with
        | none => (.error .decryption, c')
        | some data => (.ok data, c')
      else (.ok raw, c')
  else (.error .miss, c')

/-- The file of `rid`, if there is one, is what `put` writes for `data`, possibly
    cut short when it is encrypted. -/
def Holds (c : BlockCache) (rid data : Bytes) : Prop :=
  ∀ raw, c.readFile rid = some raw → ∃ nonce bytes, c.image nonce rid data = some bytes ∧
    (raw = bytes ∨ c.encryptAtRest = true ∧ ∃ n, raw = bytes.take n)

theorem get_of_holds {c c' : BlockCache} {readable : Bool} {rid data d : Bytes}
    (hc : c.Holds rid data) (h : c.get readable rid = (.ok d, c')) : d = data := by
  unfold get at h
  split at h
  · split at h
    · cases h
    · rename_i raw hraw
      have hfile : c.readFile rid = some raw := by
        cases readable with
        | false => cases hraw
        | true => exact hraw
      obtain ⟨nonce, bytes, him, hb⟩ := hc raw hfile
      unfold image at him
      split at him
      · rename_i henc
        rw [if_pos henc] at h
        have hfull : ∀ n, Aead.decrypt c.cacheKey (bytes.take n) (aad rid) = some d → d = data := by
          intro n hd
          by_cases hn : n < bytes.length
          · rw [Aead.decrypt_cut him hn] at hd
            cases hd
          · rw [List.take_of_length_le (by omega), Aead.decrypt_encrypt him] at hd
            exact (Option.some.inj hd).symm
        split at h
        · cases h
        · rename_i hd
          cases h
          rcases hb with rfl | ⟨-, n, rfl⟩
          · exact hfull raw.length (by rwa [List.take_length])
          · exact hfull n hd
      · rename_i henc
        cases him
        rw [if_neg henc] at h
        cases h
        rcases hb with rfl | ⟨he, -⟩
        · rfl
        · exact absurd he henc
  · cases h

theorem contains_of_get {c c' : BlockCache} {readable : Bool} {rid d : Bytes}
    (h : c.get readable rid = (.ok d, c')) : c.contains rid = true := by
  unfold get at h
  split at h
  · assumption
  · cases h

theorem snd_get (c : BlockCache) (readable : Bool) (rid : Bytes) :
    (c.get readable rid).2 = c.touch rid := by
  unfold get
  split
  · split
    · rfl
    · split
      · split <;> rfl
      · rfl
  · rfl

/-! ## What `put`, `get` and eviction leave of the other blocks -/

omit [Primitives] in
theorem readFile_writeFile (c : BlockCache) (rid data r : Bytes) :
    (c.writeFile rid data).readFile r = if r = rid then some data else c.readFile r := by
  by_cases h : r = rid
  · simp [readFile, writeFile, h]
  · have h' : ¬ rid = r := fun e => h e.symm
    simp only [readFile, writeFile, List.find?_cons, h', decide_false, h, if_false,
      List.find?_filter]
    congr 2
    funext x
    by_cases hx : x.1 = r <;> simp [hx, h]

omit [Primitives] in
theorem readFile_removeFile (c : BlockCache) (rid r : Bytes) (raw : Bytes)
    (h : (c.removeFile rid).readFile r = some raw) : c.readFile r = some raw := by
  simp only [readFile, removeFile, List.find?_filter, Option.map_eq_some_iff] at h ⊢
  obtain ⟨x, hx, rfl⟩ := h
  refine ⟨x, ?_, rfl⟩
  by_cases hr : r = rid
  · have := List.find?_some hx
    simp only [hr] at this
    simp at this
  · rw [← hx]
    congr 1
    funext y
    by_cases hy : y.1 = r <;> simp [hy, hr]

/-- `c'` has lost files and entries of `c`, and gained none. -/
structure Shrunk (c c' : BlockCache) : Prop where
  encryptAtRest : c'.encryptAtRest = c.encryptAtRest
  cacheKey : c'.cacheKey = c.cacheKey
  readFile : ∀ r raw, c'.readFile r = some raw → c.readFile r = some raw
  contains : ∀ r, c'.contains r = true → c.contains r = true

omit [Primitives] in
theorem Shrunk.refl (c : BlockCache) : Shrunk c c := ⟨rfl, rfl, fun _ _ h => h, fun _ h => h⟩

omit [Primitives] in
theorem Shrunk.trans {a b c : BlockCache} (h : Shrunk a b) (h' : Shrunk b c) : Shrunk a c where
  encryptAtRest := h'.encryptAtRest.trans h.encryptAtRest
  cacheKey := h'.cacheKey.trans h.cacheKey
  readFile r raw hr := h.readFile r raw (h'.readFile r raw hr)
  contains r hr := h.contains r (h'.contains r hr)

omit [Primitives] in
theorem shrunk_evictOne (c : BlockCache) (e : CacheEntry) : Shrunk c (c.evictOne e) where
  encryptAtRest := rfl
  cacheKey := rfl
  readFile r raw h := readFile_removeFile c e.rid r raw h
  contains r h := by
    simp only [evictOne, removeFile, BlockCache.contains, List.any_eq_true, List.mem_filter] at h ⊢
    obtain ⟨x, ⟨hx, -⟩, hr⟩ := h
    exact ⟨x, hx, hr⟩

omit [Primitives] in
theorem shrunk_evictLoop (n fuel : ℕ) (c : BlockCache) : Shrunk c (evictLoop n fuel c) := by
  induction fuel generalizing c with
  | zero => exact Shrunk.refl c
  | succ fuel ih =>
    unfold evictLoop
    split
    · split
      · exact Shrunk.refl c
      · rename_i e _
        exact (shrunk_evictOne c e).trans (ih (c.evictOne e))
    · exact Shrunk.refl c

/-- A lookup of `rid` that succeeds returns `data`. -/
def Serves (c : BlockCache) (rid data : Bytes) : Prop := c.contains rid = true → c.Holds rid data

theorem Serves.shrunk {c c' : BlockCache} {rid data : Bytes} (h : c.Serves rid data)
    (hs : Shrunk c c') : c'.Serves rid data := by
  intro hc raw hraw
  obtain ⟨nonce, bytes, him, hb⟩ := h (hs.contains rid hc) raw (hs.readFile rid raw hraw)
  refine ⟨nonce, bytes, ?_, by rwa [hs.encryptAtRest]⟩
  simpa only [image, hs.encryptAtRest, hs.cacheKey] using him

omit [Primitives] in
theorem contains_index (c : BlockCache) (rid r : Bytes) (n : ℕ) :
    (c.index rid n).contains r = true ↔ r = rid ∨ c.contains r = true := by
  by_cases h : r = rid
  · simp [index, contains, h]
  · have h' : ¬ rid = r := fun e => h e.symm
    simp only [index, contains, List.any_cons, h', decide_false, Bool.false_or, h, false_or,
      List.any_eq_true, List.mem_filter]
    constructor
    · rintro ⟨x, ⟨hx, -⟩, hr⟩
      exact ⟨x, hx, hr⟩
    · rintro ⟨x, hx, hr⟩
      have hxr : x.rid = r := by simpa using hr
      exact ⟨x, ⟨hx, by simpa [hxr] using h⟩, hr⟩

theorem contains_put {c : BlockCache} {nonce : Aead.Nonce} {cut : Option ℕ} {rid data r : Bytes}
    (h : (c.put nonce cut rid data).2.contains r = true) : r = rid ∨ c.contains r = true := by
  unfold put at h
  split at h
  · exact .inr h
  · rename_i bytes _
    have hs := shrunk_evictLoop bytes.length c.entries.length c
    split at h
    · exact .inr (hs.contains r h)
    · rw [contains_index] at h
      exact h.imp_right (hs.contains r)

theorem put_serves_other {c : BlockCache} {rid r d : Bytes} (hr : r ≠ rid) (h : c.Serves r d)
    (nonce : Aead.Nonce) (cut : Option ℕ) (data : Bytes) :
    (c.put nonce cut rid data).2.Serves r d := by
  unfold put
  split
  · exact h
  · rename_i bytes _
    have hs := h.shrunk (shrunk_evictLoop bytes.length c.entries.length c)
    have hfile : ∀ x, ((c.evictIfNeeded bytes.length).writeFile rid x).Serves r d := by
      intro x hc raw hraw
      rw [readFile_writeFile, if_neg hr] at hraw
      exact hs hc raw hraw
    split
    · exact hfile _
    · intro hc
      rw [contains_index] at hc
      exact hfile bytes (hc.resolve_left hr)

theorem put_serves_self {c : BlockCache} {rid data : Bytes} (h : c.Serves rid data)
    (nonce : Aead.Nonce) {cut : Option ℕ} (hcut : c.encryptAtRest = true ∨ cut = none) :
    (c.put nonce cut rid data).2.Serves rid data := by
  unfold put
  split
  · exact h
  · rename_i bytes him
    have hs := shrunk_evictLoop bytes.length c.entries.length c
    have him' : ∀ x, ((c.evictIfNeeded bytes.length).writeFile rid x).image nonce rid data =
        some bytes := by
      intro x
      rw [← him]
      simp only [image, writeFile, evictIfNeeded, hs.encryptAtRest, hs.cacheKey]
    split
    · rename_i n
      intro _ raw hraw
      rw [readFile_writeFile, if_pos rfl] at hraw
      cases hraw
      refine ⟨nonce, bytes, him' _, .inr ⟨?_, n, rfl⟩⟩
      change (evictLoop _ _ c).encryptAtRest = true
      rw [hs.encryptAtRest]
      exact hcut.resolve_right (by simp)
    · intro _ raw hraw
      change ((c.evictIfNeeded bytes.length).writeFile rid bytes).readFile rid = some raw at hraw
      rw [readFile_writeFile, if_pos rfl] at hraw
      cases hraw
      exact ⟨nonce, bytes, him' bytes, .inl rfl⟩

omit [Primitives] in
theorem contains_touch (c : BlockCache) (rid r : Bytes) :
    (c.touch rid).contains r = c.contains r := by
  unfold touch
  split
  · simp only [contains, List.any_map]
    congr 1
    funext e
    by_cases h : e.rid = rid <;> simp [h]
  · rfl

theorem touch_serves {c : BlockCache} {r d : Bytes} (h : c.Serves r d) (rid : Bytes) :
    (c.touch rid).Serves r d := by
  intro hc
  rw [contains_touch] at hc
  have := h hc
  unfold touch
  split <;> exact this

omit [Primitives] in
@[simp] theorem encryptAtRest_touch (c : BlockCache) (rid : Bytes) :
    (c.touch rid).encryptAtRest = c.encryptAtRest := by
  unfold touch; split <;> rfl

@[simp] theorem encryptAtRest_put (c : BlockCache) (nonce : Aead.Nonce) (cut : Option ℕ)
    (rid data : Bytes) : (c.put nonce cut rid data).2.encryptAtRest = c.encryptAtRest := by
  unfold put
  split
  · rfl
  · rename_i bytes _
    have hs := shrunk_evictLoop bytes.length c.entries.length c
    split <;> exact hs.encryptAtRest

end BlockCache
end TgCryptFs

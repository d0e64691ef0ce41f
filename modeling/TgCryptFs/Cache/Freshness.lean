import TgCryptFs.Cache.SharedCache

set_option autoImplicit false

/-!
# What the cache serves to one caller

Beside the cache, the data that the last `put` of each block stored, and whether any file
operation has failed. The file of an indexed block decrypts to that data or, after a failed
write, to nothing.
-/
namespace TgCryptFs
open Library

/-- One thread, so that the calls come one after the other. -/
structure TrackedCache where
  shared : SharedCache Unit
  /-- The data of the last `put` of a block that succeeded, until the block is removed. -/
  latest : Bytes → Option Bytes
  /-- No file operation has failed. -/
  intact : Bool

namespace TrackedCache

variable [Primitives]

def new (maxSize : ℕ) (cacheKey : Bytes) : TrackedCache :=
  ⟨.new (.new maxSize true cacheKey []), fun _ => none, true⟩

def latestAfter (e : CacheEvent Unit) (u : TrackedCache) : Bytes → Option Bytes :=
  match e, u.shared.pc () with
  | .index _, .indexing rid data _ => Function.update u.latest rid (some data)
  | .remove _ _ rid, .idle => Function.update u.latest rid none
  | .clear _ _, .idle => fun _ => none
  | _, _ => u.latest

/-- The write did not fail, and the files of the entries that went could be removed. -/
def succeeds (e : CacheEvent Unit) (u : TrackedCache) : Bool :=
  match e with
  | .write _ outcome => outcome = .done
  | .evict _ removable | .remove _ removable _ | .clear _ removable =>
    u.shared.cache.entries.all fun x =>
      (u.shared.step e).cache.contains x.rid || removable x.rid
  | _ => true

def step (e : CacheEvent Unit) (u : TrackedCache) : TrackedCache where
  shared := u.shared.step e
  latest := u.latestAfter e
  intact := u.intact && u.succeeds e

/-- A write that fails leaves less than all of the bytes. -/
def CutsShort (e : CacheEvent Unit) (u : TrackedCache) : Prop :=
  match e with
  | .write _ (.cut n) => ∀ rid data bytes, u.shared.pc () = .writing rid data bytes → n < bytes.length
  | _ => True

/-- Where an indexed block has a file, it is sealed from the latest data or opens to nothing. -/
def Right (c : BlockCache) (latest : Bytes → Option Bytes) (rid : Bytes) : Prop :=
  c.contains rid = true → ∃ data, latest rid = some data ∧ ∀ raw d, c.readFile rid = some raw →
    Aead.decrypt c.cacheKey raw (BlockCache.aad rid) = some d → d = data

/-- An indexed block has a file that opens, any other has none. -/
def Whole (c : BlockCache) (rid : Bytes) : Prop :=
  (c.contains rid = true ↔ (c.readFile rid).isSome = true) ∧
    ∀ raw, c.readFile rid = some raw →
      (Aead.decrypt c.cacheKey raw (BlockCache.aad rid)).isSome = true

end TrackedCache

/-- The block whose file has been written and whose entry has not. -/
def CachePc.written : CachePc → Option Bytes
  | .indexing rid _ _ => some rid
  | _ => none

/-- The bytes for the disk are sealed from the data, and after the write they are on it. -/
def CachePc.Sealed [Primitives] (c : BlockCache) : CachePc → Prop
  | .evicting rid data bytes | .writing rid data bytes =>
    ∃ nonce, Aead.encrypt c.cacheKey nonce data (BlockCache.aad rid) = some bytes
  | .indexing rid data bytes =>
    (∃ nonce, Aead.encrypt c.cacheKey nonce data (BlockCache.aad rid) = some bytes) ∧
      c.readFile rid = some bytes
  | .idle | .reading _ => True

namespace TrackedCache

variable [Primitives]

structure Fresh (u : TrackedCache) : Prop where
  sound : u.shared.Sound
  encrypted : u.shared.cache.encryptAtRest = true
  sealed : (u.shared.pc ()).Sealed u.shared.cache
  right : ∀ rid, (u.shared.pc ()).written ≠ some rid → Right u.shared.cache u.latest rid
  whole : u.intact = true → ∀ rid, (u.shared.pc ()).written ≠ some rid → Whole u.shared.cache rid

theorem Right.lost {c c' : BlockCache} {removable : Bytes → Bool} {latest : Bytes → Option Bytes}
    {rid : Bytes} (h : Right c latest rid) (hlost : BlockCache.Lost removable c c') :
    Right c' latest rid := by
  intro hc
  obtain ⟨data, hdata, hopens⟩ := h (hlost.contains rid hc)
  refine ⟨data, hdata, fun raw d hraw hd => ?_⟩
  rw [hlost.cacheKey] at hd
  exact hopens raw d (hlost.readFile rid raw hraw) hd

/-- The file goes with the entry, if it can be removed. -/
theorem Whole.lost {c c' : BlockCache} {removable : Bytes → Bool} {rid : Bytes} (h : Whole c rid)
    (hlost : BlockCache.Lost removable c c')
    (hgone : c.contains rid = true → c'.contains rid = true ∨ removable rid = true) :
    Whole c' rid := by
  cases hc' : c'.contains rid with
  | true =>
    have hread := hlost.kept rid (.inl hc')
    have hc := hlost.contains rid hc'
    unfold Whole
    rw [hread, hlost.cacheKey, hc']
    exact ⟨⟨fun _ => h.1.1 hc, fun _ => rfl⟩, h.2⟩
  | false =>
    have hnone : c'.readFile rid = none := by
      cases hc : c.contains rid with
      | true =>
        rcases hgone hc with hstays | hyes
        · rw [hc'] at hstays
          cases hstays
        · exact hlost.gone rid hc hc' hyes
      | false =>
        rw [hlost.kept rid (.inr hc)]
        have hiff := h.1
        rw [hc] at hiff
        simpa using hiff
    unfold Whole
    rw [hc', hnone]
    exact ⟨⟨nofun, nofun⟩, nofun⟩

theorem succeeds_of_lost {e : CacheEvent Unit} {u : TrackedCache} {removable : Bytes → Bool}
    (h : (u.shared.cache.entries.all fun x =>
      (u.shared.step e).cache.contains x.rid || removable x.rid) = true) (rid : Bytes)
    (hc : u.shared.cache.contains rid = true) :
    (u.shared.step e).cache.contains rid = true ∨ removable rid = true := by
  obtain ⟨x, hx, rfl⟩ := BlockCache.contains_iff.1 hc
  simpa using List.all_eq_true.1 h x hx

theorem right_congr {c c' : BlockCache} {latest : Bytes → Option Bytes} {rid : Bytes}
    (hcontains : c'.contains rid = c.contains rid) (hread : c'.readFile rid = c.readFile rid)
    (hkey : c'.cacheKey = c.cacheKey) : Right c' latest rid ↔ Right c latest rid := by
  unfold Right
  rw [hcontains, hread, hkey]

theorem whole_congr {c c' : BlockCache} {rid : Bytes}
    (hcontains : c'.contains rid = c.contains rid) (hread : c'.readFile rid = c.readFile rid)
    (hkey : c'.cacheKey = c.cacheKey) : Whole c' rid ↔ Whole c rid := by
  unfold Whole
  rw [hcontains, hread, hkey]

omit [Primitives] in
theorem latestAfter_of_not_follows {e : CacheEvent Unit} {u : TrackedCache}
    (h : e.follows (u.shared.pc e.thread) = false) : u.latestAfter e = u.latest := by
  unfold latestAfter
  split
  · rename_i hpc
    rw [show u.shared.pc _ = _ from hpc] at h
    cases h
  · rename_i hpc
    rw [show u.shared.pc _ = _ from hpc] at h
    cases h
  · rename_i hpc
    rw [show u.shared.pc _ = _ from hpc] at h
    cases h
  · rfl

theorem Fresh.same {u : TrackedCache} (h : u.Fresh) {e : CacheEvent Unit}
    (hstep : u.shared.step e = u.shared) (hlatest : u.latestAfter e = u.latest) :
    (step e u).Fresh := by
  unfold step
  rw [hstep, hlatest]
  exact ⟨h.sound, h.encrypted, h.sealed, h.right,
    fun hboth => h.whole (Bool.and_eq_true_iff.1 hboth).1⟩

/-- A block that is neither stored nor between its write and its entry. -/
theorem Fresh.moved {u : TrackedCache} (h : u.Fresh) {e : CacheEvent Unit} {c : BlockCache}
    {pc : CachePc} (hstep : u.shared.step e = { u.shared.goto () pc with cache := c })
    (hrest : c.encryptAtRest = u.shared.cache.encryptAtRest)
    (hwritten : (u.shared.pc ()).written = none) (hsealed : pc.Sealed c)
    (hright : ∀ rid, pc.written ≠ some rid → Right u.shared.cache u.latest rid →
      Right c (u.latestAfter e) rid)
    (hwhole : u.succeeds e = true → ∀ rid, pc.written ≠ some rid →
      Whole u.shared.cache rid → Whole c rid) : (step e u).Fresh := by
  have hsound := SharedCache.sound_step h.sound e
  have hnot : ∀ rid, (u.shared.pc ()).written ≠ some rid := by
    intro rid
    rw [hwritten]
    nofun
  have hpc : (u.shared.step e).pc () = pc := by
    rw [hstep]
    exact Function.update_self () pc u.shared.pc
  have hcache : (u.shared.step e).cache = c := by rw [hstep]
  constructor
  · exact hsound
  · exact (congrArg BlockCache.encryptAtRest hcache).trans (hrest.trans h.encrypted)
  · change ((u.shared.step e).pc ()).Sealed (u.shared.step e).cache
    rw [hpc, hcache]
    exact hsealed
  · intro rid hrid
    change Right (u.shared.step e).cache (u.latestAfter e) rid
    change ((u.shared.step e).pc ()).written ≠ some rid at hrid
    rw [hpc] at hrid
    rw [hcache]
    exact hright rid hrid (h.right rid (hnot rid))
  · intro hboth rid hrid
    obtain ⟨hintact, hsucceeds⟩ := Bool.and_eq_true_iff.1 hboth
    change Whole (u.shared.step e).cache rid
    change ((u.shared.step e).pc ()).written ≠ some rid at hrid
    rw [hpc] at hrid
    rw [hcache]
    exact hwhole hsucceeds rid hrid (h.whole hintact rid (hnot rid))

/-! ## What each file operation leaves right -/

section

variable {c : BlockCache} {latest : Bytes → Option Bytes} {rid r data bytes : Bytes}

theorem right_writeFile_of_ne (hr : r ≠ rid) :
    Right (c.writeFile rid bytes) latest r ↔ Right c latest r := by
  have hread : (c.writeFile rid bytes).readFile r = c.readFile r := by
    rw [BlockCache.readFile_writeFile, if_neg hr]
  exact right_congr rfl hread rfl

theorem whole_writeFile_of_ne (hr : r ≠ rid) : Whole (c.writeFile rid bytes) r ↔ Whole c r := by
  have hread : (c.writeFile rid bytes).readFile r = c.readFile r := by
    rw [BlockCache.readFile_writeFile, if_neg hr]
  exact whole_congr rfl hread rfl

/-- What is left of a sealed block opens to nothing. -/
theorem right_cut {nonce : Aead.Nonce} {n : ℕ}
    (henc : Aead.encrypt c.cacheKey nonce data (BlockCache.aad rid) = some bytes)
    (hn : n < bytes.length) (h : Right c latest rid) :
    Right (c.writeFile rid (bytes.take n)) latest rid := by
  intro hc
  obtain ⟨d, hd, -⟩ := h hc
  refine ⟨d, hd, fun raw x hraw hx => ?_⟩
  rw [BlockCache.readFile_writeFile, if_pos rfl] at hraw
  cases hraw
  cases (Aead.decrypt_cut henc hn).symm.trans hx

omit [Primitives] in
theorem contains_index_of_ne (hr : r ≠ rid) (size : ℕ) :
    (c.index rid size).contains r = c.contains r := by
  rw [Bool.eq_iff_iff, BlockCache.contains_index]
  exact ⟨fun hc => hc.resolve_left hr, .inr⟩

theorem right_index (hopens : Aead.decrypt c.cacheKey bytes (BlockCache.aad rid) = some data)
    (hfile : c.readFile rid = some bytes) (size : ℕ) :
    Right (c.index rid size) (Function.update latest rid (some data)) rid := by
  refine fun _ => ⟨data, Function.update_self _ _ _, fun raw d hraw hd => ?_⟩
  cases hfile.symm.trans hraw
  exact Option.some.inj (hd.symm.trans hopens)

theorem right_index_of_ne (hr : r ≠ rid) (size : ℕ) (h : Right c latest r) :
    Right (c.index rid size) (Function.update latest rid (some data)) r := by
  unfold Right at h ⊢
  rw [Function.update_of_ne hr, contains_index_of_ne hr]
  exact h

theorem whole_index (hopens : Aead.decrypt c.cacheKey bytes (BlockCache.aad rid) = some data)
    (hfile : c.readFile rid = some bytes) (size : ℕ) : Whole (c.index rid size) rid := by
  have hin : (c.index rid size).contains rid = true :=
    (BlockCache.contains_index _ _ _ _).2 (.inl rfl)
  refine ⟨⟨fun _ => congrArg Option.isSome hfile, fun _ => hin⟩, fun raw hraw => ?_⟩
  cases hfile.symm.trans hraw
  exact congrArg Option.isSome hopens

omit [Primitives] in
/-- A lookup changes neither files nor the key. -/
theorem touch_same (c : BlockCache) (rid r : Bytes) :
    (c.touch rid).readFile r = c.readFile r ∧ (c.touch rid).cacheKey = c.cacheKey := by
  unfold BlockCache.touch
  split <;> exact ⟨rfl, rfl⟩

theorem right_touch : Right (c.touch rid) latest r ↔ Right c latest r :=
  right_congr (BlockCache.contains_touch c rid r) (touch_same c rid r).1 (touch_same c rid r).2

theorem whole_touch : Whole (c.touch rid) r ↔ Whole c r :=
  whole_congr (BlockCache.contains_touch c rid r) (touch_same c rid r).1 (touch_same c rid r).2

end

/-- Entries go, and their files with them as far as these can be removed. -/
theorem Fresh.lost {u : TrackedCache} (h : u.Fresh) {e : CacheEvent Unit} {c : BlockCache}
    {pc : CachePc} {removable : Bytes → Bool}
    (hstep : u.shared.step e = { u.shared.goto () pc with cache := c })
    (hlost : BlockCache.Lost removable u.shared.cache c)
    (hwritten : (u.shared.pc ()).written = none) (hsealed : pc.Sealed c)
    (hsucceeds : u.succeeds e = u.shared.cache.entries.all fun x =>
      (u.shared.step e).cache.contains x.rid || removable x.rid)
    (hright : ∀ rid, Right c u.latest rid → Right c (u.latestAfter e) rid) : (step e u).Fresh := by
  refine h.moved hstep hlost.encryptAtRest hwritten hsealed (fun r _ hr => hright r (hr.lost hlost))
    fun hyes r _ hwhole => hwhole.lost hlost fun hc => ?_
  rw [hsucceeds] at hyes
  have hgone := succeeds_of_lost hyes r hc
  rw [hstep] at hgone
  exact hgone

/-- The block that was written is the latest from here on. -/
theorem Fresh.indexed {u : TrackedCache} (h : u.Fresh) {t : Unit} {rid data bytes : Bytes}
    (hpc : u.shared.pc () = .indexing rid data bytes)
    (hs : u.shared.step (.index t) =
      { u.shared.goto () .idle with cache := u.shared.cache.index rid bytes.length }) :
    (step (.index t) u).Fresh := by
  have hsealed := h.sealed
  rw [hpc] at hsealed
  obtain ⟨⟨nonce, henc⟩, hfile⟩ := hsealed
  have hopens := Aead.decrypt_encrypt henc
  have hother : ∀ r, r ≠ rid → (u.shared.pc ()).written ≠ some r := by
    intro r hr heq
    rw [hpc] at heq
    exact hr (Option.some.inj heq).symm
  have hlatest : u.latestAfter (.index t) = Function.update u.latest rid (some data) := by
    unfold latestAfter
    rw [hpc]
  have hsound := SharedCache.sound_step h.sound (.index t)
  unfold step
  rw [hlatest]
  rw [hs] at hsound ⊢
  refine ⟨hsound, h.encrypted, ?_, fun r _ => ?_, fun hboth r _ => ?_⟩
  · change (Function.update u.shared.pc () .idle ()).Sealed _
    rw [Function.update_self]
    trivial
  · by_cases hr : r = rid
    · rw [hr]
      exact right_index hopens hfile bytes.length
    · exact right_index_of_ne hr bytes.length (h.right r (hother r hr))
  · by_cases hr : r = rid
    · rw [hr]
      exact whole_index hopens hfile bytes.length
    · have hcongr : Whole (u.shared.cache.index rid bytes.length) r ↔ Whole u.shared.cache r :=
        whole_congr (contains_index_of_ne hr _) rfl rfl
      exact hcongr.2 (h.whole (Bool.and_eq_true_iff.1 hboth).1 r (hother r hr))

theorem fresh_step {u : TrackedCache} (h : u.Fresh) {e : CacheEvent Unit} (he : CutsShort e u) :
    (step e u).Fresh := by
  have heffect := SharedCache.effect_step h.sound e
  have hsealed := h.sealed
  generalize hs : u.shared.step e = s' at heffect
  cases heffect with
  | ignored hno => exact h.same hs (latestAfter_of_not_follows hno)
  | unsealed => exact h.same hs rfl
  | called hpc him =>
    rename_i t nonce rid data bytes
    refine h.moved hs rfl (congrArg CachePc.written hpc) ⟨nonce, ?_⟩ (fun _ _ hr => hr)
      fun _ _ _ hw => hw
    rwa [BlockCache.image, if_pos h.encrypted] at him
  | evicted hpc hevict hexact hlost hroom =>
    rename_i t removable rid data bytes c
    rw [show u.shared.pc () = _ from hpc] at hsealed
    refine h.lost hs hlost (congrArg CachePc.written hpc) ?_ rfl fun _ hr => hr
    unfold CachePc.Sealed at hsealed ⊢
    rwa [hlost.cacheKey]
  | wrote hpc =>
    rename_i t rid data bytes
    rw [show u.shared.pc () = _ from hpc] at hsealed
    refine h.moved hs rfl (congrArg CachePc.written hpc) ⟨hsealed, ?_⟩ (fun r hr hright => ?_)
      fun _ r hr hwhole => ?_
    · rw [BlockCache.readFile_writeFile, if_pos rfl]
    · exact (right_writeFile_of_ne fun heq => hr (congrArg some heq.symm)).2 hright
    · exact (whole_writeFile_of_ne fun heq => hr (congrArg some heq.symm)).2 hwhole
  | cut hpc =>
    rename_i t n rid data bytes
    rw [show u.shared.pc () = _ from hpc] at hsealed
    obtain ⟨nonce, henc⟩ := hsealed
    refine h.moved hs rfl (congrArg CachePc.written hpc) trivial (fun r _ hright => ?_)
      fun hyes => by cases hyes
    by_cases hr : r = rid
    · rw [hr] at hright ⊢
      exact right_cut henc (he rid data bytes hpc) hright
    · exact (right_writeFile_of_ne hr).2 hright
  | refused hpc =>
    exact h.moved hs rfl (congrArg CachePc.written hpc) trivial (fun _ _ hr => hr)
      fun hyes => by cases hyes
  | indexed hpc hexact => exact h.indexed hpc hs
  | touched hpc =>
    rename_i t rid
    refine h.moved hs (BlockCache.encryptAtRest_touch _ rid) (congrArg CachePc.written hpc) ?_
      (fun _ _ => right_touch.2) fun _ _ _ => whole_touch.2
    split <;> trivial
  | finished hpc =>
    exact h.moved hs rfl (congrArg CachePc.written hpc) trivial (fun _ _ hr => hr) fun _ _ _ hw => hw
  | removed hpc hexact hlost hgone =>
    rename_i t removable rid c
    have hlatest : u.latestAfter (.remove t removable rid) = Function.update u.latest rid none := by
      unfold latestAfter
      rw [show u.shared.pc () = _ from hpc]
    refine h.lost hs hlost (congrArg CachePc.written hpc) trivial rfl fun r hright => ?_
    by_cases hr : r = rid
    · intro hc
      rw [hr, hgone] at hc
      cases hc
    · unfold Right at hright ⊢
      rwa [hlatest, Function.update_of_ne hr]
  | cleared hpc =>
    rename_i t removable
    have hlost := BlockCache.Locked.lost_clear removable u.shared.cache
    exact h.lost hs hlost (congrArg CachePc.written hpc) trivial rfl fun _ _ hc => by cases hc

theorem fst_get_of_miss {c : BlockCache} {rid : Bytes} (hc : c.contains rid = false)
    (readable : Bool) : (c.get readable rid).1 = .error .miss := by
  unfold BlockCache.get
  rw [if_neg (by rw [hc]; nofun)]

/-- What a file that could be read becomes. -/
theorem fst_get_of_file {c : BlockCache} {rid raw : Bytes} (hc : c.contains rid = true)
    (hrest : c.encryptAtRest = true) (hraw : c.readFile rid = some raw) :
    (c.get true rid).1 =
      (Aead.decrypt c.cacheKey raw (BlockCache.aad rid)).elim (.error .decryption) .ok := by
  unfold BlockCache.get
  rw [if_pos hc, if_pos rfl, hraw]
  dsimp only
  rw [if_pos hrest]
  cases Aead.decrypt c.cacheKey raw (BlockCache.aad rid) <;> rfl

theorem fst_get_of_unread {c : BlockCache} {rid : Bytes} {readable : Bool}
    (hc : c.contains rid = true) (h : (if readable then c.readFile rid else none) = none) :
    (c.get readable rid).1 = .error .io := by
  unfold BlockCache.get
  rw [if_pos hc, h]

/-- A lookup that succeeds returns what was stored last. -/
theorem Right.latest_of_get {c : BlockCache} {latest : Bytes → Option Bytes} {rid d : Bytes}
    {readable : Bool} (h : Right c latest rid) (hrest : c.encryptAtRest = true)
    (hd : (c.get readable rid).1 = .ok d) : latest rid = some d := by
  cases hc : c.contains rid with
  | false =>
    rw [fst_get_of_miss hc] at hd
    cases hd
  | true =>
    cases hraw : (if readable then c.readFile rid else none) with
    | none =>
      rw [fst_get_of_unread hc hraw] at hd
      cases hd
    | some raw =>
      cases readable with
      | false => cases hraw
      | true =>
        obtain ⟨data, hdata, hopens⟩ := h hc
        rw [fst_get_of_file hc hrest hraw] at hd
        cases hdec : Aead.decrypt c.cacheKey raw (BlockCache.aad rid) with
        | none =>
          rw [hdec] at hd
          cases hd
        | some d' =>
          rw [hdec] at hd
          cases hd
          rw [hdata, hopens raw d hraw hdec]

/-- Between two calls a lookup that succeeds returns what was stored last; and where no file
    operation has failed it returns that or a miss, and the files are those of the entries. -/
theorem get_latest {maxSize : ℕ} {cacheKey : Bytes} {u : TrackedCache}
    (h : Runs step CutsShort (new maxSize cacheKey) u) (hidle : u.shared.pc () = .idle)
    (rid : Bytes) :
    (∀ readable d, (u.shared.cache.get readable rid).1 = .ok d → u.latest rid = some d) ∧
    (u.intact = true →
      ((u.shared.cache.get true rid).1 = .error .miss ∨
        ∃ d, (u.shared.cache.get true rid).1 = .ok d ∧ u.latest rid = some d) ∧
      (u.shared.cache.contains rid = true ↔ (u.shared.cache.readFile rid).isSome = true)) := by
  have hfresh : u.Fresh := by
    refine h.invariant Fresh ?_ fun e u hu he => fresh_step hu he
    exact ⟨SharedCache.sound_new _ _ _ _, rfl, trivial, fun _ _ hc => (nomatch hc),
      fun _ _ _ => ⟨⟨nofun, nofun⟩, nofun⟩⟩
  have hnot : (u.shared.pc ()).written ≠ some rid := by
    rw [hidle]
    nofun
  have hok : ∀ readable d, (u.shared.cache.get readable rid).1 = .ok d → u.latest rid = some d :=
    fun _ _ => (hfresh.right rid hnot).latest_of_get hfresh.encrypted
  refine ⟨hok, fun hintact => ?_⟩
  obtain ⟨hiff, hopens⟩ := hfresh.whole hintact rid hnot
  refine ⟨?_, hiff⟩
  cases hc : u.shared.cache.contains rid with
  | false => exact .inl (fst_get_of_miss hc true)
  | true =>
    obtain ⟨raw, hraw⟩ := Option.isSome_iff_exists.1 (hiff.1 hc)
    obtain ⟨d, hd⟩ := Option.isSome_iff_exists.1 (hopens raw hraw)
    have hget : (u.shared.cache.get true rid).1 = .ok d := by
      rw [fst_get_of_file hc hfresh.encrypted hraw, hd]
      rfl
    exact .inr ⟨d, hget, hok true d hget⟩

end TrackedCache

section

open scoped Sample

namespace Sample

/-- A block is stored, and then a second time with a write that fails after thirty bytes. -/
def failedWriteEvents : List (CacheEvent Unit) :=
  SharedCache.putEvents () zeroNonce none [1] [5] ++
    SharedCache.putEvents () zeroNonce (some 30) [1] [6]

def pendingLength : CachePc → ℕ
  | .writing _ _ bytes => bytes.length
  | _ => 0

def failedWriteCache : TrackedCache :=
  Runs.runAll TrackedCache.step failedWriteEvents (.new 100 [])

end Sample

theorem failedWriteCache_get :
    (∀ readable d, (Sample.failedWriteCache.shared.cache.get readable [1]).1 = .ok d →
      Sample.failedWriteCache.latest [1] = some d) ∧
    (Sample.failedWriteCache.shared.cache.get true [1]).1 = .error .decryption := by
  have hruns : Runs TrackedCache.step TrackedCache.CutsShort (.new 100 [])
      Sample.failedWriteCache := by
    refine Runs.of_admits Sample.failedWriteEvents .start ⟨trivial, trivial, trivial, trivial,
      trivial, trivial, fun rid data bytes hpc => ?_, trivial, trivial⟩
    have hlength : Sample.pendingLength ((Runs.runAll TrackedCache.step
        (Sample.failedWriteEvents.take 6) (.new 100 [])).shared.pc ()) = 41 := by decide
    rw [show (Runs.runAll TrackedCache.step (Sample.failedWriteEvents.take 6)
      (.new 100 [])).shared.pc () = _ from hpc] at hlength
    change bytes.length = 41 at hlength
    omega
  exact ⟨(TrackedCache.get_latest hruns (by decide) [1]).1, by decide⟩

end

end TgCryptFs

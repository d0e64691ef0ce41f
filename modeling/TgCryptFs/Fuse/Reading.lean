import TgCryptFs.Fuse.Storage

set_option autoImplicit false

/-!
# What `read` answers

A read changes nothing but the cache. Through a handle without a buffer it shows the
row's size and the bytes its manifest stands for: past their end nothing, and before it
zeros up to the size.
-/
namespace TgCryptFs
open Library

/-- What a read of `[offset, offset + n)` gets of a row with this size and these bytes. -/
def fileView (size : ℕ) (data : Bytes) (offset n : ℕ) : Bytes :=
  if offset < data.length then slice (resize 0 data size) offset n else []

theorem fileView_self (data : Bytes) : fileView data.length data 0 data.length = data := by
  unfold fileView
  split
  · simp [slice, resize]
  · rename_i h
    have : data = [] := List.length_eq_zero_iff.1 (by omega)
    exact this.symm

theorem copyBlock_first {bp : BlockPointer} {data : Bytes} (hoff : bp.fileOffset = 0)
    (hlen : bp.length = data.length) {o n : ℕ} (ho : o < data.length) :
    copyBlock o n bp data (List.replicate n 0) = resize 0 (data.drop o) n := by
  unfold copyBlock
  simp only [hoff, hlen, Nat.max_zero, Nat.zero_add, Nat.sub_zero, Nat.sub_self,
    List.length_replicate]
  by_cases hn : n = 0
  · subst hn
    rw [if_neg (by omega)]
    simp [resize]
  · rw [if_pos (by omega), if_pos (by omega)]
    have hd : slice data o (min (o + n) data.length - o) = (data.drop o).take n := by
      rw [slice, List.take_eq_take_iff, List.length_drop]
      omega
    rw [hd, splice, resize, List.take_zero, List.nil_append, List.drop_replicate, Nat.zero_add,
      List.length_take, List.length_drop]
    congr 2
    omega

theorem blocksInRange_single {m : FileManifest} {bp : BlockPointer} (hb : m.blocks = [bp])
    (hoff : bp.fileOffset = 0) (o n : ℕ) :
    m.blocksInRange o n = if 0 < o + n ∧ o < bp.length then [bp] else [] := by
  simp only [FileManifest.blocksInRange, hb, hoff, Nat.zero_add, List.filter_cons, List.filter_nil,
    gt_iff_lt, Bool.and_eq_true, decide_eq_true_eq]

variable [Primitives]

/-- Downloads go through and are answered. -/
structure Env.Online (env : Env) (m : Mount) : Prop where
  transport : m.transport = true
  rt : m.rt = true
  served : ∀ i, env.download i = .served

theorem cacheGet_spec (env : Env) {s : System} (hs : s.Backed) {rid : Bytes} {r : BlockRecord}
    {data : Bytes} (hr : s.blocks.find rid = some r)
    (hmsg : s.remote.message r.messageId = some data) (i : ℕ) :
    (∃ cache, (env.serve (.cacheGet i rid) s).2 = { s with cache := cache }) ∧
    ∀ d, (env.serve (.cacheGet i rid) s).1 = .ok d → d = data := by
  obtain ⟨mount, conn, handles, cache, remote⟩ := s
  cases cache with
  | none => exact ⟨⟨none, rfl⟩, nofun⟩
  | some c =>
    refine ⟨⟨_, rfl⟩, fun d hd => ?_⟩
    change (c.get (env.cacheRead i) rid).1 = .ok d at hd
    have hget : c.get (env.cacheRead i) rid = (.ok d, (c.get (env.cacheRead i) rid).2) := by
      rw [← hd]
    obtain ⟨d', -, hm, hserves⟩ := hs.records rid r hr
    have hd' : d' = data := Option.some.inj (hm.symm.trans hmsg)
    rw [← hd']
    exact BlockCache.get_of_holds (hserves c rfl (BlockCache.contains_of_get hget)) hget

theorem snd_serve_cachePut (env : Env) (i : ℕ) (rid data : Bytes) (s : System) :
    ∃ cache, (env.serve (.cachePut i rid data) s).2 = { s with cache := cache } := by
  obtain ⟨mount, conn, handles, cache, remote⟩ := s
  cases cache with
  | none => exact ⟨none, rfl⟩
  | some c => exact ⟨_, rfl⟩

theorem run_downloadBlock {env : Env} {s : System} (hs : s.Backed) (hf : env.Faithful s)
    {rid : Bytes} {r : BlockRecord} {data : Bytes} (hr : s.blocks.find rid = some r)
    (hmsg : s.remote.message r.messageId = some data) (m : Mount) (i : ℕ) :
    (∃ cache, ((downloadBlock m i r.messageId rid).run env.serve s).2 = { s with cache := cache }) ∧
    ((downloadBlock m i r.messageId rid).run env.serve s).2.Backed ∧
    (∀ d, ((downloadBlock m i r.messageId rid).run env.serve s).1 = some d → d = data) ∧
    (env.Online m → ((downloadBlock m i r.messageId rid).run env.serve s).1 = some data) := by
  rw [downloadBlock, CallTree.run_call]
  obtain ⟨⟨cache, hcache⟩, hans⟩ := cacheGet_spec env hs hr hmsg i
  have hb := backed_cacheGet env i rid hs
  have hf' : env.Faithful (env.serve (.cacheGet i rid) s).2 :=
    ⟨hf.download, fun h => hf.cacheCut (by rw [← (config_serve env _ s).2]; exact h)⟩
  generalize env.serve (.cacheGet i rid) s = g at hcache hans hb hf' ⊢
  obtain ⟨x, s₁⟩ := g
  dsimp only at hcache hans hb hf' ⊢
  have hnone : (∃ cache, s₁ = { s with cache := cache }) ∧ s₁.Backed ∧
      ∀ d, (none : Option Bytes) = some d → d = data := ⟨⟨cache, hcache⟩, hb, nofun⟩
  cases x with
  | ok d =>
    obtain rfl := hans d rfl
    exact ⟨⟨cache, hcache⟩, hb, fun d' h => (Option.some.inj h).symm, fun _ => rfl⟩
  | error e =>
    dsimp only
    split
    · rename_i ht
      exact ⟨hnone.1, hnone.2.1, hnone.2.2, fun h => by rw [h.transport] at ht; cases ht⟩
    split
    · rename_i ht
      exact ⟨hnone.1, hnone.2.1, hnone.2.2, fun h => by rw [h.rt] at ht; cases ht⟩
    have hserve : env.serve (.download i r.messageId) s₁ =
        (if env.download i = .served then some data else none, s₁) := by
      subst hcache
      simp only [Env.serve]
      cases hd : env.download i with
      | served => rw [hmsg, if_pos rfl]
      | refused => rfl
      | substituted d => exact (hf.download i d hd).elim
    rw [CallTree.run_call, hserve]
    split
    · rename_i h
      split at h
      · cases h
        rw [CallTree.run_call]
        subst hcache
        obtain ⟨cache', h'⟩ := snd_serve_cachePut env i rid data { s with cache := cache }
        refine ⟨⟨cache', h'⟩, backed_cachePut i hb hf' hr hmsg, ?_, fun _ => rfl⟩
        exact fun d hd => (Option.some.inj hd).symm
      · cases h
    · rename_i h
      split at h
      · cases h
      · rename_i hd
        exact ⟨hnone.1, hnone.2.1, hnone.2.2, fun h => (hd (h.served i)).elim⟩

theorem run_readManifest {env : Env} {s : System} (hs : s.Backed) (hf : env.Faithful s)
    {inode : Inode} {data : Bytes} (hd : s.Holds inode.manifest data) (m : Mount) (o n : ℕ) :
    (∃ cache, ((readManifest m inode o n).run env.serve s).2 = { s with cache := cache }) ∧
    ((readManifest m inode o n).run env.serve s).2.Backed ∧
    (env.Online m →
      ((readManifest m inode o n).run env.serve s).1 = .data (fileView inode.size data o n)) := by
  have hempty : fileView inode.size [] o n = [] := if_neg (Nat.not_lt_zero o)
  unfold readManifest
  cases hman : inode.manifest with
  | none =>
    rw [hman] at hd
    cases hd
    exact ⟨⟨s.cache, rfl⟩, hs, fun _ => by rw [hempty]; rfl⟩
  | some man =>
    rw [hman] at hd
    cases hd with
    | empty hb =>
      simp only [hb, List.isEmpty_nil, if_true, CallTree.run_ret]
      exact ⟨⟨s.cache, rfl⟩, hs, fun _ => by rw [hempty]⟩
    | @block _ bp r data hb hoff hlen hr hid hmsg =>
      simp only [hb, List.isEmpty_cons, Bool.false_eq_true, if_false, blocksInRange_single hb hoff]
      by_cases hin : 0 < o + n ∧ o < bp.length
      · rw [if_pos hin]
        rw [← hid] at hmsg
        obtain ⟨hc, hb', hans, hon⟩ := run_downloadBlock hs hf hr hmsg m 0
        simp only [CallTree.run_bind, readBlocks, ← hid]
        have ho : o < data.length := hlen ▸ hin.2
        generalize (downloadBlock m 0 r.messageId bp.rid).run env.serve s = g at hc hb' hans hon ⊢
        obtain ⟨x, s₁⟩ := g
        cases x with
        | none => exact ⟨hc, hb', fun h => by cases hon h⟩
        | some d =>
          obtain rfl := hans d rfl
          refine ⟨hc, hb', fun _ => ?_⟩
          rw [fileView, if_pos ho, ← take_resize_drop, ← copyBlock_first hoff hlen ho]
          rfl
      · rw [if_neg hin]
        refine ⟨⟨s.cache, rfl⟩, hs, fun _ => ?_⟩
        have hview : fileView inode.size data o n = [] := by
          unfold fileView
          split
          · have hn : n = 0 := by omega
            rw [hn, slice, List.take_zero]
          · rfl
        rw [hview]
        rfl

/-- The handle has nothing of its own to show. -/
def System.Unbuffered (s : System) (fh : ℕ) : Prop :=
  ∀ h, s.handles.get fh = some h → h.writeBuffer = []

theorem exec_read_unbuffered {env : Env} {s : System} {ino fh : ℕ} {i : Inode}
    (hsql : env.sql .find = true) (hi : s.inodes.find ino = some i) (hfile : i.isFile = true)
    (hfh : s.Unbuffered fh) (o n : ℕ) :
    exec env (.read ino fh o n) s = (readManifest s.mount i o n).run env.serve s := by
  simp only [exec, handler, read, CallTree.run_call, Env.fst_serve_get, Env.snd_serve_get, Env.read,
    hsql, if_true, InodeStore.get, hi, hfile, Bool.not_true, Bool.false_eq_true, if_false,
    Env.serve_handleGet]
  cases hh : s.handles.get fh with
  | none => rfl
  | some h => simp only [hfh h hh, List.isEmpty_nil, Bool.not_true, Bool.false_eq_true, if_false]

theorem exec_read_buffered {env : Env} {s : System} {ino fh : ℕ} {i : Inode} {h : FileHandle}
    (hsql : env.sql .find = true) (hi : s.inodes.find ino = some i) (hfile : i.isFile = true)
    (hh : s.handles.get fh = some h) (hne : h.writeBuffer ≠ []) (o n : ℕ) :
    exec env (.read ino fh o n) s = (.data (slice h.writeBuffer o n), s) := by
  simp only [exec, handler, read, CallTree.run_call, Env.fst_serve_get, Env.snd_serve_get, Env.read,
    hsql, if_true, InodeStore.get, hi, hfile, Bool.not_true, Bool.false_eq_true, if_false,
    Env.serve_handleGet, hh, List.isEmpty_eq_false_iff.2 hne, Bool.not_false, CallTree.run_ret]

theorem sound_withCache {s : System} (hs : s.Sound) {cache : Option BlockCache}
    (hb : ({ s with cache := cache } : System).Backed) : ({ s with cache := cache } : System).Sound :=
  hs.mono ⟨fun _ r hr => ⟨r, hr, rfl⟩, fun _ _ h => h⟩ hb rfl

/-- A read changes nothing but the cache, and keeps the stored data sound. -/
theorem exec_read {env : Env} {s : System} (hs : s.Sound) (hf : env.Faithful s) (ino fh o n : ℕ) :
    (∃ cache, (exec env (.read ino fh o n) s).2 = { s with cache := cache }) ∧
    (exec env (.read ino fh o n) s).2.Sound := by
  have hsame : (∃ cache, s = { s with cache := cache }) ∧ s.Sound := ⟨⟨s.cache, rfl⟩, hs⟩
  simp only [exec, handler, read, CallTree.run_call, Env.fst_serve_get, Env.snd_serve_get]
  rcases hg : env.read .find (.ok (InodeStore.get s.inodes ino)) with e | (_ | i)
  · exact hsame
  · exact hsame
  dsimp only
  split
  · exact hsame
  obtain ⟨data, hd⟩ := hs.manifests ino i (Env.read_ok_eq_ok hg).2
  have hread : (∃ cache, ((readManifest s.mount i o n).run env.serve s).2 = { s with cache := cache }) ∧
      ((readManifest s.mount i o n).run env.serve s).2.Sound := by
    obtain ⟨⟨cache, hc⟩, hb, -⟩ := run_readManifest hs.backed hf hd s.mount o n
    rw [hc] at hb ⊢
    exact ⟨⟨cache, rfl⟩, sound_withCache hs hb⟩
  simp only [CallTree.run_call, Env.serve_handleGet]
  cases s.handles.get fh with
  | none => exact hread
  | some h =>
    dsimp only
    split
    · exact hsame
    · exact hread

end TgCryptFs

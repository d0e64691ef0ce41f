import TgCryptFs.Fuse.Reading

set_option autoImplicit false

/-!
# What `release` stores

The buffer of a dirty handle becomes one block: a known one, or one that is uploaded and
recorded. Then the row gets a manifest of that block alone and the buffer's length. Each
of these steps may fail, and whatever fails, no data stored before is lost.
-/
namespace TgCryptFs
open Library

variable [Primitives]

namespace Env

/-- The volume is known to hold the bytes. -/
def Dedups (env : Env) (s : System) (data : Bytes) : Prop :=
  env.sql .dedup = true ∧ BlockStore.findByContentHash s.blocks (blake3 data) ≠ none

/-- The transport accepts a message, and its block is recorded. -/
def Uploads (env : Env) (s : System) : Prop :=
  (∃ id, env.upload = some id ∧ s.remote.message id = none) ∧ env.sql .blockInsert = true ∧
  s.blocks.find env.rid = none

def Stores (env : Env) (s : System) (data : Bytes) : Prop :=
  s.mount.transport = true ∧ s.mount.rt = true ∧ (env.Dedups s data ∨ env.Uploads s)

/-- The bytes are stored and the row is rewritten. -/
structure Flushes (env : Env) (s : System) (ino : ℕ) (data : Bytes) : Prop where
  stores : env.Stores s data
  find : env.sql .find = true
  update : env.sql .update = true
  row : s.inodes.find ino ≠ none

end Env

/-- The block is a record of `s` for these bytes. -/
def System.Records (s : System) (block : BlockRecord) (data : Bytes) : Prop :=
  (∃ r, s.blocks.find block.rid = some r ∧ r.messageId = block.messageId) ∧
  s.remote.message block.messageId = some data

theorem holds_flushedManifest {s : System} {block : BlockRecord} {data : Bytes}
    (h : s.Records block data) (ino : ℕ) : s.Holds (some (flushedManifest ino block data)) data := by
  obtain ⟨⟨r, hr, hid⟩, hmsg⟩ := h
  exact .block rfl rfl rfl hr hid hmsg

omit [Primitives] in
theorem blockInsert_eq_ok {t : Blocks} {b : BlockRecord} (h : t.find b.rid = none) :
    ∃ t', BlockStore.insert t b = .ok t' := by
  obtain ⟨t', ht'⟩ := Table.insert_eq_some (t := t) (r := b) h h
  exact ⟨t', by rw [BlockStore.insert, ht']⟩

/-- An attempt to store `data` that succeeds exactly when `ok`: nothing stored before is
    lost, and a block returned is a record of the bytes. -/
structure Attempt (s : System) (data : Bytes) (ok : Prop) (out : Option BlockRecord × System) :
    Prop where
  backed : out.2.Backed
  grows : s.Grows out.2
  records : ∀ block, out.1 = some block → out.2.Records block data
  succeeds : out.1 ≠ none ↔ ok

theorem Attempt.gaveUp {s s' : System} {data : Bytes} {ok : Prop} (hb : s'.Backed) (hg : s.Grows s')
    (hok : ¬ ok) : Attempt s data ok (none, s') :=
  ⟨hb, hg, nofun, fun h => absurd rfl h, fun h => (hok h).elim⟩

theorem attempt_recordBlock {env : Env} {s : System} (hs : s.Backed) (hf : env.Faithful s)
    {b : BlockRecord} {data : Bytes} (hhash : b.contentHash = blake3 data)
    (hmsg : s.remote.message b.messageId = some data) :
    Attempt s data (env.sql .blockInsert = true ∧ s.blocks.find b.rid = none)
      ((recordBlock b data).run env.serve s) := by
  rw [recordBlock, CallTree.run_call, serve_blockInsert]
  rcases ht : env.read .blockInsert (BlockStore.insert s.blocks b) with e | t
  · refine .gaveUp hs (.refl s) ?_
    rintro ⟨hsql, hnone⟩
    obtain ⟨t, ht'⟩ := blockInsert_eq_ok hnone
    rw [Env.read, if_pos hsql, ht'] at ht
    cases ht
  · obtain ⟨hsql, ht⟩ := Env.read_eq_ok ht
    obtain ⟨hb, hg⟩ := backed_writeBlocks_insert hs ht hhash hmsg
    have hfind : (s.writeBlocks t).blocks.find b.rid = some b := by
      rw [System.blocks_writeBlocks, (find_of_blockInsert ht).1, Function.update_self]
    have hf' : env.Faithful (s.writeBlocks t) := ⟨hf.download, hf.cacheCut⟩
    dsimp only
    rw [CallTree.run_call, CallTree.run_ret]
    have hb' := backed_cachePut 0 hb hf' hfind hmsg
    obtain ⟨cache, hc⟩ := snd_serve_cachePut env 0 b.rid data (s.writeBlocks t)
    rw [hc] at hb' ⊢
    refine ⟨hb', hg.trans ⟨fun _ r hr => ⟨r, hr, rfl⟩, fun _ _ h => h⟩, ?_, ?_⟩
    · rintro block hblock
      cases hblock
      exact ⟨⟨b, hfind, rfl⟩, hmsg⟩
    · exact ⟨fun _ => ⟨hsql, (find_of_blockInsert ht).2⟩, fun _ => Option.some_ne_none _⟩

theorem attempt_uploadNew {env : Env} {s : System} (hs : s.Backed) (hf : env.Faithful s) (m : Mount)
    (ino : ℕ) (data : Bytes) :
    Attempt s data (env.Uploads s) ((uploadNew m ino data).run env.serve s) := by
  rw [uploadNew, CallTree.run_call]
  obtain ⟨hb, hg⟩ := backed_upload env data (blockFilename ino (blake3 data)) hs
  have hans : ∀ k, (env.serve (.upload data (blockFilename ino (blake3 data))) s).1 = some k ↔
      env.upload = some k ∧ s.remote.message k = none := fun _ => Remote.upload_eq_some
  have hmsg : ∀ k, (env.serve (.upload data (blockFilename ino (blake3 data))) s).1 = some k →
      (env.serve (.upload data (blockFilename ino (blake3 data))) s).2.remote.message k = some data :=
    fun _ h => Remote.message_of_upload h
  have hblocks :
      (env.serve (.upload data (blockFilename ino (blake3 data))) s).2.blocks = s.blocks := rfl
  have hf' : env.Faithful (env.serve (.upload data (blockFilename ino (blake3 data))) s).2 :=
    ⟨hf.download, hf.cacheCut⟩
  generalize env.serve (.upload data (blockFilename ino (blake3 data))) s = g
    at hb hg hans hmsg hblocks hf' ⊢
  obtain ⟨x, s₁⟩ := g
  dsimp only at hb hg hans hmsg hblocks hf' ⊢
  cases x with
  | none =>
    refine .gaveUp hb hg ?_
    rintro ⟨⟨id, hid⟩, -⟩
    cases (hans id).2 hid
  | some k =>
    rw [CallTree.run_call]
    have h := attempt_recordBlock hb hf'
      (b := { rid := env.rid, contentHash := blake3 data, messageId := k,
              encryptedSize := data.length, epoch := m.currentEpoch, refCount := 1,
              compressed := false }) rfl (hmsg k rfl)
    refine ⟨h.backed, hg.trans h.grows, h.records, h.succeeds.trans ?_⟩
    rw [hblocks]
    exact ⟨fun h => ⟨⟨k, (hans k).1 rfl⟩, h⟩, fun h => h.2⟩

/-- A digest names one byte string, so a known block is the block. -/
theorem attempt_flushToTransport (hinj : Function.Injective blake3) {env : Env} {s : System}
    (hs : s.Backed) (hf : env.Faithful s) (ino : ℕ) (data : Bytes) :
    Attempt s data (env.Stores s data) ((flushToTransport s.mount ino data).run env.serve s) := by
  unfold flushToTransport
  cases ht : s.mount.transport with
  | false => exact .gaveUp hs (.refl s) fun h => by rw [h.1] at ht; cases ht
  | true =>
  cases hrt : s.mount.rt with
  | false => exact .gaveUp hs (.refl s) fun h => by rw [h.2.1] at hrt; cases hrt
  | true =>
  have hup : ¬ env.Dedups s data →
      Attempt s data (env.Stores s data) ((uploadNew s.mount ino data).run env.serve s) := by
    intro hnd
    have h := attempt_uploadNew hs hf s.mount ino data
    refine ⟨h.backed, h.grows, h.records, h.succeeds.trans ?_⟩
    exact ⟨fun h => ⟨ht, hrt, .inr h⟩, fun h => h.2.2.resolve_left hnd⟩
  simp only [Bool.not_true, Bool.false_eq_true, if_false, CallTree.run_call]
  rw [show env.serve (.findByContentHash (blake3 data)) s =
    (env.read .dedup (.ok (BlockStore.findByContentHash s.blocks (blake3 data))), s) from rfl]
  rcases hg : env.read .dedup (.ok (BlockStore.findByContentHash s.blocks (blake3 data)))
    with e | (_ | r)
  · exact hup fun h => by simp [Env.read, h.1] at hg
  · exact hup fun h => h.2 (Env.read_ok_eq_ok hg).2
  · obtain ⟨hsql, hr⟩ := Env.read_ok_eq_ok hg
    obtain ⟨hmem, hhash⟩ := findByContentHash_eq_some hr
    have hfind := Table.find_of_mem hmem
    obtain ⟨d, hd, hmsg, -⟩ := hs.records r.rid r hfind
    obtain rfl : d = data := hinj (hd.trans hhash)
    obtain ⟨hb, hgr⟩ := backed_incrementRef env r.rid hs
    refine ⟨hb, hgr, ?_, ?_⟩
    · rintro block hblock
      cases hblock
      exact ⟨hgr.blocks _ _ hfind, hgr.messages _ _ hmsg⟩
    · have hdedup : env.Dedups s d := ⟨hsql, by rw [hr]; exact Option.some_ne_none _⟩
      exact ⟨fun _ => ⟨ht, hrt, .inl hdedup⟩, fun _ => Option.some_ne_none _⟩

/-- The row of a file just flushed. -/
def Inode.flushed (i : Inode) (ino : ℕ) (block : BlockRecord) (data : Bytes) : Inode :=
  { i with manifest := some (flushedManifest ino block data), size := data.length }

/-- The two ways a flush can end: the row is as before, or it is that of the buffer. -/
structure FlushOutcome (env : Env) (s : System) (ino : ℕ) (data : Bytes) (s' : System) : Prop where
  backed : s'.Backed
  grows : s.Grows s'
  kept : ¬ env.Flushes s ino data → s'.inodes = s.inodes
  flushed : env.Flushes s ino data → ∃ i block, s.inodes.find ino = some i ∧ s'.Records block data ∧
    s'.inodes.find = Function.update s.inodes.find ino (some (i.flushed ino block data))

theorem FlushOutcome.sound {env : Env} {s s' : System} {ino : ℕ} {data : Bytes}
    (h : FlushOutcome env s ino data s') (hs : s.Sound) : s'.Sound := by
  by_cases hf : env.Flushes s ino data
  · obtain ⟨i, block, -, hrec, hfind⟩ := h.flushed hf
    refine ⟨h.backed, fun n x hx => ?_⟩
    rw [hfind, Function.update_apply] at hx
    split at hx
    · cases hx
      exact ⟨data, holds_flushedManifest hrec ino⟩
    · obtain ⟨d, hd⟩ := hs.manifests n x hx
      exact ⟨d, hd.mono h.grows⟩
  · exact hs.mono h.grows h.backed (h.kept hf)

theorem flushOutcome_flushHandle (hinj : Function.Injective blake3) {env : Env} {s : System}
    (hs : s.Backed) (hf : env.Faithful s) (ino : ℕ) (data : Bytes) :
    FlushOutcome env s ino data ((flushHandle s.mount ino data).run env.serve s).2 := by
  rw [flushHandle, CallTree.run_bind]
  have hat := attempt_flushToTransport hinj hs hf ino data
  have hsame := sameInodes_run env _ ((uses_flushToTransport s.mount ino data).mono fun _ h => h.1) s
  generalize (flushToTransport s.mount ino data).run env.serve s = u at hat hsame ⊢
  obtain ⟨x, s₁⟩ := u
  obtain ⟨hb, hg, hrec, hsucc⟩ := hat
  dsimp only at hb hg hrec hsucc hsame ⊢
  have hkept : ¬ env.Flushes s ino data → FlushOutcome env s ino data s₁ := fun hn =>
    ⟨hb, hg, fun _ => hsame.inodes, fun h => (hn h).elim⟩
  cases x with
  | none => exact hkept fun h => (hsucc.2 h.stores) rfl
  | some block =>
    simp only [CallTree.run_call, Env.snd_serve_get, Env.fst_serve_get, InodeStore.get, hsame.inodes]
    rcases hget : env.read .find (.ok (s.inodes.find ino)) with e | (_ | i)
    · exact hkept fun h => by simp [Env.read, h.find] at hget
    · exact hkept fun h => h.row (Env.read_ok_eq_ok hget).2
    obtain ⟨hfind, hi⟩ := Env.read_ok_eq_ok hget
    simp only [CallTree.run_call, CallTree.run_ret, Env.snd_serve_update, hsame.inodes]
    change FlushOutcome env s ino data
      (s₁.writeInodes (env.tryUpdate .update s.inodes (i.flushed ino block data)))
    have hd := s₁.sameData_writeInodes (env.tryUpdate .update s.inodes (i.flushed ino block data))
    refine ⟨hd.backed hb, hg.trans hd.grows, fun hn => ?_, fun hfl => ?_⟩
    · have hsql : env.sql .update = false := by
        by_contra h
        rw [Bool.not_eq_false] at h
        exact hn ⟨hsucc.1 (Option.some_ne_none _), hfind, h, by rw [hi]; exact Option.some_ne_none _⟩
      simp [Env.tryUpdate, Env.read, hsql]
    · have he : i.SameEntry (i.flushed ino block data) := ⟨rfl, rfl, rfl, rfl, rfl, rfl, rfl⟩
      obtain ⟨t, ht, hft⟩ := update_sameEntry hi he
      obtain ⟨hr, hm⟩ := hrec block rfl
      refine ⟨i, block, hi, ⟨?_, ?_⟩, ?_⟩
      · rw [System.blocks_writeInodes]
        exact hr
      · exact hm
      · rw [System.inodes_writeInodes, tryUpdate_of_ok hfl.update ht, hft]

/-- The handle has bytes to flush, and there is somewhere to flush them to. -/
def System.HasToFlush (s : System) (fh : ℕ) (data : Bytes) : Prop :=
  (∃ h, s.handles.get fh = some h ∧ h.dirty = true ∧ h.writeBuffer = data) ∧ data ≠ [] ∧
  s.mount.transport = true ∧ s.mount.rt = true

theorem run_flushHandle_offline {env : Env} {s : System} (h : s.mount.rt = false) (ino : ℕ)
    (data : Bytes) : (flushHandle s.mount ino data).run env.serve s = ((), s) := by
  have hflush : flushToTransport s.mount ino data = .ret none := by
    unfold flushToTransport
    split
    · rfl
    · rw [h]
      rfl
  rw [flushHandle, hflush]
  rfl

/-- `release` replies ok in every case and closes the handle; nothing else happens to a
    volume without transport or runtime. -/
theorem exec_release (hinj : Function.Injective blake3) {env : Env} {s : System} (hs : s.Backed)
    (hf : env.Faithful s) (ino fh : ℕ) :
    (exec env (.release ino fh) s).1 = .ok ∧
    (exec env (.release ino fh) s).2.handles = (s.handles.close fh).2 ∧
    ((∃ data, s.HasToFlush fh data ∧ FlushOutcome env s ino data (exec env (.release ino fh) s).2) ∨
      (∀ data, ¬ s.HasToFlush fh data) ∧
      (exec env (.release ino fh) s).2 = { s with handles := (s.handles.close fh).2 }) := by
  refine ⟨by rw [exec, handler, release, CallTree.run_bind]; rfl, handles_release env s ino fh, ?_⟩
  have hexec : (exec env (.release ino fh) s).2 =
      { ((flushOpen s.mount ino fh).run env.serve s).2 with
        handles := (((flushOpen s.mount ino fh).run env.serve s).2.handles.close fh).2 } := by
    rw [exec, handler, release, CallTree.run_bind]
    rfl
  rw [hexec, handles_run env _ (uses_flushOpen s.mount ino fh), flushOpen, CallTree.run_call,
    Env.serve_handleGet]
  cases hh : s.handles.get fh with
  | none =>
    refine .inr ⟨?_, rfl⟩
    rintro data ⟨⟨h, hget, -⟩, -⟩
    rw [hh] at hget
    cases hget
  | some h =>
    have hidle : ∀ data, s.HasToFlush fh data → h.dirty = true ∧ h.writeBuffer ≠ [] ∧
        s.mount.transport = true ∧ s.mount.rt = true := by
      rintro data ⟨⟨h', hget, hd, rfl⟩, hne, hm⟩
      rw [hh] at hget
      cases hget
      exact ⟨hd, hne, hm⟩
    dsimp only
    split
    · rename_i hc
      simp only [Bool.and_eq_true, Bool.not_eq_true', List.isEmpty_eq_false_iff] at hc
      cases hrt : s.mount.rt with
      | true =>
        refine .inl ⟨h.writeBuffer, ⟨⟨h, hh, hc.1.1, rfl⟩, hc.1.2, hc.2, hrt⟩, ?_⟩
        obtain ⟨h₁, h₂, h₃, h₄⟩ := flushOutcome_flushHandle hinj hs hf ino h.writeBuffer
        exact ⟨⟨h₁.records, h₁.cached⟩, ⟨h₂.blocks, h₂.messages⟩, h₃, h₄⟩
      | false =>
        rw [run_flushHandle_offline hrt]
        exact .inr ⟨fun data hflush => (by rw [(hidle data hflush).2.2.2] at hrt; cases hrt), rfl⟩
    · rename_i hc
      refine .inr ⟨fun data hflush => hc ?_, rfl⟩
      obtain ⟨hd, hne, ht, -⟩ := hidle data hflush
      simp [hd, ht, hne]

theorem exec_release_unbuffered {env : Env} {s : System} {fh : ℕ} (h : s.Unbuffered fh) (ino : ℕ) :
    (exec env (.release ino fh) s).2 = { s with handles := (s.handles.close fh).2 } := by
  have hopen : (flushOpen s.mount ino fh).run env.serve s = ((), s) := by
    rw [flushOpen, CallTree.run_call, Env.serve_handleGet]
    cases hh : s.handles.get fh with
    | none => rfl
    | some f =>
      simp only [h f hh, List.isEmpty_nil, Bool.not_true, Bool.and_false, Bool.false_and,
        Bool.false_eq_true, if_false]
      rfl
  rw [exec, handler, release, CallTree.run_bind, hopen]
  rfl

theorem sound_release (hinj : Function.Injective blake3) {env : Env} {s : System} (hs : s.Sound)
    (hf : env.Faithful s) (ino fh : ℕ) : (exec env (.release ino fh) s).2.Sound := by
  obtain ⟨-, -, ⟨data, -, hout⟩ | ⟨-, he⟩⟩ := exec_release hinj hs.backed hf ino fh
  · exact hout.sound hs
  · rw [he]
    have hd : s.SameData { s with handles := (s.handles.close fh).2 } := ⟨rfl, rfl, rfl, rfl⟩
    exact hs.mono hd.grows (hd.backed hs.backed) rfl

/-! ## Over a run -/

theorem sound_step (hinj : Function.Injective blake3) {e : Event} {s : System} (hs : s.Sound)
    (hf : e.env.Faithful s) : (e.step s).Sound := by
  obtain ⟨env, req⟩ := e
  cases hreq : req.movesData with
  | false =>
    have hd := sameData_exec env hreq s
    refine ⟨hd.backed hs.backed, ?_⟩
    have hrep : req.replacesData = false := by cases req <;> first | rfl | cases hreq
    refine allManifests_exec ?_ ?_ hrep ?_
    · exact ⟨[], .none⟩
    · exact fun ino => ⟨[], .empty rfl⟩
    · intro n i hi
      obtain ⟨data, hdata⟩ := hs.manifests n i hi
      exact ⟨data, hdata.mono hd.grows⟩
  | true =>
    cases req with
    | read ino fh offset size => exact (exec_read hs hf ino fh offset size).2
    | release ino fh => exact sound_release hinj hs hf ino fh
    | _ => cases hreq

/-- No request loses what is stored. -/
theorem grows_step (hinj : Function.Injective blake3) {e : Event} {s : System} (hs : s.Sound)
    (hf : e.env.Faithful s) : s.Grows (e.step s) := by
  obtain ⟨env, req⟩ := e
  cases hreq : req.movesData with
  | false => exact (sameData_exec env hreq s).grows
  | true =>
    cases req with
    | read ino fh offset size =>
      obtain ⟨⟨cache, hc⟩, -⟩ := exec_read hs hf ino fh offset size
      change s.Grows (exec env (.read ino fh offset size) s).2
      rw [hc]
      exact ⟨fun _ r hr => ⟨r, hr, rfl⟩, fun _ _ h => h⟩
    | release ino fh =>
      change s.Grows (exec env (.release ino fh) s).2
      obtain ⟨-, -, ⟨data, -, hout⟩ | ⟨-, he⟩⟩ := exec_release hinj hs.backed hf ino fh
      · exact hout.grows
      · rw [he]
        exact ⟨fun _ r hr => ⟨r, hr, rfl⟩, fun _ _ h => h⟩
    | _ => cases hreq

theorem sound_fresh (m : Mount) {cache : Option BlockCache} (hc : ∀ c ∈ cache, c.entries = []) :
    (System.fresh m cache).Sound := by
  refine ⟨⟨fun rid r h => (by cases h), fun c rid h hrid => ?_⟩, fun n i h => (by cases h)⟩
  rw [BlockCache.contains, hc c h] at hrid
  cases hrid

/-- What happens to a volume: a request is served, or the volume is mounted anew. -/
inductive Life where
  | serve (e : Event)
  | remount (m : Mount) (cache : Option BlockCache)

namespace Life

/-- A new mount has no open handles and a cache index without entries. -/
def step : Life → System → System
  | .serve e, s => e.step s
  | .remount m cache, s => ⟨m, s.conn, .new, cache, s.remote⟩

def Admitted : Life → System → Prop
  | .serve e, s => e.env.Faithful s
  | .remount _ cache, s => s.conn.IsAutocommit ∧ ∀ c ∈ cache, c.entries = []

end Life

/-- A state some volume can come to, over every request, every failure and every
    configuration of its mounts. -/
def Reachable (s : System) : Prop :=
  ∃ m cache, (∀ c ∈ cache, c.entries = []) ∧ Runs Life.step Life.Admitted (.fresh m cache) s

theorem backed_remount {s : System} (hs : s.Backed) (m : Mount) {cache : Option BlockCache}
    (hc : ∀ c ∈ cache, c.entries = []) : (Life.step (.remount m cache) s).Backed where
  records rid r hr := by
    obtain ⟨data, hhash, hmsg, -⟩ := hs.records rid r hr
    refine ⟨data, hhash, hmsg, fun c h hrid => ?_⟩
    rw [BlockCache.contains, hc c h] at hrid
    cases hrid
  cached c rid h hrid := by
    rw [BlockCache.contains, hc c h] at hrid
    cases hrid

theorem sound_of_reachable (hinj : Function.Injective blake3) {s : System} (h : Reachable s) :
    s.Sound := by
  obtain ⟨m, cache, hc, hrun⟩ := h
  refine hrun.invariant System.Sound (sound_fresh m hc) fun l s hs ha => ?_
  cases l with
  | serve e => exact sound_step hinj hs ha
  | remount m cache =>
    have hg : s.Grows (Life.step (.remount m cache) s) :=
      ⟨fun _ r hr => ⟨r, hr, rfl⟩, fun _ _ h => h⟩
    exact hs.mono hg (backed_remount hs.backed m ha.2) rfl

end TgCryptFs

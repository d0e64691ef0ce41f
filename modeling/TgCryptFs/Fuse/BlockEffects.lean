import TgCryptFs.Fuse.Flushing

set_option autoImplicit false

/-!
# What a request does to the block table

A flush finds a record and counts it once more, or inserts a new one, or leaves the table
alone; no other request touches it. `ReleaseEffect` is this together with what becomes of
the row.
-/
namespace TgCryptFs
open Library

variable [Primitives]

/-- The record of bytes uploaded under the id `messageId`. -/
def freshRecord (env : Env) (m : Mount) (data : Bytes) (messageId : ℤ) : BlockRecord :=
  { rid := env.rid, contentHash := blake3 data, messageId, encryptedSize := data.length,
    epoch := m.currentEpoch, refCount := 1, compressed := false }

/-- The ways a flush of `data` can change the table `t`, with the record it returns. -/
inductive BlockChange (env : Env) (m : Mount) (t : Blocks) (data : Bytes) :
    Option BlockRecord → Blocks → Prop where
  | kept : BlockChange env m t data none t
  | known {r : BlockRecord} (hr : BlockStore.findByContentHash t (blake3 data) = some r) :
      BlockChange env m t data (some r)
        (if env.sql .incrementRef then BlockStore.incrementRef t r.rid else t)
  | fresh {id : ℤ} {t' : Blocks}
      (ht : BlockStore.insert t (freshRecord env m data id) = .ok t') :
      BlockChange env m t data (some (freshRecord env m data id)) t'

theorem blocks_cachePut (env : Env) (i : ℕ) (rid data : Bytes) (s : System) :
    (env.serve (.cachePut i rid data) s).2.blocks = s.blocks := by
  obtain ⟨cache, h⟩ := snd_serve_cachePut env i rid data s
  rw [h]
  rfl

theorem blockChange_recordBlock (env : Env) (m : Mount) (data : Bytes) (id : ℤ) (s : System) :
    BlockChange env m s.blocks data
      ((recordBlock (freshRecord env m data id) data).run env.serve s).1
      ((recordBlock (freshRecord env m data id) data).run env.serve s).2.blocks := by
  rw [recordBlock, CallTree.run_call, serve_blockInsert]
  rcases ht : env.read .blockInsert (BlockStore.insert s.blocks (freshRecord env m data id)) with e | t
  · exact .kept
  · dsimp only
    rw [CallTree.run_call, CallTree.run_ret, blocks_cachePut, System.blocks_writeBlocks]
    exact .fresh (Env.read_eq_ok ht).2

theorem blockChange_uploadNew (env : Env) (m : Mount) (ino : ℕ) (data : Bytes) (s : System) :
    BlockChange env m s.blocks data ((uploadNew m ino data).run env.serve s).1
      ((uploadNew m ino data).run env.serve s).2.blocks := by
  rw [uploadNew, CallTree.run_call]
  have hb : (env.serve (.upload data (blockFilename ino (blake3 data))) s).2.blocks = s.blocks := rfl
  generalize env.serve (.upload data (blockFilename ino (blake3 data))) s = g at hb ⊢
  obtain ⟨x, s₁⟩ := g
  rw [← hb]
  cases x with
  | none => exact .kept
  | some id =>
    dsimp only
    rw [CallTree.run_call]
    exact blockChange_recordBlock env m data id s₁

theorem blockChange_flushToTransport (env : Env) (m : Mount) (ino : ℕ) (data : Bytes)
    (s : System) :
    BlockChange env m s.blocks data ((flushToTransport m ino data).run env.serve s).1
      ((flushToTransport m ino data).run env.serve s).2.blocks := by
  unfold flushToTransport
  split
  · exact .kept
  split
  · exact .kept
  rw [CallTree.run_call, show env.serve (.findByContentHash (blake3 data)) s =
    (env.read .dedup (.ok (BlockStore.findByContentHash s.blocks (blake3 data))), s) from rfl]
  rcases hg : env.read .dedup (.ok (BlockStore.findByContentHash s.blocks (blake3 data)))
    with e | (_ | r)
  · exact blockChange_uploadNew env m ino data s
  · exact blockChange_uploadNew env m ino data s
  · have hcount : (env.serve (.incrementRef r.rid) s).2.blocks =
        if env.sql .incrementRef then BlockStore.incrementRef s.blocks r.rid else s.blocks := by
      simp only [Env.serve, Env.modifyBlocks, Env.read]
      cases env.sql .incrementRef with
      | false => rfl
      | true => exact s.blocks_writeBlocks _
    dsimp only
    rw [CallTree.run_call, CallTree.run_ret, hcount]
    exact .known (Env.read_ok_eq_ok hg).2

/-- What `release` does to the tables: there is nothing to flush; or the block table may have
    changed and the row not; or the row has become that of the buffer. -/
inductive ReleaseEffect (env : Env) (s : System) (ino fh : ℕ) : System → Prop where
  | idle {s' : System} (hflush : ∀ data, ¬ s.HasToFlush fh data) (hb : s'.blocks = s.blocks)
      (hi : s'.inodes = s.inodes) : ReleaseEffect env s ino fh s'
  | unstored {s' : System} {data : Bytes} {out : Option BlockRecord}
      (hflush : s.HasToFlush fh data) (hb : BlockChange env s.mount s.blocks data out s'.blocks)
      (hi : s'.inodes = s.inodes)
      (hwhy : out ≠ none →
        env.sql .find = false ∨ env.sql .update = false ∨ s.inodes.find ino = none) :
      ReleaseEffect env s ino fh s'
  | stored {s' : System} {data : Bytes} {block : BlockRecord} {i : Inode}
      (hflush : s.HasToFlush fh data)
      (hb : BlockChange env s.mount s.blocks data (some block) s'.blocks)
      (hrow : s.inodes.find ino = some i)
      (hi : s'.inodes.find =
        Function.update s.inodes.find ino (some (i.flushed ino block data))) :
      ReleaseEffect env s ino fh s'

theorem releaseEffect_flushHandle {env : Env} {s : System} {fh : ℕ} {data : Bytes}
    (hflush : s.HasToFlush fh data) (ino : ℕ) :
    ReleaseEffect env s ino fh ((flushHandle s.mount ino data).run env.serve s).2 := by
  rw [flushHandle, CallTree.run_bind]
  have hb := blockChange_flushToTransport env s.mount ino data s
  have hsame := sameInodes_run env _ ((uses_flushToTransport s.mount ino data).mono fun _ h => h.1) s
  generalize (flushToTransport s.mount ino data).run env.serve s = u at hb hsame ⊢
  obtain ⟨x, s₁⟩ := u
  dsimp only at hb hsame ⊢
  cases x with
  | none => exact .unstored hflush hb hsame.inodes fun h => (h rfl).elim
  | some block =>
    simp only [CallTree.run_call, Env.snd_serve_get, Env.fst_serve_get, InodeStore.get, hsame.inodes]
    rcases hget : env.read .find (.ok (s.inodes.find ino)) with e | (_ | i)
    · refine .unstored hflush hb hsame.inodes fun _ => .inl ?_
      by_contra h
      rw [Bool.not_eq_false] at h
      simp [Env.read, h] at hget
    · exact .unstored hflush hb hsame.inodes fun _ => .inr (.inr (Env.read_ok_eq_ok hget).2)
    · have hi := (Env.read_ok_eq_ok hget).2
      simp only [CallTree.run_call, CallTree.run_ret, Env.snd_serve_update, hsame.inodes]
      change ReleaseEffect env s ino fh
        (s₁.writeInodes (env.tryUpdate .update s.inodes (i.flushed ino block data)))
      have he : i.SameEntry (i.flushed ino block data) := ⟨rfl, rfl, rfl, rfl, rfl, rfl, rfl⟩
      obtain ⟨t, ht, hft⟩ := update_sameEntry hi he
      cases hsql : env.sql .update with
      | false =>
        refine .unstored hflush (by rwa [System.blocks_writeInodes]) ?_ fun _ => .inr (.inl hsql)
        simp [Env.tryUpdate, Env.read, hsql]
      | true =>
        refine .stored hflush (by rwa [System.blocks_writeInodes]) hi ?_
        rw [System.inodes_writeInodes, tryUpdate_of_ok hsql ht, hft]

theorem releaseEffect_exec (env : Env) (s : System) (ino fh : ℕ) :
    ReleaseEffect env s ino fh (exec env (.release ino fh) s).2 := by
  have hexec : (exec env (.release ino fh) s).2 =
      { ((flushOpen s.mount ino fh).run env.serve s).2 with
        handles := (((flushOpen s.mount ino fh).run env.serve s).2.handles.close fh).2 } := by
    rw [exec, handler, release, CallTree.run_bind]
    rfl
  have hidle : (∀ data, ¬ s.HasToFlush fh data) →
      ((flushOpen s.mount ino fh).run env.serve s).2 = s →
      ReleaseEffect env s ino fh (exec env (.release ino fh) s).2 := by
    intro hn he
    rw [hexec, he]
    exact .idle hn rfl rfl
  have hflush : ∀ data, s.HasToFlush fh data → ((flushOpen s.mount ino fh).run env.serve s).2 =
      ((flushHandle s.mount ino data).run env.serve s).2 →
      ReleaseEffect env s ino fh (exec env (.release ino fh) s).2 := by
    intro data hd he
    rw [hexec, he]
    cases @releaseEffect_flushHandle _ env s fh data hd ino with
    | idle hn => exact (hn data hd).elim
    | unstored hflush hb hi hwhy => exact .unstored hflush hb hi hwhy
    | stored hflush hb hrow hi => exact .stored hflush hb hrow hi
  rw [flushOpen, CallTree.run_call, Env.serve_handleGet] at hidle hflush
  cases hh : s.handles.get fh with
  | none =>
    rw [hh] at hidle
    refine hidle ?_ rfl
    rintro data ⟨⟨h, hget, -⟩, -⟩
    rw [hh] at hget
    cases hget
  | some h =>
    rw [hh] at hidle hflush
    dsimp only at hidle hflush
    by_cases hd : s.HasToFlush fh h.writeBuffer
    · obtain ⟨⟨h', hget, hdirty, -⟩, hne, ht, -⟩ := id hd
      rw [hh] at hget
      cases hget
      refine hflush h.writeBuffer hd ?_
      rw [if_pos (by simp [hdirty, hne, ht])]
    · have hn : ∀ data, ¬ s.HasToFlush fh data := by
        rintro data ⟨⟨h', hget, hdirty, rfl⟩, hrest⟩
        rw [hh] at hget
        cases hget
        exact hd ⟨⟨h, hh, hdirty, rfl⟩, hrest⟩
      refine hidle hn ?_
      split
      · rename_i hc
        simp only [Bool.and_eq_true, Bool.not_eq_true', List.isEmpty_eq_false_iff] at hc
        have hrt : s.mount.rt = false := by
          by_contra hrt
          rw [Bool.not_eq_false] at hrt
          exact hd ⟨⟨h, hh, hc.1.1, rfl⟩, hc.1.2, hc.2, hrt⟩
        rw [run_flushHandle_offline hrt]
      · rfl

theorem snd_exec_read (env : Env) (s : System) (ino fh o n : ℕ) :
    ∃ cache, (exec env (.read ino fh o n) s).2 = { s with cache := cache } := by
  have hstep : ∀ (op : Op) (s' : System), op.cacheOnly = true →
      (∃ cache, s' = { s with cache := cache }) →
      ∃ cache, (env.serve op s').2 = { s with cache := cache } := by
    rintro op s' hop ⟨cache, rfl⟩
    cases op with
    | get | handleGet | download => exact ⟨cache, rfl⟩
    | cacheGet i rid => cases cache <;> exact ⟨_, rfl⟩
    | cachePut i rid data => cases cache <;> exact ⟨_, rfl⟩
    | _ => cases hop
  exact CallTree.always_run env.serve _ _ s (CallTree.always_of_uses env.serve
    (fun s' => ∃ cache, s' = { s with cache := cache }) _ hstep _ (uses_read s.mount ino fh o n) s
    ⟨s.cache, rfl⟩)

/-- The block table changes under `release` alone. -/
theorem blocks_exec {env : Env} {req : Request} (hreq : req.replacesData = false) (s : System) :
    (exec env req s).2.blocks = s.blocks := by
  cases hm : req.movesData with
  | false => exact (sameData_exec env hm s).blocks
  | true =>
    cases req with
    | read ino fh o n =>
      obtain ⟨cache, h⟩ := snd_exec_read env s ino fh o n
      rw [h]
      rfl
    | release ino fh => cases hreq
    | _ => cases hm

end TgCryptFs

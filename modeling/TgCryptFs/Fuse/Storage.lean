import TgCryptFs.Fuse.DataEffects

set_option autoImplicit false

/-!
# Stored blocks and what they are read as

Every block record stands for a message the transport keeps, the cache returns nothing
else for it, and every manifest is empty or points to one record. This holds in every
reachable state, whichever statements, uploads and disk accesses fail.
-/
namespace TgCryptFs
open Library

namespace Remote

theorem message_upload (r : Remote) (id : Option ℤ) (data : Bytes) (filename : String) {k : ℤ}
    {d : Bytes} (h : r.message k = some d) : (r.upload id data filename).2.message k = some d := by
  unfold upload
  cases id with
  | none => exact h
  | some id =>
    dsimp only
    split
    · exact h
    · rename_i hid
      have hne : ¬ id = k := by
        rintro rfl
        rw [message] at h hid
        rw [h] at hid
        exact hid rfl
      simpa [message, hne] using h

theorem upload_eq_some {r : Remote} {id : Option ℤ} {data : Bytes} {filename : String} {k : ℤ} :
    (r.upload id data filename).1 = some k ↔ id = some k ∧ r.message k = none := by
  cases id with
  | none => simp [upload]
  | some id =>
    change (if (r.message id).isSome = true then _ else _ : Option ℤ × Remote).1 = some k ↔ _
    cases h : r.message id with
    | none =>
      simp only [Option.isSome_none, Bool.false_eq_true, if_false, Option.some.injEq]
      exact ⟨fun e => ⟨e, e ▸ h⟩, And.left⟩
    | some d =>
      simp only [Option.isSome_some, if_true, Option.some.injEq]
      refine ⟨nofun, ?_⟩
      rintro ⟨rfl, hk⟩
      rw [h] at hk
      cases hk

theorem message_of_upload {r : Remote} {id : Option ℤ} {data : Bytes} {filename : String} {k : ℤ}
    (h : (r.upload id data filename).1 = some k) :
    (r.upload id data filename).2.message k = some data := by
  unfold upload at h ⊢
  cases id with
  | none => cases h
  | some id =>
    dsimp only at h ⊢
    split at h
    · cases h
    · rename_i hid
      cases h
      rw [if_neg hid]
      simp [message]

end Remote

variable [Primitives]

namespace System

/-- The records are those of messages kept, and the cache agrees with them. -/
structure Backed (s : System) : Prop where
  records : ∀ rid r, s.blocks.find rid = some r → ∃ data, blake3 data = r.contentHash ∧
    s.remote.message r.messageId = some data ∧ ∀ c, s.cache = some c → c.Serves rid data
  cached : ∀ c rid, s.cache = some c → c.contains rid = true → ∃ r, s.blocks.find rid = some r

/-- The bytes a manifest stands for. -/
inductive Holds (s : System) : Option FileManifest → Bytes → Prop where
  | none : Holds s none []
  | empty {m : FileManifest} (hb : m.blocks = []) : Holds s (some m) []
  | block {m : FileManifest} {bp : BlockPointer} {r : BlockRecord} {data : Bytes}
      (hb : m.blocks = [bp]) (hoff : bp.fileOffset = 0) (hlen : bp.length = data.length)
      (hr : s.blocks.find bp.rid = some r) (hid : r.messageId = bp.messageId)
      (hmsg : s.remote.message bp.messageId = some data) : Holds s (some m) data

structure Sound (s : System) : Prop where
  backed : s.Backed
  manifests : AllManifests (fun m => ∃ data, s.Holds m data) s.inodes

/-- Records and messages of `s` are there in `s'`. -/
structure Grows (s s' : System) : Prop where
  blocks : ∀ rid r, s.blocks.find rid = some r →
    ∃ r', s'.blocks.find rid = some r' ∧ r'.messageId = r.messageId
  messages : ∀ id data, s.remote.message id = some data → s'.remote.message id = some data

theorem Grows.refl (s : System) : s.Grows s := ⟨fun _ r h => ⟨r, h, rfl⟩, fun _ _ h => h⟩

theorem Grows.trans {a b c : System} (h : a.Grows b) (h' : b.Grows c) : a.Grows c where
  blocks rid r hr := by
    obtain ⟨r₁, hr₁, e₁⟩ := h.blocks rid r hr
    obtain ⟨r₂, hr₂, e₂⟩ := h'.blocks rid r₁ hr₁
    exact ⟨r₂, hr₂, e₂.trans e₁⟩
  messages id data hd := h'.messages id data (h.messages id data hd)

theorem SameData.grows {s s' : System} (h : s.SameData s') : s.Grows s' where
  blocks rid r hr := ⟨r, by rw [h.blocks]; exact hr, rfl⟩
  messages id data hd := by rw [h.remote]; exact hd

theorem SameData.backed {s s' : System} (h : s.SameData s') (hs : s.Backed) : s'.Backed where
  records rid r hr := by
    rw [h.blocks] at hr
    rw [h.remote, h.cache]
    exact hs.records rid r hr
  cached c rid hc hrid := by
    rw [h.cache] at hc
    rw [h.blocks]
    exact hs.cached c rid hc hrid

theorem Holds.mono {s s' : System} (h : s.Grows s') {m : Option FileManifest} {data : Bytes}
    (hd : s.Holds m data) : s'.Holds m data := by
  cases hd with
  | none => exact .none
  | empty hb => exact .empty hb
  | block hb hoff hlen hr hid hmsg =>
    obtain ⟨r', hr', e⟩ := h.blocks _ _ hr
    exact .block hb hoff hlen hr' (e.trans hid) (h.messages _ _ hmsg)

theorem Sound.mono {s s' : System} (hs : s.Sound) (h : s.Grows s') (hb : s'.Backed)
    (hi : s'.inodes = s.inodes) : s'.Sound := by
  refine ⟨hb, fun n i hn => ?_⟩
  rw [hi] at hn
  obtain ⟨data, hd⟩ := hs.manifests n i hn
  exact ⟨data, hd.mono h⟩

/-- Whether the cache encrypts, where there is one. -/
def atRest (s : System) : Option Bool := s.cache.map (·.encryptAtRest)

end System

/-- The transport serves what it accepted, and a failing disk write leaves nothing in the
    file of an unencrypted cache that was not meant to be there. -/
structure Env.Faithful (env : Env) (s : System) : Prop where
  download : ∀ i data, env.download i ≠ .substituted data
  cacheCut : s.atRest = some false → ∀ i, env.cacheCut i = none

theorem config_serve (env : Env) (o : Op) (s : System) :
    (env.serve o s).2.mount = s.mount ∧ (env.serve o s).2.atRest = s.atRest := by
  cases o with
  | begin =>
    rw [Env.serve_begin]
    split <;> exact ⟨rfl, rfl⟩
  | insert i =>
    rw [Env.serve_insert]
    split <;> exact ⟨rfl, rfl⟩
  | update site i =>
    rw [Env.serve_update]
    split <;> exact ⟨rfl, rfl⟩
  | delete site ino =>
    rw [Env.serve_delete]
    split <;> exact ⟨rfl, rfl⟩
  | incrementRef | blockInsert =>
    simp only [Env.serve, Env.modifyBlocks]
    split <;> exact ⟨rfl, rfl⟩
  | cacheGet i rid =>
    simp only [Env.serve]
    split
    · exact ⟨rfl, rfl⟩
    · rename_i c hc
      simp [System.atRest, hc, BlockCache.snd_get]
  | cachePut i rid data =>
    simp only [Env.serve]
    split
    · exact ⟨rfl, rfl⟩
    · rename_i c hc
      simp [System.atRest, hc]
  | _ => exact ⟨rfl, rfl⟩

/-- No handler changes the mount, or whether the cache encrypts. -/
theorem config_run {α : Type} (env : Env) (p : Fuse α) (s : System) :
    (p.run env.serve s).2.mount = s.mount ∧ (p.run env.serve s).2.atRest = s.atRest := by
  induction p generalizing s with
  | ret a => exact ⟨rfl, rfl⟩
  | call o k ih =>
    obtain ⟨hm, hc⟩ := config_serve env o s
    obtain ⟨hm', hc'⟩ := ih (env.serve o s).1 (env.serve o s).2
    exact ⟨hm'.trans hm, hc'.trans hc⟩

/-! ## The calls on the stored data -/

theorem backed_cacheGet (env : Env) (i : ℕ) (rid : Bytes) {s : System} (hs : s.Backed) :
    (env.serve (.cacheGet i rid) s).2.Backed := by
  simp only [Env.serve]
  split
  · exact hs
  · rename_i c hc
    rw [BlockCache.snd_get]
    refine ⟨fun k r hr => ?_, fun c' k hc' hk => ?_⟩
    · obtain ⟨data, hh, hm, hserves⟩ := hs.records k r hr
      refine ⟨data, hh, hm, fun c' hc' => ?_⟩
      cases hc'
      exact BlockCache.touch_serves (hserves c hc) rid
    · cases hc'
      rw [BlockCache.contains_touch] at hk
      exact hs.cached c k hc hk

theorem backed_cachePut {env : Env} (i : ℕ) {rid data : Bytes} {s : System} (hs : s.Backed)
    (hf : env.Faithful s) {r : BlockRecord} (hr : s.blocks.find rid = some r)
    (hmsg : s.remote.message r.messageId = some data) :
    (env.serve (.cachePut i rid data) s).2.Backed := by
  simp only [Env.serve]
  split
  · exact hs
  · rename_i c hc
    have hcut : c.encryptAtRest = true ∨ env.cacheCut i = none := by
      cases he : c.encryptAtRest with
      | true => exact .inl rfl
      | false => exact .inr (hf.cacheCut (by rw [System.atRest, hc, Option.map_some, he]) i)
    refine ⟨fun k r' hr' => ?_, fun c' k hc' hk => ?_⟩
    · obtain ⟨d, hh, hm, hserves⟩ := hs.records k r' hr'
      refine ⟨d, hh, hm, fun c' hc' => ?_⟩
      cases hc'
      by_cases hk : k = rid
      · subst hk
        have hrr : r' = r := Option.some.inj (hr'.symm.trans hr)
        subst hrr
        have hd : d = data := Option.some.inj (hm.symm.trans hmsg)
        subst hd
        exact BlockCache.put_serves_self (hserves c hc) _ hcut
      · exact BlockCache.put_serves_other hk (hserves c hc) _ _ _
    · cases hc'
      rcases BlockCache.contains_put hk with rfl | hk
      · exact ⟨r, hr⟩
      · exact hs.cached c k hc hk

theorem backed_upload (env : Env) (data : Bytes) (filename : String) {s : System} (hs : s.Backed) :
    (env.serve (.upload data filename) s).2.Backed ∧ s.Grows (env.serve (.upload data filename) s).2 := by
  have hm : ∀ {k d}, s.remote.message k = some d →
      (env.serve (.upload data filename) s).2.remote.message k = some d := fun h =>
    Remote.message_upload s.remote env.upload data filename h
  refine ⟨⟨fun rid r hr => ?_, hs.cached⟩, ⟨fun _ r hr => ⟨r, hr, rfl⟩, fun _ _ h => hm h⟩⟩
  obtain ⟨d, hh, hd, hserves⟩ := hs.records rid r hr
  exact ⟨d, hh, hm hd, hserves⟩

theorem serve_blockInsert (env : Env) (b : BlockRecord) (s : System) :
    env.serve (.blockInsert b) s =
      match env.read .blockInsert (BlockStore.insert s.blocks b) with
      | .ok t => (.ok (), s.writeBlocks t)
      | .error e => (.error e, s) := rfl

omit [Primitives] in
theorem find_of_blockInsert {t t' : Blocks} {b : BlockRecord} (h : BlockStore.insert t b = .ok t') :
    t'.find = Function.update t.find b.rid (some b) ∧ t.find b.rid = none := by
  unfold BlockStore.insert at h
  split at h
  · rename_i t₁ ht
    cases h
    exact ⟨Table.find_insert ht, (Table.rows_insert ht).2.1⟩
  · cases h

/-- A record of a message just accepted; its id is new to the cache too. -/
theorem backed_writeBlocks_insert {s : System} (hs : s.Backed) {b : BlockRecord} {data : Bytes}
    {t : Blocks} (ht : BlockStore.insert s.blocks b = .ok t) (hhash : b.contentHash = blake3 data)
    (hmsg : s.remote.message b.messageId = some data) :
    (s.writeBlocks t).Backed ∧ s.Grows (s.writeBlocks t) := by
  obtain ⟨hfind, hnone⟩ := find_of_blockInsert ht
  refine ⟨⟨fun rid r hr => ?_, fun c rid hc hrid => ?_⟩, ⟨fun rid r hr => ?_, fun _ _ h => h⟩⟩
  · rw [System.blocks_writeBlocks, hfind, Function.update_apply] at hr
    split at hr
    · rename_i hrid
      cases hr
      refine ⟨data, hhash.symm, hmsg, fun c hc hcon => ?_⟩
      obtain ⟨r, hr⟩ := hs.cached c rid hc hcon
      rw [hrid, hnone] at hr
      cases hr
    · exact hs.records rid r hr
  · obtain ⟨r, hr⟩ := hs.cached c rid hc hrid
    refine ⟨r, ?_⟩
    rw [System.blocks_writeBlocks, hfind, Function.update_of_ne, hr]
    rintro rfl
    rw [hnone] at hr
    cases hr
  · refine ⟨r, ?_, rfl⟩
    rw [System.blocks_writeBlocks, hfind, Function.update_of_ne, hr]
    rintro rfl
    rw [hnone] at hr
    cases hr

theorem backed_incrementRef (env : Env) (rid : Bytes) {s : System} (hs : s.Backed) :
    (env.serve (.incrementRef rid) s).2.Backed ∧ s.Grows (env.serve (.incrementRef rid) s).2 := by
  have hbump : ∀ k r', (BlockStore.incrementRef s.blocks rid).find k = some r' →
      ∃ r, s.blocks.find k = some r ∧ r'.messageId = r.messageId ∧ r'.contentHash = r.contentHash := by
    intro k r' h
    rw [find_incrementRef, Function.update_apply] at h
    split at h
    · rename_i e
      obtain ⟨r, hr, rfl⟩ := Option.map_eq_some_iff.1 h
      exact ⟨r, by rw [e, hr], rfl, rfl⟩
    · exact ⟨r', h, rfl, rfl⟩
  have hkeep : ∀ k r, s.blocks.find k = some r →
      ∃ r', (BlockStore.incrementRef s.blocks rid).find k = some r' ∧ r'.messageId = r.messageId := by
    intro k r h
    rw [find_incrementRef, Function.update_apply]
    split
    · rename_i e
      subst e
      exact ⟨BlockStore.bump r, by rw [h]; rfl, rfl⟩
    · exact ⟨r, h, rfl⟩
  have hserve : (env.serve (.incrementRef rid) s).2 = s ∨
      (env.serve (.incrementRef rid) s).2 = s.writeBlocks (BlockStore.incrementRef s.blocks rid) := by
    simp only [Env.serve, Env.modifyBlocks]
    split
    · rename_i t ht
      rw [← (Env.read_ok_eq_ok ht).2]
      exact .inr rfl
    · exact .inl rfl
  rcases hserve with e | e <;> rw [e]
  · exact ⟨hs, .refl s⟩
  refine ⟨⟨fun k r' hr' => ?_, fun c k hc hk => ?_⟩, ⟨fun k r hr => ?_, fun _ _ h => h⟩⟩
  · rw [System.blocks_writeBlocks] at hr'
    obtain ⟨r, hr, hid, hh⟩ := hbump k r' hr'
    rw [hid, hh]
    exact hs.records k r hr
  · obtain ⟨r, hr⟩ := hs.cached c k hc hk
    obtain ⟨r', hr', -⟩ := hkeep k r hr
    exact ⟨r', by rw [System.blocks_writeBlocks]; exact hr'⟩
  · rw [System.blocks_writeBlocks]
    exact hkeep k r hr

end TgCryptFs

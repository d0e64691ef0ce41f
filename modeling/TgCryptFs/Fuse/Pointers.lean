import TgCryptFs.Fuse.BlockEffects

set_option autoImplicit false

/-!
# Pointers and their records

`Linked Q R` says that the block table satisfies `Q` and that every pointer of a manifest
has a record `R` relates it to. Requests keep it whatever fails, as long as neither looks
at reference counts.
-/
namespace TgCryptFs
open Library

/-- The record with another count. -/
def BlockRecord.counted (r : BlockRecord) (n : ℤ) : BlockRecord := { r with refCount := n }

section

variable [Primitives]

/-- The records of `t` are in `t'`, but for their counts. -/
def Recounted (t t' : Blocks) : Prop :=
  ∀ rid r, t.find rid = some r → ∃ n, t'.find rid = some (r.counted n)

omit [Primitives] in
theorem Recounted.refl (t : Blocks) : Recounted t t := fun _ r hr => ⟨r.refCount, hr⟩

omit [Primitives] in
theorem recounted_incrementRef (t : Blocks) (rid : Bytes) :
    Recounted t (BlockStore.incrementRef t rid) := by
  intro k r hr
  rw [find_incrementRef, Function.update_apply]
  split
  · rename_i e
    subst e
    exact ⟨r.refCount + 1, by rw [hr]; rfl⟩
  · exact ⟨r.refCount, hr⟩

theorem recounted_of_blockChange {env : Env} {m : Mount} {t t' : Blocks} {data : Bytes}
    {out : Option BlockRecord} (h : BlockChange env m t data out t') : Recounted t t' := by
  cases h with
  | kept => exact .refl t
  | known hr =>
    split
    · exact recounted_incrementRef t _
    · exact .refl t
  | fresh ht =>
    obtain ⟨hfind, hnone⟩ := find_of_blockInsert ht
    intro k r hr
    refine ⟨r.refCount, ?_⟩
    rw [hfind, Function.update_of_ne, hr]
    · rfl
    · rintro rfl
      rw [hnone] at hr
      cases hr

/-- A record after a flush is one from before, recounted, or the new one. -/
theorem find_of_blockChange {env : Env} {m : Mount} {t t' : Blocks} {data : Bytes}
    {out : Option BlockRecord} (h : BlockChange env m t data out t') {rid : Bytes}
    {r : BlockRecord} (hr : t'.find rid = some r) :
    (∃ r₀ n, t.find rid = some r₀ ∧ r = r₀.counted n) ∨
      ∃ id, out = some (freshRecord env m data id) ∧ r = freshRecord env m data id := by
  have hsame : t.find rid = some r → ∃ r₀ n, t.find rid = some r₀ ∧ r = r₀.counted n :=
    fun h => ⟨r, r.refCount, h, rfl⟩
  cases h with
  | kept => exact .inl (hsame hr)
  | known _ =>
    split at hr
    · rw [find_incrementRef, Function.update_apply] at hr
      split at hr
      · rename_i e
        obtain ⟨r₀, hr₀, rfl⟩ := Option.map_eq_some_iff.1 hr
        exact .inl ⟨r₀, r₀.refCount + 1, by rw [e, hr₀], rfl⟩
      · exact .inl (hsame hr)
    · exact .inl (hsame hr)
  | @fresh id _ ht =>
    rw [(find_of_blockInsert ht).1, Function.update_apply] at hr
    split at hr
    · exact .inr ⟨id, rfl, (Option.some.inj hr).symm⟩
    · exact .inl (hsame hr)

theorem recounted_exec (env : Env) (req : Request) (s : System) :
    Recounted s.blocks (exec env req s).2.blocks := by
  cases hreq : req.replacesData with
  | false =>
    rw [blocks_exec hreq]
    exact .refl _
  | true =>
    cases req with
    | release ino fh =>
      cases releaseEffect_exec env s ino fh with
      | idle _ hb _ =>
        rw [hb]
        exact .refl _
      | unstored _ hb _ _ => exact recounted_of_blockChange hb
      | stored _ hb _ _ => exact recounted_of_blockChange hb
    | _ => cases hreq

theorem find_returned {env : Env} {m : Mount} {t t' : Blocks} {data : Bytes} {block : BlockRecord}
    (h : BlockChange env m t data (some block) t') :
    ∃ n, t'.find block.rid = some (block.counted n) := by
  have hgrow := recounted_of_blockChange h
  cases h with
  | known hr => exact hgrow _ _ (Table.find_of_mem (findByContentHash_eq_some hr).1)
  | fresh ht => exact ⟨1, by rw [(find_of_blockInsert ht).1, Function.update_self]; rfl⟩

/-- A record satisfies `Q`, whatever its count. -/
def Uncounted (Q : BlockRecord → Prop) : Prop := ∀ r n, Q (r.counted n) ↔ Q r

section

variable (Q : BlockRecord → Prop) (R : BlockPointer → BlockRecord → Prop)

/-- Each pointer of the manifest has a record in `t` it is related to. -/
def PointsInto (t : Blocks) (m : Option FileManifest) : Prop :=
  ∀ fm, m = some fm → ∀ p ∈ fm.blocks, ∃ r, t.find p.rid = some r ∧ R p r

structure System.Linked (s : System) : Prop where
  records : ∀ rid r, s.blocks.find rid = some r → Q r
  pointers : AllManifests (PointsInto R s.blocks) s.inodes

/-- What `Q` and `R` need of each other to go through a flush. -/
structure FlushSafe : Prop where
  records : Uncounted Q
  pointers : ∀ p, Uncounted (R p)
  fresh : ∀ env m data id, Q (freshRecord env m data id)
  flushed : ∀ ino block data, Q block → ∀ p ∈ (flushedManifest ino block data).blocks, R p block

end

variable {Q : BlockRecord → Prop} {R : BlockPointer → BlockRecord → Prop}

omit [Primitives] in
theorem PointsInto.mono {t t' : Blocks} {m : Option FileManifest} (hm : PointsInto R t m)
    (h : ∀ p r, t.find p.rid = some r → R p r → ∃ r', t'.find p.rid = some r' ∧ R p r') :
    PointsInto R t' m := by
  intro fm hfm p hp
  obtain ⟨r, hr, hR⟩ := hm fm hfm p hp
  exact h p r hr hR

theorem FlushSafe.pointsInto (hQR : FlushSafe Q R) {t t' : Blocks} (h : Recounted t t')
    {m : Option FileManifest} (hm : PointsInto R t m) : PointsInto R t' m := by
  refine hm.mono fun p r hr hR => ?_
  obtain ⟨n, hn⟩ := h _ _ hr
  exact ⟨_, hn, (hQR.pointers p r n).2 hR⟩

theorem FlushSafe.records_of_blockChange (hQR : FlushSafe Q R) {env : Env} {m : Mount}
    {t t' : Blocks} {data : Bytes} {out : Option BlockRecord}
    (h : BlockChange env m t data out t') (ht : ∀ rid r, t.find rid = some r → Q r) (rid : Bytes)
    (r : BlockRecord) (hr : t'.find rid = some r) : Q r := by
  rcases find_of_blockChange h hr with ⟨r₀, n, hr₀, rfl⟩ | ⟨id, -, rfl⟩
  · exact (hQR.records r₀ n).2 (ht rid r₀ hr₀)
  · exact hQR.fresh env m data id

theorem FlushSafe.release (hQR : FlushSafe Q R) (env : Env) {s : System} (hs : s.Linked Q R)
    (ino fh : ℕ) : (exec env (.release ino fh) s).2.Linked Q R := by
  cases releaseEffect_exec env s ino fh with
  | idle _ hb hi => exact ⟨by rw [hb]; exact hs.records, by rw [hb, hi]; exact hs.pointers⟩
  | unstored _ hb hi _ =>
    refine ⟨hQR.records_of_blockChange hb hs.records, ?_⟩
    rw [hi]
    exact fun n i hn => hQR.pointsInto (recounted_of_blockChange hb) (hs.pointers n i hn)
  | @stored _ block i _ hb _ hi =>
    have hrecords := hQR.records_of_blockChange hb hs.records
    refine ⟨hrecords, fun n x hx => ?_⟩
    rw [hi, Function.update_apply] at hx
    split at hx
    · cases hx
      obtain ⟨count, hfind⟩ := find_returned hb
      have hQ : Q block := (hQR.records block count).1 (hrecords _ _ hfind)
      rintro fm ⟨⟩ p hp
      have hrid : p.rid = block.rid := by
        rw [List.mem_singleton.1 hp]
      refine ⟨_, by rw [hrid]; exact hfind, (hQR.pointers p block count).2 ?_⟩
      exact hQR.flushed ino block _ hQ p hp
    · exact hQR.pointsInto (recounted_of_blockChange hb) (hs.pointers n x hx)

/-- Every request keeps the pointers linked, whichever of its calls fail. -/
theorem FlushSafe.exec (hQR : FlushSafe Q R) (env : Env) (req : Request) {s : System}
    (hs : s.Linked Q R) : (exec env req s).2.Linked Q R := by
  cases hreq : req.replacesData with
  | false =>
    have hb := @blocks_exec _ env req hreq s
    refine ⟨by rw [hb]; exact hs.records, ?_⟩
    rw [hb]
    refine allManifests_exec ?_ ?_ hreq hs.pointers
    · rintro fm ⟨⟩
    · rintro ino fm ⟨⟩ p hp
      exact absurd hp List.not_mem_nil
  | true =>
    cases req with
    | release ino fh => exact hQR.release env hs ino fh
    | _ => cases hreq

theorem linked_fresh (m : Mount) (cache : Option BlockCache) : (System.fresh m cache).Linked Q R :=
  ⟨fun _ _ h => (by cases h), fun _ _ h => (by cases h)⟩

end

end TgCryptFs

import TgCryptFs.Fuse.ObservedRows
import TgCryptFs.Fuse.BlockEffects
import TgCryptFs.Fuse.FileContent

set_option autoImplicit false

/-!
# Reference counts

A flush counts a pointer more. Nothing counts one less: not the removal of a file, nor the
manifest that takes the place of another.
-/
namespace TgCryptFs
open Library

/-- The pointers of a manifest to one block. -/
def refsIn (rid : Bytes) (m : Option FileManifest) : ℕ :=
  m.elim 0 fun m => m.blocks.countP (·.rid = rid)

/-- The row has no pointers. -/
def Inode.Blockless (i : Inode) : Prop := ∀ m, i.manifest = some m → m.blocks = []

theorem refsIn_of_blockless {i : Inode} (h : i.Blockless) (rid : Bytes) :
    refsIn rid i.manifest = 0 := by
  cases hm : i.manifest with
  | none => rfl
  | some m =>
    change m.blocks.countP _ = 0
    rw [h m hm]
    rfl

section

variable [Primitives]

/-- The pointers of the whole table to one block. -/
def pointersTo (t : Inodes) (rid : Bytes) : ℕ := t.tally fun i => refsIn rid i.manifest

theorem rid_ne_of_pointersTo {t : Inodes} {rid : Bytes} (h : pointersTo t rid = 0) {n : ℕ} {i : Inode}
    (hi : t.find n = some i) {m : FileManifest} (hm : i.manifest = some m) {p : BlockPointer}
    (hp : p ∈ m.blocks) : p.rid ≠ rid := by
  have hrow := Table.eq_zero_of_tally h hi
  rw [hm] at hrow
  simpa using List.countP_eq_zero.1 hrow p hp

/-- The manifests by inode number. -/
def manifestAt (t : Inodes) : ℕ → Option (Option FileManifest) := t.observe Inode.manifest

theorem pointersTo_congr {t t' : Inodes} (h : ∀ n, manifestAt t' n = manifestAt t n) (rid : Bytes) :
    pointersTo t' rid = pointersTo t rid :=
  Table.tally_congr Inode.manifest (refsIn rid) (funext h)

theorem pointersTo_update {t t' : Inodes} {n : ℕ} {x : Option (Option FileManifest)}
    (h : manifestAt t' = Function.update (manifestAt t) n x) (rid : Bytes) :
    pointersTo t' rid + (manifestAt t n).elim 0 (refsIn rid) =
      pointersTo t rid + x.elim 0 (refsIn rid) :=
  Table.tally_update Inode.manifest (refsIn rid) h

/-! ## What the statements do to the manifests -/

omit [Primitives] in
theorem manifest_addChild (ino : ℕ) (dir : Bool) (i : Inode) :
    (i.addChild ino dir).ino = i.ino ∧ (i.addChild ino dir).manifest = i.manifest := ⟨rfl, rfl⟩

omit [Primitives] in
theorem manifest_dropChild (ino : ℕ) (dir : Bool) (i : Inode) :
    (i.dropChild ino dir).ino = i.ino ∧ (i.dropChild ino dir).manifest = i.manifest := ⟨rfl, rfl⟩

theorem manifestAt_some {t : Inodes} {i : Inode} {n : ℕ} (h : t.find n = some i) :
    manifestAt t n = some i.manifest := Table.observe_of_find h

theorem manifestAt_tryDrop {env : Env} {getSite updateSite : Site} {t : Inodes} (ino child : ℕ)
    (dir : Bool) :
    manifestAt (env.tryEdit getSite updateSite t ino (·.dropChild child dir)) = manifestAt t :=
  funext fun _ => observe_tryEdit (manifest_dropChild _ _)

theorem manifestAt_delete (t : Inodes) (ino : ℕ) :
    manifestAt (InodeStore.delete t ino) = Function.update (manifestAt t) ino none :=
  observe_delete t ino

/-- The pointers to one block after a row was taken away that has none. -/
theorem pointersTo_of_removed {t t' : Inodes} {i : Inode} (hi : t.find i.ino = some i)
    (hb : i.Blockless) (h : manifestAt t' = Function.update (manifestAt t) i.ino none)
    (rid : Bytes) : pointersTo t' rid = pointersTo t rid := by
  have hsum := pointersTo_update h rid
  rw [manifestAt_some hi] at hsum
  change _ + refsIn rid i.manifest = _ + 0 at hsum
  rw [refsIn_of_blockless hb] at hsum
  exact hsum

theorem pointersTo_of_inserted {t t' : Inodes} {i : Inode} (h : InodeStore.insert t i = .ok t')
    (hb : i.Blockless) (rid : Bytes) : pointersTo t' rid = pointersTo t rid := by
  have hsum := pointersTo_update (observe_insert h) rid
  have hnone : manifestAt t i.ino = none := Table.observe_eq_none.2 (find_of_insert h).2
  rw [hnone] at hsum
  change _ + 0 = _ + refsIn rid i.manifest at hsum
  rw [refsIn_of_blockless hb] at hsum
  exact hsum

/-! ## The requests -/

/-- The request takes no pointer away: what it removes or replaces has no blocks, and it
    flushes a buffer into a row that is there and has none. -/
structure Event.KeepsPointers (e : Event) (s : System) : Prop where
  removes : ∀ parent name i, e.req.removal = some (parent, name, i.isDir) →
    InodeStore.lookup s.inodes parent name = some i → s.conn.IsAutocommit → i.Blockless
  replaces : ∀ parent name newparent newname i d,
    e.req = .rename parent (.utf8 name) newparent (.utf8 newname) →
    InodeStore.lookup s.inodes parent name = some i →
    InodeStore.lookup s.inodes newparent newname = some d → s.conn.IsAutocommit → d.Blockless
  flushes : ∀ ino fh data, e.req = .release ino fh → s.HasToFlush fh data →
    ∃ i, s.inodes.find ino = some i ∧ i.Blockless

omit [Primitives] in
theorem blockless_newInode {req : Request} {ino : ℕ} {now : ℤ} {i : Inode}
    (h : req.newInode ino now = some i) : i.Blockless := by
  intro m hm
  rcases newInode_manifest h with e | e
  · rw [e] at hm
    cases hm
  · rw [e] at hm
    cases hm
    rfl

theorem pointersTo_cleared {env : Env} (hok : env.AllOk) {t : Inodes} {newparent : ℕ}
    {newname : String}
    (hb : ∀ d, InodeStore.lookup t newparent newname = some d → d.Blockless) (rid : Bytes) :
    pointersTo (env.cleared newparent newname t) rid = pointersTo t rid ∧
    ∀ n m, manifestAt (env.cleared newparent newname t) n = some m → manifestAt t n = some m := by
  unfold Env.cleared
  rw [Env.read, if_pos (hok.sql _)]
  cases hd : InodeStore.lookup t newparent newname with
  | none => exact ⟨rfl, fun _ _ h => h⟩
  | some d =>
    have hman : manifestAt (env.tryEdit .destParentGet .destParentUpdate
        (env.tryDelete .destDelete t d.ino) newparent (·.dropChild d.ino false)) =
        Function.update (manifestAt t) d.ino none := by
      rw [manifestAt_tryDrop, Env.tryDelete, if_pos (hok.sql _), manifestAt_delete]
    dsimp only
    refine ⟨pointersTo_of_removed (lookup_eq_some hd).1 (hb d hd) hman rid, fun n m h => ?_⟩
    rw [hman, Function.update_apply] at h
    split at h
    · cases h
    · exact h

/-- A request but `release` leaves the number of pointers to each block. -/
theorem pointersTo_exec {env : Env} (hok : env.AllOk) {req : Request}
    (hreq : req.replacesData = false) {s : System} (hk : Event.KeepsPointers ⟨env, req⟩ s)
    (rid : Bytes) : pointersTo (exec env req s).2.inodes rid = pointersTo s.inodes rid := by
  have heff := exec_effect env req s
  generalize (exec env req s).1 = r at heff
  generalize (exec env req s).2 = s' at heff
  have hrb : env.commit ≠ .rolledBack := by rw [hok.commit]; decide
  cases heff with
  | same hs' => rw [hs'.inodes]
  | rooted _ ht =>
    rw [System.inodes_writeInodes]
    exact pointersTo_of_inserted ht (fun m hm => by cases hm) rid
  | @edited _ _ _ i i' t _ hi he ht hs' hm =>
    rw [hs'.inodes, System.inodes_writeInodes]
    refine pointersTo_congr (fun n => observe_update ht fun e m h => ?_) rid
    rw [← e, he.ino, Table.observe_of_find hi] at h
    rw [hm hreq]
    exact Option.some.inj h
  | linked hnew _ hp _ h₁ h₂ _ hs' =>
    rw [hs'.inodes, inodes_committed, if_neg hrb,
      ← pointersTo_of_inserted h₁ (blockless_newInode hnew)]
    exact pointersTo_congr
      (fun _ => observe_update h₂ (looksAs_parent h₁ hp (manifest_addChild _ _))) rid
  | inserted hnew _ hp _ h₁ =>
    rw [System.inodes_writeInodes, ← pointersTo_of_inserted h₁ (blockless_newInode hnew)]
    exact pointersTo_congr
      (fun _ => observe_tryUpdate (looksAs_parent h₁ hp (manifest_addChild _ _))) rid
  | removed hreq' hl _ hauto =>
    rw [inodes_committed, if_neg hrb]
    refine pointersTo_of_removed (lookup_eq_some hl).1 (hk.removes _ _ _ hreq' hl hauto) ?_ rid
    rw [Env.removed, manifestAt_delete, manifestAt_tryDrop]
  | renamed hl _ hauto =>
    rw [inodes_committed, if_neg hrb]
    obtain ⟨hcount, hkept⟩ := pointersTo_cleared hok
      (fun d hd => hk.replaces _ _ _ _ _ d rfl hl hd hauto) rid
    rw [← hcount]
    refine pointersTo_congr
      (fun n => observe_moved manifest_addChild manifest_dropChild fun e m h => ?_) rid
    have hm := hkept _ _ h
    rw [← e, Inode.renamed_ino, manifestAt_some (lookup_eq_some hl).1] at hm
    exact Option.some.inj hm
  | leaked => rfl

/-! ## The counts -/

/-- The count of a record; a block without one is counted zero times. -/
def countAt (t : Blocks) (rid : Bytes) : ℤ := (t.find rid).elim 0 BlockRecord.refCount

/-- Every count is the number of pointers. -/
def System.CountsExact (s : System) : Prop := ∀ rid, countAt s.blocks rid = pointersTo s.inodes rid

omit [Primitives] in
theorem countAt_of_find {t t' : Blocks} {k : Bytes} {r : BlockRecord}
    (h : t'.find = Function.update t.find k (some r)) (hr : r.refCount = countAt t k + 1)
    (rid : Bytes) : countAt t' rid = countAt t rid + if k = rid then 1 else 0 := by
  rw [countAt, h, Function.update_apply]
  by_cases e : k = rid
  · subst e
    rw [if_pos rfl, if_pos rfl]
    exact hr
  · rw [if_neg fun h => e h.symm, if_neg e, add_zero]
    rfl

/-- A block a flush returns has been counted once more, and no other has. -/
theorem countAt_of_blockChange {env : Env} (hok : env.AllOk) {m : Mount} {t t' : Blocks}
    {data : Bytes} {block : BlockRecord} (h : BlockChange env m t data (some block) t')
    (rid : Bytes) : countAt t' rid = countAt t rid + if block.rid = rid then 1 else 0 := by
  cases h with
  | known hr =>
    have hfind := Table.find_of_mem (findByContentHash_eq_some hr).1
    rw [if_pos (hok.sql _)]
    refine countAt_of_find (r := BlockStore.bump block) ?_ ?_ rid
    · rw [find_incrementRef, hfind]
      rfl
    · rw [countAt, hfind]
      rfl
  | fresh ht =>
    obtain ⟨hfind, hnone⟩ := find_of_blockInsert ht
    refine countAt_of_find hfind ?_ rid
    rw [countAt, hnone]
    rfl

theorem blocks_of_blockChange_none {env : Env} {m : Mount} {t t' : Blocks} {data : Bytes}
    (h : BlockChange env m t data none t') : t' = t := by
  cases h
  rfl

theorem refsIn_flushed (i : Inode) (ino : ℕ) (block : BlockRecord) (data rid : Bytes) :
    refsIn rid (i.flushed ino block data).manifest = if block.rid = rid then 1 else 0 := by
  change List.countP _ [_] = _
  rw [List.countP_singleton]
  exact if_congr decide_eq_true_iff rfl rfl

theorem countsExact_release {env : Env} (hok : env.AllOk) {ino fh : ℕ} {s : System}
    (hs : s.CountsExact) (hk : Event.KeepsPointers ⟨env, .release ino fh⟩ s) :
    (exec env (.release ino fh) s).2.CountsExact := by
  intro rid
  cases releaseEffect_exec env s ino fh with
  | idle _ hb hi =>
    rw [hb, hi]
    exact hs rid
  | @unstored _ out hflush hb hi hwhy =>
    obtain ⟨i, hrow, -⟩ := hk.flushes ino fh _ rfl hflush
    have hout : out = none := by
      by_contra h
      rcases hwhy h with e | e | e
      · rw [hok.sql] at e
        cases e
      · rw [hok.sql] at e
        cases e
      · rw [hrow] at e
        cases e
    subst hout
    rw [blocks_of_blockChange_none hb, hi]
    exact hs rid
  | @stored _ block i hflush hb hrow hi =>
    obtain ⟨i', hrow', hblockless⟩ := hk.flushes ino fh _ rfl hflush
    obtain rfl : i = i' := Option.some.inj (hrow.symm.trans hrow')
    have hsum := pointersTo_update (Table.observe_of_update hi) rid
    rw [manifestAt_some hrow] at hsum
    change _ + refsIn rid i.manifest = _ + refsIn rid (i.flushed ino block _).manifest at hsum
    rw [refsIn_of_blockless hblockless, refsIn_flushed, add_zero] at hsum
    rw [countAt_of_blockChange hok hb, hs rid, hsum]
    split <;> rfl

theorem countsExact_step {e : Event} {s : System} (hs : s.CountsExact)
    (h : e.env.AllOk ∧ e.KeepsPointers s) : (e.step s).CountsExact := by
  obtain ⟨env, req⟩ := e
  cases hreq : req.replacesData with
  | false =>
    intro rid
    rw [Event.step, blocks_exec hreq, pointersTo_exec h.1 hreq h.2]
    exact hs rid
  | true =>
    cases req with
    | release ino fh => exact countsExact_release h.1 hs h.2
    | _ => cases hreq

theorem countsExact_fresh (m : Mount) (cache : Option BlockCache) :
    (System.fresh m cache).CountsExact := fun _ => rfl

/-- In every run that takes no pointer away, the count of each record is the number of
    pointers to it. -/
theorem refCount_eq_pointersTo {m : Mount} {cache : Option BlockCache} {s : System}
    (h : Runs Event.step (fun e s => e.env.AllOk ∧ e.KeepsPointers s) (.fresh m cache) s)
    {rid : Bytes} {r : BlockRecord} (hr : s.blocks.find rid = some r) :
    r.refCount = pointersTo s.inodes rid := by
  have hcount := h.invariant System.CountsExact (countsExact_fresh m cache)
    (fun _ _ hs he => countsExact_step hs he) rid
  rw [countAt, hr] at hcount
  exact hcount

theorem keepsPointers_of_other {e : Event} {s : System} (hremoval : e.req.removal = none)
    (hrename : ∀ parent name newparent newname, e.req ≠ .rename parent name newparent newname)
    (hflush : ∀ ino fh, e.req = .release ino fh → ∃ i, s.inodes.find ino = some i ∧ i.Blockless) :
    e.KeepsPointers s where
  removes parent name i h _ _ := by
    rw [hremoval] at h
    cases h
  replaces parent name newparent newname i d h _ _ _ := (hrename _ _ _ _ h).elim
  flushes ino fh _ h _ := hflush ino fh h

end

section

open scoped Sample

/-- A second file with the same bytes. -/
def twinRun : List Event :=
  storedRun ++ [.create Sample.caller 1 (.utf8 "b") 0o644 0, .write 3 2 0 [97, 98],
    .release 3 2].map Sample.event

def twins : System := Runs.runAll Event.step twinRun (.fresh Sample.mount none)

theorem admits_cons {req : Request} {upload : Option ℤ} {rid : Bytes} {es : List Event} {s : System}
    (hk : Event.KeepsPointers ⟨Sample.env upload rid, req⟩ s)
    (h : Runs.Admits Event.step (fun e s => e.env.AllOk ∧ e.KeepsPointers s) es
      (Event.step ⟨Sample.env upload rid, req⟩ s)) :
    Runs.Admits Event.step (fun e s => e.env.AllOk ∧ e.KeepsPointers s)
      (⟨Sample.env upload rid, req⟩ :: es) s :=
  ⟨⟨Sample.allOk_env upload rid, hk⟩, h⟩

theorem blockless_newFile (ino parent : ℕ) (name : String) (mode uid gid : ℕ) (now : ℤ) (n : ℕ) :
    Inode.Blockless { Inode.newFile ino parent name mode uid gid now with size := n } := by
  intro m hm
  cases hm
  rfl

theorem refCount_of_twins : ∃ r, twins.blocks.find [1] = some r ∧ r.refCount = 2 ∧
    r.refCount = pointersTo twins.inodes [1] := by
  have hrun : Runs Event.step (fun e s => e.env.AllOk ∧ e.KeepsPointers s) (.fresh Sample.mount none)
      twins := by
    refine .of_admits twinRun .start ?_
    refine admits_cons (keepsPointers_of_other rfl (by simp) (by simp)) ?_
    refine admits_cons (keepsPointers_of_other rfl (by simp) (by simp)) ?_
    refine admits_cons (keepsPointers_of_other rfl (by simp) (by simp)) ?_
    refine admits_cons (keepsPointers_of_other rfl (by simp) ?_) ?_
    · rintro _ _ ⟨⟩
      exact ⟨_, by decide +kernel, blockless_newFile 2 1 "a" 0o644 0 0 0 2⟩
    refine admits_cons (keepsPointers_of_other rfl (by simp) (by simp)) ?_
    refine admits_cons (keepsPointers_of_other rfl (by simp) (by simp)) ?_
    refine admits_cons (keepsPointers_of_other rfl (by simp) ?_) trivial
    · rintro _ _ ⟨⟩
      exact ⟨_, by decide +kernel, blockless_newFile 3 1 "b" 0o644 0 0 0 2⟩
  have hfind : twins.blocks.find [1] = some { storedBlock with refCount := 2 } := by decide +kernel
  exact ⟨_, hfind, rfl, refCount_eq_pointersTo hrun hfind⟩

/-- The file removed, its block is still counted once. -/
theorem refCount_of_unlinked : ∃ s r,
    Runs Event.step (fun e _ => e.env.AllOk) (.fresh Sample.mount none) s ∧
    s.blocks.find [1] = some r ∧ r.refCount = 1 ∧ pointersTo s.inodes [1] = 0 := by
  refine ⟨Runs.runAll Event.step (storedRun ++ [Sample.event (.unlink 1 (.utf8 "a"))])
    (.fresh Sample.mount none), storedBlock, ?_, by decide +kernel, rfl, by decide +kernel⟩
  refine .of_admits _ .start (Runs.admits_of_forall _ (fun e he _ => ?_) _)
  rcases List.mem_append.1 he with he | he
  · exact (works_storedRun e he).toAllOk
  · rw [List.mem_singleton.1 he]
    exact Sample.allOk_env _ _

end

end TgCryptFs

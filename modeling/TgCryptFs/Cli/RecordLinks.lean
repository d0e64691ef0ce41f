import TgCryptFs.Cli.Rotate
import TgCryptFs.Fuse.References

set_option autoImplicit false

/-!
# Manifests and records across rotations

A pointer keeps naming the message of its record, through deduplication, eviction and
rotation. It does not keep its record's epoch: `rotate` rewrites the row and leaves the
manifest alone.
-/
namespace TgCryptFs
open Library

section

variable [Primitives]

/-! ## What the pointers name -/

theorem sound_restamp {s : System} (hs : s.Sound) {old : ℕ} {b r : BlockRecord}
    (hr : s.blocks.find b.rid = some r) (hid : r.messageId = b.messageId)
    (hsize : r.encryptedSize = b.encryptedSize) :
    (s.writeBlocks (Rotation.restamp s.blocks old b)).Sound := by
  have hfind : (Rotation.restamp s.blocks old b).find = _ := find_restamp hr hid hsize
  have hkeep : ∀ rid x, s.blocks.find rid = some x → ∃ e,
      (Rotation.restamp s.blocks old b).find rid = some { x with epoch := e } := by
    intro rid x hx
    rw [hfind, Function.update_apply]
    split
    · rename_i e
      rw [e] at hx
      obtain rfl : r = x := Option.some.inj (hr.symm.trans hx)
      exact ⟨_, rfl⟩
    · exact ⟨x.epoch, hx⟩
  have hback : ∀ rid x, (Rotation.restamp s.blocks old b).find rid = some x →
      ∃ x₀, s.blocks.find rid = some x₀ ∧ x.messageId = x₀.messageId ∧
        x.contentHash = x₀.contentHash := by
    intro rid x hx
    rw [hfind, Function.update_apply] at hx
    split at hx
    · rename_i e
      cases hx
      exact ⟨r, by rw [e, hr], rfl, rfl⟩
    · exact ⟨x, hx, rfl, rfl⟩
  have hg : s.Grows (s.writeBlocks (Rotation.restamp s.blocks old b)) := by
    refine ⟨fun rid x hx => ?_, fun _ _ h => h⟩
    obtain ⟨e, he⟩ := hkeep rid x hx
    exact ⟨{ x with epoch := e }, by rw [System.blocks_writeBlocks]; exact he, rfl⟩
  refine hs.mono hg ⟨fun rid x hx => ?_, fun c rid hc hrid => ?_⟩ (s.inodes_writeBlocks _)
  · rw [System.blocks_writeBlocks] at hx
    obtain ⟨x₀, hx₀, hmsg, hhash⟩ := hback rid x hx
    rw [hmsg, hhash]
    exact hs.backed.records rid x₀ hx₀
  · obtain ⟨x, hx⟩ := hs.backed.cached c rid hc hrid
    obtain ⟨e, he⟩ := hkeep rid x hx
    exact ⟨_, by rw [System.blocks_writeBlocks]; exact he⟩

/-- The record of a block and the pointer to it agree on what a reader needs. -/
def NamesRecord (p : BlockPointer) (r : BlockRecord) : Prop :=
  r.messageId = p.messageId ∧ r.contentHash = p.contentHash

theorem flushSafe_namesRecord : FlushSafe (fun _ => True) NamesRecord where
  records _ _ := Iff.rfl
  pointers _ _ _ := Iff.rfl
  fresh _ _ _ _ := trivial
  flushed _ _ _ _ p hp := by
    rw [List.mem_singleton.1 hp]
    exact ⟨rfl, rfl⟩

/-- A rotated record stays linked if the relation does not look at its epoch. -/
theorem linked_restamp {Q : BlockRecord → Prop} {R : BlockPointer → BlockRecord → Prop} {s : System}
    (hs : s.Linked Q R) {old : ℕ} {b r : BlockRecord} (hr : s.blocks.find b.rid = some r)
    (hid : r.messageId = b.messageId) (hsize : r.encryptedSize = b.encryptedSize)
    (hQ : Q r → Q { r with epoch := nextEpoch old })
    (hR : ∀ n i, s.inodes.find n = some i → ∀ m, i.manifest = some m → ∀ p ∈ m.blocks,
      p.rid = b.rid → R p r → R p { r with epoch := nextEpoch old }) :
    (s.writeBlocks (Rotation.restamp s.blocks old b)).Linked Q R := by
  have hfind : (Rotation.restamp s.blocks old b).find = _ := find_restamp hr hid hsize
  refine ⟨fun rid x hx => ?_, fun n i hn m hm p hp => ?_⟩
  · rw [System.blocks_writeBlocks, hfind, Function.update_apply] at hx
    split at hx
    · cases hx
      exact hQ (hs.records _ _ hr)
    · exact hs.records rid x hx
  · rw [System.inodes_writeBlocks] at hn
    obtain ⟨x, hx, hpx⟩ := hs.pointers n i hn m hm p hp
    rw [System.blocks_writeBlocks, hfind, Function.update_apply]
    split
    · rename_i e
      rw [e] at hx
      obtain rfl : r = x := Option.some.inj (hr.symm.trans hx)
      exact ⟨_, rfl, hR n i hn m hm p hp e hpx⟩
    · exact ⟨x, hx, hpx⟩

namespace Volume

def Admitted : VolumeEvent → Volume → Prop
  | .life l, v => l.Admitted v.system
  | _, _ => True

/-- A state some volume can come to, over every request, every failure, every
    configuration of its mounts and every run of `rotate` beside them. -/
def Reachable (v : Volume) : Prop :=
  ∃ m cache, (∀ c ∈ cache, c.entries = []) ∧ Runs step Admitted (.new m cache) v

structure Sound (v : Volume) : Prop where
  system : v.system.Sound
  linked : v.system.Linked (fun _ => True) NamesRecord
  lists : v.ListsTrue

theorem sound_advanced {v v' : Volume} {k : ℕ} (hv : v.Sound) (h : Advanced v k v') : v'.Sound := by
  have hlists := listsTrue_advanced hv.lists h
  cases h with
  | spared hs _ => exact ⟨by rw [hs]; exact hv.system, by rw [hs]; exact hv.linked, hlists⟩
  | restamped hk hauto hs _ =>
    obtain ⟨r, hr, hid, hsize⟩ :=
      hv.lists hauto _ (List.mem_of_getElem? hk) _ List.mem_cons_self
    refine ⟨?_, ?_, hlists⟩ <;> rw [hs]
    · exact sound_restamp hv.system hr hid hsize
    · exact linked_restamp hv.linked hr hid hsize id fun _ _ _ _ _ _ _ _ h => h

theorem sound_life (hinj : Function.Injective blake3) {l : Life} {v : Volume} (hv : v.Sound)
    (ha : l.Admitted v.system) : (step (.life l) v).Sound := by
  have hlists := listsTrue_step (.life l) hv.lists
  cases l with
  | serve e => exact ⟨sound_step hinj hv.system ha, flushSafe_namesRecord.exec _ _ hv.linked, hlists⟩
  | remount m cache =>
    have hg : v.system.Grows (Life.step (.remount m cache) v.system) :=
      ⟨fun _ r hr => ⟨r, hr, rfl⟩, fun _ _ h => h⟩
    exact ⟨hv.system.mono hg (backed_remount hv.system.backed m ha.2) rfl,
      ⟨hv.linked.records, hv.linked.pointers⟩, hlists⟩

theorem sound_of_reachable (hinj : Function.Injective blake3) {v : Volume} (h : v.Reachable) :
    v.Sound := by
  obtain ⟨m, cache, hc, hrun⟩ := h
  refine hrun.invariant Sound ⟨sound_fresh m hc, linked_fresh m cache, listsTrue_new m cache⟩ ?_
  intro e v hv ha
  cases e with
  | life l => exact sound_life hinj hv ha
  | rotate => exact ⟨hv.system, hv.linked, listsTrue_step .rotate hv.lists⟩
  | advance k => exact sound_advanced hv (advanced_advance v k)
  | fail k => exact sound_advanced hv (advanced_stop v k)

end Volume

/-- Every pointer of every manifest has a record of the same message and digest; the
    transport keeps that message, as long as the pointer says and with its digest; and
    `download_block` returns its bytes or nothing. -/
theorem pointer_names_message (hinj : Function.Injective blake3) {v : Volume} (h : v.Reachable)
    {n : ℕ} {i : Inode} {m : FileManifest} {p : BlockPointer} (hi : v.system.inodes.find n = some i)
    (hm : i.manifest = some m) (hp : p ∈ m.blocks) :
    ∃ r data, v.system.blocks.find p.rid = some r ∧ r.rid = p.rid ∧ r.messageId = p.messageId ∧
      r.contentHash = p.contentHash ∧ v.system.remote.message p.messageId = some data ∧
      data.length = p.length ∧ blake3 data = p.contentHash ∧
      ∀ (env : Env) (k : ℕ) (d : Bytes), env.Faithful v.system →
        ((downloadBlock v.system.mount k p.messageId p.rid).run env.serve v.system).1 = some d →
        d = data := by
  obtain ⟨hsound, hlinked, -⟩ := Volume.sound_of_reachable hinj h
  obtain ⟨r, hr, hid, hhash⟩ := hlinked.pointers n i hi m hm p hp
  obtain ⟨data, hd⟩ := hsound.manifests n i hi
  rw [hm] at hd
  cases hd with
  | empty hb =>
    rw [hb] at hp
    exact absurd hp List.not_mem_nil
  | @block _ bp _ _ hb _ hlen _ _ hmsg =>
    rw [hb] at hp
    obtain rfl : p = bp := List.mem_singleton.1 hp
    obtain ⟨data', hh, hmsg', -⟩ := hsound.backed.records _ _ hr
    rw [hid, hmsg] at hmsg'
    cases hmsg'
    refine ⟨r, data, hr, Table.key_of_find hr, hid, hhash, hmsg, hlen.symm, hh.trans hhash, ?_⟩
    intro env k d hf hrun
    rw [← hid] at hrun hmsg
    exact (run_downloadBlock hsound.backed hf hr hmsg v.system.mount k).2.2.1 d hrun

/-! ## Epochs -/

/-- The pointer carries the epoch, the message id and the size of its record. -/
structure MirrorsRecord (p : BlockPointer) (r : BlockRecord) : Prop where
  epoch : p.epoch = r.epoch
  messageId : p.messageId = r.messageId
  encryptedSize : (p.encryptedSize : ℤ) = r.encryptedSize

theorem flushSafe_mirrorsRecord : FlushSafe (fun r => 0 ≤ r.encryptedSize) MirrorsRecord where
  records _ _ := Iff.rfl
  pointers _ _ _ := ⟨fun h => ⟨h.1, h.2, h.3⟩, fun h => ⟨h.1, h.2, h.3⟩⟩
  fresh _ _ data _ := Int.natCast_nonneg data.length
  flushed _ _ _ hsize p hp := by
    rw [List.mem_singleton.1 hp]
    exact ⟨rfl, rfl, Int.toNat_of_nonneg hsize⟩

/-- `rotate` gives no block another epoch that a manifest points to. -/
def VolumeEvent.SparesPointers (e : VolumeEvent) (v : Volume) : Prop :=
  ∀ k old b bs r, e = .advance k → v.rotations[k]? = some (.updating old (b :: bs)) →
    v.system.conn.IsAutocommit → v.system.blocks.find b.rid = some r → r.epoch ≠ nextEpoch old →
    pointersTo v.system.inodes b.rid = 0

namespace Volume

structure Mirrored (v : Volume) : Prop where
  linked : v.system.Linked (fun r => 0 ≤ r.encryptedSize) MirrorsRecord
  lists : v.ListsTrue

theorem mirrored_restamp {v : Volume} (hv : v.Mirrored) {old : ℕ} {b r : BlockRecord}
    (hr : v.system.blocks.find b.rid = some r) (hid : r.messageId = b.messageId)
    (hsize : r.encryptedSize = b.encryptedSize)
    (hspare : r.epoch ≠ nextEpoch old → pointersTo v.system.inodes b.rid = 0) :
    (v.system.writeBlocks (Rotation.restamp v.system.blocks old b)).Linked
      (fun r => 0 ≤ r.encryptedSize) MirrorsRecord := by
  refine linked_restamp hv.linked hr hid hsize id fun n i hi m hm p hp hrid hmirror => ?_
  by_cases he : r.epoch = nextEpoch old
  · exact ⟨hmirror.epoch.trans he, hmirror.messageId, hmirror.encryptedSize⟩
  · exact (rid_ne_of_pointersTo (hspare he) hi hm hp hrid).elim

theorem mirrored_step {e : VolumeEvent} {v : Volume} (hv : v.Mirrored) (he : e.SparesPointers v) :
    (step e v).Mirrored := by
  have hlists := listsTrue_step e hv.lists
  cases e with
  | life l =>
    cases l with
    | serve e => exact ⟨flushSafe_mirrorsRecord.exec _ _ hv.linked, hlists⟩
    | remount m cache => exact ⟨⟨hv.linked.records, hv.linked.pointers⟩, hlists⟩
  | rotate => exact ⟨hv.linked, hlists⟩
  | fail k => exact ⟨hv.linked, hlists⟩
  | advance k =>
    refine ⟨?_, hlists⟩
    cases advanced_advance v k with
    | spared hs _ =>
      rw [step, hs]
      exact hv.linked
    | restamped hk hauto hs _ =>
      obtain ⟨r, hr, hid, hsize⟩ :=
        hv.lists hauto _ (List.mem_of_getElem? hk) _ List.mem_cons_self
      rw [step, hs]
      exact mirrored_restamp hv hr hid hsize (he k _ _ _ r rfl hk hauto hr)

end Volume

/-- In every run in which `rotate` spares the blocks manifests point to, each pointer
    carries the epoch, the message id and the size of its record. -/
theorem pointer_mirrors_record {m : Mount} {cache : Option BlockCache} {v : Volume}
    (h : Runs Volume.step VolumeEvent.SparesPointers (.new m cache) v) {n : ℕ} {i : Inode}
    {fm : FileManifest} {p : BlockPointer} (hi : v.system.inodes.find n = some i)
    (hm : i.manifest = some fm) (hp : p ∈ fm.blocks) :
    ∃ r, v.system.blocks.find p.rid = some r ∧ MirrorsRecord p r := by
  have hv := h.invariant Volume.Mirrored ⟨linked_fresh m cache, listsTrue_new m cache⟩
    fun _ _ hv he => Volume.mirrored_step hv he
  exact hv.linked.pointers n i hi fm hm p hp

theorem sparesPointers_advance {v : Volume} {k : ℕ}
    (h : (v.rotations[k]?.all fun rot =>
      rot.listed.all fun b => pointersTo v.system.inodes b.rid = 0) = true) :
    (VolumeEvent.advance k).SparesPointers v := by
  rintro _ old b bs r ⟨⟩ hk _ _ _
  rw [hk] at h
  simp only [Option.all_some, Rotation.listed, List.all_cons, Bool.and_eq_true,
    decide_eq_true_eq] at h
  exact h.1

end

section

open scoped Sample

/-- A run of `rotate` with one block to update. -/
def rotateOne : List VolumeEvent := [.rotate, .advance 0, .advance 0, .advance 0]

def served (es : List Event) : List VolumeEvent := es.map fun e => .life (.serve e)

/-- The volume of one stored file after a rotation. -/
def rotated : Volume :=
  Runs.runAll Volume.step (served storedRun ++ rotateOne) (.new Sample.mount none)

theorem find_rotated : rotated.system.inodes.find 2 = some storedInode := by decide +kernel

theorem reachable_rotated : rotated.Reachable := by
  refine ⟨Sample.mount, none, fun _ h => (by cases h), .of_admits _ .start ?_⟩
  refine Runs.admits_of_forall _ (fun e he v => ?_) _
  rcases List.mem_append.1 he with he | he
  · obtain ⟨e, hmem, rfl⟩ := List.mem_map.1 he
    exact (works_storedRun e hmem).faithful v.system
  · simp only [rotateOne, List.mem_cons, List.not_mem_nil, or_false] at he
    rcases he with rfl | rfl | rfl | rfl <;> trivial

theorem pointer_names_message_of_rotated : ∃ r data, rotated.system.blocks.find [1] = some r ∧
    r.messageId = 1 ∧ r.contentHash = blake3 [97, 98] ∧
    rotated.system.remote.message 1 = some data ∧ data.length = 2 ∧
    blake3 data = blake3 [97, 98] := by
  obtain ⟨r, data, hr, -, hid, hhash, hmsg, hlen, hh, -⟩ :=
    pointer_names_message Sample.hash_injective reachable_rotated find_rotated rfl
      (p := storedPointer) List.mem_cons_self
  exact ⟨r, data, hr, hid, hhash, hmsg, hlen, hh⟩

/-- The record has the new epoch, the pointer to it the old one. -/
theorem rotate_leaves_pointer_behind :
    Runs Volume.step (fun _ _ => True) (.new Sample.mount none) rotated ∧
    rotated.rotations = [] ∧ rotated.currentEpoch = 1 ∧
    ∃ i m r, rotated.system.inodes.find 2 = some i ∧ i.manifest = some m ∧
      storedPointer ∈ m.blocks ∧ rotated.system.blocks.find storedPointer.rid = some r ∧
      r.epoch = 1 ∧ storedPointer.epoch = 0 := by
  refine ⟨.of_admits _ .start (Runs.admits_of_forall _ (fun _ _ _ => trivial) _), by decide +kernel,
    by decide +kernel, storedInode, _, { storedBlock with epoch := 1 }, find_rotated, rfl,
    List.mem_cons_self, by decide +kernel, rfl, rfl⟩

/-- The file is removed before the rotation and written anew after it. -/
def reusedRun : List VolumeEvent :=
  served (storedRun ++ [Sample.event (.unlink 1 (.utf8 "a"))]) ++ (rotateOne ++
    served ([.create Sample.caller 1 (.utf8 "b") 0o644 0, .write 2 2 0 [97, 98],
      .release 2 2].map Sample.event))

def reused : Volume := Runs.runAll Volume.step reusedRun (.new Sample.mount none)

theorem sparesPointers_served (es : List Event) (v : Volume) :
    Runs.Admits Volume.step VolumeEvent.SparesPointers (served es) v := by
  refine Runs.admits_of_forall _ (fun e he v => ?_) v
  obtain ⟨e, -, rfl⟩ := List.mem_map.1 he
  rintro k old b bs r ⟨⟩

theorem pointer_mirrors_record_of_reused : ∃ i m p r,
    reused.system.inodes.find 2 = some i ∧ i.manifest = some m ∧ p ∈ m.blocks ∧ p.epoch = 1 ∧
    reused.system.blocks.find p.rid = some r ∧ MirrorsRecord p r := by
  have hrun : Runs Volume.step VolumeEvent.SparesPointers (.new Sample.mount none) reused := by
    refine .of_admits reusedRun .start (Runs.admits_append.2 ⟨sparesPointers_served _ _, ?_⟩)
    refine Runs.admits_append.2 ⟨⟨?_, ?_, ?_, ?_, trivial⟩, sparesPointers_served _ _⟩
    · rintro k old b bs r ⟨⟩
    · exact sparesPointers_advance (by decide +kernel)
    · exact sparesPointers_advance (by decide +kernel)
    · exact sparesPointers_advance (by decide +kernel)
  have hfind : reused.system.inodes.find 2 = some ((Inode.newFile 2 1 "b" 0o644 0 0 0).flushed 2
      { storedBlock with epoch := 1 } [97, 98]) := by decide +kernel
  obtain ⟨r, hr, hmirror⟩ := pointer_mirrors_record hrun hfind rfl
    (p := { storedPointer with epoch := 1 }) List.mem_cons_self
  exact ⟨_, _, _, r, hfind, rfl, List.mem_cons_self, rfl, hr, hmirror⟩

end

end TgCryptFs

import TgCryptFs.Core.Dedup
import TgCryptFs.Core.Sample
import TgCryptFs.Library.Runs
import TgCryptFs.Store.Database

set_option autoImplicit false

/-!
# The block table as a dedup index

Content is stored and released through the statements of the block table, which counts uses
under the id of the block, as through the index, which counts them under the hash.
-/
namespace TgCryptFs
open Library

namespace BlockStore

/-- A hit counts the block once more, a miss enters it. -/
def storeContent (block : BlockRecord) (t : Blocks) : Except SqlError (DedupResult × Blocks) :=
  match findByContentHash t block.contentHash with
  | some existing => .ok (.duplicate existing.rid, incrementRef t existing.rid)
  | none =>
    match insert t { block with refCount := 1 } with
    | .error e => .error e
    | .ok t' => .ok (.unique block.contentHash, t')

/-- A block that is garbage is deleted. -/
def releaseContent (contentHash : Bytes) (t : Blocks) : Except SqlError (Bool × Blocks) :=
  match findByContentHash t contentHash with
  | none => .ok (false, t)
  | some existing =>
    match decrementRef t existing.rid with
    | (.error e, _) => .error e
    | (.ok true, t') => .ok (true, delete t' existing.rid)
    | (.ok false, t') => .ok (false, t')

/-- What the table says is held. -/
def refs (t : Blocks) : RefCounts Bytes Bytes :=
  fun hash => (findByContentHash t hash).map fun r => (r.rid, r.refCount.toNat)

theorem decrementRef_of_find {t : Blocks} {rid : Bytes} {r : BlockRecord} (h : t.find rid = some r) :
    ∃ t', decrementRef t rid = (.ok (decide (r.refCount - 1 ≤ 0)), t') ∧
      t'.find = Function.update t.find rid (some (drop r)) := by
  have hfind := find_rewritten t rid (f := drop) fun _ => rfl
  rw [h, Option.map_some] at hfind
  dsimp only at hfind
  refine ⟨(t.update (drop r)).getD t, ?_, hfind⟩
  rw [decrementRef, h]
  dsimp only
  rw [hfind, Function.update_self]
  rfl

/-- A row for each content hash, with its uses counted. -/
structure Sound (t : Blocks) : Prop where
  distinct : ∀ r ∈ t.rows, ∀ r' ∈ t.rows, r.contentHash = r'.contentHash → r = r'
  counted : ∀ r ∈ t.rows, 0 < r.refCount

namespace Sound

variable {t t' : Blocks} {hash rid : Bytes} {r : BlockRecord}

theorem empty : Sound .empty where
  distinct r h := by cases h
  counted r h := by cases h

theorem find_iff (h : Sound t) :
    findByContentHash t hash = some r ↔ r ∈ t.rows ∧ r.contentHash = hash := by
  refine ⟨findByContentHash_eq_some, ?_⟩
  rintro ⟨hr, rfl⟩
  cases hfind : findByContentHash t r.contentHash with
  | none => simpa using List.find?_eq_none.1 hfind r hr
  | some r' =>
    obtain ⟨hr', hhash⟩ := findByContentHash_eq_some hfind
    rw [h.distinct r' hr' r hr hhash]

theorem mem_of_find_update {x : Option BlockRecord} (hx : ∀ r, x = some r → r.rid = rid)
    (hfind : t'.find = Function.update t.find rid x) {r : BlockRecord} :
    r ∈ t'.rows ↔ x = some r ∨ (r ∈ t.rows ∧ r.rid ≠ rid) := by
  have hmem : ∀ (u : Blocks) (r : BlockRecord), r ∈ u.rows ↔ u.find r.rid = some r :=
    fun u r => ⟨Table.find_of_mem, Table.mem_of_find⟩
  rw [hmem t', hfind, hmem t]
  by_cases hr : r.rid = rid
  · rw [hr, Function.update_self]
    simp
  · rw [Function.update_of_ne hr]
    refine ⟨fun h => .inr ⟨h, hr⟩, ?_⟩
    rintro (hx' | h)
    · exact absurd (hx r hx') hr
    · exact h.1

/-- The row under an id, which is the row for the hash, is replaced by another one for the hash,
    or by none. -/
theorem of_replace (h : Sound t) (hown : ∀ r ∈ t.rows, r.rid = rid ↔ r.contentHash = hash)
    {x : Option BlockRecord}
    (hx : ∀ r, x = some r → r.rid = rid ∧ r.contentHash = hash ∧ 0 < r.refCount)
    (hfind : t'.find = Function.update t.find rid x) :
    Sound t' ∧ refs t' = Function.update (refs t) hash (x.map fun r => (r.rid, r.refCount.toNat)) := by
  have hmem := fun r => mem_of_find_update (r := r) (fun r he => (hx r he).1) hfind
  have hother : ∀ r ∈ t.rows, r.rid ≠ rid → r.contentHash ≠ hash :=
    fun r hr hne he => hne ((hown r hr).2 he)
  have hsound : Sound t' := by
    refine ⟨fun a ha b hb he => ?_, fun a ha => ?_⟩
    · rcases (hmem a).1 ha with ha | ⟨ha, hane⟩ <;> rcases (hmem b).1 hb with hb | ⟨hb, hbne⟩
      · exact Option.some.inj (ha.symm.trans hb)
      · exact absurd (he.symm.trans (hx a ha).2.1) (hother b hb hbne)
      · exact absurd (he.trans (hx b hb).2.1) (hother a ha hane)
      · exact h.distinct a ha b hb he
    · rcases (hmem a).1 ha with ha | ⟨ha, -⟩
      · exact (hx a ha).2.2
      · exact h.counted a ha
  refine ⟨hsound, ?_⟩
  funext j
  unfold refs
  rw [Function.update_apply]
  split
  · rename_i hj
    subst hj
    refine congrArg (Option.map _) (Option.ext fun a => ?_)
    rw [hsound.find_iff, hmem]
    constructor
    · rintro ⟨ha | ⟨ha, hne⟩, he⟩
      · exact ha
      · exact absurd he (hother a ha hne)
    · intro ha
      exact ⟨.inl ha, (hx a ha).2.1⟩
  · rename_i hj
    refine congrArg (Option.map _) (Option.ext fun a => ?_)
    rw [hsound.find_iff, hmem, h.find_iff]
    constructor
    · rintro ⟨ha | ⟨ha, -⟩, he⟩
      · exact absurd (he.symm.trans (hx a ha).2.1) hj
      · exact ⟨ha, he⟩
    · rintro ⟨ha, he⟩
      exact ⟨.inr ⟨ha, fun hrid => hj (he.symm.trans ((hown a ha).1 hrid))⟩, he⟩

theorem own (h : Sound t) (hr : findByContentHash t hash = some r) :
    ∀ r' ∈ t.rows, r'.rid = r.rid ↔ r'.contentHash = hash := by
  intro r' hr'
  obtain ⟨hrow, rfl⟩ := h.find_iff.1 hr
  constructor
  · intro hrid
    have hsame := (Table.find_of_mem hr').symm.trans (hrid ▸ Table.find_of_mem hrow)
    rw [Option.some.inj hsame]
  · intro he
    rw [h.distinct r' hr' r hrow he]

/-- A fresh id is drawn for content that has no row. -/
theorem storeContent (h : Sound t) (block : BlockRecord)
    (hfresh : findByContentHash t block.contentHash = none → t.find block.rid = none) :
    ∃ t', BlockStore.storeContent block t =
        .ok ((refs t block.contentHash).elim (.unique block.contentHash)
          fun e => .duplicate e.1, t') ∧
      Sound t' ∧ refs t' = (refs t).acquire block.contentHash block.rid := by
  unfold BlockStore.storeContent
  cases hfind : findByContentHash t block.contentHash with
  | none =>
    have hrefs : refs t block.contentHash = none := by rw [refs, hfind]; rfl
    have hfree : t.findUniq block.rid = none := hfresh hfind
    obtain ⟨t', ht'⟩ := Table.insert_eq_some (t := t) (r := { block with refCount := 1 })
      (hfresh hfind) hfree
    have hown : ∀ r ∈ t.rows, r.rid = block.rid ↔ r.contentHash = block.contentHash := by
      intro r hr
      refine ⟨fun he => absurd he (Table.find_eq_none.1 (hfresh hfind) r hr), fun he => ?_⟩
      cases hfind.symm.trans (h.find_iff.2 ⟨hr, he⟩)
    have hnew := h.of_replace hown (x := some { block with refCount := 1 })
      (fun r he => by cases he; exact ⟨rfl, rfl, Int.one_pos⟩) (Table.find_insert ht')
    refine ⟨t', ?_, hnew.1, ?_⟩
    · rw [hrefs, insert, ht']
      rfl
    · rw [hnew.2, RefCounts.acquire_of_none hrefs]
      rfl
  | some r =>
    have hrefs : refs t block.contentHash = some (r.rid, r.refCount.toNat) := by
      rw [refs, hfind]; rfl
    obtain ⟨hrow, hhash⟩ := h.find_iff.1 hfind
    have hcount := h.counted r hrow
    have hnew := h.of_replace (h.own hfind) (x := some (bump r))
      (fun r' he => by cases he; exact ⟨rfl, hhash, Int.add_pos_of_pos_of_nonneg hcount (by decide)⟩)
      (by rw [find_incrementRef, Table.find_of_mem hrow]; rfl)
    refine ⟨incrementRef t r.rid, ?_, hnew.1, ?_⟩
    · rw [hrefs]
      rfl
    · rw [hnew.2, RefCounts.acquire_of_eq hrefs]
      have hnat : (r.refCount + 1).toNat = r.refCount.toNat + 1 := by omega
      simp only [bump, Option.map_some, hnat]

theorem releaseContent (h : Sound t) (hash : Bytes) :
    ∃ t', BlockStore.releaseContent hash t = .ok ((refs t).last hash, t') ∧
      Sound t' ∧ refs t' = (refs t).release hash := by
  unfold BlockStore.releaseContent
  cases hfind : findByContentHash t hash with
  | none =>
    have hrefs : refs t hash = none := by rw [refs, hfind]; rfl
    exact ⟨t, by rw [RefCounts.last_of_none hrefs], h, (RefCounts.release_of_none hrefs).symm⟩
  | some r =>
    have hrefs : refs t hash = some (r.rid, r.refCount.toNat) := by rw [refs, hfind]; rfl
    obtain ⟨hrow, hhash⟩ := h.find_iff.1 hfind
    have hcount := h.counted r hrow
    obtain ⟨t', ht', hdrop⟩ := decrementRef_of_find (Table.find_of_mem hrow)
    dsimp only
    rw [ht', RefCounts.last_of_eq hrefs, RefCounts.release_of_eq hrefs]
    dsimp only
    by_cases hlast : r.refCount.toNat ≤ 1
    · have hgarbage : r.refCount - 1 ≤ 0 := by omega
      have hdelete : (delete t' r.rid).find = Function.update t.find r.rid none := by
        rw [delete, Table.find_erase, hdrop, Function.update_idem]
      have hnew := h.of_replace (h.own hfind) (fun r' he => by cases he) hdelete
      rw [decide_eq_true hgarbage, decide_eq_true hlast, if_pos hlast]
      exact ⟨delete t' r.rid, rfl, hnew⟩
    · have hmore : ¬ r.refCount - 1 ≤ 0 := by omega
      have hnew := h.of_replace (h.own hfind) (x := some (drop r))
        (fun r' he => by cases he; exact ⟨rfl, hhash, Int.not_le.1 hmore⟩) hdrop
      rw [decide_eq_false hmore, decide_eq_false hlast, if_neg hlast]
      refine ⟨t', rfl, hnew.1, ?_⟩
      have hnat : (r.refCount - 1).toNat = r.refCount.toNat - 1 := by omega
      rw [hnew.2]
      simp only [drop, Option.map_some, hnat]

end Sound

end BlockStore

/-- Content is stored, with the block to enter on a miss, or released. -/
inductive DedupEvent where
  | store (data rid : Bytes) (messageId encryptedSize : ℤ) (epoch : ℕ) (compressed : Bool)
  | release (data : Bytes)

inductive DedupReply where
  | stored (result : DedupResult)
  | released (garbage : Bool)
deriving DecidableEq, Repr

/-- The index, the block table and what is really held. -/
structure DedupState where
  index : DedupIndex
  blocks : Blocks
  held : RefCounts Bytes Bytes

def DedupState.start : DedupState := ⟨.new, .empty, .empty⟩

namespace DedupEvent

variable [Primitives]

/-- `check`, then `insert` with the id that was found or a fresh one. -/
def serveIndex (d : DedupIndex) : DedupEvent → DedupReply × DedupIndex
  | store data rid _ _ _ _ =>
    match d.check data with
    | .duplicate rid' => (.stored (.duplicate rid'), d.insert (blake3 data) rid')
    | .unique contentHash => (.stored (.unique contentHash), d.insert contentHash rid)
  | release data => (.released (d.release (blake3 data)).1, (d.release (blake3 data)).2)

def serveBlocks (t : Blocks) : DedupEvent → Except SqlError (DedupReply × Blocks)
  | store data rid messageId encryptedSize epoch compressed =>
    (BlockStore.storeContent
      ⟨rid, blake3 data, messageId, encryptedSize, epoch, 1, compressed⟩ t).map fun x =>
        (.stored x.1, x.2)
  | release data => (BlockStore.releaseContent (blake3 data) t).map fun x => (.released x.1, x.2)

def hold (m : RefCounts Bytes Bytes) : DedupEvent → RefCounts Bytes Bytes
  | store data rid _ _ _ _ => m.acquire (blake3 data) rid
  | release data => m.release (blake3 data)

def step (e : DedupEvent) (s : DedupState) : DedupState where
  index := (e.serveIndex s.index).2
  blocks := match e.serveBlocks s.blocks with
    | .ok (_, t) => t
    | .error _ => s.blocks
  held := e.hold s.held

/-- The id drawn on a miss is fresh, and no content is held 2^32 times. -/
def Admitted (e : DedupEvent) (s : DedupState) : Prop :=
  match e with
  | store data rid _ _ _ _ =>
    (BlockStore.findByContentHash s.blocks (blake3 data) = none → s.blocks.find rid = none) ∧
      s.held.count (blake3 data) + 1 < 2 ^ 32
  | release _ => True

/-- The table answers what the index answers. -/
def Agrees (e : DedupEvent) (s : DedupState) : Prop :=
  ∃ t, e.serveBlocks s.blocks = .ok ((e.serveIndex s.index).1, t)

end DedupEvent

/-- Index and table have the same content, under the same ids, held as often, and the table has
    one row for each. -/
structure DedupState.Same (s : DedupState) : Prop where
  entries : ∀ hash, (s.index.entries[hash]?.map fun e => (e.rid, (e.refCount.toNat : ℤ))) =
    (BlockStore.findByContentHash s.blocks hash).map fun r => (r.rid, r.refCount)
  distinct : ∀ r ∈ s.blocks.rows, ∀ r' ∈ s.blocks.rows, r.contentHash = r'.contentHash → r = r'

/-- Both tell what is held. -/
structure DedupState.Tells (s : DedupState) : Prop where
  index : s.index.refs = s.held
  sound : BlockStore.Sound s.blocks
  blocks : BlockStore.refs s.blocks = s.held

namespace DedupState.Tells

variable {s : DedupState}

theorem start : Tells .start := ⟨DedupIndex.refs_new, .empty, rfl⟩

theorem same (h : s.Tells) : s.Same where
  entries hash := by
    have hrefs : s.index.refs hash = BlockStore.refs s.blocks hash :=
      congrFun (h.index.trans h.blocks.symm) hash
    rw [DedupIndex.refs, BlockStore.refs] at hrefs
    cases hfind : BlockStore.findByContentHash s.blocks hash with
    | none =>
      rw [hfind, Option.map_none, Option.map_eq_none_iff] at hrefs
      rw [hrefs]
      rfl
    | some r =>
      obtain ⟨e, he, heq⟩ := Option.map_eq_some_iff.1 (hfind ▸ hrefs)
      have hcount := h.sound.counted r (h.sound.find_iff.1 hfind).1
      obtain ⟨hrid, hnat⟩ := Prod.mk.inj heq
      rw [he, Option.map_some, Option.map_some, hrid, hnat, Int.toNat_of_nonneg (by omega)]
  distinct := h.sound.distinct

variable [Primitives]

theorem serve (h : s.Tells) {e : DedupEvent} (he : e.Admitted s) : e.Agrees s ∧ (e.step s).Tells := by
  cases e with
  | store data rid messageId encryptedSize epoch compressed =>
    obtain ⟨hfresh, hcount⟩ := he
    obtain ⟨t', ht', hsound, hrefs⟩ := h.sound.storeContent
      ⟨rid, blake3 data, messageId, encryptedSize, epoch, 1, compressed⟩ hfresh
    rw [h.blocks] at ht' hrefs
    have hblocks : (DedupEvent.store data rid messageId encryptedSize epoch compressed).serveBlocks
        s.blocks = .ok (.stored ((s.held (blake3 data)).elim (.unique (blake3 data))
          fun e => .duplicate e.1), t') := by
      rw [DedupEvent.serveBlocks, ht']
      rfl
    have hindex : (DedupEvent.store data rid messageId encryptedSize epoch compressed).serveIndex
        s.index = (.stored ((s.held (blake3 data)).elim (.unique (blake3 data))
          fun e => .duplicate e.1), s.index.insert (blake3 data) ((s.held (blake3 data)).elim rid
            Prod.fst)) := by
      rw [DedupEvent.serveIndex, DedupIndex.check_eq, h.index]
      cases s.held (blake3 data) <;> rfl
    have hinsert : ∀ rid', (s.index.insert (blake3 data) rid').refs =
        s.held.acquire (blake3 data) rid' := by
      intro rid'
      rw [DedupIndex.refs_insert (by rw [h.index]; exact hcount), h.index]
    refine ⟨⟨t', by rw [hblocks, hindex]⟩, ?_, ?_, ?_⟩
    · dsimp only [DedupEvent.step, DedupEvent.hold]
      rw [hindex, hinsert]
      cases hheld : s.held (blake3 data) with
      | none => rfl
      | some e => rw [RefCounts.acquire_of_eq hheld, RefCounts.acquire_of_eq hheld]
    · dsimp only [DedupEvent.step]
      rw [hblocks]
      exact hsound
    · dsimp only [DedupEvent.step]
      rw [hblocks]
      exact hrefs
  | release data =>
    obtain ⟨t', ht', hsound, hrefs⟩ := h.sound.releaseContent (blake3 data)
    obtain ⟨hlast, hindex⟩ := s.index.release_eq (blake3 data)
    rw [h.blocks] at ht' hrefs
    rw [h.index] at hlast hindex
    have hblocks : (DedupEvent.release data).serveBlocks s.blocks =
        .ok (.released (s.held.last (blake3 data)), t') := by
      rw [DedupEvent.serveBlocks, ht']
      rfl
    refine ⟨⟨t', by rw [hblocks, DedupEvent.serveIndex, hlast]⟩, hindex, ?_, ?_⟩
    · dsimp only [DedupEvent.step]
      rw [hblocks]
      exact hsound
    · dsimp only [DedupEvent.step]
      rw [hblocks]
      exact hrefs

end DedupState.Tells

section

variable [Primitives]

/-- The block table simulates the index. -/
theorem blockStore_simulates_dedupIndex {events : List DedupEvent}
    (h : Runs.Admits DedupEvent.step DedupEvent.Admitted events .start) :
    Runs.Throughout DedupEvent.step DedupState.Same events .start ∧
      Runs.Admits DedupEvent.step DedupEvent.Agrees events .start := by
  have hstep : ∀ (e : DedupEvent) (s : DedupState), s.Tells → e.Admitted s → (e.step s).Tells :=
    fun e s hs he => (hs.serve he).2
  refine ⟨h.throughout hstep (fun s hs => hs.same) .start, ?_⟩
  exact h.imp (J := fun _ => True) (fun _ _ _ => trivial) (fun e s _ hs he => hstep e s hs he)
    (fun e s _ hs he => (hs.serve he).1) trivial .start

end

section
open scoped Sample

/-- Two contents, one of them stored twice and released as often. -/
def Sample.dedupEvents : List DedupEvent :=
  [.store [97] (List.replicate 32 1) 7 1 0 false, .store [97] (List.replicate 32 2) 8 1 0 false,
    .store [98] (List.replicate 32 3) 9 1 0 false, .release [97], .release [97]]

theorem dedupEvents_simulated :
    Runs.Admits DedupEvent.step DedupEvent.Admitted Sample.dedupEvents .start ∧
      Runs.Throughout DedupEvent.step DedupState.Same Sample.dedupEvents .start ∧
      Runs.Admits DedupEvent.step DedupEvent.Agrees Sample.dedupEvents .start := by
  have hadmits : Runs.Admits DedupEvent.step DedupEvent.Admitted Sample.dedupEvents .start :=
    ⟨⟨fun _ => rfl, by decide⟩, ⟨fun _ => by decide +kernel, by decide +kernel⟩,
      ⟨fun _ => by decide +kernel, by decide +kernel⟩, trivial, trivial, trivial⟩
  exact ⟨hadmits, blockStore_simulates_dedupIndex hadmits⟩

end

end TgCryptFs

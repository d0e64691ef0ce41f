import TgCryptFs.Library.LossyKey
import TgCryptFs.Store.OpenedRows
import TgCryptFs.Store.SampleRecords

set_option autoImplicit false

/-!
# Snapshot listings

The column that the listings are sorted by keeps the whole seconds of a timestamp, and the entry
behind the row has its nanoseconds. A listing is newest first exactly as far as the seconds tell
the entries apart.
-/
namespace TgCryptFs
open Library

namespace SnapshotStore

/-- What the column keeps of a timestamp. -/
def columnSeconds (timestamp : ℤ) : ℤ := wrapI64 (timestamp.tdiv 1000000000)

section
variable [Primitives] [Postcard SnapshotEntry]

/-- An append, with the entries appended so far. -/
def record (metaKey : Bytes) (s : Snapshots × List SnapshotEntry) (call : Aead.Nonce × SnapshotEntry) :
    Snapshots × List SnapshotEntry :=
  match append metaKey call.1 call.2 s.1 with
  | .error _ => s
  | .ok r => (r.2, s.2 ++ [call.2])

def recordAll (metaKey : Bytes) (calls : List (Aead.Nonce × SnapshotEntry)) :
    Snapshots × List SnapshotEntry :=
  calls.foldl (record metaKey) (Table.empty, [])

/-- Whatever order of equal seconds is selected, `list_for_inode` answers with the entries of the
inode, newest first. -/
def ListsInode (metaKey : Bytes) (s : Snapshots × List SnapshotEntry) (ino : ℕ) : Prop :=
  ∀ selected, SelectsInode s.1 ino selected → ∃ listed, listForInode metaKey ino selected = .ok listed ∧
    listed.Perm (s.2.filter fun e => e.inode = ino) ∧ listed.Pairwise fun a b => b.timestamp ≤ a.timestamp

/-- Whatever order of equal seconds is selected, `list_recent` answers with the newest entries,
newest first. -/
def ListsRecent (metaKey : Bytes) (s : Snapshots × List SnapshotEntry) (limit : UInt32) : Prop :=
  ∀ selected, SelectsRecent s.1 limit selected → ∃ listed, listRecent metaKey selected = .ok listed ∧
    Greatest SnapshotEntry.timestamp s.2 limit.toNat listed

omit [Primitives] [Postcard SnapshotEntry] in
/-- The seconds of an older entry are below those of a newer one. -/
def SecondsSeparate (entries : List SnapshotEntry) : Prop :=
  ∀ f ∈ entries, ∀ e ∈ entries, f.timestamp < e.timestamp →
    columnSeconds f.timestamp < columnSeconds e.timestamp

omit [Primitives] [Postcard SnapshotEntry] in
/-- Where they are not, the limit is reached in later seconds. -/
def SeparateUpTo (limit : ℕ) (entries : List SnapshotEntry) : Prop :=
  ∀ f ∈ entries, ∀ e ∈ entries, f.timestamp < e.timestamp →
    columnSeconds e.timestamp ≤ columnSeconds f.timestamp →
    limit ≤ entries.countP fun g => columnSeconds f.timestamp < columnSeconds g.timestamp

/-! ## What the rows hold -/

/-- The rows are those of the entries appended, and `read` is what they open to. -/
structure Recorded (metaKey : Bytes) (s : Snapshots × List SnapshotEntry)
    (read : SnapshotRow → SnapshotEntry) : Prop where
  entries : s.2 = s.1.rows.map read
  opens : ∀ row ∈ s.1.rows, Opens metaKey row (read row)
  timestamp : ∀ row ∈ s.1.rows, row.timestamp = columnSeconds (read row).timestamp
  ino : ∀ row ∈ s.1.rows, row.ino = wrapI64 (read row).inode ∧ (read row).inode < 2 ^ 64

omit [Primitives] [Postcard SnapshotEntry] in
theorem sid_lt_nextSid {t : Snapshots} {row : SnapshotRow} (h : row ∈ t.rows) : row.sid < nextSid t := by
  rw [nextSid]
  generalize t.rows = rows at h
  induction rows with
  | nil => cases h
  | cons first rows ih =>
    rw [List.foldr_cons]
    rcases List.mem_cons.1 h with rfl | h
    · omega
    · have := ih h
      omega

omit [Primitives] [Postcard SnapshotEntry] in
theorem rows_put_nextSid (t : Snapshots) {row : SnapshotRow} (h : row.sid = nextSid t) :
    (t.put row).rows = t.rows ++ [row] := by
  have hkept : (t.rows.filter fun x => x.sid ≠ row.sid) = t.rows := by
    refine List.filter_eq_self.2 fun x hx => ?_
    have := sid_lt_nextSid hx
    exact decide_eq_true (by omega)
  exact congrArg (· ++ [row]) hkept

variable {metaKey : Bytes} {s : Snapshots × List SnapshotEntry} {read : SnapshotRow → SnapshotEntry}

theorem record_of_seal (call : Aead.Nonce × SnapshotEntry) {data : Bytes}
    (hseal : sealRecord metaKey call.1 (snapshotAad call.2.inode) call.2 = some data) :
    record metaKey s call =
      (s.1.put ⟨nextSid s.1, columnSeconds call.2.timestamp, data, wrapI64 call.2.inode⟩,
        s.2 ++ [call.2]) := by
  rw [record, append, hseal]
  rfl

/-- The row of the entry is new, and what the other rows open to stays. -/
theorem Recorded.record (h : Recorded metaKey s read) {call : Aead.Nonce × SnapshotEntry}
    (hino : call.2.inode < 2 ^ 64) : ∃ read', Recorded metaKey (record metaKey s call) read' := by
  cases hseal : sealRecord metaKey call.1 (snapshotAad call.2.inode) call.2 with
  | none =>
    refine ⟨read, ?_⟩
    rw [SnapshotStore.record, append, hseal]
    exact h
  | some data =>
    let row : SnapshotRow :=
      ⟨nextSid s.1, columnSeconds call.2.timestamp, data, wrapI64 call.2.inode⟩
    have hrows : (s.1.put row).rows = s.1.rows ++ [row] := rows_put_nextSid s.1 rfl
    have hnew : row ∉ s.1.rows := fun hmem => lt_irrefl _ (sid_lt_nextSid hmem)
    have hself : Function.update read row call.2 row = call.2 := Function.update_self row call.2 read
    have hsame : ∀ x ∈ s.1.rows, Function.update read row call.2 x = read x := by
      intro x hx
      refine Function.update_of_ne ?_ call.2 read
      rintro rfl
      exact hnew hx
    have hopens : Opens metaKey row call.2 := by
      have haad : (RecordRow.identity row).aad = snapshotAad call.2.inode :=
        congrArg snapshotAad (wrapU64_wrapI64 hino)
      rw [← haad] at hseal
      exact Opens.of_seal hseal
    rw [record_of_seal call hseal]
    refine ⟨Function.update read row call.2, ?_, ?_, ?_, ?_⟩
    · change s.2 ++ [call.2] = (s.1.put row).rows.map _
      rw [hrows, List.map_append, List.map_congr_left hsame, ← h.entries, List.map_singleton, hself]
    all_goals
      change ∀ x ∈ (s.1.put row).rows, _
      rw [hrows]
      refine List.forall_mem_append.2 ⟨fun x hx => ?_, List.forall_mem_singleton.2 ?_⟩
    · rw [hsame x hx]
      exact h.opens x hx
    · rw [hself]
      exact hopens
    · rw [hsame x hx]
      exact h.timestamp x hx
    · rw [hself]
    · rw [hsame x hx]
      exact h.ino x hx
    · rw [hself]
      exact ⟨rfl, hino⟩

theorem recorded_recordAll (metaKey : Bytes) {calls : List (Aead.Nonce × SnapshotEntry)}
    (hino : ∀ call ∈ calls, call.2.inode < 2 ^ 64) :
    ∃ read, Recorded metaKey (recordAll metaKey calls) read := by
  have hstart : ∃ read, Recorded metaKey (Table.empty, []) read :=
    ⟨fun _ => ⟨0, 0, .create, 0, none, none, none⟩, rfl, nofun, nofun, nofun⟩
  rw [recordAll]
  generalize (Table.empty, []) = s at hstart
  induction calls generalizing s with
  | nil => exact hstart
  | cons call calls ih =>
    obtain ⟨read, hread⟩ := hstart
    exact ih (fun c hc => hino c (List.mem_cons_of_mem _ hc)) _
      (hread.record (hino call List.mem_cons_self))

/-! ## The listings -/

theorem Recorded.openRows (h : Recorded metaKey s read) {selected : List SnapshotRow}
    (hselected : ∀ row ∈ selected, row ∈ s.1.rows) (aad : SnapshotRow → String)
    (haad : ∀ row ∈ selected, aad row = snapshotAad (wrapU64 row.ino)) :
    openRows metaKey SnapshotRow.data aad selected = .ok (selected.map read) := by
  refine openRows_ok (List.forall₂_map_right_iff.2 (List.forall₂_same.2 fun row hrow => ?_))
  rw [haad row hrow]
  exact h.opens row (hselected row hrow)

theorem Recorded.filter_inode (h : Recorded metaKey s read) {ino : ℕ} (hino : ino < 2 ^ 64) :
    s.2.filter (fun e => e.inode = ino) =
      (s.1.rows.filter fun row => row.ino = wrapI64 ino).map read := by
  rw [h.entries, List.filter_map]
  refine congrArg (List.map read) (List.filter_congr fun row hrow => ?_)
  obtain ⟨hrowIno, hlt⟩ := h.ino row hrow
  have hiff := wrapI64_inj hlt hino
  rw [← hrowIno] at hiff
  exact decide_eq_decide.2 hiff.symm

theorem Recorded.listsInode_iff (h : Recorded metaKey s read) {ino : ℕ} (hino : ino < 2 ^ 64) :
    ListsInode metaKey s ino ↔ SecondsSeparate (s.2.filter fun e => e.inode = ino) := by
  let rows := s.1.rows.filter fun row => row.ino = wrapI64 ino
  have hlisted : ∀ selected, SelectsInode s.1 ino selected →
      listForInode metaKey ino selected = .ok (selected.map read) := by
    intro selected hselected
    refine h.openRows (fun row hrow => ?_) _ fun row hrow => ?_
    · exact (List.mem_filter.1 (hselected.1.mem_iff.1 hrow)).1
    · have hrowIno := of_decide_eq_true (List.mem_filter.1 (hselected.1.mem_iff.1 hrow)).2
      rw [hrowIno, wrapU64_wrapI64 hino]
  have horder : ListsInode metaKey s ino ↔ ∀ selected, Descending SnapshotRow.timestamp rows selected →
      selected.Pairwise fun a b => (read b).timestamp ≤ (read a).timestamp := by
    refine forall₂_congr fun selected hselected => ?_
    rw [hlisted selected hselected]
    constructor
    · rintro ⟨listed, heq, -, hsorted⟩
      cases heq
      exact List.pairwise_map.1 hsorted
    · intro hsorted
      refine ⟨_, rfl, ?_, List.pairwise_map.2 hsorted⟩
      rw [h.filter_inode hino]
      exact hselected.1.map read
  rw [horder, pairwise_of_descending_iff, h.filter_inode hino, SecondsSeparate, List.forall_mem_map]
  refine forall₂_congr fun a ha => ?_
  rw [List.forall_mem_map]
  refine forall₂_congr fun b hb => ?_
  rw [h.timestamp a (List.mem_filter.1 ha).1, h.timestamp b (List.mem_filter.1 hb).1]

theorem Recorded.listsRecent_iff (h : Recorded metaKey s read) (limit : UInt32) :
    ListsRecent metaKey s limit ↔ SeparateUpTo limit.toNat s.2 := by
  have horder : ListsRecent metaKey s limit ↔ ∀ ordered,
      Descending SnapshotRow.timestamp s.1.rows ordered →
      Greatest (fun row => (read row).timestamp) s.1.rows limit.toNat (ordered.take limit.toNat) := by
    have hlisted : ∀ ordered, NewestFirst s.1.rows ordered →
        listRecent metaKey (ordered.take limit.toNat) = .ok ((ordered.take limit.toNat).map read) :=
      fun ordered hordered =>
        h.openRows (fun row hrow => hordered.1.mem_iff.1 (List.mem_of_mem_take hrow)) _ fun _ _ => rfl
    have hgreatest : ∀ ordered, NewestFirst s.1.rows ordered →
        (Greatest SnapshotEntry.timestamp s.2 limit.toNat ((ordered.take limit.toNat).map read) ↔
          Greatest (fun row => (read row).timestamp) s.1.rows limit.toNat (ordered.take limit.toNat)) := by
      intro ordered hordered
      have hperm : (ordered.map read).Perm s.2 := by
        rw [h.entries]
        exact hordered.1.map read
      rw [List.map_take, greatest_take_iff hperm, greatest_take_iff hordered.1, ← List.map_take,
        ← List.map_drop, List.pairwise_map]
      simp only [List.forall_mem_map]
    constructor
    · intro hlists ordered hordered
      obtain ⟨listed, heq, hright⟩ := hlists _ ⟨ordered, hordered, rfl⟩
      rw [hlisted ordered hordered] at heq
      cases heq
      exact (hgreatest ordered hordered).1 hright
    · rintro hright _ ⟨ordered, hordered, rfl⟩
      exact ⟨_, hlisted ordered hordered, (hgreatest ordered hordered).2 (hright ordered hordered)⟩
  rw [horder, greatest_take_of_descending_iff, SeparateUpTo, h.entries, List.forall_mem_map]
  refine forall₂_congr fun a ha => ?_
  rw [List.forall_mem_map]
  refine forall₂_congr fun b hb => ?_
  rw [List.countP_map, h.timestamp a ha, h.timestamp b hb]
  refine forall₂_congr fun _ _ => ?_
  rw [List.countP_congr]
  intro row hrow
  rw [h.timestamp row hrow]
  rfl

/-- The listings after any appends, whatever order equal seconds are in: that of an inode is newest
first exactly if the seconds separate its entries, and the recent one exactly if they separate the
entries that the limit does not keep out. -/
theorem newest_first_iff (metaKey : Bytes) (calls : List (Aead.Nonce × SnapshotEntry))
    (hino : ∀ call ∈ calls, call.2.inode < 2 ^ 64) :
    (∀ ino < 2 ^ 64, ListsInode metaKey (recordAll metaKey calls) ino ↔
      SecondsSeparate ((recordAll metaKey calls).2.filter fun e => e.inode = ino)) ∧
    ∀ limit : UInt32, ListsRecent metaKey (recordAll metaKey calls) limit ↔
      SeparateUpTo limit.toNat (recordAll metaKey calls).2 := by
  obtain ⟨read, hread⟩ := recorded_recordAll metaKey hino
  exact ⟨fun ino h => hread.listsInode_iff h, hread.listsRecent_iff⟩

end
end SnapshotStore

/-! ## Two entries of one second -/

section
open scoped Sample

namespace SampleListings

def secondNonce : Aead.Nonce := ⟨List.replicate 24 2, List.length_replicate⟩

def older : SnapshotEntry := ⟨0, 1000000000, .create, 2, none, none, none⟩

/-- A nanosecond later. -/
def newer : SnapshotEntry := ⟨1, 1000000001, .write, 2, none, none, none⟩

def calls : List (Aead.Nonce × SnapshotEntry) := [(Sample.zeroNonce, older), (secondNonce, newer)]

theorem inode_calls : ∀ call ∈ calls, call.2.inode < 2 ^ 64 := by decide

theorem appended_calls : (SnapshotStore.recordAll [] calls).2 = [older, newer] := by
  have hseals : ∀ (nonce : Aead.Nonce) (e : SnapshotEntry), e = older ∨ e = newer →
      ∃ data, sealRecord [] nonce (snapshotAad e.inode) e = some data := by
    intro nonce e he
    refine Sample.sealRecord_some ?_ [] nonce _
    rcases he with rfl | rfl <;> decide +kernel
  obtain ⟨first, hfirst⟩ := hseals Sample.zeroNonce older (.inl rfl)
  obtain ⟨second, hsecond⟩ := hseals secondNonce newer (.inr rfl)
  rw [SnapshotStore.recordAll, calls, List.foldl_cons, List.foldl_cons, List.foldl_nil,
    SnapshotStore.record_of_seal (secondNonce, newer) hsecond,
    SnapshotStore.record_of_seal (Sample.zeroNonce, older) hfirst]
  rfl

theorem seconds_eq : SnapshotStore.columnSeconds older.timestamp =
    SnapshotStore.columnSeconds newer.timestamp := rfl

end SampleListings

open SampleListings in
/-- The newer of two entries of one second may come last, and be cut off. -/
theorem SnapshotStore.not_newest_first : (∀ call ∈ calls, call.2.inode < 2 ^ 64) ∧
    ¬ ListsInode [] (recordAll [] calls) 2 ∧ ¬ ListsRecent [] (recordAll [] calls) 1 := by
  obtain ⟨read, hread⟩ := recorded_recordAll [] inode_calls
  have hlt : older.timestamp < newer.timestamp := by decide
  refine ⟨inode_calls, ?_, ?_⟩
  · rw [hread.listsInode_iff (by decide), appended_calls]
    intro hseparate
    have := hseparate older (by decide) newer (by decide) hlt
    rw [seconds_eq] at this
    exact lt_irrefl _ this
  · rw [hread.listsRecent_iff, appended_calls]
    intro hseparate
    have hcut := hseparate older (by decide) newer (by decide) hlt (le_of_eq seconds_eq.symm)
    have hnone : [older, newer].countP (fun g =>
        columnSeconds older.timestamp < columnSeconds g.timestamp) = 0 := by
      refine List.countP_eq_zero.2 fun g hg => ?_
      rcases List.mem_pair.1 hg with rfl | rfl
      · simp
      · rw [← seconds_eq]
        simp
    rw [hnone] at hcut
    exact absurd hcut (by decide)

open SampleListings in
theorem SnapshotStore.newest_first_iff_sample : (∀ call ∈ calls, call.2.inode < 2 ^ 64) ∧
    (ListsInode [] (recordAll [] calls) 2 ↔
      SecondsSeparate ((recordAll [] calls).2.filter fun e => e.inode = 2)) ∧
    (ListsRecent [] (recordAll [] calls) 1 ↔ SeparateUpTo 1 (recordAll [] calls).2) :=
  have hlists := newest_first_iff [] calls inode_calls
  ⟨inode_calls, hlists.1 2 (by decide), hlists.2 1⟩

end
end TgCryptFs

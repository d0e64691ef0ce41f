import TgCryptFs.Store.MetaReads
import TgCryptFs.Store.SampleRecords

set_option autoImplicit false

/-!
# Blobs that are moved between rows

Someone who can write the database file copies the blob of one row into another. The blob
opens only under what it was sealed under, and a read asks for that only where the caller, not
the row, says what the record is bound to.
-/
namespace TgCryptFs
open Library

section Opened

variable [Primitives] {α Row K U : Type} [Postcard α] [RecordRow Row α] [DecidableEq K]
  [DecidableEq U] {metaKey : Bytes} {key : Row → K} {uniq : Row → U} {t : Table key uniq}
  {id : Row → RowId} {r : RowId} {s : String} {blob : Bytes} {i : Identity}

omit [Primitives] [Postcard α] [DecidableEq U] in
theorem exists_selected {rows : List Row} {aad : Row → String} (hsub : rows ⊆ t.rows)
    (hr : (r, s) ∈ rows.map fun row => (id row, aad row))
    (hst : ∀ row, r = id row → (t.find (key row)).map RecordRow.stored = some (blob, i)) :
    ∃ row ∈ rows, aad row = s ∧ RecordRow.data row = blob ∧ RecordRow.identity row = i := by
  obtain ⟨row, hrow, he⟩ := List.mem_map.1 hr
  obtain ⟨hid, hs⟩ := Prod.mk.inj he
  have hst := hst row hid.symm
  rw [Table.find_of_mem (hsub hrow)] at hst
  obtain ⟨hdata, hidentity⟩ := Prod.mk.inj (Option.some.inj hst)
  exact ⟨row, hrow, hs, hdata, hidentity⟩

omit [DecidableEq U] in
theorem opened_row {o : Option Row} {aad : Row → String} (hsub : ∀ row ∈ o, row ∈ t.rows)
    (hr : (r, s) ∈ o.toList.map fun row => (id row, aad row))
    (hst : ∀ row, r = id row → (t.find (key row)).map RecordRow.stored = some (blob, i)) :
    ∃ row, o = some row ∧ aad row = s ∧ RecordRow.identity row = i ∧
      (Aead.decrypt metaKey blob (utf8 s) = none →
        ∃ e, (openRow metaKey RecordRow.data aad o : Except RowError (Option α)) = .error e) := by
  have hsub : o.toList ⊆ t.rows := fun row hrow => hsub row (Option.mem_toList.1 hrow)
  obtain ⟨row, hrow, hs, hdata, hidentity⟩ := exists_selected hsub hr hst
  obtain rfl := Option.mem_toList.1 hrow
  refine ⟨row, rfl, hs, hidentity, fun h => ?_⟩
  rw [← hdata, ← hs] at h
  rw [openRow, openRecord_of_decrypt_none h]
  exact ⟨_, rfl⟩

omit [DecidableEq U] in
/-- A query for many rows: one that is not read fails it. -/
theorem opened_rows {rows : List Row} {aad : Row → String} (hsub : rows ⊆ t.rows)
    (hr : (r, s) ∈ rows.map fun row => (id row, aad row))
    (hst : ∀ row, r = id row → (t.find (key row)).map RecordRow.stored = some (blob, i)) :
    ∃ row ∈ rows, aad row = s ∧ RecordRow.identity row = i ∧
      (Aead.decrypt metaKey blob (utf8 s) = none →
        ∃ e, (openRows metaKey RecordRow.data aad rows : Except RowError (List α)) = .error e) := by
  obtain ⟨row, hrow, hs, hdata, hidentity⟩ := exists_selected hsub hr hst
  refine ⟨row, hrow, hs, hidentity, fun h => ?_⟩
  rw [← hdata, ← hs] at h
  exact openRows_error hrow (openRecord_of_decrypt_none h)

omit [DecidableEq U] in
/-- A query by a key that names the record. -/
theorem opened_key (named : K → Identity) {k : K} {aad : String}
    (hr : (r, s) ∈ (t.find k).toList.map fun row => (id row, aad))
    (hst : ∀ row, r = id row → (t.find (key row)).map RecordRow.stored = some (blob, i))
    (hnamed : ∀ row : Row, RecordRow.identity row = named (key row))
    (haad : aad = (named k).aad) :
    s = i.aad ∧ (Aead.decrypt metaKey blob (utf8 s) = none →
      ∃ e, (openRow metaKey RecordRow.data (fun _ => aad) (t.find k) :
        Except RowError (Option α)) = .error e) := by
  obtain ⟨row, hrow, hs, hid, hfail⟩ := opened_row (fun _ => Table.mem_of_find) hr hst
  refine ⟨?_, hfail⟩
  rw [← hs, ← hid, hnamed, Table.key_of_find hrow, haad]

omit [DecidableEq U] in
theorem opened_own {rows : List Row} {aad : Row → String} (hsub : rows ⊆ t.rows)
    (hr : (r, s) ∈ rows.map fun row => (id row, aad row))
    (hst : ∀ row, r = id row → (t.find (key row)).map RecordRow.stored = some (blob, i))
    (haad : ∀ row, aad row = (RecordRow.identity row).aad) :
    s = i.aad ∧ (Aead.decrypt metaKey blob (utf8 s) = none →
      ∃ e, (openRows metaKey RecordRow.data aad rows : Except RowError (List α)) = .error e) := by
  obtain ⟨row, -, hs, hid, hfail⟩ := opened_rows hsub hr hst
  refine ⟨?_, hfail⟩
  rw [← hs, ← hid, haad]

end Opened

section Reads

variable [Primitives] [Postcard Inode] [Postcard MutabilityPolicy] [Postcard StoredConfig]
  [Postcard UserRecord] [Postcard DeadmanRecord] [Postcard ShareRecord] [Postcard Invite]
  [Postcard SnapshotEntry] {db : MetaDb}

theorem MetaRead.opened (metaKey : Bytes) (hinos : ∀ row ∈ db.inodes.rows, row.ino < 2 ^ 63)
    {read : MetaRead} (ha : read.Admitted db) {r : RowId} {s : String} {blob : Bytes} {i : Identity}
    (hr : (r, s) ∈ read.opens db) (hst : db.stored r = some (blob, i)) :
    (Aead.decrypt metaKey blob (utf8 s) = none → read.Fails metaKey db) ∧
      (s = i.aad ∨ (∀ j : Identity, s ≠ j.aad) ∨
        ∃ rowId ino, read = .getSnapshot rowId ino ∧ s = snapshotAad ino) := by
  cases read with
  | getInode ino =>
    rw [MetaRead.opens] at hr
    obtain ⟨row, hrow, hs, hid, hfail⟩ := opened_row (fun _ => Table.mem_of_find) hr
      (by rintro row rfl; exact hst)
    have hino : wrapU64 row.ino = ino := by
      rw [Table.key_of_find hrow, wrapU64_wrapI64 ha]
    rw [← hino] at hs
    exact ⟨hfail, .inl (hs.symm.trans (congrArg Identity.aad hid))⟩
  | listChildren parentIno =>
    rw [MetaRead.opens] at hr
    obtain ⟨hs, hfail⟩ := opened_own (List.filter_subset_self _) hr (by rintro row rfl; exact hst)
      fun _ => rfl
    exact ⟨hfail, .inl hs⟩
  | lookup parentIno name =>
    rw [MetaRead.opens] at hr
    obtain ⟨row, hrow, hs, hid, hfail⟩ := opened_row (fun _ h => (Table.findUniq_eq_some.1 h).1) hr
      (by rintro row rfl; exact hst)
    refine ⟨hfail, ?_⟩
    -- From 2^63 on the number of the row is negative, and nothing is sealed under that.
    rcases lt_or_ge row.ino 0 with hneg | hpos
    · exact .inr (.inl fun j => hs ▸ Identity.inodeAad_ne_of_neg hneg j)
    · have hlt := hinos row (Table.findUniq_eq_some.1 hrow).1
      obtain ⟨n, hn⟩ := Int.eq_ofNat_of_zero_le hpos
      have hino : wrapU64 row.ino = n := by
        rw [hn, wrapU64_of_nonneg (by omega)]
      rw [hn, ← hino] at hs
      exact .inl (hs.symm.trans (congrArg Identity.aad hid))
  | getPolicy policyId =>
    rw [MetaRead.opens] at hr
    obtain ⟨hs, hfail⟩ := opened_key (fun pid : UInt32 => .policy pid.toNat) hr
      (by rintro row rfl; exact hst) (fun _ => rfl) rfl
    exact ⟨hfail, .inl hs⟩
  | listPolicies =>
    rw [MetaRead.opens] at hr
    obtain ⟨hs, hfail⟩ := opened_own (List.Subset.refl _) hr (by rintro row rfl; exact hst)
      fun _ => rfl
    exact ⟨hfail, .inl hs⟩
  | loadConfig volumeId =>
    rw [MetaRead.opens] at hr
    obtain ⟨hs, hfail⟩ := opened_key .volume hr (by rintro row rfl; exact hst) (fun _ => rfl) rfl
    exact ⟨hfail, .inl hs⟩
  | getUser userId =>
    rw [MetaRead.opens] at hr
    obtain ⟨hs, hfail⟩ := opened_key .user hr (by rintro row rfl; exact hst) (fun _ => rfl) rfl
    exact ⟨hfail, .inl hs⟩
  | listActiveUsers =>
    rw [MetaRead.opens] at hr
    obtain ⟨hs, hfail⟩ := opened_own (List.filter_subset_self _) hr (by rintro row rfl; exact hst)
      fun _ => rfl
    exact ⟨hfail, .inl hs⟩
  | getDeadman volumeId =>
    rw [MetaRead.opens] at hr
    obtain ⟨hs, hfail⟩ := opened_key .deadman hr (by rintro row rfl; exact hst) (fun _ => rfl) rfl
    exact ⟨hfail, .inl hs⟩
  | getShare userId =>
    rw [MetaRead.opens] at hr
    obtain ⟨hs, hfail⟩ := opened_key .share hr (by rintro row rfl; exact hst) (fun _ => rfl) rfl
    exact ⟨hfail, .inl hs⟩
  | listShares volumeId =>
    rw [MetaRead.opens] at hr
    obtain ⟨hs, hfail⟩ := opened_own (List.filter_subset_self _) hr (by rintro row rfl; exact hst)
      fun _ => rfl
    exact ⟨hfail, .inl hs⟩
  | getInvite inviteId =>
    rw [MetaRead.opens] at hr
    obtain ⟨hs, hfail⟩ := opened_key .invite hr (by rintro row rfl; exact hst) (fun _ => rfl) rfl
    exact ⟨hfail, .inl hs⟩
  | useInvite nonce now inviteId =>
    rw [MetaRead.opens] at hr
    obtain ⟨hs, hfail⟩ := opened_key .invite hr (by rintro row rfl; exact hst) (fun _ => rfl) rfl
    refine ⟨fun h => ?_, .inl hs⟩
    obtain ⟨e, he⟩ := hfail h
    have hget : SharingStore.getInvite metaKey inviteId .working db.invites = .error e := he
    rw [MetaRead.Fails, SharingStore.useInvite, hget]
    exact ⟨e, rfl⟩
  | getSnapshot rowId ino =>
    rw [MetaRead.opens] at hr
    obtain ⟨row, hrow, hs, hid, hfail⟩ := opened_row (fun _ => Table.mem_of_find) hr
      (by rintro row rfl; exact hst)
    exact ⟨hfail, .inr (.inr ⟨rowId, ino, rfl, hs.symm⟩)⟩
  | listSnapshots ino selected =>
    rw [MetaRead.opens] at hr
    have hsub : ∀ row ∈ selected, row ∈ db.snapshots.rows ∧ row.ino = wrapI64 ino := by
      intro row hrow
      simpa using (ha.2.1.mem_iff (a := row)).1 hrow
    obtain ⟨row, hrow, hs, hid, hfail⟩ := opened_rows (fun row hrow => (hsub row hrow).1) hr
      (by rintro row rfl; exact hst)
    have hino : wrapU64 row.ino = ino := by
      rw [(hsub row hrow).2, wrapU64_wrapI64 ha.1]
    rw [← hino] at hs
    exact ⟨hfail, .inl (hs.symm.trans (congrArg Identity.aad hid))⟩
  | listRecentSnapshots limit selected =>
    rw [MetaRead.opens] at hr
    obtain ⟨ordered, hordered, rfl⟩ := ha
    obtain ⟨hs, hfail⟩ := opened_own
      (fun row hrow => (hordered.1.mem_iff (a := row)).1 (List.mem_of_mem_take hrow))
      hr (by rintro row rfl; exact hst)
      fun _ => rfl
    exact ⟨hfail, .inl hs⟩

end Reads

section Overwritten

variable {db : MetaDb} {blob old : Bytes} {j : Identity} {dst : RowId}

theorem MetaRead.mem_opens_getSnapshot [Primitives] {sid : ℕ} {x : Bytes × Identity}
    (ino : ℕ) (h : db.stored (.snapshot sid) = some x) :
    (.snapshot sid, snapshotAad ino) ∈ (MetaRead.getSnapshot sid ino).opens db := by
  obtain ⟨row, hrow, -⟩ := Option.map_eq_some_iff.1 h
  rw [MetaRead.opens, hrow]
  refine List.mem_singleton.2 (congrArg (fun sid => (RowId.snapshot sid, snapshotAad ino)) ?_)
  exact (Table.key_of_find hrow).symm

theorem stored_patch {Row K U α : Type} [RecordRow Row α] [DecidableEq K] {key : Row → K}
    {uniq : Row → U} {t : Table key uniq} {k : K} {f : Row → Row} (hk : ∀ r, key (f r) = key r)
    (hu : ∀ r, uniq (f r) = uniq r) (h : (t.find k).map RecordRow.stored = some (old, j))
    (hf : ∀ r, RecordRow.stored (f r) = (blob, RecordRow.identity r)) :
    ((t.patch k f hk hu).find k).map RecordRow.stored = some (blob, j) := by
  obtain ⟨r, hr, hst⟩ := Option.map_eq_some_iff.1 h
  obtain ⟨-, hid⟩ := Prod.mk.inj hst
  rw [Table.find_patch_self hr, Option.map_some, hf, hid]

theorem MetaDb.stored_overwrite (h : db.stored dst = some (old, j)) :
    (db.overwrite dst blob).stored dst = some (blob, j) := by
  unfold MetaDb.stored MetaDb.overwrite
  cases dst <;> refine stored_patch (fun r => ?_) (fun r => ?_) h fun r => ?_ <;> rfl

theorem MetaDb.ino_overwrite (h : ∀ row ∈ db.inodes.rows, row.ino < 2 ^ 63) :
    ∀ row ∈ (db.overwrite dst blob).inodes.rows, row.ino < 2 ^ 63 := by
  cases dst with
  | inode ino =>
    intro row hrow
    obtain ⟨r, hr, rfl⟩ := List.mem_map.1 hrow
    split <;> exact h r hr
  | _ => exact h

theorem MetaDb.stored_put (r : SnapshotRow) (sid : ℕ) :
    { db with snapshots := db.snapshots.put r }.stored (.snapshot sid) =
      if sid = r.sid then some (RecordRow.stored r) else db.stored (.snapshot sid) := by
  change ((db.snapshots.put r).find sid).map RecordRow.stored = _
  rw [Table.find_put, Function.update_apply]
  split <;> rfl

end Overwritten

section Tampering

variable [Primitives] {Row K U α : Type} [Postcard α] [RecordRow Row α] [DecidableEq K]
  [DecidableEq U] {metaKey blob old : Bytes} {log : List Aead.Sealing} {i j : Identity}
  {key : Row → K} {uniq : Row → U} {t : Table key uniq}

/-- The blob of a row is an encryption of the log. -/
theorem SealedUnder.exists_sealing (h : SealedUnder α metaKey log i blob) :
    ∃ s ∈ log, s.output metaKey = some blob ∧ s.aad = utf8 i.aad := by
  obtain ⟨nonce, record, hlog, hseal⟩ := h
  exact ⟨_, hlog, hseal, rfl⟩

omit [DecidableEq U] in
theorem AllSealed.stored (h : AllSealed metaKey log t.rows) {k : K}
    (hst : (t.find k).map RecordRow.stored = some (blob, i)) : SealedUnder α metaKey log i blob := by
  obtain ⟨r, hr, hst⟩ := Option.map_eq_some_iff.1 hst
  obtain ⟨rfl, rfl⟩ := Prod.mk.inj hst
  exact h r (Table.mem_of_find hr)

omit [Postcard α] [RecordRow Row α] [DecidableEq K] [DecidableEq U] in
/-- With fresh nonces, a blob opens under its own identity or not at all. -/
theorem decrypt_eq_none_of_ne (hfresh : (log.map Aead.Sealing.nonce).Nodup)
    (hsealed : ∃ s ∈ log, s.output metaKey = some blob ∧ s.aad = utf8 i.aad) {aad : String}
    (hunforged : Aead.Unforged metaKey log blob (utf8 aad)) (hne : aad ≠ i.aad) :
    Aead.decrypt metaKey blob (utf8 aad) = none := by
  cases hm : Aead.decrypt metaKey blob (utf8 aad) with
  | none => rfl
  | some m =>
    obtain ⟨s, hs, hout, haad⟩ := hsealed
    obtain ⟨s', hs', hout', haad'⟩ := hunforged m hm
    obtain rfl := Aead.eq_of_output_eq hfresh hs hs' hout hout'
    exact absurd (utf8_injective (haad'.symm.trans haad)) hne

variable [Postcard Inode] [Postcard MutabilityPolicy] [Postcard StoredConfig]
  [Postcard UserRecord] [Postcard DeadmanRecord] [Postcard ShareRecord] [Postcard Invite]
  [Postcard SnapshotEntry] {db : MetaDb}

theorem SealedDb.exists_sealing (h : SealedDb metaKey db log) {src : RowId}
    (hst : db.stored src = some (blob, i)) :
    ∃ s ∈ log, s.output metaKey = some blob ∧ s.aad = utf8 i.aad := by
  cases src with
  | inode ino => exact (h.inodes.stored hst).exists_sealing
  | policy pid => exact (h.policies.stored hst).exists_sealing
  | volume volumeId => exact (h.volumes.stored hst).exists_sealing
  | user uid => exact (h.users.stored hst).exists_sealing
  | deadman vid => exact (h.deadmen.stored hst).exists_sealing
  | share sid => exact (h.shares.stored hst).exists_sealing
  | invite inviteId => exact (h.invites.stored hst).exists_sealing
  | snapshot sid => exact (h.snapshots.stored hst).exists_sealing

/-- Only the snapshot table names records by a snapshot inode. -/
theorem SealedDb.snapshot (h : SealedDb metaKey db log) {src : RowId} {ino : ℕ}
    (hst : db.stored src = some (blob, .snapshot ino)) :
    SealedUnder SnapshotEntry metaKey log (.snapshot ino) blob := by
  cases src with
  | snapshot sid => exact h.snapshots.stored hst
  | _ =>
    obtain ⟨r, -, hst⟩ := Option.map_eq_some_iff.1 hst
    cases (Prod.mk.inj hst).2

/-- A read of a row that holds the blob of another fails, but for the `get` of a snapshot
    that is asked for the inode of the other row. -/
theorem moved_blob_refused_iff (hdb : Produced metaKey db log)
    (hfresh : (log.map Aead.Sealing.nonce).Nodup)
    {src dst : RowId} {old : Bytes} (hsrc : db.stored src = some (blob, i))
    (hdst : db.stored dst = some (old, j)) (hne : i ≠ j) {read : MetaRead}
    (hread : read.Admitted (db.overwrite dst blob)) {aad : String}
    (hopens : (dst, aad) ∈ read.opens (db.overwrite dst blob))
    (hunforged : Aead.Unforged metaKey log blob (utf8 aad)) :
    read.Fails metaKey (db.overwrite dst blob) ↔
      ¬ ∃ rowId ino, read = .getSnapshot rowId ino ∧ i = .snapshot ino := by
  have hsealed := hdb.sealedDb
  have hst : (db.overwrite dst blob).stored dst = some (blob, j) := MetaDb.stored_overwrite hdst
  constructor
  · rintro hfails ⟨rowId, ino, rfl, rfl⟩
    obtain ⟨nonce, entry, -, hseal⟩ := hsealed.snapshot hsrc
    rw [MetaRead.opens] at hopens
    obtain ⟨row, hrow, -, hdata, -⟩ := exists_selected
      (fun row hrow => Table.mem_of_find (Option.mem_toList.1 hrow)) hopens
      (by rintro row rfl; exact hst)
    have hget : SnapshotStore.get metaKey rowId ino (db.overwrite dst blob).snapshots =
        .ok (some entry) := by
      rw [SnapshotStore.get, Option.mem_toList.1 hrow]
      rw [← hdata] at hseal
      exact openRow_some (openRecord_sealRecord hseal)
    obtain ⟨e, he⟩ := hfails
    cases hget.symm.trans he
  · intro h
    obtain ⟨hfail, hopened⟩ :=
      MetaRead.opened metaKey (MetaDb.ino_overwrite hsealed.inos) hread hopens hst
    refine hfail (decrypt_eq_none_of_ne hfresh (hsealed.exists_sealing hsrc) hunforged ?_)
    rintro rfl
    rcases hopened with he | hno | ⟨rowId, ino, rfl, he⟩
    · exact hne (Identity.aad_injective he)
    · exact hno i rfl
    · exact h ⟨rowId, ino, rfl, Identity.aad_injective he⟩

theorem stepLogged_appendSnapshot {nonce : Aead.Nonce} {data : Bytes} (entry : SnapshotEntry)
    (hseal : sealRecord metaKey nonce (snapshotAad entry.inode) entry = some data) :
    (MetaCall.appendSnapshot nonce entry).stepLogged metaKey (db, log) =
      ({ db with
          snapshots := db.snapshots.put ⟨SnapshotStore.nextSid db.snapshots,
            wrapI64 (entry.timestamp.tdiv 1000000000), data, wrapI64 entry.inode⟩ },
        log ++ [sealing nonce (.snapshot entry.inode) entry]) := by
  rw [MetaCall.stepLogged, MetaCall.step, SnapshotStore.append, hseal]
  rfl

end Tampering

section
open scoped Sample Sample.Binding

namespace Sample

def oneNonce : Aead.Nonce := ⟨List.replicate 24 1, List.length_replicate⟩

def entry (ino : ℕ) : SnapshotEntry := ⟨0, 0, .create, ino, none, none, none⟩

theorem seals_entry (nonce : Aead.Nonce) (ino : ℕ) (h : ino = 1 ∨ ino = 2) :
    ∃ data, sealRecord [] nonce (snapshotAad ino) (entry ino) = some data := by
  have hfits : Binding.Fits (frames (Fields.fields (entry ino))).length (utf8 (snapshotAad ino)) := by
    rcases h with rfl | rfl <;> decide +kernel
  have hseal : Binding.sealBox (utf8 (snapshotAad ino)) (frames (Fields.fields (entry ino))) =
      some _ := if_pos hfits
  exact ⟨_, congrArg (Option.map (nonce.val ++ ·)) hseal⟩

theorem produced_entries : ∃ (db : MetaDb) (log : List Aead.Sealing) (blob old : Bytes),
    Produced [] db log ∧ (log.map Aead.Sealing.nonce).Nodup ∧
    sealRecord [] zeroNonce (snapshotAad 1) (entry 1) = some blob ∧
    (∀ aad, Aead.Unforged [] log blob aad) ∧
    db.stored (.snapshot 1) = some (blob, .snapshot 1) ∧
    db.stored (.snapshot 2) = some (old, .snapshot 2) := by
  obtain ⟨blob, hblob⟩ := seals_entry zeroNonce 1 (.inl rfl)
  obtain ⟨old, hold⟩ := seals_entry oneNonce 2 (.inr rfl)
  have h1 : (MetaCall.appendSnapshot zeroNonce (entry 1)).Admitted := show 1 < 2 ^ 64 by decide
  have h2 : (MetaCall.appendSnapshot oneNonce (entry 2)).Admitted := show 2 < 2 ^ 64 by decide
  have hstart : Produced [] .empty [] := .start
  have hfirst := hstart.next h1
  rw [stepLogged_appendSnapshot (entry 1) hblob] at hfirst
  have hsecond := hfirst.next h2
  rw [stepLogged_appendSnapshot (entry 2) hold] at hsecond
  refine ⟨_, _, blob, old, hsecond, by decide, hblob, ?_, ?_, ?_⟩
  · intro aad m hm
    obtain rfl := Binding.eq_of_decrypt hblob hm
    exact ⟨_, List.mem_cons_self, hblob, rfl⟩
  · have hino : wrapU64 (wrapI64 (entry 1).inode) = 1 := wrapU64_wrapI64 h1
    refine (MetaDb.stored_put _ 1).trans ((if_neg (show ¬ 1 = 2 by decide)).trans ?_)
    refine (MetaDb.stored_put _ 1).trans ((if_pos rfl).trans ?_)
    exact congrArg (fun ino => some (blob, Identity.snapshot ino)) hino
  · have hino : wrapU64 (wrapI64 (entry 2).inode) = 2 := wrapU64_wrapI64 h2
    refine (MetaDb.stored_put _ 2).trans ((if_pos rfl).trans ?_)
    exact congrArg (fun ino => some (old, Identity.snapshot ino)) hino

end Sample

/-- The blob of the first row is put into the second, which is then asked for its own inode. -/
theorem moved_entry_refused : ∃ (db : MetaDb) (log : List Aead.Sealing) (blob : Bytes),
    Produced [] db log ∧ db.stored (.snapshot 1) = some (blob, .snapshot 1) ∧
    (MetaRead.getSnapshot 2 2).Fails [] (db.overwrite (.snapshot 2) blob) := by
  obtain ⟨db, log, blob, old, hdb, hfresh, -, hunforged, hsrc, hdst⟩ := Sample.produced_entries
  have hst : (db.overwrite (.snapshot 2) blob).stored (.snapshot 2) = some (blob, .snapshot 2) :=
    MetaDb.stored_overwrite hdst
  have hopens := MetaRead.mem_opens_getSnapshot 2 hst
  have hread : (MetaRead.getSnapshot 2 2).Admitted (db.overwrite (.snapshot 2) blob) := trivial
  refine ⟨db, log, blob, hdb, hsrc, ?_⟩
  refine (moved_blob_refused_iff hdb hfresh hsrc hdst (by decide) hread hopens (hunforged _)).2 ?_
  rintro ⟨rowId, ino, hread, hino⟩
  cases hread
  cases hino

/-- Asked for inode 1, the row of inode 2 answers with the entry of inode 1. -/
theorem moved_entry_read : ∃ (db : MetaDb) (log : List Aead.Sealing) (blob old : Bytes),
    Produced [] db log ∧ (log.map Aead.Sealing.nonce).Nodup ∧
    (∀ aad, Aead.Unforged [] log blob aad) ∧
    db.stored (.snapshot 1) = some (blob, .snapshot 1) ∧
    db.stored (.snapshot 2) = some (old, .snapshot 2) ∧
    SnapshotStore.get [] 2 1 (db.overwrite (.snapshot 2) blob).snapshots =
      .ok (some (Sample.entry 1)) := by
  obtain ⟨db, log, blob, old, hdb, hfresh, hblob, hunforged, hsrc, hdst⟩ := Sample.produced_entries
  refine ⟨db, log, blob, old, hdb, hfresh, hunforged, hsrc, hdst, ?_⟩
  have hst : (db.overwrite (.snapshot 2) blob).stored (.snapshot 2) = some (blob, .snapshot 2) :=
    MetaDb.stored_overwrite hdst
  obtain ⟨row, hrow, hst⟩ := Option.map_eq_some_iff.1 hst
  obtain ⟨hdata, -⟩ := Prod.mk.inj hst
  rw [SnapshotStore.get, hrow]
  rw [← hdata] at hblob
  exact openRow_some (openRecord_sealRecord hblob)

end
end TgCryptFs

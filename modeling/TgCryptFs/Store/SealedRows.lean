import TgCryptFs.Store.InviteRecords
import TgCryptFs.Store.MetaDb

set_option autoImplicit false

/-!
# Every row is sealed under its own identity

Whatever the stores have done, the blob of a row is an encryption that was made of a record of
its table, bound to what the columns of the row name.
-/
namespace TgCryptFs
open Library

/-- A row with the blob of a record of type `α`. -/
class RecordRow (Row : Type) (α : outParam Type) where
  data : Row → Bytes
  identity : Row → Identity

instance : RecordRow InodeRow Inode := ⟨InodeRow.data, fun row => .inode (wrapU64 row.ino)⟩
instance : RecordRow PolicyRow MutabilityPolicy := ⟨PolicyRow.data, fun row => .policy row.pid.toNat⟩
instance : RecordRow VolumeRow StoredConfig := ⟨VolumeRow.data, fun row => .volume row.volumeId⟩
instance : RecordRow UserRow UserRecord := ⟨UserRow.data, fun row => .user row.uid⟩
instance : RecordRow DeadmanRow DeadmanRecord := ⟨DeadmanRow.data, fun row => .deadman row.vid⟩
instance : RecordRow ShareRow ShareRecord := ⟨ShareRow.data, fun row => .share row.sid⟩
instance : RecordRow InviteRow Invite := ⟨InviteRow.data, fun row => .invite row.inviteId⟩
instance : RecordRow SnapshotRow SnapshotEntry :=
  ⟨SnapshotRow.data, fun row => .snapshot (wrapU64 row.ino)⟩

def RecordRow.stored {Row α : Type} [RecordRow Row α] (row : Row) : Bytes × Identity :=
  (RecordRow.data row, RecordRow.identity row)

section Rows

variable [Primitives] {α Row K U : Type} [Postcard α] [RecordRow Row α] [DecidableEq K]
  [DecidableEq U] {metaKey : Bytes} {log log' : List Aead.Sealing}

/-- The blob came out of an encryption of a record under the identity. -/
def SealedUnder (α : Type) [Postcard α] (metaKey : Bytes) (log : List Aead.Sealing) (i : Identity)
    (data : Bytes) : Prop :=
  ∃ (nonce : Aead.Nonce) (record : α), sealing nonce i record ∈ log ∧
    sealRecord metaKey nonce i.aad record = some data

def AllSealed (metaKey : Bytes) (log : List Aead.Sealing) (rows : List Row) : Prop :=
  ∀ row ∈ rows, SealedUnder α metaKey log (RecordRow.identity row) (RecordRow.data row)

namespace AllSealed

omit [DecidableEq K] [DecidableEq U]

theorem nil : AllSealed metaKey log ([] : List Row) := fun _ hrow => by cases hrow

theorem mono {rows : List Row} (h : AllSealed metaKey log rows) (hlog : log ⊆ log') :
    AllSealed metaKey log' rows := by
  intro row hrow
  obtain ⟨nonce, record, hmem, hseal⟩ := h row hrow
  exact ⟨nonce, record, hlog hmem, hseal⟩

theorem of_subset {rows rows' : List Row} (h : AllSealed metaKey log rows) (hrows : rows' ⊆ rows) :
    AllSealed metaKey log rows' := fun row hrow => h row (hrows hrow)

theorem of_mem {rows rows' : List Row} {r : Row} (h : AllSealed metaKey log rows)
    (hr : SealedUnder α metaKey log (RecordRow.identity r) (RecordRow.data r))
    (hrows : ∀ row ∈ rows', row = r ∨ row ∈ rows) : AllSealed metaKey log rows' := by
  intro row hrow
  rcases hrows row hrow with rfl | hrow
  · exact hr
  · exact h row hrow

end AllSealed

omit [DecidableEq U] in
/-- INSERT OR REPLACE of a record whose encryption is in the log. -/
theorem AllSealed.putSealed {key : Row → K} {t : Table key key} (h : AllSealed metaKey log t.rows)
    {nonce : Aead.Nonce} {i : Identity} {aad : String} {record : α} {row : Bytes → Row}
    (haad : aad = i.aad) (hlog : sealing nonce i record ∈ log)
    (hrow : ∀ d, RecordRow.identity (row d) = i ∧ RecordRow.data (row d) = d) :
    AllSealed metaKey log (orElse t (putSealed metaKey nonce aad record row t)).rows := by
  subst haad
  unfold TgCryptFs.putSealed
  cases hseal : sealRecord metaKey nonce i.aad record with
  | none => exact h
  | some data =>
    refine h.of_mem (r := row data) ?_ fun _ => Table.mem_put
    rw [(hrow data).1, (hrow data).2]
    exact ⟨nonce, record, hlog, hseal⟩

omit [DecidableEq U] in
theorem AllSealed.modify {key : Row → K} {t : Table key key} (h : AllSealed metaKey log t.rows)
    (k : K) {f : Row → Row} (hf : ∀ r, key (f r) = key r)
    (hrow : ∀ r : Row, RecordRow.identity (f r) = RecordRow.identity r ∧
      RecordRow.data (f r) = RecordRow.data r) :
    AllSealed metaKey log (t.modify k f hf).rows := by
  intro row hmem
  rcases Table.mem_modify hmem with hmem | ⟨r, hr, rfl⟩
  · exact h row hmem
  · rw [(hrow r).1, (hrow r).2]
    exact h r hr

end Rows

section Inodes

variable [Primitives] [Postcard Inode] {metaKey : Bytes} {log : List Aead.Sealing} {t : InodeRows}
  {nonce : Aead.Nonce} {inode : Inode}

theorem sealed_rowOf {row : InodeRow} (hino : inode.ino < 2 ^ 64)
    (hlog : sealing nonce (.inode inode.ino) inode ∈ log)
    (hrow : InodeRows.rowOf metaKey nonce inode = some row) :
    SealedUnder Inode metaKey log (RecordRow.identity row) (RecordRow.data row) := by
  obtain ⟨data, hdata, rfl⟩ := Option.map_eq_some_iff.1 hrow
  change SealedUnder Inode metaKey log (.inode (wrapU64 (wrapI64 inode.ino))) data
  rw [wrapU64_wrapI64 hino]
  exact ⟨nonce, inode, hlog, hdata⟩

/-- What `insert` and `update` share: the rows are those before and the one that is written. -/
theorem rows_written {op : InodeRows → InodeRow → Option InodeRows}
    (hop : ∀ {row t' x}, op t row = some t' → x ∈ t'.rows → x = row ∨ x ∈ t.rows) {x : InodeRow}
    (hx : x ∈ (orElse t (match InodeRows.rowOf metaKey nonce inode with
      | none => .error .toSqlConversion
      | some row =>
        match op t row with
        | none => .error .constraint
        | some t' => .ok t')).rows) :
    InodeRows.rowOf metaKey nonce inode = some x ∨ x ∈ t.rows := by
  cases hrow : InodeRows.rowOf metaKey nonce inode with
  | none =>
    rw [hrow] at hx
    exact .inr hx
  | some row =>
    rw [hrow] at hx
    dsimp only at hx
    cases ht : op t row with
    | none =>
      rw [ht] at hx
      exact .inr hx
    | some t' =>
      rw [ht] at hx
      exact (hop ht hx).imp_left fun e => congrArg some e.symm

theorem rows_insertInode {x : InodeRow}
    (hx : x ∈ (orElse t (InodeRows.insert metaKey nonce inode t)).rows) :
    InodeRows.rowOf metaKey nonce inode = some x ∨ x ∈ t.rows :=
  rows_written Table.mem_insert hx

theorem rows_updateInode {x : InodeRow}
    (hx : x ∈ (orElse t (InodeRows.update metaKey nonce inode t)).rows) :
    InodeRows.rowOf metaKey nonce inode = some x ∨ x ∈ t.rows :=
  rows_written Table.mem_update hx

theorem AllSealed.insertInode (h : AllSealed metaKey log t.rows) (hino : inode.ino < 2 ^ 64)
    (hlog : sealing nonce (.inode inode.ino) inode ∈ log) :
    AllSealed metaKey log (orElse t (InodeRows.insert metaKey nonce inode t)).rows := by
  intro row hrow
  rcases rows_insertInode hrow with hnew | hold
  · exact sealed_rowOf hino hlog hnew
  · exact h row hold

theorem AllSealed.updateInode (h : AllSealed metaKey log t.rows) (hino : inode.ino < 2 ^ 64)
    (hlog : sealing nonce (.inode inode.ino) inode ∈ log) :
    AllSealed metaKey log (orElse t (InodeRows.update metaKey nonce inode t)).rows := by
  intro row hrow
  rcases rows_updateInode hrow with hnew | hold
  · exact sealed_rowOf hino hlog hnew
  · exact h row hold

omit [Primitives] [Postcard Inode] in
theorem wrapI64_lt (z : ℤ) : wrapI64 z < 2 ^ 63 := by
  rw [wrapI64]
  exact Int.bmod_lt (by decide)

theorem ino_rowOf {row : InodeRow} (hrow : InodeRows.rowOf metaKey nonce inode = some row) :
    row.ino < 2 ^ 63 := by
  obtain ⟨data, -, rfl⟩ := Option.map_eq_some_iff.1 hrow
  exact wrapI64_lt inode.ino

theorem mem_insertInode {x : InodeRow}
    (hx : x ∈ (orElse t (InodeRows.insert metaKey nonce inode t)).rows) :
    x.ino < 2 ^ 63 ∨ x ∈ t.rows :=
  (rows_insertInode hx).imp_left ino_rowOf

theorem mem_updateInode {x : InodeRow}
    (hx : x ∈ (orElse t (InodeRows.update metaKey nonce inode t)).rows) :
    x.ino < 2 ^ 63 ∨ x ∈ t.rows :=
  (rows_updateInode hx).imp_left ino_rowOf

end Inodes

section Sharing

variable [Primitives] [Postcard ShareRecord] [Postcard Invite] {metaKey : Bytes}
  {log : List Aead.Sealing}

omit [Postcard Invite] in
theorem AllSealed.insertShare {t : Shares} (h : AllSealed metaKey log t.rows) {nonce : Aead.Nonce}
    {volumeId : String} {share : ShareRecord} {sql : Sql}
    (hlog : sealing nonce (.share share.userId) share ∈ log) :
    AllSealed metaKey log
      (orElse t (SharingStore.insertShare metaKey nonce volumeId share sql t)).rows := by
  unfold SharingStore.insertShare
  cases hseal : sealRecord metaKey nonce (shareAad share.userId) share with
  | none => exact h
  | some data =>
    have hrow : SealedUnder ShareRecord metaKey log (.share share.userId) data :=
      ⟨nonce, share, hlog, hseal⟩
    dsimp only
    split
    · refine h.of_mem ?_ fun _ => Table.mem_put
      exact hrow
    · exact h

omit [Postcard Invite] in
theorem AllSealed.revokeShare {t : Shares} (h : AllSealed metaKey log t.rows) (userId : String)
    (sql : Sql) :
    AllSealed metaKey log (orElse t (SharingStore.revokeShare userId sql t)).rows := by
  unfold SharingStore.revokeShare
  split
  · rw [orElse]
    exact h.modify userId _ fun _ => ⟨rfl, rfl⟩
  · exact h

omit [Postcard ShareRecord] in
theorem AllSealed.insertInvite {t t' : Invites} (h : AllSealed metaKey log t.rows)
    {nonce : Aead.Nonce} {invite : Invite} {sql : Sql}
    (hlog : sealing nonce (.invite invite.inviteId) invite ∈ log)
    (ht' : SharingStore.insertInvite metaKey nonce invite sql t = .ok t') :
    AllSealed metaKey log t'.rows := by
  obtain ⟨-, data, hseal, rfl⟩ := SharingStore.insertInvite_eq_ok.1 ht'
  have hrow : SealedUnder Invite metaKey log (.invite invite.inviteId) data :=
    ⟨nonce, invite, hlog, hseal⟩
  refine h.of_mem ?_ fun _ => Table.mem_put
  exact hrow

omit [Postcard ShareRecord] in
theorem AllSealed.inviteStep {t : Invites} (h : AllSealed metaKey log t.rows) {c : InviteCall}
    (hlog : ∀ s ∈ c.sealings metaKey t, s ∈ log) :
    AllSealed metaKey log (c.step metaKey t).rows := by
  rw [InviteCall.step]
  cases c with
  | insert nonce invite sql =>
    rw [InviteCall.serve]
    split
    · exact h
    · rename_i t' ht'
      exact h.insertInvite (hlog _ (List.mem_singleton_self _)) ht'
  | use nonce now inviteId sql =>
    rw [InviteCall.serve]
    split
    · exact h
    · rename_i found t' huse
      rcases SharingStore.useInvite_eq_ok huse with ⟨-, rfl⟩ | ⟨invite, used, -, hget, hused, hinsert⟩
      · exact h
      · refine h.insertInvite (hlog _ ?_) hinsert
        rw [InviteCall.sealings, hget]
        dsimp only
        rw [hused]
        exact List.mem_singleton_self _
  | get inviteId sql =>
    rw [InviteCall.serve]
    split <;> exact h
  | revoke nonce inviteId sql =>
    rw [InviteCall.serve]
    split
    · exact h
    · rename_i t' hrevoke
      obtain ⟨hu, htable⟩ := SharingStore.revokeInvite_table hrevoke
      have hmarked := h.modify inviteId (fun _ => rfl)
        (f := fun row : InviteRow => { row with active := false }) fun _ => ⟨rfl, rfl⟩
      rcases htable with rfl | ⟨invite, hget, hinsert⟩
      · exact hmarked
      · refine hmarked.insertInvite (hlog _ ?_) hinsert
        rw [InviteCall.sealings, if_pos hu, hget]
        exact List.mem_singleton_self _

end Sharing

section Keyed

variable [Primitives] {metaKey : Bytes} {log : List Aead.Sealing} {nonce : Aead.Nonce}

theorem AllSealed.insertPolicy [Postcard MutabilityPolicy] {t : Policies}
    (h : AllSealed metaKey log t.rows) {policy : MutabilityPolicy}
    (hlog : sealing nonce (.policy policy.policyId.toNat) policy ∈ log) :
    AllSealed metaKey log (orElse t (PolicyStore.insert metaKey nonce policy t)).rows := by
  unfold PolicyStore.insert
  exact h.putSealed rfl hlog fun _ => ⟨rfl, rfl⟩

theorem AllSealed.saveConfig [Postcard StoredConfig] {t : Volumes}
    (h : AllSealed metaKey log t.rows) {config : StoredConfig}
    (hlog : sealing nonce (.volume config.volumeId) config ∈ log) :
    AllSealed metaKey log (orElse t (VolumeStore.saveConfig metaKey nonce config t)).rows := by
  unfold VolumeStore.saveConfig
  exact h.putSealed rfl hlog fun _ => ⟨rfl, rfl⟩

theorem AllSealed.insertUser [Postcard UserRecord] {t : Users}
    (h : AllSealed metaKey log t.rows) {user : UserRecord}
    (hlog : sealing nonce (.user user.userId) user ∈ log) :
    AllSealed metaKey log (orElse t (UserStore.insert metaKey nonce user t)).rows := by
  unfold UserStore.insert
  exact h.putSealed rfl hlog fun _ => ⟨rfl, rfl⟩

theorem AllSealed.upsertDeadman [Postcard DeadmanRecord] {t : Deadmen}
    (h : AllSealed metaKey log t.rows) {record : DeadmanRecord}
    (hlog : sealing nonce (.deadman record.volumeId) record ∈ log) :
    AllSealed metaKey log (orElse t (DeadmanStore.upsert metaKey nonce record t)).rows := by
  unfold DeadmanStore.upsert
  exact h.putSealed rfl hlog fun _ => ⟨rfl, rfl⟩

theorem AllSealed.deactivate [Postcard UserRecord] {t : Users} (h : AllSealed metaKey log t.rows)
    (userId : String) : AllSealed metaKey log (UserStore.deactivate userId t).rows := by
  unfold UserStore.deactivate
  exact h.modify userId _ fun _ => ⟨rfl, rfl⟩

theorem AllSealed.setArmed [Postcard DeadmanRecord] {t : Deadmen}
    (h : AllSealed metaKey log t.rows) (volumeId : String) (armed : Bool) :
    AllSealed metaKey log (DeadmanStore.setArmed volumeId armed t).rows := by
  unfold DeadmanStore.setArmed
  exact h.modify volumeId _ fun _ => ⟨rfl, rfl⟩

theorem AllSealed.updateLastCheck [Postcard DeadmanRecord] {t : Deadmen}
    (h : AllSealed metaKey log t.rows) (volumeId : String) (timestamp : ℤ) :
    AllSealed metaKey log (DeadmanStore.updateLastCheck volumeId timestamp t).rows := by
  unfold DeadmanStore.updateLastCheck
  exact h.modify volumeId _ fun _ => ⟨rfl, rfl⟩

theorem AllSealed.append [Postcard SnapshotEntry] {t : Snapshots} (h : AllSealed metaKey log t.rows) {entry : SnapshotEntry} (hino : entry.inode < 2 ^ 64)
    (hlog : sealing nonce (.snapshot entry.inode) entry ∈ log) :
    AllSealed metaKey log
      (orElse t ((SnapshotStore.append metaKey nonce entry t).map Prod.snd)).rows := by
  unfold SnapshotStore.append
  cases hseal : sealRecord metaKey nonce (snapshotAad entry.inode) entry with
  | none => exact h
  | some data =>
    have hrow : SealedUnder SnapshotEntry metaKey log
        (.snapshot (wrapU64 (wrapI64 entry.inode))) data := by
      rw [wrapU64_wrapI64 hino]
      exact ⟨nonce, entry, hlog, hseal⟩
    refine h.of_mem ?_ fun _ => Table.mem_put
    exact hrow

end Keyed

section Database

variable [Primitives] [Postcard Inode] [Postcard MutabilityPolicy] [Postcard StoredConfig]
  [Postcard UserRecord] [Postcard DeadmanRecord] [Postcard ShareRecord] [Postcard Invite]
  [Postcard SnapshotEntry] {metaKey : Bytes} {log log' : List Aead.Sealing} {db : MetaDb}

/-- The rows of every table are sealed under what they name, and the inode numbers are what a
    column can hold. -/
structure SealedDb (metaKey : Bytes) (db : MetaDb) (log : List Aead.Sealing) : Prop where
  inodes : AllSealed metaKey log db.inodes.rows
  policies : AllSealed metaKey log db.policies.rows
  volumes : AllSealed metaKey log db.volumes.rows
  users : AllSealed metaKey log db.users.rows
  deadmen : AllSealed metaKey log db.deadmen.rows
  shares : AllSealed metaKey log db.shares.rows
  invites : AllSealed metaKey log db.invites.rows
  snapshots : AllSealed metaKey log db.snapshots.rows
  inos : ∀ row ∈ db.inodes.rows, row.ino < 2 ^ 63

namespace SealedDb

theorem empty : SealedDb metaKey .empty log :=
  ⟨.nil, .nil, .nil, .nil, .nil, .nil, .nil, .nil, fun _ hrow => by cases hrow⟩

theorem mono (h : SealedDb metaKey db log) (hlog : log ⊆ log') : SealedDb metaKey db log' :=
  ⟨h.inodes.mono hlog, h.policies.mono hlog, h.volumes.mono hlog, h.users.mono hlog,
    h.deadmen.mono hlog, h.shares.mono hlog, h.invites.mono hlog, h.snapshots.mono hlog, h.inos⟩

theorem step (h : SealedDb metaKey db log) {c : MetaCall} (hc : c.Admitted)
    (hlog : ∀ s ∈ c.sealings metaKey db, s ∈ log) : SealedDb metaKey (c.step metaKey db) log := by
  cases c with
  | insertInode nonce inode =>
    exact { h with
      inodes := h.inodes.insertInode hc (hlog _ (List.mem_singleton_self _))
      inos := fun row hrow => (mem_insertInode hrow).elim id (h.inos row) }
  | updateInode nonce inode =>
    exact { h with
      inodes := h.inodes.updateInode hc (hlog _ (List.mem_singleton_self _))
      inos := fun row hrow => (mem_updateInode hrow).elim id (h.inos row) }
  | deleteInode ino =>
    exact { h with
      inodes := h.inodes.of_subset fun _ => Table.mem_erase
      inos := fun row hrow => h.inos row (Table.mem_erase hrow) }
  | insertPolicy nonce policy =>
    exact { h with policies := h.policies.insertPolicy (hlog _ (List.mem_singleton_self _)) }
  | deletePolicy policyId =>
    exact { h with policies := h.policies.of_subset fun _ => Table.mem_erase }
  | saveConfig nonce config =>
    exact { h with volumes := h.volumes.saveConfig (hlog _ (List.mem_singleton_self _)) }
  | insertUser nonce user =>
    exact { h with users := h.users.insertUser (hlog _ (List.mem_singleton_self _)) }
  | deactivateUser userId =>
    exact { h with users := h.users.deactivate userId }
  | upsertDeadman nonce record =>
    exact { h with deadmen := h.deadmen.upsertDeadman (hlog _ (List.mem_singleton_self _)) }
  | setArmed volumeId armed => exact { h with deadmen := h.deadmen.setArmed volumeId armed }
  | updateLastCheck volumeId timestamp =>
    exact { h with deadmen := h.deadmen.updateLastCheck volumeId timestamp }
  | insertShare nonce volumeId share sql =>
    exact { h with shares := h.shares.insertShare (hlog _ (List.mem_singleton_self _)) }
  | revokeShare userId sql => exact { h with shares := h.shares.revokeShare userId sql }
  | invite c => exact { h with invites := h.invites.inviteStep hlog }
  | appendSnapshot nonce entry =>
    exact { h with snapshots := h.snapshots.append hc (hlog _ (List.mem_singleton_self _)) }

end SealedDb

theorem Produced.sealedDb (h : Produced metaKey db log) : SealedDb metaKey db log := by
  refine Runs.invariant (fun s => SealedDb metaKey s.1 s.2) SealedDb.empty ?_ h
  intro c s hs hc
  have hmono := hs.mono (List.subset_append_left s.2 (c.sealings metaKey s.1))
  exact hmono.step hc fun _ hmem => List.mem_append_right s.2 hmem

end Database
end TgCryptFs

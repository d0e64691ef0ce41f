import TgCryptFs.Store.OpenedRows
import TgCryptFs.Store.SampleRecords

set_option autoImplicit false

/-!
# Flags that are stored twice

The status of a share, a user, an invite and a deadman switch is kept in a column of the row and
in the record that the blob of the row holds. An insertion writes both. A revoked invite is
written back with its flag; the other updates are of the column alone.
-/
namespace TgCryptFs
open Library

/-- For each volume, what `set_armed` and `update_last_check` said since the last `upsert`. -/
structure DeadmanLedger where
  armed : String → Option Bool
  lastCheck : String → Option ℤ

namespace DeadmanLedger

def empty : DeadmanLedger := ⟨fun _ => none, fun _ => none⟩

def clear (l : DeadmanLedger) (volumeId : String) : DeadmanLedger :=
  ⟨Function.update l.armed volumeId none, Function.update l.lastCheck volumeId none⟩

def arm (l : DeadmanLedger) (volumeId : String) (armed : Bool) : DeadmanLedger :=
  { l with armed := Function.update l.armed volumeId (some armed) }

def check (l : DeadmanLedger) (volumeId : String) (timestamp : ℤ) : DeadmanLedger :=
  { l with lastCheck := Function.update l.lastCheck volumeId (some timestamp) }

/-- The columns of a row are what was last said of its volume. -/
def Tells (l : DeadmanLedger) (row : DeadmanRow) : Prop :=
  (∀ armed, l.armed row.vid = some armed → row.armed = armed) ∧
    ∀ timestamp, l.lastCheck row.vid = some timestamp → row.lastCheck = some timestamp

theorem of_update_none {α : Type} {told : String → Option α} {k key : String} {a : α}
    (h : Function.update told k none key = some a) : key ≠ k ∧ told key = some a := by
  by_cases hk : key = k
  · subst hk
    rw [Function.update_self] at h
    cases h
  · rw [Function.update_of_ne hk] at h
    exact ⟨hk, h⟩

variable {l : DeadmanLedger} {row : DeadmanRow}

theorem Tells.clear (h : l.Tells row) (volumeId : String) : (l.clear volumeId).Tells row :=
  ⟨fun armed hl => h.1 armed (of_update_none hl).2,
    fun timestamp hl => h.2 timestamp (of_update_none hl).2⟩

theorem tells_clear_self (l : DeadmanLedger) (row : DeadmanRow) : (l.clear row.vid).Tells row :=
  ⟨fun _ hl => absurd rfl (of_update_none hl).1, fun _ hl => absurd rfl (of_update_none hl).1⟩

theorem Tells.arm (h : l.Tells row) (volumeId : String) (armed : Bool) :
    (l.arm volumeId armed).Tells (if row.vid = volumeId then { row with armed } else row) := by
  unfold DeadmanLedger.arm
  split
  · rename_i hv
    subst hv
    refine ⟨fun armed' hl => ?_, h.2⟩
    dsimp only at hl ⊢
    rw [Function.update_self] at hl
    exact Option.some.inj hl
  · rename_i hv
    refine ⟨fun armed' hl => ?_, h.2⟩
    dsimp only at hl
    rw [Function.update_of_ne hv] at hl
    exact h.1 armed' hl

theorem Tells.check (h : l.Tells row) (volumeId : String) (timestamp : ℤ) :
    (l.check volumeId timestamp).Tells
      (if row.vid = volumeId then { row with lastCheck := some timestamp } else row) := by
  unfold DeadmanLedger.check
  split
  · rename_i hv
    subst hv
    refine ⟨h.1, fun timestamp' hl => ?_⟩
    dsimp only at hl ⊢
    rw [Function.update_self] at hl
    exact hl
  · rename_i hv
    refine ⟨h.1, fun timestamp' hl => ?_⟩
    dsimp only at hl
    rw [Function.update_of_ne hv] at hl
    exact h.2 timestamp' hl

end DeadmanLedger

section

variable [Primitives] [Postcard UserRecord] [Postcard DeadmanRecord] [Postcard ShareRecord]
  [Postcard Invite] {metaKey : Bytes}

namespace MetaCall

/-- A failed `upsert` says nothing. -/
def enter (metaKey : Bytes) (t : Deadmen) (l : DeadmanLedger) : MetaCall → DeadmanLedger
  | upsertDeadman nonce record =>
    match DeadmanStore.upsert metaKey nonce record t with
    | .ok _ => l.clear record.volumeId
    | .error _ => l
  | setArmed volumeId armed => l.arm volumeId armed
  | updateLastCheck volumeId timestamp => l.check volumeId timestamp
  | _ => l

/-- The call leaves column and record of what it changes alike: a flag that is only set in the
    column was so in the record before, and a revoked invite is written back. -/
def Restores (metaKey : Bytes) (db : MetaDb) : MetaCall → Prop
  | revokeShare userId sql => sql.update = true → ∀ share,
    SharingStore.getShare metaKey userId .working db.shares = .ok (some share) →
      share.active = false
  | deactivateUser userId => ∀ user,
    UserStore.get metaKey userId db.users = .ok (some user) → user.active = false
  | setArmed volumeId armed => ∀ record,
    DeadmanStore.get metaKey volumeId db.deadmen = .ok (some record) → record.armed = armed
  | updateLastCheck volumeId timestamp => ∀ record,
    DeadmanStore.get metaKey volumeId db.deadmen = .ok (some record) →
      record.lastCheck = some timestamp
  | invite (.revoke nonce inviteId sql) => sql.update = true → ∀ invite,
    SharingStore.getInvite metaKey inviteId .working db.invites = .ok (some invite) →
      invite.revoked = true ∨ sql.select = true ∧ sql.insert = true ∧ ∃ data,
        sealRecord metaKey nonce (inviteAad invite.inviteId) invite.revoke = some data
  | _ => True

end MetaCall

/-- For every row the record that is fetched has the flags of the columns, it is listed exactly
    if it is active, and a deadman record tells what was last said of its volume. -/
structure Consistent (metaKey : Bytes) (s : MetaDb × DeadmanLedger) : Prop where
  shares : ∀ row ∈ s.1.shares.rows, ∃ share listed,
    SharingStore.getShare metaKey row.sid .working s.1.shares = .ok (some share) ∧
      share.active = row.active ∧
      SharingStore.listShares metaKey row.volumeId .working s.1.shares = .ok listed ∧
      (row.sid ∉ listed.map ShareRecord.userId ↔ share.active = false)
  users : ∀ row ∈ s.1.users.rows, ∃ user listed,
    UserStore.get metaKey row.uid s.1.users = .ok (some user) ∧ user.active = row.active ∧
      UserStore.listActive metaKey s.1.users = .ok listed ∧
      (row.uid ∉ listed.map UserRecord.userId ↔ user.active = false)
  deadmen : ∀ row ∈ s.1.deadmen.rows, ∃ record,
    DeadmanStore.get metaKey row.vid s.1.deadmen = .ok (some record) ∧
      record.armed = row.armed ∧ record.lastCheck = row.lastCheck ∧
      (∀ armed, s.2.armed row.vid = some armed → record.armed = armed) ∧
      ∀ timestamp, s.2.lastCheck row.vid = some timestamp → record.lastCheck = some timestamp
  invites : ∀ row ∈ s.1.invites.rows, ∃ invite,
    SharingStore.getInvite metaKey row.inviteId .working s.1.invites = .ok (some invite) ∧
      invite.revoked = !row.active

/-- Every row opens, to a record of the name that is its key. -/
structure Named (metaKey : Bytes) (s : MetaDb × DeadmanLedger) : Prop where
  shares : AllOpen metaKey (fun row share => share.userId = row.sid) s.1.shares.rows
  users : AllOpen metaKey (fun row user => user.userId = row.uid) s.1.users.rows
  deadmen : AllOpen metaKey (fun row record => record.volumeId = row.vid) s.1.deadmen.rows
  invites : AllOpen metaKey (fun row invite => invite.inviteId = row.inviteId) s.1.invites.rows
  ledger : ∀ row ∈ s.1.deadmen.rows, s.2.Tells row

def ShareAgrees (row : ShareRow) (share : ShareRecord) : Prop := share.active = row.active
def UserAgrees (row : UserRow) (user : UserRecord) : Prop := user.active = row.active
def DeadmanAgrees (row : DeadmanRow) (record : DeadmanRecord) : Prop :=
  record.armed = row.armed ∧ record.lastCheck = row.lastCheck
def InviteAgrees (row : InviteRow) (invite : Invite) : Prop := invite.revoked = !row.active

/-- Every row opens, to a record with the flags of its columns. -/
structure FlagsAgree (metaKey : Bytes) (db : MetaDb) : Prop where
  shares : AllOpen metaKey ShareAgrees db.shares.rows
  users : AllOpen metaKey UserAgrees db.users.rows
  deadmen : AllOpen metaKey DeadmanAgrees db.deadmen.rows
  invites : AllOpen metaKey InviteAgrees db.invites.rows

section Fetched

omit [Postcard UserRecord] [Postcard DeadmanRecord] [Postcard Invite] in
theorem getShare_iff {t : Shares} {userId : String} {share : ShareRecord} :
    SharingStore.getShare metaKey userId .working t = .ok (some share) ↔
      ∃ row, t.find userId = some row ∧ Opens metaKey row share := by
  unfold SharingStore.getShare
  exact openRow_find_iff ShareRow.data shareAad (fun _ => rfl) fun _ => rfl

omit [Postcard ShareRecord] [Postcard DeadmanRecord] [Postcard Invite] in
theorem getUser_iff {t : Users} {userId : String} {user : UserRecord} :
    UserStore.get metaKey userId t = .ok (some user) ↔
      ∃ row, t.find userId = some row ∧ Opens metaKey row user := by
  unfold UserStore.get
  exact openRow_find_iff UserRow.data userAad (fun _ => rfl) fun _ => rfl

omit [Postcard ShareRecord] [Postcard UserRecord] [Postcard Invite] in
theorem getDeadman_iff {t : Deadmen} {volumeId : String} {record : DeadmanRecord} :
    DeadmanStore.get metaKey volumeId t = .ok (some record) ↔
      ∃ row, t.find volumeId = some row ∧ Opens metaKey row record := by
  unfold DeadmanStore.get
  exact openRow_find_iff DeadmanRow.data deadmanAad (fun _ => rfl) fun _ => rfl

omit [Postcard ShareRecord] [Postcard UserRecord] [Postcard DeadmanRecord] in
theorem getInvite_iff {t : Invites} {inviteId : String} {invite : Invite} :
    SharingStore.getInvite metaKey inviteId .working t = .ok (some invite) ↔
      ∃ row, t.find inviteId = some row ∧ Opens metaKey row invite := by
  unfold SharingStore.getInvite
  exact openRow_find_iff InviteRow.data inviteAad (fun _ => rfl) fun _ => rfl

omit [Postcard UserRecord] [Postcard DeadmanRecord] [Postcard Invite] in
theorem listShares_names {t : Shares}
    (h : AllOpen metaKey (fun row share => share.userId = row.sid) t.rows) (volumeId : String) :
    ∃ listed, SharingStore.listShares metaKey volumeId .working t = .ok listed ∧
      ∀ row ∈ t.rows, row.sid ∈ listed.map ShareRecord.userId ↔
        (row.volumeId = volumeId ∧ row.active = true) := by
  obtain ⟨listed, hlisted, hnames⟩ := h.listing ShareRow.data (fun row => shareAad row.sid)
    (fun _ => rfl) (fun _ => rfl) fun row => row.volumeId = volumeId && row.active
  refine ⟨listed, hlisted, fun row hrow => ?_⟩
  rw [hnames row hrow, Bool.and_eq_true, decide_eq_true_eq]

omit [Postcard ShareRecord] [Postcard DeadmanRecord] [Postcard Invite] in
theorem listActive_names {t : Users}
    (h : AllOpen metaKey (fun row user => user.userId = row.uid) t.rows) :
    ∃ listed, UserStore.listActive metaKey t = .ok listed ∧
      ∀ row ∈ t.rows, row.uid ∈ listed.map UserRecord.userId ↔ row.active = true :=
  h.listing UserRow.data (fun row => userAad row.uid) (fun _ => rfl) (fun _ => rfl) UserRow.active

end Fetched

theorem Named.consistent_iff {s : MetaDb × DeadmanLedger} (h : Named metaKey s) :
    Consistent metaKey s ↔ FlagsAgree metaKey s.1 := by
  constructor
  · intro hc
    refine ⟨fun row hrow => ?_, fun row hrow => ?_, fun row hrow => ?_, fun row hrow => ?_⟩
    · obtain ⟨share, listed, hget, hactive, -⟩ := hc.shares row hrow
      obtain ⟨row', hrow', hopen⟩ := getShare_iff.1 hget
      cases (Table.find_of_mem hrow).symm.trans hrow'
      exact ⟨share, hopen, hactive⟩
    · obtain ⟨user, listed, hget, hactive, -⟩ := hc.users row hrow
      obtain ⟨row', hrow', hopen⟩ := getUser_iff.1 hget
      cases (Table.find_of_mem hrow).symm.trans hrow'
      exact ⟨user, hopen, hactive⟩
    · obtain ⟨record, hget, harmed, hcheck, -⟩ := hc.deadmen row hrow
      obtain ⟨row', hrow', hopen⟩ := getDeadman_iff.1 hget
      cases (Table.find_of_mem hrow).symm.trans hrow'
      exact ⟨record, hopen, harmed, hcheck⟩
    · obtain ⟨invite, hget, hrevoked⟩ := hc.invites row hrow
      obtain ⟨row', hrow', hopen⟩ := getInvite_iff.1 hget
      cases (Table.find_of_mem hrow).symm.trans hrow'
      exact ⟨invite, hopen, hrevoked⟩
  · intro hf
    refine ⟨fun row hrow => ?_, fun row hrow => ?_, fun row hrow => ?_, fun row hrow => ?_⟩
    · obtain ⟨share, hopen, hactive⟩ := hf.shares row hrow
      obtain ⟨listed, hlisted, hnames⟩ := listShares_names h.shares row.volumeId
      refine ⟨share, listed, getShare_iff.2 ⟨row, Table.find_of_mem hrow, hopen⟩, hactive,
        hlisted, ?_⟩
      have hactive : share.active = row.active := hactive
      rw [hnames row hrow, hactive]
      simp
    · obtain ⟨user, hopen, hactive⟩ := hf.users row hrow
      obtain ⟨listed, hlisted, hnames⟩ := listActive_names h.users
      refine ⟨user, listed, getUser_iff.2 ⟨row, Table.find_of_mem hrow, hopen⟩, hactive,
        hlisted, ?_⟩
      have hactive : user.active = row.active := hactive
      rw [hnames row hrow, hactive]
      simp
    · obtain ⟨record, hopen, harmed, hcheck⟩ := hf.deadmen row hrow
      obtain ⟨hlastArmed, hlastCheck⟩ := h.ledger row hrow
      refine ⟨record, getDeadman_iff.2 ⟨row, Table.find_of_mem hrow, hopen⟩, harmed, hcheck,
        fun armed hl => ?_, fun timestamp hl => ?_⟩
      · rw [harmed, hlastArmed armed hl]
      · rw [hcheck, hlastCheck timestamp hl]
    · obtain ⟨invite, hopen, hrevoked⟩ := hf.invites row hrow
      exact ⟨invite, getInvite_iff.2 ⟨row, Table.find_of_mem hrow, hopen⟩, hrevoked⟩

section Steps

variable {P : ShareRow → ShareRecord → Prop} {Q : InviteRow → Invite → Prop}

omit [Postcard UserRecord] [Postcard DeadmanRecord] [Postcard Invite] in
theorem AllOpen.insertShare {t : Shares} (h : AllOpen metaKey P t.rows) {nonce : Aead.Nonce}
    {volumeId : String} {share : ShareRecord} {sql : Sql}
    (hP : ∀ data, P ⟨share.userId, volumeId, share.userId, data, share.active⟩ share) :
    AllOpen metaKey P
      (orElse t (SharingStore.insertShare metaKey nonce volumeId share sql t)).rows := by
  unfold SharingStore.insertShare
  cases hseal : sealRecord metaKey nonce (shareAad share.userId) share with
  | none => exact h
  | some data =>
    dsimp only
    split
    · rw [orElse]
      exact h.put (openRecord_sealRecord hseal) (hP data)
    · exact h

omit [Postcard UserRecord] [Postcard DeadmanRecord] [Postcard ShareRecord] in
theorem AllOpen.insertInvite {t t' : Invites} (h : AllOpen metaKey Q t.rows) {nonce : Aead.Nonce}
    {invite : Invite} {sql : Sql}
    (hQ : ∀ data, Q ⟨invite.inviteId, invite.volumeId, data, !invite.revoked⟩ invite)
    (ht' : SharingStore.insertInvite metaKey nonce invite sql t = .ok t') :
    AllOpen metaKey Q t'.rows := by
  obtain ⟨-, data, hseal, rfl⟩ := SharingStore.insertInvite_eq_ok.1 ht'
  exact h.put (openRecord_sealRecord hseal) (hQ data)

omit [Postcard UserRecord] [Postcard DeadmanRecord] [Postcard ShareRecord] in
/-- Every call on invites but a revocation leaves rows that were inserted as they are read. -/
theorem AllOpen.inviteStep {t : Invites} (h : AllOpen metaKey Q t.rows) {c : InviteCall}
    (hQ : ∀ (invite : Invite) data,
      Q ⟨invite.inviteId, invite.volumeId, data, !invite.revoked⟩ invite)
    (hrevoke : ∀ nonce inviteId sql, c ≠ .revoke nonce inviteId sql) :
    AllOpen metaKey Q (c.step metaKey t).rows := by
  rw [InviteCall.step]
  cases c with
  | insert nonce invite sql =>
    rw [InviteCall.serve]
    split
    · exact h
    · rename_i t' ht'
      exact h.insertInvite (hQ invite) ht'
  | use nonce now inviteId sql =>
    rw [InviteCall.serve]
    split
    · exact h
    · rename_i found t' huse
      rcases SharingStore.useInvite_eq_ok huse with ⟨-, rfl⟩ | ⟨invite, used, -, -, -, hinsert⟩
      · exact h
      · exact h.insertInvite (hQ used) hinsert
  | get inviteId sql =>
    rw [InviteCall.serve]
    split <;> exact h
  | revoke nonce inviteId sql => exact absurd rfl (hrevoke nonce inviteId sql)

omit [Postcard UserRecord] [Postcard DeadmanRecord] [Postcard ShareRecord] in
theorem AllOpen.revokeInvite_named {t : Invites} {nonce : Aead.Nonce} {inviteId : String} {sql : Sql}
    (h : AllOpen metaKey (fun row invite => invite.inviteId = row.inviteId) t.rows) :
    AllOpen metaKey (fun row invite => invite.inviteId = row.inviteId)
      ((InviteCall.revoke nonce inviteId sql).step metaKey t).rows := by
  rw [InviteCall.step, InviteCall.serve]
  split
  · exact h
  · rename_i t' hrevoke
    have hmarked := h.modify inviteId (fun row => { row with active := false })
      (fun _ => rfl) (fun _ => ⟨rfl, rfl⟩) fun _ _ _ _ hname => hname
    rcases (SharingStore.revokeInvite_table hrevoke).2 with rfl | ⟨invite, -, hinsert⟩
    · exact hmarked
    · exact hmarked.insertInvite (fun _ => rfl) hinsert

omit [Postcard UserRecord] [Postcard DeadmanRecord] [Postcard ShareRecord] in
/-- The record is written back: the row of the column that was set is replaced. -/
theorem AllOpen.revokeInvite_written {t t' : Invites} {nonce : Aead.Nonce} {sql : Sql}
    {invite : Invite} (h : AllOpen metaKey InviteAgrees t.rows)
    (ht' : SharingStore.insertInvite metaKey nonce invite.revoke sql
      (t.modify invite.inviteId (fun row => { row with active := false }) fun _ => rfl) = .ok t') :
    AllOpen metaKey InviteAgrees t'.rows := by
  obtain ⟨-, data, hseal, rfl⟩ := SharingStore.insertInvite_eq_ok.1 ht'
  intro x hx
  rcases Table.mem_put_iff.1 hx with rfl | ⟨hx, hne⟩
  · exact ⟨invite.revoke, openRecord_sealRecord hseal, rfl⟩
  · obtain ⟨row, hrow, rfl⟩ := List.mem_map.1 hx
    split
    · rename_i hkey
      rw [if_pos hkey] at hne
      exact absurd hkey hne
    · exact h row hrow

variable {db : MetaDb}

theorem revokeInvite_agrees_iff
    (hnamed : AllOpen metaKey (fun row invite => invite.inviteId = row.inviteId) db.invites.rows)
    (h : AllOpen metaKey InviteAgrees db.invites.rows) (nonce : Aead.Nonce) (inviteId : String)
    (sql : Sql) :
    AllOpen metaKey InviteAgrees
        ((InviteCall.revoke nonce inviteId sql).step metaKey db.invites).rows ↔
      (MetaCall.invite (.revoke nonce inviteId sql)).Restores metaKey db := by
  rw [InviteCall.step, InviteCall.serve, MetaCall.Restores]
  cases hu : sql.update with
  | false =>
    have hfailed : SharingStore.revokeInvite metaKey nonce inviteId sql db.invites = .error .failed := by
      rw [SharingStore.revokeInvite, hu]
      rfl
    rw [hfailed]
    exact ⟨fun _ hu => absurd hu (by decide), fun _ => h⟩
  | true =>
    have hname : ∀ invite, SharingStore.getInvite metaKey inviteId .working db.invites =
        .ok (some invite) → invite.inviteId = inviteId := by
      intro invite hget
      obtain ⟨row, hrow, hopen⟩ := getInvite_iff.1 hget
      obtain ⟨read, hread, hname⟩ := hnamed row (Table.mem_of_find hrow)
      rw [hopen.unique hread, hname, Table.key_of_find hrow]
    have hworking : ∀ invite, SharingStore.getInvite metaKey inviteId sql db.invites =
        .ok (some invite) ↔ sql.select = true ∧
          SharingStore.getInvite metaKey inviteId .working db.invites = .ok (some invite) := by
      intro invite
      rw [SharingStore.getInvite_eq_ok_some, SharingStore.getInvite_eq_ok_some]
      simp [Sql.working]
    rcases SharingStore.revokeInvite_cases nonce inviteId db.invites hu with
      ⟨invite, t', hget, hinsert, hrevoke⟩ | ⟨hlost, hrevoke⟩
    · rw [hrevoke]
      obtain ⟨hs, hfetched⟩ := (hworking invite).1 hget
      refine ⟨fun _ _ invite' hget' => ?_, fun _ => ?_⟩
      · cases hget'.symm.trans hfetched
        obtain ⟨hi, data, hseal, -⟩ := SharingStore.insertInvite_eq_ok.1 hinsert
        exact .inr ⟨hs, hi, data, hseal⟩
      · have hid := hname invite hfetched
        subst hid
        exact h.revokeInvite_written hinsert
    · rw [hrevoke]
      dsimp only
      rw [h.modify_iff inviteId (fun row => { row with active := false }) fun _ => ⟨rfl, rfl⟩]
      constructor
      · intro hrows _ invite hget
        obtain ⟨row, hrow, hopen⟩ := getInvite_iff.1 hget
        exact .inl (hrows row invite hrow hopen)
      · intro hrestores row invite hrow hopen
        have hget := getInvite_iff.2 ⟨row, hrow, hopen⟩
        rcases hrestores rfl invite hget with hrevoked | ⟨hs, hi, data, hseal⟩
        · exact hrevoked
        · exact absurd (SharingStore.insertInvite_eq_ok.2 ⟨hi, data, hseal, rfl⟩)
            (hlost invite _ ((hworking invite).2 ⟨hs, hget⟩))

theorem revokeShare_agrees_iff (h : AllOpen metaKey ShareAgrees db.shares.rows) (userId : String)
    (sql : Sql) :
    AllOpen metaKey ShareAgrees
        (orElse db.shares (SharingStore.revokeShare userId sql db.shares)).rows ↔
      (MetaCall.revokeShare userId sql).Restores metaKey db := by
  rw [MetaCall.Restores, SharingStore.revokeShare]
  split
  · rename_i hu
    rw [orElse, h.modify_iff userId (fun row => { row with active := false }) fun _ => ⟨rfl, rfl⟩]
    constructor
    · intro hrows _ share hget
      obtain ⟨row, hrow, hopen⟩ := getShare_iff.1 hget
      exact hrows row share hrow hopen
    · intro hrestores row share hrow hopen
      exact hrestores hu share (getShare_iff.2 ⟨row, hrow, hopen⟩)
  · rename_i hu
    exact ⟨fun _ hu' => absurd hu' hu, fun _ => h⟩

theorem deactivate_agrees_iff (h : AllOpen metaKey UserAgrees db.users.rows) (userId : String) :
    AllOpen metaKey UserAgrees (UserStore.deactivate userId db.users).rows ↔
      (MetaCall.deactivateUser userId).Restores metaKey db := by
  rw [MetaCall.Restores, UserStore.deactivate,
    h.modify_iff userId (fun row => { row with active := false }) fun _ => ⟨rfl, rfl⟩]
  constructor
  · intro hrows user hget
    obtain ⟨row, hrow, hopen⟩ := getUser_iff.1 hget
    exact hrows row user hrow hopen
  · intro hrestores row user hrow hopen
    exact hrestores user (getUser_iff.2 ⟨row, hrow, hopen⟩)

omit [Postcard UserRecord] [Postcard ShareRecord] [Postcard Invite] in
theorem DeadmanAgrees.of_opens {t : Deadmen} (h : AllOpen metaKey DeadmanAgrees t.rows)
    {k : String} {row : DeadmanRow} {record : DeadmanRecord} (hrow : t.find k = some row)
    (hopen : Opens metaKey row record) : DeadmanAgrees row record := by
  obtain ⟨read, hread, hagrees⟩ := h row (Table.mem_of_find hrow)
  rwa [hopen.unique hread]

theorem setArmed_agrees_iff (h : AllOpen metaKey DeadmanAgrees db.deadmen.rows) (volumeId : String)
    (armed : Bool) :
    AllOpen metaKey DeadmanAgrees (DeadmanStore.setArmed volumeId armed db.deadmen).rows ↔
      (MetaCall.setArmed volumeId armed).Restores metaKey db := by
  rw [MetaCall.Restores, DeadmanStore.setArmed,
    h.modify_iff volumeId (fun row => { row with armed }) fun _ => ⟨rfl, rfl⟩]
  constructor
  · intro hrows record hget
    obtain ⟨row, hrow, hopen⟩ := getDeadman_iff.1 hget
    exact (hrows row record hrow hopen).1
  · intro hrestores row record hrow hopen
    have hagrees := DeadmanAgrees.of_opens h hrow hopen
    exact ⟨hrestores record (getDeadman_iff.2 ⟨row, hrow, hopen⟩), hagrees.2⟩

theorem updateLastCheck_agrees_iff (h : AllOpen metaKey DeadmanAgrees db.deadmen.rows)
    (volumeId : String) (timestamp : ℤ) :
    AllOpen metaKey DeadmanAgrees
        (DeadmanStore.updateLastCheck volumeId timestamp db.deadmen).rows ↔
      (MetaCall.updateLastCheck volumeId timestamp).Restores metaKey db := by
  rw [MetaCall.Restores, DeadmanStore.updateLastCheck,
    h.modify_iff volumeId (fun row => { row with lastCheck := some timestamp })
      fun _ => ⟨rfl, rfl⟩]
  constructor
  · intro hrows record hget
    obtain ⟨row, hrow, hopen⟩ := getDeadman_iff.1 hget
    exact (hrows row record hrow hopen).2
  · intro hrestores row record hrow hopen
    have hagrees := DeadmanAgrees.of_opens h hrow hopen
    exact ⟨hagrees.1, hrestores record (getDeadman_iff.2 ⟨row, hrow, hopen⟩)⟩

end Steps

section Runs

variable [Postcard Inode] [Postcard MutabilityPolicy] [Postcard StoredConfig]
  [Postcard SnapshotEntry] {db : MetaDb} {s : MetaDb × DeadmanLedger}

/-- The database, with what the deadman switches were told. -/
def MetaCall.stepTold (metaKey : Bytes) (c : MetaCall) (s : MetaDb × DeadmanLedger) :
    MetaDb × DeadmanLedger :=
  (c.step metaKey s.1, c.enter metaKey s.1.deadmen s.2)

/-- Exactly the calls that restore keep the flags alike. -/
theorem flagsAgree_step_iff (hn : Named metaKey s) (h : FlagsAgree metaKey s.1) (c : MetaCall) :
    FlagsAgree metaKey (c.step metaKey s.1) ↔ c.Restores metaKey s.1 := by
  obtain ⟨hshares, husers, hdeadmen, hinvites⟩ := h
  cases c with
  | insertUser nonce user =>
    refine ⟨fun _ => trivial, fun _ => ⟨hshares, ?_, hdeadmen, hinvites⟩⟩
    exact husers.putSealed (.user user.userId) (fun _ => ⟨rfl, rfl⟩) fun _ => rfl
  | deactivateUser userId =>
    rw [← deactivate_agrees_iff husers]
    exact ⟨fun h => h.users, fun h => ⟨hshares, h, hdeadmen, hinvites⟩⟩
  | upsertDeadman nonce record =>
    refine ⟨fun _ => trivial, fun _ => ⟨hshares, husers, ?_, hinvites⟩⟩
    exact hdeadmen.putSealed (.deadman record.volumeId) (fun _ => ⟨rfl, rfl⟩) fun _ => ⟨rfl, rfl⟩
  | setArmed volumeId armed =>
    rw [← setArmed_agrees_iff hdeadmen]
    exact ⟨fun h => h.deadmen, fun h => ⟨hshares, husers, h, hinvites⟩⟩
  | updateLastCheck volumeId timestamp =>
    rw [← updateLastCheck_agrees_iff hdeadmen]
    exact ⟨fun h => h.deadmen, fun h => ⟨hshares, husers, h, hinvites⟩⟩
  | insertShare nonce volumeId share sql =>
    exact ⟨fun _ => trivial, fun _ =>
      ⟨hshares.insertShare fun _ => rfl, husers, hdeadmen, hinvites⟩⟩
  | revokeShare userId sql =>
    rw [← revokeShare_agrees_iff hshares]
    exact ⟨fun h => h.shares, fun h => ⟨h, husers, hdeadmen, hinvites⟩⟩
  | invite c =>
    cases c with
    | revoke nonce inviteId sql =>
      rw [← revokeInvite_agrees_iff hn.invites hinvites]
      exact ⟨fun h => h.invites, fun h => ⟨hshares, husers, hdeadmen, h⟩⟩
    | insert nonce invite sql | use nonce now inviteId sql | get inviteId sql =>
      refine ⟨fun _ => trivial, fun _ => ⟨hshares, husers, hdeadmen, ?_⟩⟩
      refine hinvites.inviteStep (fun invite data => ?_) fun _ _ _ he => by cases he
      exact (Bool.not_not invite.revoked).symm
  | insertInode nonce inode | updateInode nonce inode | deleteInode ino
  | insertPolicy nonce policy | deletePolicy policyId | saveConfig nonce config
  | appendSnapshot nonce entry =>
    exact ⟨fun _ => trivial, fun _ => ⟨hshares, husers, hdeadmen, hinvites⟩⟩

omit [Postcard UserRecord] [Postcard ShareRecord] [Postcard Invite]
  [Postcard Inode] [Postcard MutabilityPolicy] [Postcard StoredConfig] [Postcard SnapshotEntry] in
theorem tells_upsert {t : Deadmen} {l : DeadmanLedger} (h : ∀ row ∈ t.rows, l.Tells row)
    (nonce : Aead.Nonce) (record : DeadmanRecord) :
    ∀ row ∈ (orElse t (DeadmanStore.upsert metaKey nonce record t)).rows,
      (MetaCall.enter metaKey t l (.upsertDeadman nonce record)).Tells row := by
  rw [MetaCall.enter, DeadmanStore.upsert, putSealed]
  cases hseal : sealRecord metaKey nonce (deadmanAad record.volumeId) record with
  | none => exact h
  | some data =>
    intro row hrow
    rcases Table.mem_put hrow with rfl | hrow
    · exact l.tells_clear_self ⟨record.volumeId, data, record.armed, record.lastCheck⟩
    · exact (h row hrow).clear record.volumeId

theorem Named.step (h : Named metaKey s) (c : MetaCall) : Named metaKey (c.stepTold metaKey s) := by
  obtain ⟨hshares, husers, hdeadmen, hinvites, hledger⟩ := h
  cases c with
  | insertUser nonce user =>
    refine ⟨hshares, ?_, hdeadmen, hinvites, hledger⟩
    exact husers.putSealed (.user user.userId) (fun _ => ⟨rfl, rfl⟩) fun _ => rfl
  | deactivateUser userId =>
    refine ⟨hshares, ?_, hdeadmen, hinvites, hledger⟩
    exact husers.modify userId (fun row => { row with active := false }) (fun _ => rfl)
      (fun _ => ⟨rfl, rfl⟩) fun _ _ _ _ hname => hname
  | upsertDeadman nonce record =>
    refine ⟨hshares, husers, ?_, hinvites, tells_upsert hledger nonce record⟩
    exact hdeadmen.putSealed (.deadman record.volumeId) (fun _ => ⟨rfl, rfl⟩) fun _ => rfl
  | setArmed volumeId armed =>
    refine ⟨hshares, husers, ?_, hinvites, fun row hrow => ?_⟩
    · exact hdeadmen.modify volumeId (fun row => { row with armed }) (fun _ => rfl)
        (fun _ => ⟨rfl, rfl⟩) fun _ _ _ _ hname => hname
    · obtain ⟨old, hold, rfl⟩ := List.mem_map.1 hrow
      exact (hledger old hold).arm volumeId armed
  | updateLastCheck volumeId timestamp =>
    refine ⟨hshares, husers, ?_, hinvites, fun row hrow => ?_⟩
    · exact hdeadmen.modify volumeId (fun row => { row with lastCheck := some timestamp })
        (fun _ => rfl) (fun _ => ⟨rfl, rfl⟩) fun _ _ _ _ hname => hname
    · obtain ⟨old, hold, rfl⟩ := List.mem_map.1 hrow
      exact (hledger old hold).check volumeId timestamp
  | insertShare nonce volumeId share sql =>
    exact ⟨hshares.insertShare fun _ => rfl, husers, hdeadmen, hinvites, hledger⟩
  | revokeShare userId sql =>
    refine ⟨?_, husers, hdeadmen, hinvites, hledger⟩
    dsimp only [MetaCall.stepTold, MetaCall.step]
    unfold SharingStore.revokeShare
    split
    · exact hshares.modify userId (fun row => { row with active := false }) (fun _ => rfl)
        (fun _ => ⟨rfl, rfl⟩) fun _ _ _ _ hname => hname
    · exact hshares
  | invite c =>
    cases c with
    | revoke nonce inviteId sql =>
      exact ⟨hshares, husers, hdeadmen, hinvites.revokeInvite_named, hledger⟩
    | insert nonce invite sql | use nonce now inviteId sql | get inviteId sql =>
      refine ⟨hshares, husers, hdeadmen, ?_, hledger⟩
      exact hinvites.inviteStep (fun _ _ => rfl) fun _ _ _ he => by cases he
  | insertInode nonce inode | updateInode nonce inode | deleteInode ino
  | insertPolicy nonce policy | deletePolicy policyId | saveConfig nonce config
  | appendSnapshot nonce entry => exact ⟨hshares, husers, hdeadmen, hinvites, hledger⟩

omit [Postcard Inode] [Postcard MutabilityPolicy] [Postcard StoredConfig]
  [Postcard SnapshotEntry] in
theorem Named.empty : Named metaKey (.empty, .empty) :=
  ⟨.nil, .nil, .nil, .nil, fun row hrow => by cases hrow⟩

/-- The flags of every row are the same in the column and in the record throughout a run exactly
    when every call restores them. -/
theorem flags_consistent_iff (metaKey : Bytes) (calls : List MetaCall) :
    Runs.Throughout (MetaCall.stepTold metaKey) (Consistent metaKey) calls (.empty, .empty) ↔
      Runs.Admits (MetaCall.stepTold metaKey) (fun c s => c.Restores metaKey s.1) calls
        (.empty, .empty) := by
  refine Runs.throughout_iff_admits (J := Named metaKey) (fun c s h => h.step c) ?_ calls
    Named.empty ?_
  · intro c s hn hs
    have hflags := hn.consistent_iff.1 hs
    exact (hn.step c).consistent_iff.trans (flagsAgree_step_iff hn hflags c)
  · exact Named.empty.consistent_iff.2 ⟨.nil, .nil, .nil, .nil⟩

end Runs

end

section
open scoped Sample

/-- A share that was revoked is still fetched as active. -/
theorem revoked_share_active : ∃ db l,
    Runs.runAll (MetaCall.stepTold []) [.insertShare Sample.zeroNonce "v" Sample.share .working,
      .revokeShare "u" .working] (.empty, .empty) = (db, l) ∧
    SharingStore.listShares [] "v" .working db.shares = .ok [] ∧
    SharingStore.getShare [] "u" .working db.shares = .ok (some Sample.share) ∧
    Sample.share.active = true ∧ ¬ Consistent [] (db, l) := by
  obtain ⟨data, hdata⟩ := Sample.seals_share
  have hget : SharingStore.getShare [] "u" .working
      (Table.empty.put ⟨"u", "v", "u", data, false⟩ : Shares) = .ok (some Sample.share) :=
    getShare_iff.2 ⟨_, rfl, openRecord_sealRecord hdata⟩
  refine ⟨{ MetaDb.empty with shares := Table.empty.put ⟨"u", "v", "u", data, false⟩ }, .empty,
    ?_, rfl, hget, rfl, fun hc => ?_⟩
  · have hinsert : SharingStore.insertShare [] Sample.zeroNonce "v" Sample.share .working .empty =
        .ok (Table.empty.put ⟨"u", "v", "u", data, true⟩) := by
      unfold SharingStore.insertShare
      have hseal : sealRecord [] Sample.zeroNonce (shareAad Sample.share.userId) Sample.share =
        some data := hdata
      rw [hseal]
      rfl
    rw [Runs.runAll, List.foldl_cons, List.foldl_cons, List.foldl_nil]
    simp only [MetaCall.stepTold, MetaCall.step, MetaDb.empty, hinsert]
    rfl
  · obtain ⟨share, listed, hfetched, hactive, -⟩ := hc.shares _ List.mem_cons_self
    cases hfetched.symm.trans hget
    cases hactive

end

end TgCryptFs

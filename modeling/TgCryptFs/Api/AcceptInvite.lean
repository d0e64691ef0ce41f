import TgCryptFs.Api.Sharing
import TgCryptFs.Store.Revocation

set_option autoImplicit false

/-!
# What accepting an invite leaves behind

The use is counted first and the share is written last, with the clock read in between, and
nothing takes the use back.
-/
namespace TgCryptFs
open Library

section

variable [Primitives] [Postcard Invite] {metaKey : Bytes} {inviteId userId : String}
  {env : AcceptEnv} {db : SharingDb} {invite : Invite}

/-- The lock is taken, the invite is read and valid, and its new count is written. -/
def UseGoesThrough (metaKey : Bytes) (inviteId : String) (env : AcceptEnv) (db : SharingDb)
    (invite : Invite) : Prop :=
  env.poisoned = false ∧ env.useSql.select = true ∧ env.useSql.insert = true ∧
    inviteRecord metaKey db.invites inviteId = some (.ok invite) ∧
    invite.isValid env.clock = true ∧
    ∃ data, sealRecord metaKey env.useNonce (inviteAad inviteId)
      { invite with useCount := invite.useCount + 1 } = some data

variable [Postcard ShareRecord]

/-- The share that the accepted invite calls for is written. -/
def ShareGoesThrough (metaKey : Bytes) (userId : String) (env : AcceptEnv) (invite : Invite) :
    Prop :=
  ∃ now, env.unixNow = some now ∧ env.shareSql.insert = true ∧
    ∃ data, sealRecord metaKey env.shareNonce (shareAad userId)
      (acceptedShare userId invite.accessLevel now) = some data

/-- The user has one active share, and the record in it gives the access level. -/
def HasOneShare (metaKey : Bytes) (shares : Shares) (userId : String) (accessLevel : AccessLevel) :
    Prop :=
  ∃ row, (shares.rows.filter fun row => row.uid = userId && row.active) = [row] ∧
    ∃ share : ShareRecord, openRecord metaKey row.data (shareAad row.sid) = .ok share ∧
      share.accessLevel = accessLevel

/-- An answer with the state it leaves: accepted, with one more use and the one share, or
    refused, with both tables as they were. -/
def Atomic (metaKey : Bytes) (inviteId userId : String) (db : SharingDb)
    (r : Except ServiceError ShareRecord × SharingDb) : Prop :=
  match r with
  | (.ok _, db') => ∃ invite used,
      inviteRecord metaKey db.invites inviteId = some (.ok invite) ∧
      inviteRecord metaKey db'.invites inviteId = some (.ok used) ∧
      used.useCount.toNat = invite.useCount.toNat + 1 ∧
      HasOneShare metaKey db'.shares userId invite.accessLevel
  | (.error _, db') => db' = db

omit [Postcard ShareRecord] in
/-- A use that goes through writes the record of the invite and nothing else. -/
theorem UseGoesThrough.useInvite (h : UseGoesThrough metaKey inviteId env db invite)
    (hw : WellFormed metaKey db.invites) :
    ∃ invites, SharingStore.useInvite metaKey env.useNonce env.clock inviteId env.useSql db.invites =
        .ok (some { invite with useCount := invite.useCount + 1 }, invites) ∧
      inviteRecord metaKey invites inviteId =
        some (.ok { invite with useCount := invite.useCount + 1 }) := by
  obtain ⟨-, hs, hi, hrecord, hvalid, data, hdata⟩ := h
  have hid : invite.inviteId = inviteId := hw _ _ hrecord
  subst hid
  have hinsert : ∃ invites, SharingStore.insertInvite metaKey env.useNonce
      { invite with useCount := invite.useCount + 1 } env.useSql db.invites = .ok invites :=
    ⟨_, SharingStore.insertInvite_eq_ok.2 ⟨hi, data, hdata, rfl⟩⟩
  obtain ⟨invites, hinsert⟩ := hinsert
  refine ⟨invites, SharingStore.useInvite_of_record hs hrecord hvalid hinsert, ?_⟩
  rw [SharingStore.inviteRecord_insertInvite hinsert]
  exact Function.update_self ..

omit [Postcard ShareRecord] in
theorem UseGoesThrough.of_useInvite {used : Invite} {invites : Invites}
    (hw : WellFormed metaKey db.invites) (hlock : env.poisoned = false)
    (h : SharingStore.useInvite metaKey env.useNonce env.clock inviteId env.useSql db.invites =
      .ok (some used, invites)) : ∃ invite, UseGoesThrough metaKey inviteId env db invite := by
  rcases SharingStore.useInvite_eq_ok h with ⟨hnone, -⟩ | ⟨invite, used, -, hget, hused, hinsert⟩
  · cases hnone
  · obtain ⟨hs, hrecord⟩ := SharingStore.getInvite_eq_ok_some.1 hget
    obtain ⟨hvalid, rfl⟩ := Invite.tryUse_ok.1 hused
    obtain ⟨hi, data, hdata, -⟩ := SharingStore.insertInvite_eq_ok.1 hinsert
    have hid : invite.inviteId = inviteId := hw _ _ hrecord
    exact ⟨invite, hlock, hs, hi, hrecord, hvalid, data, hid ▸ hdata⟩

omit [Postcard Invite] in
theorem insertShare_eq_ok {nonce : Aead.Nonce} {volumeId : String} {share : ShareRecord} {sql : Sql}
    {t t' : Shares} :
    SharingStore.insertShare metaKey nonce volumeId share sql t = .ok t' ↔
      sql.insert = true ∧ ∃ data,
        sealRecord metaKey nonce (shareAad share.userId) share = some data ∧
        t' = t.put ⟨share.userId, volumeId, share.userId, data, share.active⟩ := by
  unfold SharingStore.insertShare
  cases hseal : sealRecord metaKey nonce (shareAad share.userId) share with
  | none => simp
  | some data =>
    cases hi : sql.insert with
    | true => simp [eq_comm]
    | false => simp

/-- The user id stands twice in each row. -/
def Keyed (t : Shares) : Prop := ∀ row ∈ t.rows, row.uid = row.sid

omit [Postcard Invite] in
theorem Keyed.insertShare {t t' : Shares} (h : Keyed t) {nonce : Aead.Nonce} {volumeId : String}
    {share : ShareRecord} {sql : Sql}
    (ht' : SharingStore.insertShare metaKey nonce volumeId share sql t = .ok t') : Keyed t' := by
  obtain ⟨-, data, -, rfl⟩ := insertShare_eq_ok.1 ht'
  intro row hrow
  rcases Table.mem_put hrow with rfl | hrow
  · rfl
  · exact h row hrow

omit [Primitives] [Postcard Invite] [Postcard ShareRecord] in
theorem Keyed.revokeShare {t t' : Shares} (h : Keyed t) {sql : Sql}
    (ht' : SharingStore.revokeShare userId sql t = .ok t') : Keyed t' := by
  unfold SharingStore.revokeShare at ht'
  split at ht'
  · cases ht'
    intro row hrow
    rcases Table.mem_modify hrow with hrow | ⟨old, hold, rfl⟩
    · exact h row hrow
    · exact h old hold
  · cases ht'

theorem SharingCall.keyed_step {c : SharingCall} (h : Keyed db.shares) :
    Keyed (c.step metaKey db).shares := by
  cases c with
  | insertShare nonce volumeId share sql =>
    rw [step]
    split
    · exact h
    · rename_i shares hshares
      exact h.insertShare hshares
  | revokeShare userId sql =>
    rw [step]
    split
    · exact h
    · rename_i shares hshares
      exact h.revokeShare hshares
  | invite c => exact h

theorem SharingCall.wellFormed_step {c : SharingCall} (h : WellFormed metaKey db.invites) :
    WellFormed metaKey (c.step metaKey db).invites := by
  cases c with
  | insertShare nonce volumeId share sql =>
    rw [step]
    split <;> exact h
  | revokeShare userId sql =>
    rw [step]
    split <;> exact h
  | invite c => exact InviteCall.wellFormed_step h

theorem ReachableSharing.keyed (h : ReachableSharing metaKey db) : Keyed db.shares :=
  Runs.invariant (fun db => Keyed db.shares) (fun _ hrow => by cases hrow)
    (fun _ _ hs _ => SharingCall.keyed_step hs) h

theorem ReachableSharing.wellFormed (h : ReachableSharing metaKey db) :
    WellFormed metaKey db.invites :=
  Runs.invariant (fun db => WellFormed metaKey db.invites) wellFormed_empty
    (fun _ _ hs _ => SharingCall.wellFormed_step hs) h

omit [Postcard Invite] in
theorem hasOneShare_insertShare {t t' : Shares} (h : Keyed t) {nonce : Aead.Nonce}
    {volumeId : String} {share : ShareRecord} {sql : Sql} (hactive : share.active = true)
    (ht' : SharingStore.insertShare metaKey nonce volumeId share sql t = .ok t') :
    HasOneShare metaKey t' share.userId share.accessLevel := by
  obtain ⟨-, data, hdata, rfl⟩ := insertShare_eq_ok.1 ht'
  refine ⟨⟨share.userId, volumeId, share.userId, data, share.active⟩, ?_, share,
    openRecord_sealRecord hdata, rfl⟩
  have hothers : ∀ row ∈ t.rows.filter (fun row => row.sid ≠ share.userId),
      ¬ (row.uid = share.userId && row.active) = true := by
    intro row hrow hmine
    obtain ⟨hrow, hsid⟩ := List.mem_filter.1 hrow
    have huid : row.uid = share.userId := of_decide_eq_true (Bool.and_eq_true_iff.1 hmine).1
    exact of_decide_eq_true hsid ((h row hrow).symm.trans huid)
  simp only [Table.put, List.filter_append]
  rw [List.filter_eq_nil_iff.2 hothers, List.nil_append, List.filter_cons_of_pos, List.filter_nil]
  rw [hactive, decide_eq_true rfl]
  rfl

namespace SharingService

variable {session : VolumeSession}

theorem acceptInvite_refused (hw : WellFormed session.metaKey db.invites)
    (h : ∀ invite, ¬ UseGoesThrough session.metaKey inviteId env db invite) :
    ∃ e, acceptInvite session inviteId userId env db = (.error e, db) := by
  unfold acceptInvite
  split
  · exact ⟨_, rfl⟩
  · rename_i hlock
    split
    · exact ⟨_, rfl⟩
    · rename_i invites huse
      rcases SharingStore.useInvite_eq_ok huse with ⟨-, rfl⟩ | ⟨_, _, hsome, -⟩
      · exact ⟨_, rfl⟩
      · cases hsome
    · rename_i used invites huse
      obtain ⟨invite, hthrough⟩ :=
        UseGoesThrough.of_useInvite hw (Bool.eq_false_iff.2 hlock) huse
      exact absurd hthrough (h invite)

/-- The use is counted and the share is not written: an error, with the count kept. -/
theorem acceptInvite_loses_use (hw : WellFormed session.metaKey db.invites)
    (huse : UseGoesThrough session.metaKey inviteId env db invite)
    (hshare : ¬ ShareGoesThrough session.metaKey userId env invite) :
    ∃ e invites, acceptInvite session inviteId userId env db = (.error e, ⟨db.shares, invites⟩) ∧
      inviteRecord session.metaKey invites inviteId =
        some (.ok { invite with useCount := invite.useCount + 1 }) := by
  obtain ⟨invites, hused, hrecord⟩ := huse.useInvite hw
  have hlost : ∃ e, acceptInvite session inviteId userId env db =
      (.error e, ⟨db.shares, invites⟩) := by
    rw [acceptInvite, if_neg (Bool.eq_false_iff.1 huse.1), hused]
    dsimp only
    split
    · exact ⟨_, rfl⟩
    · rename_i now hnow
      split
      · exact ⟨_, rfl⟩
      · rename_i shares hinsert
        obtain ⟨hi, data, hdata, -⟩ := insertShare_eq_ok.1 hinsert
        exact absurd ⟨now, hnow, hi, data, hdata⟩ hshare
  obtain ⟨e, he⟩ := hlost
  exact ⟨e, invites, he, hrecord⟩

theorem acceptInvite_accepts (hw : WellFormed session.metaKey db.invites) (hk : Keyed db.shares)
    (huse : UseGoesThrough session.metaKey inviteId env db invite)
    (hshare : ShareGoesThrough session.metaKey userId env invite) :
    ∃ share db', acceptInvite session inviteId userId env db = (.ok share, db') ∧
      inviteRecord session.metaKey db'.invites inviteId =
        some (.ok { invite with useCount := invite.useCount + 1 }) ∧
      HasOneShare session.metaKey db'.shares userId invite.accessLevel := by
  obtain ⟨invites, hused, hrecord⟩ := huse.useInvite hw
  obtain ⟨now, hnow, hi, data, hdata⟩ := hshare
  have hinsert : ∃ shares, SharingStore.insertShare session.metaKey env.shareNonce session.volumeId
      (acceptedShare userId invite.accessLevel now) env.shareSql db.shares = .ok shares :=
    ⟨_, insertShare_eq_ok.2 ⟨hi, data, hdata, rfl⟩⟩
  obtain ⟨shares, hinsert⟩ := hinsert
  refine ⟨acceptedShare userId invite.accessLevel now, ⟨shares, invites⟩, ?_, hrecord,
    hasOneShare_insertShare hk rfl hinsert⟩
  rw [acceptInvite, if_neg (Bool.eq_false_iff.1 huse.1), hused]
  simp only [hnow, hinsert]

/-- Accepting an invite is atomic exactly when every use that goes through is followed by its
    share and does not overflow the count. -/
theorem acceptInvite_atomic_iff (h : ReachableSharing session.metaKey db) :
    Atomic session.metaKey inviteId userId db (acceptInvite session inviteId userId env db) ↔
      ∀ invite, UseGoesThrough session.metaKey inviteId env db invite →
        invite.useCount.toNat + 1 < 2 ^ 32 ∧
          ShareGoesThrough session.metaKey userId env invite := by
  have hw := h.wellFormed
  by_cases huse : ∃ invite, UseGoesThrough session.metaKey inviteId env db invite
  · obtain ⟨invite, huse⟩ := huse
    have hrecord := huse.2.2.2.1
    have honly : (∀ other, UseGoesThrough session.metaKey inviteId env db other →
        other.useCount.toNat + 1 < 2 ^ 32 ∧ ShareGoesThrough session.metaKey userId env other) ↔
        invite.useCount.toNat + 1 < 2 ^ 32 ∧
          ShareGoesThrough session.metaKey userId env invite := by
      refine ⟨fun hall => hall invite huse, fun hone other hother => ?_⟩
      have hsame := hother.2.2.2.1
      rw [hrecord] at hsame
      cases hsame
      exact hone
    rw [honly]
    by_cases hshare : ShareGoesThrough session.metaKey userId env invite
    · obtain ⟨share, db', haccept, hused, hone⟩ := acceptInvite_accepts hw h.keyed huse hshare
      rw [haccept, ← toNat_succ_eq_iff]
      constructor
      · rintro ⟨before, used, hbefore, hafter, hcount, -⟩
        rw [hrecord] at hbefore
        rw [hused] at hafter
        cases hbefore
        cases hafter
        exact ⟨hcount, hshare⟩
      · rintro ⟨hcount, -⟩
        exact ⟨invite, _, hrecord, hused, hcount, hone⟩
    · obtain ⟨e, invites, hlost, hused⟩ := acceptInvite_loses_use hw huse hshare
      rw [hlost]
      refine iff_of_false (fun hsame => ?_) fun hboth => hshare hboth.2
      have hinvites : invites = db.invites := congrArg SharingDb.invites hsame
      rw [hinvites, hrecord] at hused
      have hcount := congrArg Invite.useCount (Except.ok.inj (Option.some.inj hused))
      exact toNat_succ_ne invite.useCount (congrArg UInt32.toNat hcount.symm)
  · have hnone : ∀ invite, ¬ UseGoesThrough session.metaKey inviteId env db invite :=
      fun invite hthrough => huse ⟨invite, hthrough⟩
    have hrefused : ∃ e, acceptInvite session inviteId userId env db = (.error e, db) :=
      acceptInvite_refused hw hnone
    obtain ⟨e, he⟩ := hrefused
    rw [he]
    exact iff_of_true rfl fun invite hthrough => absurd hthrough (hnone invite)

end SharingService

end

section
open scoped Sample

def Sample.session : VolumeSession :=
  { volumeId := "v", displayName := "v", config := ⟨"v", [], ⟨65536, 3, 4, 32⟩, none⟩, conn := 0,
    dir := [], schemaKey := [], metaKey := [], dataKey := [] }

/-- Everything works but, maybe, the insertion of the share. -/
def Sample.acceptEnv (shareSql : Sql) : AcceptEnv :=
  { poisoned := false, clock := 7, unixNow := some 7, useNonce := Sample.zeroNonce,
    shareNonce := Sample.zeroNonce, useSql := .working, shareSql }

theorem Sample.sharing_with_invite :
    ∃ db, ReachableSharing Sample.session.metaKey db ∧
      inviteRecord Sample.session.metaKey db.invites "i" = some (.ok Sample.twoUses) ∧
      ∀ shareSql, UseGoesThrough Sample.session.metaKey "i" (Sample.acceptEnv shareSql) db
        Sample.twoUses := by
  obtain ⟨t, ht, -, hstands⟩ := Sample.insert_twoUses
  have hreach : ReachableSharing Sample.session.metaKey ⟨Table.empty, t⟩ := by
    have hnext : ReachableSharing [] (SharingCall.step []
        (.invite (.insert Sample.zeroNonce Sample.twoUses .working)) ⟨Table.empty, Table.empty⟩) :=
      Runs.start.next trivial
    rwa [SharingCall.step, InviteCall.step, InviteCall.serve, ht] at hnext
  exact ⟨⟨Table.empty, t⟩, hreach, hstands, fun _ => ⟨rfl, rfl, rfl, hstands, rfl,
    Sample.seals_twoUses Sample.zeroNonce 1 false⟩⟩

/-- Where everything works, the invite is accepted for the user. -/
theorem acceptance_of_twoUses :
    ∃ db, inviteRecord Sample.session.metaKey db.invites "i" = some (.ok Sample.twoUses) ∧
      Atomic Sample.session.metaKey "i" "u" db (SharingService.acceptInvite Sample.session "i" "u"
        (Sample.acceptEnv .working) db) := by
  obtain ⟨db, hreach, hrecord, hthrough⟩ := Sample.sharing_with_invite
  refine ⟨db, hrecord, (SharingService.acceptInvite_atomic_iff hreach).2 fun invite huse => ?_⟩
  have hsame := huse.2.2.2.1
  rw [hrecord] at hsame
  cases hsame
  have hlength : (Sample.frames (Sample.Fields.fields
      (acceptedShare "u" Sample.twoUses.accessLevel 7))).length < 256 ^ 16 := by decide
  exact ⟨by decide, 7, rfl, rfl, Sample.sealRecord_some hlength [] Sample.zeroNonce (shareAad "u")⟩

/-- The share is not written, and the use is gone. -/
theorem use_lost_without_share :
    ∃ db e db', ReachableSharing Sample.session.metaKey db ∧
      SharingService.acceptInvite Sample.session "i" "u" (Sample.acceptEnv ⟨true, true, false⟩) db =
        (.error e, db') ∧
      inviteRecord Sample.session.metaKey db.invites "i" = some (.ok Sample.twoUses) ∧
      inviteRecord Sample.session.metaKey db'.invites "i" =
        some (.ok { Sample.twoUses with useCount := 1 }) ∧
      db' ≠ db := by
  obtain ⟨db, hreach, hrecord, hthrough⟩ := Sample.sharing_with_invite
  have hshare : ¬ ShareGoesThrough Sample.session.metaKey "u"
      (Sample.acceptEnv ⟨true, true, false⟩) Sample.twoUses := by
    rintro ⟨_, -, hi, -⟩
    cases hi
  obtain ⟨e, invites, hlost, hused⟩ :=
    SharingService.acceptInvite_loses_use hreach.wellFormed (hthrough _) hshare
  refine ⟨db, e, ⟨db.shares, invites⟩, hreach, hlost, hrecord, hused, fun hsame => ?_⟩
  rw [show invites = db.invites from congrArg SharingDb.invites hsame, hrecord] at hused
  cases hused

end
end TgCryptFs

import TgCryptFs.Store.Sharing

set_option autoImplicit false

/-!
# The invites behind their rows

What the methods see of the invite table is, for each id, the record its row decrypts to:
a finite map from ids to records, which an insertion changes at one id and everything else
leaves alone.
-/
namespace TgCryptFs
open Library

variable [Primitives] [Postcard Invite] {metaKey : Bytes} {t t' : Invites}

/-- The record under an id, or what reading it fails with. -/
def inviteRecord (metaKey : Bytes) (t : Invites) (inviteId : String) :
    Option (Except RowError Invite) :=
  (t.find inviteId).map fun row => openRecord metaKey row.data (inviteAad inviteId)

/-- Every record that can be read stands under its own id. -/
def WellFormed (metaKey : Bytes) (t : Invites) : Prop :=
  ∀ id invite, inviteRecord metaKey t id = some (.ok invite) → invite.inviteId = id

/-- The cipher takes the invite, whatever its count and its flag are. -/
def Seals (metaKey : Bytes) (invite : Invite) : Prop :=
  ∀ nonce useCount revoked, ∃ data, sealRecord metaKey nonce (inviteAad invite.inviteId)
    { invite with useCount, revoked } = some data

namespace SharingStore

theorem getInvite_of_record {id : String} {sql : Sql} (hs : sql.select = true) {invite : Invite}
    (h : inviteRecord metaKey t id = some (.ok invite)) :
    getInvite metaKey id sql t = .ok (some invite) := by
  obtain ⟨row, hrow, hopen⟩ := Option.map_eq_some_iff.1 h
  rw [getInvite, if_pos hs, hrow]
  simp only [openRow, hopen]

theorem getInvite_eq_ok_some {id : String} {sql : Sql} {invite : Invite} :
    getInvite metaKey id sql t = .ok (some invite) ↔
      sql.select = true ∧ inviteRecord metaKey t id = some (.ok invite) := by
  constructor
  · intro h
    unfold getInvite at h
    split at h
    · rename_i hs
      refine ⟨hs, ?_⟩
      unfold inviteRecord
      cases hrow : t.find id with
      | none =>
        rw [hrow] at h
        cases h
      | some row =>
        rw [hrow, openRow] at h
        split at h
        · cases h
        · rename_i record hopen
          cases h
          exact congrArg some hopen
    · cases h
  · rintro ⟨hs, h⟩
    exact getInvite_of_record hs h

theorem insertInvite_eq_ok {nonce : Aead.Nonce} {invite : Invite} {sql : Sql} :
    insertInvite metaKey nonce invite sql t = .ok t' ↔
      sql.insert = true ∧ ∃ data,
        sealRecord metaKey nonce (inviteAad invite.inviteId) invite = some data ∧
        t' = t.put ⟨invite.inviteId, invite.volumeId, data, !invite.revoked⟩ := by
  unfold insertInvite
  cases hseal : sealRecord metaKey nonce (inviteAad invite.inviteId) invite with
  | none => simp
  | some data =>
    cases hi : sql.insert with
    | true => simp [eq_comm]
    | false => simp

theorem inviteRecord_insertInvite {nonce : Aead.Nonce} {invite : Invite} {sql : Sql}
    (h : insertInvite metaKey nonce invite sql t = .ok t') :
    inviteRecord metaKey t' =
      Function.update (inviteRecord metaKey t) invite.inviteId (some (.ok invite)) := by
  obtain ⟨-, data, hseal, rfl⟩ := insertInvite_eq_ok.1 h
  funext id
  unfold inviteRecord
  rw [Table.find_put]
  by_cases hid : id = invite.inviteId
  · subst hid
    rw [Function.update_self, Function.update_self, Option.map_some]
    exact congrArg some (openRecord_sealRecord hseal)
  · rw [Function.update_of_ne hid, Function.update_of_ne hid]

/-- The `active` column is not seen. -/
theorem inviteRecord_deactivate (id : String) :
    inviteRecord metaKey
      (t.modify id (fun row => { row with active := false }) fun _ => rfl : Invites) =
        inviteRecord metaKey t := by
  funext j
  unfold inviteRecord
  rw [Table.find_modify]
  by_cases hj : j = id
  · subst hj
    rw [Function.update_self, Option.map_map]
    rfl
  · rw [Function.update_of_ne hj]

theorem getInvite_deactivate (id j : String) (sql : Sql) :
    getInvite metaKey j sql
      (t.modify id (fun row => { row with active := false }) fun _ => rfl : Invites) =
        getInvite metaKey j sql t := by
  unfold getInvite
  rw [Table.find_modify]
  by_cases hj : j = id
  · subst hj
    rw [Function.update_self]
    cases t.find j <;> rfl
  · rw [Function.update_of_ne hj]

/-- A use is refused without a trace, or counted in the record it reads. -/
theorem useInvite_eq_ok {nonce : Aead.Nonce} {now : ℤ} {id : String} {sql : Sql}
    {found : Option Invite} (h : useInvite metaKey nonce now id sql t = .ok (found, t')) :
    found = none ∧ t' = t ∨
      ∃ invite used, found = some used ∧ getInvite metaKey id sql t = .ok (some invite) ∧
        invite.tryUse now = .ok used ∧ insertInvite metaKey nonce used sql t = .ok t' := by
  unfold useInvite at h
  split at h
  · cases h
  · cases h
    exact .inl ⟨rfl, rfl⟩
  · rename_i invite hget
    split at h
    · cases h
      exact .inl ⟨rfl, rfl⟩
    · rename_i used hused
      split at h
      · cases h
      · rename_i t'' hinsert
        cases h
        exact .inr ⟨invite, used, rfl, hget, hused, hinsert⟩

theorem useInvite_of_record {nonce : Aead.Nonce} {now : ℤ} {id : String} {sql : Sql}
    (hs : sql.select = true) {invite : Invite}
    (h : inviteRecord metaKey t id = some (.ok invite)) (hvalid : invite.isValid now = true)
    (hinsert : insertInvite metaKey nonce { invite with useCount := invite.useCount + 1 } sql t =
      .ok t') :
    useInvite metaKey nonce now id sql t =
      .ok (some { invite with useCount := invite.useCount + 1 }, t') := by
  have hget := getInvite_of_record hs h
  have hused := Invite.tryUse_ok.2 ⟨hvalid, rfl⟩
  simp only [useInvite, hget, hused, hinsert]

/-- A revocation writes the record back, or sets the column alone. -/
theorem revokeInvite_cases (nonce : Aead.Nonce) (id : String) {sql : Sql} (t : Invites)
    (hu : sql.update = true) :
    (∃ invite t', getInvite metaKey id sql t = .ok (some invite) ∧
      insertInvite metaKey nonce invite.revoke sql
        (t.modify id (fun row => { row with active := false }) fun _ => rfl) = .ok t' ∧
      revokeInvite metaKey nonce id sql t = .ok t') ∨
    ((∀ invite t', getInvite metaKey id sql t = .ok (some invite) →
        insertInvite metaKey nonce invite.revoke sql
          (t.modify id (fun row => { row with active := false }) fun _ => rfl) ≠ .ok t') ∧
      revokeInvite metaKey nonce id sql t =
        .ok (t.modify id (fun row => { row with active := false }) fun _ => rfl)) := by
  rw [revokeInvite, if_pos hu]
  dsimp only
  rw [getInvite_deactivate]
  split
  · rename_i invite hget
    split
    · rename_i t' hinsert
      exact .inl ⟨invite, t', hget, hinsert, rfl⟩
    · rename_i e hinsert
      refine .inr ⟨fun invite' t' hget' hinsert' => ?_, rfl⟩
      cases hget.symm.trans hget'
      cases hinsert.symm.trans hinsert'
  · rename_i hnone
    refine .inr ⟨fun invite t' hget _ => ?_, rfl⟩
    exact hnone invite hget

theorem revokeInvite_table {nonce : Aead.Nonce} {id : String} {sql : Sql}
    (h : revokeInvite metaKey nonce id sql t = .ok t') :
    sql.update = true ∧
      (t' = t.modify id (fun row => { row with active := false }) (fun _ => rfl) ∨
        ∃ invite, getInvite metaKey id sql t = .ok (some invite) ∧
          insertInvite metaKey nonce invite.revoke sql
            (t.modify id (fun row => { row with active := false }) fun _ => rfl) = .ok t') := by
  cases hu : sql.update with
  | false =>
    rw [revokeInvite, if_neg (by simp [hu])] at h
    cases h
  | true =>
    refine ⟨rfl, ?_⟩
    rcases revokeInvite_cases nonce id t hu with ⟨invite, u, hget, hinsert, hu'⟩ | ⟨-, hu'⟩
    · cases hu'.symm.trans h
      exact .inr ⟨invite, hget, hinsert⟩
    · cases hu'.symm.trans h
      exact .inl rfl

/-- A revocation that is reported done has marked the record, or has not touched it. -/
theorem revokeInvite_eq_ok {nonce : Aead.Nonce} {id : String} {sql : Sql}
    (h : revokeInvite metaKey nonce id sql t = .ok t') :
    inviteRecord metaKey t' = inviteRecord metaKey t ∨
      ∃ invite, inviteRecord metaKey t id = some (.ok invite) ∧
        inviteRecord metaKey t' = Function.update (inviteRecord metaKey t) invite.inviteId
          (some (.ok invite.revoke)) := by
  rcases (revokeInvite_table h).2 with rfl | ⟨invite, hget, hinsert⟩
  · exact .inl (inviteRecord_deactivate id)
  · refine .inr ⟨invite, (getInvite_eq_ok_some.1 hget).2, ?_⟩
    rw [inviteRecord_insertInvite hinsert, inviteRecord_deactivate]
    rfl

/-- Every statement of a revocation took effect. -/
theorem revokeInvite_marks {nonce : Aead.Nonce} {id : String} {sql : Sql} {invite : Invite}
    (hu : sql.update = true) (hs : sql.select = true)
    (h : inviteRecord metaKey t id = some (.ok invite))
    (hi : ∀ t, ∃ t', insertInvite metaKey nonce invite.revoke sql t = .ok t') :
    ∃ t', revokeInvite metaKey nonce id sql t = .ok t' ∧
      inviteRecord metaKey t' = Function.update (inviteRecord metaKey t) invite.inviteId
        (some (.ok invite.revoke)) := by
  have hget : getInvite metaKey id sql
      (t.modify id (fun row => { row with active := false }) fun _ => rfl) = .ok (some invite) := by
    refine getInvite_of_record hs ?_
    rw [inviteRecord_deactivate, h]
  obtain ⟨t', ht'⟩ := hi (t.modify id (fun row => { row with active := false }) fun _ => rfl)
  refine ⟨t', ?_, ?_⟩
  · simp only [revokeInvite, if_pos hu, hget, ht']
  · rw [inviteRecord_insertInvite ht', inviteRecord_deactivate]
    rfl

theorem revokeInvite_misses {nonce : Aead.Nonce} {id : String} {sql : Sql}
    (hu : sql.update = true)
    (hfail : sql.select = true → ∀ invite, inviteRecord metaKey t id = some (.ok invite) →
      ∀ t t', insertInvite metaKey nonce invite.revoke sql t ≠ .ok t') :
    ∃ t', revokeInvite metaKey nonce id sql t = .ok t' ∧
      inviteRecord metaKey t' = inviteRecord metaKey t := by
  refine ⟨_, ?_, inviteRecord_deactivate id⟩
  simp only [revokeInvite, if_pos hu]
  split
  · rename_i invite hget
    obtain ⟨hs, hrecord⟩ := getInvite_eq_ok_some.1 hget
    rw [inviteRecord_deactivate] at hrecord
    split
    · rename_i t' ht'
      exact absurd ht' (hfail hs invite hrecord _ _)
    · rfl
  · rfl

end SharingStore

namespace InviteCall

/-- A call changes at most one record: the one of the invite it inserts, or the one it
    reads under its target. Only an insertion takes back a revocation. -/
theorem inviteRecord_step (c : InviteCall) (t : Invites) :
    inviteRecord metaKey (step metaKey c t) = inviteRecord metaKey t ∨
      ∃ written : Invite,
        ((∃ nonce sql, c = .insert nonce written sql) ∨
          ∃ invite, inviteRecord metaKey t c.target = some (.ok invite) ∧
            written.inviteId = invite.inviteId ∧
            (invite.revoked = true → written.revoked = true)) ∧
        inviteRecord metaKey (step metaKey c t) =
          Function.update (inviteRecord metaKey t) written.inviteId (some (.ok written)) := by
  unfold step
  cases c with
  | insert nonce invite sql =>
    rw [serve]
    split
    · exact .inl rfl
    · rename_i t' h
      exact .inr ⟨invite, .inl ⟨nonce, sql, rfl⟩, SharingStore.inviteRecord_insertInvite h⟩
  | use nonce now inviteId sql =>
    rw [serve]
    split
    · exact .inl rfl
    · rename_i found t' h
      rcases SharingStore.useInvite_eq_ok h with ⟨-, rfl⟩ | ⟨invite, used, -, hget, hused, hinsert⟩
      · exact .inl rfl
      · have hrecord := (SharingStore.getInvite_eq_ok_some.1 hget).2
        obtain ⟨-, rfl⟩ := Invite.tryUse_ok.1 hused
        refine .inr ⟨{ invite with useCount := invite.useCount + 1 },
          .inr ⟨invite, hrecord, rfl, id⟩, ?_⟩
        exact SharingStore.inviteRecord_insertInvite hinsert
  | get id sql =>
    rw [serve]
    split <;> exact .inl rfl
  | revoke nonce id sql =>
    rw [serve]
    split
    · exact .inl rfl
    · rename_i t' h
      rcases SharingStore.revokeInvite_eq_ok h with h | ⟨invite, hrecord, h⟩
      · exact .inl h
      · exact .inr ⟨invite.revoke, .inr ⟨invite, hrecord, rfl, fun _ => rfl⟩, h⟩

theorem wellFormed_step {c : InviteCall} (h : WellFormed metaKey t) :
    WellFormed metaKey (step metaKey c t) := by
  rcases inviteRecord_step c t with he | ⟨written, -, he⟩
  · intro id invite hid
    rw [he] at hid
    exact h id invite hid
  · intro id invite hid
    rw [he] at hid
    by_cases hw : id = written.inviteId
    · subst hw
      rw [Function.update_self] at hid
      cases hid
      rfl
    · rw [Function.update_of_ne hw] at hid
      exact h id invite hid

theorem inviteRecord_other {c : InviteCall} (h : WellFormed metaKey t) {id : String}
    (hne : id ≠ c.target) :
    inviteRecord metaKey (step metaKey c t) id = inviteRecord metaKey t id := by
  rcases inviteRecord_step c t with he | ⟨written, hw, he⟩
  · rw [he]
  · have htarget : written.inviteId = c.target := by
      rcases hw with ⟨nonce, sql, rfl⟩ | ⟨invite, hrecord, hid, -⟩
      · rfl
      · exact hid.trans (h _ _ hrecord)
    rw [he, Function.update_of_ne (htarget ▸ hne)]

theorem readable_step {c : InviteCall} (h : ∀ id e, inviteRecord metaKey t id ≠ some (.error e))
    (id : String) (e : RowError) : inviteRecord metaKey (step metaKey c t) id ≠ some (.error e) := by
  rcases inviteRecord_step c t with he | ⟨written, -, he⟩
  · rw [he]
    exact h id e
  · by_cases hw : id = written.inviteId
    · rw [he, hw, Function.update_self]
      intro hbad
      cases hbad
    · rw [he, Function.update_of_ne hw]
      exact h id e

end InviteCall

theorem wellFormed_empty : WellFormed metaKey Table.empty := by
  intro id invite h
  cases h

theorem ReachableInvites.wellFormed (h : ReachableInvites metaKey t) : WellFormed metaKey t :=
  Runs.invariant (WellFormed metaKey) wellFormed_empty
    (fun _ _ hs _ => InviteCall.wellFormed_step hs) h

theorem ReachableInvites.insertInvite (h : ReachableInvites metaKey t) {nonce : Aead.Nonce}
    {invite : Invite} {sql : Sql}
    (ht' : SharingStore.insertInvite metaKey nonce invite sql t = .ok t') :
    ReachableInvites metaKey t' := by
  have hstep := h.next (e := .insert nonce invite sql) trivial
  rwa [InviteCall.step, InviteCall.serve, ht'] at hstep

/-- Every row that the store wrote is read. -/
theorem ReachableInvites.readable (h : ReachableInvites metaKey t) {id : String} {row : InviteRow}
    (hrow : t.find id = some row) : ∃ invite, inviteRecord metaKey t id = some (.ok invite) := by
  have hread : ∀ id e, inviteRecord metaKey t id ≠ some (.error e) :=
    Runs.invariant (fun t => ∀ id e, inviteRecord metaKey t id ≠ some (.error e))
      (fun id e h => by cases h) (fun _ _ hs _ => InviteCall.readable_step hs) h
  have hrecord : inviteRecord metaKey t id =
      some (openRecord metaKey row.data (inviteAad id)) := by
    rw [inviteRecord, hrow, Option.map_some]
  cases hopen : (openRecord metaKey row.data (inviteAad id) : Except RowError Invite) with
  | error e =>
    rw [hopen] at hrecord
    exact absurd hrecord (hread id e)
  | ok invite =>
    rw [hopen] at hrecord
    exact ⟨invite, hrecord⟩

end TgCryptFs

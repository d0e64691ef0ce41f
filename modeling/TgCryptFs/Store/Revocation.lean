import TgCryptFs.Store.InviteUses

set_option autoImplicit false

/-!
# When a revocation takes

`revoke_invite` writes the column and then the record, and reports only a failure of the
first. `use_invite` and `get_invite` read only the second.
-/
namespace TgCryptFs
open Library

section

variable [Primitives] [Postcard Invite] {metaKey : Bytes} {t t' : Invites} {id : String}

/-- The record under the id says revoked. -/
def Marked (metaKey : Bytes) (t : Invites) (id : String) : Prop :=
  ∃ invite, inviteRecord metaKey t id = some (.ok invite) ∧ invite.revoked = true

/-- Whatever is called from here on, short of giving the id out again, no use is granted and
    a read that succeeds reports the invite revoked. -/
def RevokedForGood (metaKey : Bytes) (t : Invites) (id : String) : Prop :=
  ∀ calls : List InviteCall, (∀ c ∈ calls, c.inserts id = false) →
    (∀ nonce now sql, (InviteCall.serve metaKey (InviteCall.after metaKey calls t)
      (.use nonce now id sql)).1.granted = false) ∧
    ∀ sql, sql.select = true → ∃ invite,
      SharingStore.getInvite metaKey id sql (InviteCall.after metaKey calls t) =
        .ok (some invite) ∧ invite.revoked = true

namespace Marked

theorem step (h : Marked metaKey t id) (hw : WellFormed metaKey t) {c : InviteCall}
    (hc : c.inserts id = false) : Marked metaKey (InviteCall.step metaKey c t) id := by
  obtain ⟨invite, hrecord, hrevoked⟩ := h
  rcases InviteCall.inviteRecord_step c t with he | ⟨written, hfrom, he⟩
  · exact ⟨invite, by rw [he, hrecord], hrevoked⟩
  · by_cases hid : id = written.inviteId
    · refine ⟨written, by rw [he, hid, Function.update_self], ?_⟩
      rcases hfrom with ⟨nonce, sql, rfl⟩ | ⟨read, hread, hkeep, hmark⟩
      · rw [InviteCall.inserts, decide_eq_false_iff_not] at hc
        exact absurd hid.symm hc
      · have htarget : c.target = id := by
          rw [hid, hkeep]
          exact (hw _ _ hread).symm
        rw [htarget, hrecord] at hread
        cases hread
        exact hmark hrevoked
    · exact ⟨invite, by rw [he, Function.update_of_ne hid, hrecord], hrevoked⟩

theorem run (h : Marked metaKey t id) (hw : WellFormed metaKey t) {calls : List InviteCall}
    (hcalls : ∀ c ∈ calls, c.inserts id = false) :
    Marked metaKey (InviteCall.after metaKey calls t) id := by
  induction calls generalizing t with
  | nil => exact h
  | cons c calls ih =>
    have hstep := h.step hw (hcalls c List.mem_cons_self)
    exact ih hstep (InviteCall.wellFormed_step hw) fun x hx => hcalls x (List.mem_cons_of_mem _ hx)

theorem not_granted (h : Marked metaKey t id) (nonce : Aead.Nonce) (now : ℤ) (sql : Sql) :
    (InviteCall.serve metaKey t (.use nonce now id sql)).1.granted = false := by
  obtain ⟨invite, hrecord, hrevoked⟩ := h
  rw [InviteCall.serve]
  split
  · rfl
  · rename_i found t' huse
    rcases SharingStore.useInvite_eq_ok huse with ⟨rfl, -⟩ | ⟨read, used, -, hget, hused, -⟩
    · rfl
    · have hread := (SharingStore.getInvite_eq_ok_some.1 hget).2
      rw [hrecord] at hread
      cases hread
      obtain ⟨hvalid, -⟩ := Invite.tryUse_ok.1 hused
      have hopen := (Invite.isValid_iff.1 hvalid).1
      rw [hrevoked] at hopen
      cases hopen

/-- A mark in the record is all that `RevokedForGood` asks for. -/
theorem iff_revokedForGood (hw : WellFormed metaKey t) :
    Marked metaKey t id ↔ RevokedForGood metaKey t id := by
  constructor
  · intro h calls hcalls
    have hlater := h.run hw hcalls
    refine ⟨hlater.not_granted, fun sql hs => ?_⟩
    obtain ⟨invite, hrecord, hrevoked⟩ := hlater
    exact ⟨invite, SharingStore.getInvite_of_record hs hrecord, hrevoked⟩
  · intro h
    obtain ⟨invite, hget, hrevoked⟩ := (h [] fun c hc => by cases hc).2 .working rfl
    exact ⟨invite, (SharingStore.getInvite_eq_ok_some.1 hget).2, hrevoked⟩

end Marked

/-- Of a revocation that is reported done: what the record says afterwards. -/
theorem marked_revokeInvite_iff (hw : WellFormed metaKey t) {invite : Invite}
    (hrecord : inviteRecord metaKey t id = some (.ok invite)) (nonce : Aead.Nonce) (sql : Sql) :
    (∀ t', SharingStore.revokeInvite metaKey nonce id sql t = .ok t' → Marked metaKey t' id) ↔
      sql.update = false ∨ invite.revoked = true ∨
        sql.select = true ∧ sql.insert = true ∧
          ∃ data, sealRecord metaKey nonce (inviteAad id) invite.revoke = some data := by
  have hid : invite.inviteId = id := hw _ _ hrecord
  have hinsert : ∀ t t', SharingStore.insertInvite metaKey nonce invite.revoke sql t = .ok t' →
      sql.insert = true ∧
        ∃ data, sealRecord metaKey nonce (inviteAad id) invite.revoke = some data := by
    intro t t' h
    obtain ⟨hi, data, hdata, -⟩ := SharingStore.insertInvite_eq_ok.1 h
    exact ⟨hi, data, hid ▸ hdata⟩
  constructor
  · intro h
    by_contra hfail
    simp only [not_or, not_and, Bool.not_eq_false] at hfail
    obtain ⟨hu, hopen, hwrite⟩ := hfail
    obtain ⟨t', ht', hkept⟩ := SharingStore.revokeInvite_misses hu (fun hs read hread t t' ht' => by
      rw [hrecord] at hread
      cases hread
      exact hwrite hs (hinsert t t' ht').1 (hinsert t t' ht').2)
    obtain ⟨read, hread, hrevoked⟩ := h t' ht'
    rw [hkept, hrecord] at hread
    cases hread
    exact hopen hrevoked
  · rintro (hu | hrevoked | ⟨hs, hi, data, hdata⟩) t' ht'
    · simp [SharingStore.revokeInvite, hu] at ht'
    · rcases SharingStore.revokeInvite_eq_ok ht' with he | ⟨read, hread, he⟩
      · exact ⟨invite, by rw [he, hrecord], hrevoked⟩
      · rw [hrecord] at hread
        cases hread
        exact ⟨invite.revoke, by rw [he, hid, Function.update_self], rfl⟩
    · have hu : sql.update = true := by
        by_contra hu
        simp [SharingStore.revokeInvite, hu] at ht'
      obtain ⟨t'', ht'', he⟩ := SharingStore.revokeInvite_marks hu hs hrecord fun t =>
        ⟨_, SharingStore.insertInvite_eq_ok.2 ⟨hi, data, by exact hid ▸ hdata, rfl⟩⟩
      rw [ht'] at ht''
      cases ht''
      exact ⟨invite.revoke, by rw [he, hid, Function.update_self], rfl⟩

/-- An existing invite is read. Its revocation holds whenever it is reported done, exactly when
    the first statement fails, or the invite was revoked before, or nothing fails at all. -/
theorem revocation_effective_iff (ht : ReachableInvites metaKey t) {row : InviteRow}
    (hrow : t.find id = some row) (nonce : Aead.Nonce) (sql : Sql) :
    ∃ invite, inviteRecord metaKey t id = some (.ok invite) ∧
      ((∀ t', SharingStore.revokeInvite metaKey nonce id sql t = .ok t' →
          RevokedForGood metaKey t' id) ↔
        sql.update = false ∨ invite.revoked = true ∨
          sql.select = true ∧ sql.insert = true ∧
            ∃ data, sealRecord metaKey nonce (inviteAad id) invite.revoke = some data) := by
  obtain ⟨invite, hrecord⟩ := ht.readable hrow
  have hw := ht.wellFormed
  refine ⟨invite, hrecord, ?_⟩
  rw [← marked_revokeInvite_iff hw hrecord nonce sql]
  refine forall_congr' fun t' => forall_congr' fun ht' => ?_
  have hw' : WellFormed metaKey t' := by
    have hstep := InviteCall.wellFormed_step (c := .revoke nonce id sql) hw
    rwa [InviteCall.step, InviteCall.serve, ht'] at hstep
  exact (Marked.iff_revokedForGood hw').symm

end

section
open scoped Sample

theorem Sample.insert_twoUses :
    ∃ t, SharingStore.insertInvite [] Sample.zeroNonce Sample.twoUses .working Table.empty = .ok t ∧
      ReachableInvites [] t ∧ StandsAt [] t Sample.twoUses 0 false := by
  obtain ⟨t, ht⟩ :=
    StandsAt.insertInvite_ok Sample.seals_twoUses Sample.zeroNonce Table.empty 0 false
  exact ⟨t, ht, ReachableInvites.insertInvite .start ht, .of_insertInvite ht⟩

/-- Where every statement works, the revocation takes. -/
theorem revocation_of_twoUses :
    ∃ t, SharingStore.insertInvite [] Sample.zeroNonce Sample.twoUses .working Table.empty = .ok t ∧
      ∀ t', SharingStore.revokeInvite [] Sample.zeroNonce "i" .working t = .ok t' →
        RevokedForGood [] t' "i" := by
  obtain ⟨t, ht, hreach, hstands⟩ := Sample.insert_twoUses
  obtain ⟨row, hrow, -⟩ := Option.map_eq_some_iff.1 hstands
  obtain ⟨invite, hrecord, hiff⟩ := revocation_effective_iff hreach hrow Sample.zeroNonce .working
  obtain rfl : Sample.twoUses = invite := Except.ok.inj (Option.some.inj (hstands.symm.trans hrecord))
  exact ⟨t, ht, hiff.2 (.inr (.inr ⟨rfl, rfl, Sample.seals_twoUses Sample.zeroNonce 0 true⟩))⟩

/-- The column is set, the record is not written: the revocation is reported done, a read
    does not report it, and the next use is granted. -/
theorem revocation_lost :
    ∃ t t', ReachableInvites [] t ∧ t.find "i" ≠ none ∧
      SharingStore.revokeInvite [] Sample.zeroNonce "i" ⟨true, true, false⟩ t = .ok t' ∧
      SharingStore.getInvite [] "i" .working t' = .ok (some Sample.twoUses) ∧
      Sample.twoUses.revoked = false ∧
      (InviteCall.serve [] t' (.use Sample.zeroNonce 7 "i" .working)).1.granted = true := by
  obtain ⟨t, -, hreach, hstands⟩ := Sample.insert_twoUses
  obtain ⟨row, hrow, -⟩ := Option.map_eq_some_iff.1 hstands
  have hfound : t.find "i" ≠ none := fun h => Option.some_ne_none row (hrow.symm.trans h)
  have hfail : ∀ t t', SharingStore.insertInvite [] Sample.zeroNonce Sample.twoUses.revoke
      ⟨true, true, false⟩ t ≠ .ok t' := by
    intro t t' h
    cases (SharingStore.insertInvite_eq_ok.1 h).1
  have hmisses : ∃ t', SharingStore.revokeInvite [] Sample.zeroNonce "i" ⟨true, true, false⟩ t =
      .ok t' ∧ inviteRecord [] t' = inviteRecord [] t := by
    refine SharingStore.revokeInvite_misses rfl fun _ read hread => ?_
    obtain rfl : Sample.twoUses = read := Except.ok.inj (Option.some.inj (hstands.symm.trans hread))
    exact hfail
  obtain ⟨t', ht', hkept⟩ := hmisses
  have hstands' : StandsAt [] t' Sample.twoUses 0 false := (congrFun hkept "i").trans hstands
  have hvalid : Sample.twoUses.isValid 7 = true := rfl
  exact ⟨t, t', hreach, hfound, ht', SharingStore.getInvite_of_record rfl hstands', rfl,
    (hstands'.use_valid Sample.seals_twoUses Sample.zeroNonce hvalid).1⟩

end
end TgCryptFs

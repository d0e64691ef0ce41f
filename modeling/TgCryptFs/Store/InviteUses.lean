import TgCryptFs.Store.InviteRecords
import TgCryptFs.Store.SampleRecords

set_option autoImplicit false

/-!
# How often an invite is used

Along any calls on a working store, the record of an invite is the one it was created
with, but for its count and its flag: the count is the number of uses granted so far, and
the flag says whether it was revoked.
-/
namespace TgCryptFs
open Library

def InviteReply.granted : InviteReply → Bool
  | .invite (some _) => true
  | _ => false

namespace InviteCall

def uses (id : String) : InviteCall → Bool
  | use _ _ inviteId _ => inviteId = id
  | _ => false

def revokes (id : String) : InviteCall → Bool
  | revoke _ inviteId _ => inviteId = id
  | _ => false

def inserts (id : String) : InviteCall → Bool
  | insert _ invite _ => invite.inviteId = id
  | _ => false

theorem target_of_uses {id : String} {c : InviteCall} (h : c.uses id = true) : c.target = id := by
  cases c with
  | use nonce now inviteId sql => exact of_decide_eq_true h
  | _ => cases h

theorem target_of_revokes {id : String} {c : InviteCall} (h : c.revokes id = true) :
    c.target = id := by
  cases c with
  | revoke nonce inviteId sql => exact of_decide_eq_true h
  | _ => cases h

/-- A use at a time when the invite has expired. -/
def Late (invite : Invite) : InviteCall → Prop
  | use _ now _ _ => invite.Expired now
  | _ => False

variable [Primitives] [Postcard Invite]

def after (metaKey : Bytes) (calls : List InviteCall) (t : Invites) : Invites :=
  Runs.runAll (step metaKey) calls t

/-- How many uses of the invite are granted. -/
def grants (metaKey : Bytes) (id : String) : List InviteCall → Invites → ℕ
  | [], _ => 0
  | c :: cs, t =>
    (if c.uses id && (serve metaKey t c).1.granted then 1 else 0) +
      grants metaKey id cs (step metaKey c t)

end InviteCall

section

variable [Primitives] [Postcard Invite] {metaKey : Bytes} {t : Invites} {invite : Invite}
  {useCount : UInt32} {revoked : Bool}

/-- The record of the invite, with another count and another flag. -/
def StandsAt (metaKey : Bytes) (t : Invites) (invite : Invite) (useCount : UInt32)
    (revoked : Bool) : Prop :=
  inviteRecord metaKey t invite.inviteId = some (.ok { invite with useCount, revoked })

namespace StandsAt

theorem of_insertInvite {nonce : Aead.Nonce} {sql : Sql} {t' : Invites}
    (h : SharingStore.insertInvite metaKey nonce { invite with useCount, revoked } sql t = .ok t') :
    StandsAt metaKey t' invite useCount revoked := by
  rw [StandsAt, SharingStore.inviteRecord_insertInvite h]
  exact Function.update_self ..

/-- On a working store the record can always be written again. -/
theorem insertInvite_ok (hseal : Seals metaKey invite) (nonce : Aead.Nonce) (t : Invites)
    (useCount : UInt32) (revoked : Bool) :
    ∃ t', SharingStore.insertInvite metaKey nonce { invite with useCount, revoked } .working t =
      .ok t' := by
  obtain ⟨data, hdata⟩ := hseal nonce useCount revoked
  exact ⟨_, SharingStore.insertInvite_eq_ok.2 ⟨rfl, data, hdata, rfl⟩⟩

theorem use_valid (h : StandsAt metaKey t invite useCount revoked) (hseal : Seals metaKey invite)
    (nonce : Aead.Nonce) {now : ℤ}
    (hvalid : ({ invite with useCount, revoked } : Invite).isValid now = true) :
    (InviteCall.serve metaKey t (.use nonce now invite.inviteId .working)).1.granted = true ∧
      StandsAt metaKey (InviteCall.step metaKey (.use nonce now invite.inviteId .working) t)
        invite (useCount + 1) revoked := by
  obtain ⟨t', ht'⟩ := insertInvite_ok hseal nonce t (useCount + 1) revoked
  have huse := SharingStore.useInvite_of_record (by rfl) h hvalid ht'
  rw [InviteCall.step, InviteCall.serve, huse]
  exact ⟨rfl, of_insertInvite ht'⟩

theorem use_invalid (h : StandsAt metaKey t invite useCount revoked) (nonce : Aead.Nonce) {now : ℤ}
    {sql : Sql} (hs : sql.select = true)
    (hinvalid : ({ invite with useCount, revoked } : Invite).isValid now = false) :
    InviteCall.serve metaKey t (.use nonce now invite.inviteId sql) = (.invite none, t) := by
  have hget := SharingStore.getInvite_of_record hs h
  have hused : ∃ e, Invite.tryUse { invite with useCount, revoked } now = .error e := by
    rw [Invite.tryUse, hinvalid]
    exact ⟨_, rfl⟩
  obtain ⟨e, he⟩ := hused
  have huse : SharingStore.useInvite metaKey nonce now invite.inviteId sql t = .ok (none, t) := by
    simp only [SharingStore.useInvite, hget, he]
  rw [InviteCall.serve, huse]

theorem revoke (h : StandsAt metaKey t invite useCount revoked) (hseal : Seals metaKey invite)
    (nonce : Aead.Nonce) :
    StandsAt metaKey (InviteCall.step metaKey (.revoke nonce invite.inviteId .working) t)
      invite useCount true := by
  have hsql : Sql.working.update = true ∧ Sql.working.select = true := ⟨rfl, rfl⟩
  obtain ⟨t', ht', hrecord⟩ := SharingStore.revokeInvite_marks hsql.1 hsql.2 h fun t =>
    insertInvite_ok hseal nonce t useCount true
  rw [InviteCall.step, InviteCall.serve, ht', StandsAt, hrecord]
  exact Function.update_self ..

end StandsAt

/-- A call in a run on a working store that creates no second invite under the id. -/
def Ordinary (invite : Invite) (c : InviteCall) : Prop :=
  c.sql = .working ∧ c.inserts invite.inviteId = false

/-- One call: the count goes up with a granted use, the flag with a revocation, and a use
    that comes in time is granted below the limit. -/
structure Steps (metaKey : Bytes) (t : Invites) (invite : Invite) (useCount : UInt32)
    (revoked : Bool) (c : InviteCall) (useCount' : UInt32) : Prop where
  stands : StandsAt metaKey (InviteCall.step metaKey c t) invite useCount'
    (revoked || c.revokes invite.inviteId)
  le : useCount' ≤ invite.maxUses
  count : useCount'.toNat = useCount.toNat +
    (if c.uses invite.inviteId && (InviteCall.serve metaKey t c).1.granted then 1 else 0)
  granted : revoked = false → c.uses invite.inviteId = true → ¬ c.Late invite →
    (InviteCall.serve metaKey t c).1.granted = decide (useCount < invite.maxUses)

namespace Steps

theorem useValid (h : StandsAt metaKey t invite useCount revoked) (hseal : Seals metaKey invite)
    (hmax : 0 < invite.maxUses) (nonce : Aead.Nonce) {now : ℤ}
    (hvalid : ({ invite with useCount, revoked } : Invite).isValid now = true) :
    Steps metaKey t invite useCount revoked (.use nonce now invite.inviteId .working)
      (useCount + 1) := by
  obtain ⟨hgranted, hstands⟩ := h.use_valid hseal nonce hvalid
  obtain ⟨-, hused, -⟩ := Invite.isValid_iff.1 hvalid
  have hlt : useCount < invite.maxUses := by
    rw [← UInt32.not_le]
    exact fun hge => hused ⟨hmax, hge⟩
  have hltNat := UInt32.lt_iff_toNat_lt.1 hlt
  have hcount : (useCount + 1).toNat = useCount.toNat + 1 := by
    have := invite.maxUses.toNat_lt
    exact (toNat_succ_eq_iff useCount).2 (by omega)
  have huses : InviteCall.uses invite.inviteId (.use nonce now invite.inviteId .working) = true :=
    decide_eq_true rfl
  constructor
  · rw [show InviteCall.revokes invite.inviteId _ = false from rfl, Bool.or_false]
    exact hstands
  · rw [UInt32.le_iff_toNat_le, hcount]
    exact hltNat
  · rw [huses, hgranted, hcount]
    rfl
  · intro _ _ _
    rw [hgranted, decide_eq_true hlt]

theorem useInvalid (h : StandsAt metaKey t invite useCount revoked) (hle : useCount ≤ invite.maxUses)
    (nonce : Aead.Nonce) {now : ℤ}
    (hinvalid : ({ invite with useCount, revoked } : Invite).isValid now = false) :
    Steps metaKey t invite useCount revoked (.use nonce now invite.inviteId .working) useCount := by
  have hserve : InviteCall.serve metaKey t (.use nonce now invite.inviteId .working) =
      (.invite none, t) := h.use_invalid nonce rfl hinvalid
  constructor
  · rw [show InviteCall.revokes invite.inviteId _ = false from rfl, Bool.or_false,
      InviteCall.step, hserve]
    exact h
  · exact hle
  · have hrefused : (InviteReply.invite none).granted = false := rfl
    rw [hserve, hrefused, Bool.and_false]
    rfl
  · intro hrev _ hlate
    subst hrev
    have hused : ¬ useCount < invite.maxUses := by
      intro hlt
      have hvalid : ({ invite with useCount, revoked := false } : Invite).isValid now = true :=
        Invite.isValid_iff.2 ⟨rfl, fun hu => UInt32.not_le.2 hlt hu.2, hlate⟩
      rw [hvalid] at hinvalid
      cases hinvalid
    rw [hserve, decide_eq_false hused]
    rfl

theorem get (h : StandsAt metaKey t invite useCount revoked) (hle : useCount ≤ invite.maxUses)
    (id : String) (sql : Sql) :
    Steps metaKey t invite useCount revoked (.get id sql) useCount := by
  have hkeep : InviteCall.step metaKey (.get id sql) t = t := by
    rw [InviteCall.step, InviteCall.serve]
    split <;> rfl
  refine ⟨?_, hle, rfl, fun _ hu => by cases hu⟩
  rw [show InviteCall.revokes invite.inviteId _ = false from rfl, Bool.or_false, hkeep]
  exact h

theorem revoke (h : StandsAt metaKey t invite useCount revoked) (hseal : Seals metaKey invite)
    (hle : useCount ≤ invite.maxUses) (nonce : Aead.Nonce) :
    Steps metaKey t invite useCount revoked (.revoke nonce invite.inviteId .working) useCount := by
  have hrevokes : InviteCall.revokes invite.inviteId (.revoke nonce invite.inviteId .working) =
      true := decide_eq_true rfl
  refine ⟨?_, hle, rfl, fun _ hu => by cases hu⟩
  rw [hrevokes, Bool.or_true]
  exact h.revoke hseal nonce

theorem other (hw : WellFormed metaKey t) (h : StandsAt metaKey t invite useCount revoked)
    (hle : useCount ≤ invite.maxUses) {c : InviteCall} (htarget : invite.inviteId ≠ c.target) :
    Steps metaKey t invite useCount revoked c useCount := by
  have hrevokes : c.revokes invite.inviteId = false := by
    rw [← Bool.not_eq_true]
    exact fun hr => htarget (InviteCall.target_of_revokes hr).symm
  have huses : c.uses invite.inviteId = false := by
    rw [← Bool.not_eq_true]
    exact fun hu => htarget (InviteCall.target_of_uses hu).symm
  constructor
  · rw [hrevokes, Bool.or_false, StandsAt, InviteCall.inviteRecord_other hw htarget]
    exact h
  · exact hle
  · rw [huses]
    rfl
  · intro _ hu
    rw [huses] at hu
    cases hu

end Steps

theorem StandsAt.step (hw : WellFormed metaKey t) (h : StandsAt metaKey t invite useCount revoked)
    (hseal : Seals metaKey invite) (hmax : 0 < invite.maxUses) (hle : useCount ≤ invite.maxUses)
    {c : InviteCall} (hc : Ordinary invite c) :
    ∃ useCount', Steps metaKey t invite useCount revoked c useCount' := by
  by_cases htarget : invite.inviteId = c.target
  · obtain ⟨hsql, hinserts⟩ := hc
    cases c with
    | insert nonce other sql =>
      have hother : ¬ other.inviteId = invite.inviteId := of_decide_eq_false hinserts
      exact absurd htarget.symm hother
    | use nonce now id sql =>
      obtain rfl : invite.inviteId = id := htarget
      obtain rfl : sql = .working := hsql
      cases hvalid : ({ invite with useCount, revoked } : Invite).isValid now with
      | true => exact ⟨_, .useValid h hseal hmax nonce hvalid⟩
      | false => exact ⟨_, .useInvalid h hle nonce hvalid⟩
    | get id sql => exact ⟨_, .get h hle id sql⟩
    | revoke nonce id sql =>
      obtain rfl : invite.inviteId = id := htarget
      obtain rfl : sql = .working := hsql
      exact ⟨_, .revoke h hseal hle nonce⟩
  · exact ⟨_, .other hw h hle htarget⟩

/-- A whole run: the count is the uses granted, the flag tells of a revocation, and as long
    as nothing else refuses them, uses are granted up to the limit. -/
theorem StandsAt.run (hw : WellFormed metaKey t) (h : StandsAt metaKey t invite useCount revoked)
    (hseal : Seals metaKey invite) (hmax : 0 < invite.maxUses) (hle : useCount ≤ invite.maxUses)
    {calls : List InviteCall} (hcalls : ∀ c ∈ calls, Ordinary invite c) :
    WellFormed metaKey (InviteCall.after metaKey calls t) ∧
    ∃ useCount', StandsAt metaKey (InviteCall.after metaKey calls t) invite useCount'
        (revoked || calls.any (InviteCall.revokes invite.inviteId)) ∧
      useCount' ≤ invite.maxUses ∧
      useCount'.toNat = useCount.toNat + InviteCall.grants metaKey invite.inviteId calls t ∧
      (revoked = false →
        (∀ c ∈ calls, c.revokes invite.inviteId = false ∧ ¬ c.Late invite) →
        InviteCall.grants metaKey invite.inviteId calls t =
          min (invite.maxUses.toNat - useCount.toNat)
            (calls.countP (InviteCall.uses invite.inviteId))) := by
  induction calls generalizing t useCount revoked with
  | nil =>
    refine ⟨hw, useCount, ?_, hle, rfl, fun _ _ => ?_⟩
    · rw [List.any_nil, Bool.or_false]
      exact h
    · rw [List.countP_nil, Nat.min_zero]
      rfl
  | cons c calls ih =>
    obtain ⟨count₁, hstep⟩ := h.step hw hseal hmax hle (hcalls c List.mem_cons_self)
    obtain ⟨hw', count₂, h₂, hle₂, hcount₂, hgrant₂⟩ :=
      ih (InviteCall.wellFormed_step hw) hstep.stands hstep.le fun x hx =>
        hcalls x (List.mem_cons_of_mem _ hx)
    have hafter : InviteCall.after metaKey (c :: calls) t =
        InviteCall.after metaKey calls (InviteCall.step metaKey c t) := rfl
    rw [hafter]
    refine ⟨hw', count₂, ?_, hle₂, ?_, fun hrev hquiet => ?_⟩
    · rw [List.any_cons, ← Bool.or_assoc]
      exact h₂
    · rw [InviteCall.grants, hcount₂, hstep.count, Nat.add_assoc]
    · obtain ⟨hrevokes, hlate⟩ := hquiet c List.mem_cons_self
      have hrest := hgrant₂ (by rw [hrev, hrevokes]; rfl)
        fun x hx => hquiet x (List.mem_cons_of_mem _ hx)
      have hcount := hstep.count
      rw [InviteCall.grants, hrest, List.countP_cons]
      cases huses : c.uses invite.inviteId with
      | false =>
        rw [huses, Bool.false_and, if_neg Bool.false_ne_true] at hcount
        rw [Bool.false_and, if_neg Bool.false_ne_true, hcount]
        omega
      | true =>
        rw [huses, Bool.true_and, hstep.granted hrev huses hlate] at hcount
        rw [Bool.true_and, hstep.granted hrev huses hlate, if_pos rfl]
        simp only [decide_eq_true_eq, UInt32.lt_iff_toNat_lt] at hcount ⊢
        by_cases hlt : useCount.toNat < invite.maxUses.toNat
        · rw [if_pos hlt] at hcount ⊢
          omega
        · rw [if_neg hlt] at hcount ⊢
          omega

/-- Of an invite with a limit, created and inserted into any table and then used, read and
    revoked in any order among calls on other invites. -/
theorem invite_uses_bounded {t₁ : Invites} (ht : ReachableInvites metaKey t)
    (uuid volumeId createdBy : String) (createdAt expiresAt : ℤ) (accessLevel : AccessLevel)
    (maxUses : UInt32) (hmax : 0 < maxUses)
    (hseal : Seals metaKey (.new uuid createdAt volumeId createdBy accessLevel expiresAt maxUses))
    (nonce : Aead.Nonce)
    (hinsert : SharingStore.insertInvite metaKey nonce
      (.new uuid createdAt volumeId createdBy accessLevel expiresAt maxUses) .working t = .ok t₁)
    (calls : List InviteCall)
    (hcalls : ∀ c ∈ calls,
      Ordinary (.new uuid createdAt volumeId createdBy accessLevel expiresAt maxUses) c) :
    InviteCall.grants metaKey uuid calls t₁ ≤ maxUses.toNat ∧
    ((∀ c ∈ calls, c.revokes uuid = false ∧
        ¬ c.Late (.new uuid createdAt volumeId createdBy accessLevel expiresAt maxUses)) →
      InviteCall.grants metaKey uuid calls t₁ =
        min maxUses.toNat (calls.countP (InviteCall.uses uuid))) ∧
    (∀ nonce now, (∃ c ∈ calls, c.revokes uuid = true) ∨ 0 < expiresAt ∧ expiresAt < now →
      (InviteCall.serve metaKey (InviteCall.after metaKey calls t₁)
        (.use nonce now uuid .working)).1 = .invite none) ∧
    (∀ (c : InviteCall) (other : String), other ≠ c.target →
      inviteRecord metaKey (InviteCall.step metaKey c (InviteCall.after metaKey calls t₁)) other =
        inviteRecord metaKey (InviteCall.after metaKey calls t₁) other) := by
  generalize hnew :
    Invite.new uuid createdAt volumeId createdBy accessLevel expiresAt maxUses = invite at *
  have hid : invite.inviteId = uuid := hnew ▸ rfl
  have hlimit : invite.maxUses = maxUses := hnew ▸ rfl
  have hexpires : invite.expiresAt = expiresAt := hnew ▸ rfl
  have hfresh : invite = { invite with useCount := 0, revoked := false } := hnew ▸ rfl
  subst hid hlimit hexpires
  have hw₁ : WellFormed metaKey t₁ := by
    have := InviteCall.wellFormed_step (c := .insert nonce invite .working) ht.wellFormed
    rwa [InviteCall.step, InviteCall.serve, hinsert] at this
  have h₁ : StandsAt metaKey t₁ invite 0 false :=
    .of_insertInvite (hfresh ▸ hinsert)
  obtain ⟨hw, count, hstands, hle, hcount, hquiet⟩ :=
    h₁.run hw₁ hseal hmax (UInt32.le_iff_toNat_le.2 (Nat.zero_le _)) hcalls
  rw [UInt32.toNat_zero, Nat.zero_add] at hcount
  refine ⟨?_, fun h => ?_, fun nonce now h => ?_, fun c other hne => ?_⟩
  · rw [← hcount]
    exact UInt32.le_iff_toNat_le.1 hle
  · exact hquiet rfl h
  · have hinvalid : Invite.isValid { invite with
        useCount := count
        revoked := false || calls.any (InviteCall.revokes invite.inviteId) } now = false := by
      rw [← Bool.not_eq_true, Invite.isValid_iff]
      rintro ⟨hrev, -, hexp⟩
      rcases h with ⟨c, hc, hr⟩ | h
      · have : calls.any (InviteCall.revokes invite.inviteId) = true := List.any_eq_true.2 ⟨c, hc, hr⟩
        rw [Bool.false_or] at hrev
        rw [this] at hrev
        cases hrev
      · exact hexp h
    rw [hstands.use_invalid nonce rfl hinvalid]
  · exact InviteCall.inviteRecord_other hw hne

end

section
open scoped Sample

/-- An invite for two uses, without an expiry. -/
def Sample.twoUses : Invite := .new "i" 0 "v" "o" .readOnly 0 2

theorem Sample.seals_twoUses : Seals [] Sample.twoUses := by
  intro nonce useCount revoked
  have hlength : (Sample.frames (Sample.Fields.fields
      ({ Sample.twoUses with useCount, revoked } : Invite))).length < 256 ^ 16 := by
    simp only [Sample.frames, Sample.Fields.fields, List.flatMap_cons, List.flatMap_nil,
      List.length_append, Sample.length_frame, Sample.length_wordBytes, Sample.length_boolByte]
    decide
  exact Sample.sealRecord_some hlength [] nonce _

/-- Of three uses, two are granted. -/
theorem third_use_refused :
    ∃ t, SharingStore.insertInvite [] Sample.zeroNonce Sample.twoUses .working Table.empty = .ok t ∧
      InviteCall.grants [] "i" (List.replicate 3 (.use Sample.zeroNonce 7 "i" .working)) t = 2 := by
  obtain ⟨t, ht⟩ :=
    StandsAt.insertInvite_ok Sample.seals_twoUses Sample.zeroNonce Table.empty 0 false
  have hordinary : ∀ c ∈ List.replicate 3 (InviteCall.use Sample.zeroNonce 7 "i" .working),
      Ordinary Sample.twoUses c ∧ c.revokes "i" = false ∧ ¬ c.Late Sample.twoUses := by
    intro c hc
    obtain rfl := List.eq_of_mem_replicate hc
    exact ⟨⟨rfl, rfl⟩, rfl, fun hlate => absurd hlate.1 (by decide)⟩
  have hgrants := (invite_uses_bounded .start "i" "v" "o" 0 0 .readOnly 2 (by decide)
    Sample.seals_twoUses Sample.zeroNonce ht _ fun c hc => (hordinary c hc).1).2.1
    fun c hc => (hordinary c hc).2
  exact ⟨t, ht, hgrants⟩

end

end TgCryptFs

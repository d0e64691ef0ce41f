import TgCryptFs.Api.AcceptInvite
import TgCryptFs.Api.Handlers
import TgCryptFs.Cli.Sharing

set_option autoImplicit false

/-!
# The limits of an invite, asked and stored

0 stores as no limit, so a request that is not understood must not become a 0.
-/
namespace TgCryptFs
open Library

/-- The field is left out, or it is a number and the limit is that number. -/
def MaxUsesAsAsked (field : Option Json) (stored : UInt32) : Prop :=
  match field with
  | none => stored = 0
  | some (.number n) => n.value = stored.toNat
  | some _ => False

/-- The field is left out, or it is a number and the expiry is that number, not before 0. -/
def ExpiryAsAsked (field : Option Json) (stored : ℤ) : Prop :=
  match field with
  | none => stored = 0
  | some (.number n) => n.value = stored ∧ 0 ≤ stored
  | some _ => False

/-- Left out, an integer of fewer than `bits` bits, or a float that is 0. -/
def Fits (bits : ℕ) (field : Option Json) : Prop :=
  match field with
  | none => True
  | some (.number (.posInt n)) => n.toNat < 2 ^ bits
  | some (.number (.float x)) => x = 0
  | some _ => False

theorem maxUsesAsAsked_iff (body : Json) :
    MaxUsesAsAsked (body.get "max_uses") (Handlers.maxUses body) ↔ Fits 32 (body.get "max_uses") := by
  unfold Handlers.maxUses
  cases body.get "max_uses" with
  | none => exact iff_of_true rfl trivial
  | some v =>
    cases v with
    | number n =>
      cases n with
      | posInt n =>
        change ((n.toNat : ℚ) = (n.toUInt32.toNat : ℚ)) ↔ n.toNat < 2 ^ 32
        rw [Nat.cast_inj, UInt64.toNat_toUInt32]
        omega
      | negInt n h =>
        change ((n : ℚ) = (0 : UInt32).toNat) ↔ False
        rw [UInt32.toNat_zero, Nat.cast_zero, Int.cast_eq_zero]
        exact iff_of_false (by omega) id
      | float x =>
        change (x = (0 : UInt32).toNat) ↔ x = 0
        rw [UInt32.toNat_zero, Nat.cast_zero]
    | _ => exact Iff.rfl

theorem expiryAsAsked_iff (body : Json) :
    ExpiryAsAsked (body.get "expires_at") (Handlers.expiresAt body) ↔
      Fits 63 (body.get "expires_at") := by
  unfold Handlers.expiresAt
  cases body.get "expires_at" with
  | none => exact iff_of_true rfl trivial
  | some v =>
    cases v with
    | number n =>
      cases n with
      | posInt n =>
        change ((n.toNat : ℚ) = ((if n.toNat < 2 ^ 63 then some (n.toNat : ℤ) else none).getD 0 : ℤ) ∧
          0 ≤ (if n.toNat < 2 ^ 63 then some (n.toNat : ℤ) else none).getD 0) ↔ n.toNat < 2 ^ 63
        by_cases hn : n.toNat < 2 ^ 63
        · rw [if_pos hn]
          exact iff_of_true ⟨(Int.cast_natCast _).symm, Int.natCast_nonneg _⟩ hn
        · rw [if_neg hn, Option.getD_none, Int.cast_zero, Nat.cast_eq_zero]
          exact iff_of_false (fun h => by omega) hn
      | negInt n h =>
        change ((n : ℚ) = (n : ℤ) ∧ 0 ≤ n) ↔ False
        exact iff_of_false (fun hn => by omega) id
      | float x =>
        change (x = ((0 : ℤ) : ℚ) ∧ (0 : ℤ) ≤ 0) ↔ x = 0
        rw [Int.cast_zero]
        exact and_iff_left (Int.le_refl 0)
    | _ => exact Iff.rfl

theorem wrapI64_hours (secs h : UInt64) :
    wrapI64 (wrapI64 secs.toNat + wrapI64 (wrapI64 h.toNat * 3600)) =
        (secs.toNat + 3600 * h.toNat : ℤ) ↔
      secs.toNat + 3600 * h.toNat < 2 ^ 63 := by
  have hwrap : wrapI64 (wrapI64 secs.toNat + wrapI64 (wrapI64 h.toNat * 3600)) =
      (secs.toNat + 3600 * h.toNat : ℤ).bmod (2 ^ 64) := by
    unfold wrapI64
    rw [Int.bmod_add_bmod, Int.bmod_mul_bmod, Int.add_bmod_bmod, Int.mul_comm]
  have hs := secs.toNat_lt
  have hh := h.toNat_lt
  rw [hwrap, Int.bmod_eq_iff (by decide)]
  omega

/-- Hours from now that the expiry does not overflow. -/
def HoursFit (secs : Option UInt64) (expiresHours : Option UInt64) : Prop :=
  ∀ s ∈ secs, ∀ h ∈ expiresHours, s.toNat + 3600 * h.toNat < 2 ^ 63

/-- No hours and no expiry, or as many hours after the time of the request. -/
def HoursAsAsked (secs : Option UInt64) (expiresHours : Option UInt64) (stored : ℤ) : Prop :=
  match expiresHours with
  | none => stored = 0
  | some h => ∃ s, secs = some s ∧ stored = s.toNat + 3600 * h.toNat

theorem hoursAsAsked_some (s h : UInt64) (stored : ℤ) :
    HoursAsAsked (some s) (some h) stored ↔ stored = s.toNat + 3600 * h.toNat := by
  constructor
  · rintro ⟨s', hs', hstored⟩
    cases hs'
    exact hstored
  · exact fun hstored => ⟨s, rfl, hstored⟩

theorem hoursFit_some (s h : UInt64) :
    HoursFit (some s) (some h) ↔ s.toNat + 3600 * h.toNat < 2 ^ 63 := by
  constructor
  · exact fun hfit => hfit s rfl h rfl
  · intro hlt s' hs' h' hh'
    cases hs'
    cases hh'
    exact hlt

theorem hoursAsAsked_iff {secs expiresHours : Option UInt64} {expires : ℤ}
    (h : Cli.expiresAt expiresHours secs = .ok expires) :
    HoursAsAsked secs expiresHours expires ↔ HoursFit secs expiresHours := by
  unfold Cli.expiresAt at h
  cases expiresHours with
  | none =>
    cases h
    exact iff_of_true rfl fun _ _ _ hnone => by cases hnone
  | some hours =>
    cases secs with
    | none => cases h
    | some s =>
      obtain rfl := Except.ok.inj h
      exact (hoursAsAsked_some s hours _).trans
        ((wrapI64_hours s hours).trans (hoursFit_some s hours).symm)

section

variable [Primitives] [Postcard Invite]

theorem Cli.createInvite_ok {opened : Option OpenedDb} {access id : String}
    {maxUses : Option UInt32} {expiresHours : Option UInt64} {env : InviteEnv} {invites : Invites}
    (h : createInvite opened access maxUses expiresHours env = .ok (id, invites)) :
    ∃ volume expires invite, opened = some volume ∧
      expiresAt expiresHours env.secs = .ok expires ∧
      inviteRecord volume.metaKey invites id = some (.ok invite) ∧
      invite.maxUses = maxUses.getD 0 ∧ invite.expiresAt = expires := by
  unfold createInvite at h
  split at h
  · cases h
  · split at h
    · cases h
    · rename_i volume
      split at h
      · cases h
      · rename_i expires hexpires
        dsimp only at h
        split at h
        · cases h
        · rename_i invites' hinsert
          have hrecord := congrFun (SharingStore.inviteRecord_insertInvite hinsert) env.uuid
          cases h
          exact ⟨volume, expires, _, rfl, hexpires,
            hrecord.trans (Function.update_self env.uuid _ _), rfl, rfl⟩

/-- The limits stored are the limits asked: over REST exactly for numbers that fit, on the
    command line for every number of uses and exactly for the hours that do not overflow. -/
theorem invite_limits_iff :
    (∀ (sessions : String → Option VolumeSession) (body : Json) (env : Handlers.CreateEnv)
        (db db' : SharingDb) (answer : Invite),
      Handlers.createInvite sessions body env db = (.ok answer, db') →
        ∃ volumeId session invite, body.get "volume_id" = some (.string volumeId) ∧
          sessions volumeId = some session ∧
          inviteRecord session.metaKey db'.invites answer.inviteId = some (.ok invite) ∧
          (MaxUsesAsAsked (body.get "max_uses") invite.maxUses ↔ Fits 32 (body.get "max_uses")) ∧
          (ExpiryAsAsked (body.get "expires_at") invite.expiresAt ↔
            Fits 63 (body.get "expires_at"))) ∧
    (∀ (opened : Option Cli.OpenedDb) (access id : String) (maxUses : Option UInt32)
        (expiresHours : Option UInt64) (env : Cli.InviteEnv) (invites : Invites),
      Cli.createInvite opened access maxUses expiresHours env = .ok (id, invites) →
        ∃ volume invite, opened = some volume ∧
          inviteRecord volume.metaKey invites id = some (.ok invite) ∧
          invite.maxUses = maxUses.getD 0 ∧
          (HoursAsAsked env.secs expiresHours invite.expiresAt ↔
            HoursFit env.secs expiresHours)) := by
  constructor
  · intro sessions body env db db' answer h
    obtain ⟨volumeId, session, hvolume, hsession, hrecord, hmax, hexpires⟩ :=
      Handlers.createInvite_ok h
    refine ⟨volumeId, session, answer, hvolume, hsession, hrecord, ?_, ?_⟩
    · rw [hmax]
      exact maxUsesAsAsked_iff body
    · rw [hexpires]
      exact expiryAsAsked_iff body
  · intro opened access id maxUses expiresHours env invites h
    obtain ⟨volume, expires, invite, hopened, hexpires, hrecord, hmax, rfl⟩ := Cli.createInvite_ok h
    exact ⟨volume, invite, hopened, hrecord, hmax, hoursAsAsked_iff hexpires⟩

end

section
open scoped Sample

def Sample.sessions (volumeId : String) : Option VolumeSession :=
  if volumeId = "v" then some Sample.session else none

/-- A request for an invite with a number of uses and no expiry. -/
def Sample.inviteBody (maxUses : UInt64) : Json :=
  .object [("volume_id", .string "v"), ("max_uses", .number (.posInt maxUses))]

def Sample.createEnv : Handlers.CreateEnv := ⟨false, "i", 0, Sample.zeroNonce, .working⟩

theorem Sample.createInvite_ok (maxUses : UInt64) :
    ∃ db', Handlers.createInvite Sample.sessions (Sample.inviteBody maxUses) Sample.createEnv
        ⟨Table.empty, Table.empty⟩ =
      (.ok (.new "i" 0 "v" "api" .readOnly 0 maxUses.toUInt32), db') := by
  have hlength : (Sample.frames (Sample.Fields.fields
      (Invite.new "i" 0 "v" "api" .readOnly 0 maxUses.toUInt32))).length < 256 ^ 16 := by
    simp only [Invite.new, Sample.frames, Sample.Fields.fields, List.flatMap_cons, List.flatMap_nil,
      List.length_append, Sample.length_frame, Sample.length_wordBytes, Sample.length_boolByte]
    decide
  obtain ⟨data, hdata⟩ := Sample.sealRecord_some hlength [] Sample.zeroNonce (inviteAad "i")
  have hinsert : ∃ t, SharingStore.insertInvite Sample.session.metaKey Sample.zeroNonce
      (Invite.new "i" 0 "v" "api" .readOnly 0 maxUses.toUInt32) .working Table.empty = .ok t :=
    ⟨_, SharingStore.insertInvite_eq_ok.2 ⟨rfl, data, hdata, rfl⟩⟩
  obtain ⟨t, ht⟩ := hinsert
  have hhandler : Handlers.createInvite Sample.sessions (Sample.inviteBody maxUses) Sample.createEnv
      ⟨Table.empty, Table.empty⟩ =
      SharingService.createInvite Sample.session .readOnly maxUses.toUInt32 0 false "i" 0
        Sample.zeroNonce .working ⟨Table.empty, Table.empty⟩ := rfl
  refine ⟨⟨Table.empty, t⟩, ?_⟩
  rw [hhandler, SharingService.createInvite]
  dsimp only
  rw [if_neg Bool.false_ne_true]
  have hvolume : Sample.session.volumeId = "v" := rfl
  rw [hvolume, ht]

/-- Five uses asked, five uses stored. -/
theorem five_uses_stored :
    ∃ db' invite, Handlers.createInvite Sample.sessions (Sample.inviteBody 5) Sample.createEnv
        ⟨Table.empty, Table.empty⟩ = (.ok invite, db') ∧
      ∃ stored, inviteRecord Sample.session.metaKey db'.invites invite.inviteId =
          some (.ok stored) ∧
        MaxUsesAsAsked (some (.number (.posInt 5))) stored.maxUses := by
  obtain ⟨db', hok⟩ := Sample.createInvite_ok 5
  obtain ⟨volumeId, session, stored, hvolume, hsession, hrecord, hmax, -⟩ :=
    invite_limits_iff.1 _ _ _ _ _ _ hok
  obtain rfl : "v" = volumeId := Json.string.inj (Option.some.inj hvolume)
  obtain rfl : Sample.session = session := Option.some.inj hsession
  have hfits : (5 : UInt64).toNat < 2 ^ 32 := by decide
  exact ⟨db', _, hok, stored, hrecord, hmax.2 hfits⟩

/-- Asked for 2 ^ 32 uses, the invite is stored without a limit. -/
theorem limit_lost :
    ∃ db' invite, Handlers.createInvite Sample.sessions (Sample.inviteBody 4294967296)
        Sample.createEnv ⟨Table.empty, Table.empty⟩ = (.ok invite, db') ∧
      inviteRecord Sample.session.metaKey db'.invites invite.inviteId = some (.ok invite) ∧
      invite.maxUses = 0 ∧ ¬ MaxUsesAsAsked (some (.number (.posInt 4294967296))) invite.maxUses := by
  obtain ⟨db', hok⟩ := Sample.createInvite_ok 4294967296
  obtain ⟨volumeId, session, hvolume, hsession, hrecord, hmax, -⟩ := Handlers.createInvite_ok hok
  obtain rfl : "v" = volumeId := Json.string.inj (Option.some.inj hvolume)
  obtain rfl : Sample.session = session := Option.some.inj hsession
  refine ⟨db', _, hok, hrecord, rfl, fun hasked => ?_⟩
  exact absurd ((maxUsesAsAsked_iff (Sample.inviteBody 4294967296)).1 hasked) (lt_irrefl 4294967296)

end
end TgCryptFs

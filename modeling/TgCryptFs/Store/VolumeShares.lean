import TgCryptFs.Store.OpenedRows
import TgCryptFs.Store.SampleRecords

set_option autoImplicit false

/-!
# The shares of several volumes

The history of a user's shares is kept here for every volume. The table has one row for each
user, and that row is on the volume of the last share.
-/
namespace TgCryptFs
open Library

inductive ShareCall where
  | insert (nonce : Aead.Nonce) (volumeId : String) (share : ShareRecord) (sql : Sql)
  | revoke (userId : String) (sql : Sql)

/-- For each volume and user the latest record inserted, if it was not revoked since. -/
abbrev ShareLedger := String → String → Option ShareRecord

namespace ShareLedger

def record (l : ShareLedger) (volumeId : String) (share : ShareRecord) : ShareLedger :=
  Function.update l volumeId (Function.update (l volumeId) share.userId (some share))

def strike (l : ShareLedger) (userId : String) : ShareLedger :=
  fun volumeId => Function.update (l volumeId) userId none

/-- The user has an active share of the volume. -/
def Live (l : ShareLedger) (volumeId userId : String) : Prop :=
  ∃ share, l volumeId userId = some share ∧ share.active = true

variable {l : ShareLedger} {volumeId other userId : String} {share : ShareRecord}

theorem record_self : l.record volumeId share volumeId share.userId = some share := by
  rw [record, Function.update_self, Function.update_self]

theorem record_other_user (h : userId ≠ share.userId) :
    l.record volumeId share other userId = l other userId := by
  unfold record
  rw [Function.update_apply]
  split
  · rename_i he
    rw [Function.update_of_ne h, he]
  · rfl

theorem record_other_volume (h : other ≠ volumeId) :
    l.record volumeId share other userId = l other userId := by
  rw [record, Function.update_of_ne h]

theorem strike_self : l.strike userId volumeId userId = none := Function.update_self ..

theorem strike_other {user : String} (h : user ≠ userId) :
    l.strike userId volumeId user = l volumeId user := Function.update_of_ne h ..

end ShareLedger

namespace ShareCall

def enter (l : ShareLedger) : ShareCall → ShareLedger
  | insert _ volumeId share _ => l.record volumeId share
  | revoke userId _ => l.strike userId

variable [Primitives] [Postcard ShareRecord]

def serve (metaKey : Bytes) (t : Shares) : ShareCall → Except RowError Shares
  | insert nonce volumeId share sql => SharingStore.insertShare metaKey nonce volumeId share sql t
  | revoke userId sql => SharingStore.revokeShare userId sql t

/-- The table and the ledger: a call that fails is not entered. -/
def step (metaKey : Bytes) (c : ShareCall) (s : Shares × ShareLedger) : Shares × ShareLedger :=
  match c.serve metaKey s.1 with
  | .ok t => (t, c.enter s.2)
  | .error _ => s

def start : Shares × ShareLedger := (.empty, fun _ _ => none)

/-- The share that the call is about is not one of the volume. -/
def Elsewhere (volumeId : String) (l : ShareLedger) : ShareCall → Prop
  | insert _ other _ _ => other ≠ volumeId
  | revoke userId _ => ¬ l.Live volumeId userId

/-- The call leaves the listing of every volume but its own. -/
def LeavesOthers (metaKey : Bytes) (c : ShareCall) (s : Shares × ShareLedger) : Prop :=
  ∀ volumeId, c.Elsewhere volumeId s.2 →
    SharingStore.listShares metaKey volumeId .working (c.step metaKey s).1 =
      SharingStore.listShares metaKey volumeId .working s.1

/-- A share goes to a user who has no active share of another volume. -/
def OneVolume (metaKey : Bytes) (c : ShareCall) (s : Shares × ShareLedger) : Prop :=
  match c with
  | insert _ volumeId share _ => (∃ t, c.serve metaKey s.1 = .ok t) →
      ∀ other, other ≠ volumeId → ¬ s.2.Live other share.userId
  | revoke _ _ => True

end ShareCall

section

variable [Primitives] [Postcard ShareRecord] {metaKey : Bytes} {s : Shares × ShareLedger}

/-- Every listing is what the ledger says, each user once. -/
def ListsLedger (metaKey : Bytes) (s : Shares × ShareLedger) : Prop :=
  ∀ volumeId, ∃ listed, SharingStore.listShares metaKey volumeId .working s.1 = .ok listed ∧
    (listed.map ShareRecord.userId).Nodup ∧
    ∀ share, share ∈ listed ↔ s.2 volumeId share.userId = some share ∧ share.active = true

/-- The row of a user tells what the ledger says for the volume of the row. -/
structure Follows (metaKey : Bytes) (t : Shares) (l : ShareLedger) : Prop where
  named : ∀ volumeId userId share, l volumeId userId = some share → share.userId = userId
  absent : ∀ userId, t.find userId = none → ∀ volumeId, l volumeId userId = none
  row : ∀ row ∈ t.rows, ∃ share, Opens metaKey row share ∧ share.userId = row.sid ∧
    ∀ share', (l row.volumeId row.sid = some share' ∧ share'.active = true) ↔
      (row.active = true ∧ share' = share)

/-- A live share is the one its user has a row for. -/
def Placed (s : Shares × ShareLedger) : Prop :=
  ∀ volumeId userId, s.2.Live volumeId userId →
    ∃ row, s.1.find userId = some row ∧ row.volumeId = volumeId

theorem ShareCall.serve_eq_ok {c : ShareCall} {t t' : Shares} (h : c.serve metaKey t = .ok t') :
    (∃ nonce volumeId share sql data, c = .insert nonce volumeId share sql ∧
      sealRecord metaKey nonce (shareAad share.userId) share = some data ∧
      t' = t.put ⟨share.userId, volumeId, share.userId, data, share.active⟩) ∨
    (∃ userId sql, c = .revoke userId sql ∧
      t' = t.modify userId (fun row => { row with active := false }) fun _ => rfl) := by
  cases c with
  | insert nonce volumeId share sql =>
    rw [ShareCall.serve, SharingStore.insertShare] at h
    split at h
    · cases h
    · rename_i data hseal
      split at h
      · cases h
        exact .inl ⟨nonce, volumeId, share, sql, data, rfl, hseal, rfl⟩
      · cases h
  | revoke userId sql =>
    rw [ShareCall.serve, SharingStore.revokeShare] at h
    split at h
    · cases h
      exact .inr ⟨userId, sql, rfl, rfl⟩
    · cases h

theorem ShareCall.serve_insert {nonce : Aead.Nonce} {share : ShareRecord} {data : Bytes}
    (hseal : sealRecord metaKey nonce (shareAad share.userId) share = some data)
    (volumeId : String) (t : Shares) :
    (ShareCall.insert nonce volumeId share .working).serve metaKey t =
      .ok (t.put ⟨share.userId, volumeId, share.userId, data, share.active⟩) := by
  rw [ShareCall.serve, SharingStore.insertShare, hseal]
  rfl

namespace Follows

variable {t : Shares} {l : ShareLedger}

theorem start : Follows metaKey .empty fun _ _ => none where
  named _ _ _ h := by cases h
  absent _ _ _ := rfl
  row _ h := by cases h

theorem insert (h : Follows metaKey t l) {nonce : Aead.Nonce}
    {share : ShareRecord} {data : Bytes} (volumeId : String)
    (hseal : sealRecord metaKey nonce (shareAad share.userId) share = some data) :
    Follows metaKey (t.put ⟨share.userId, volumeId, share.userId, data, share.active⟩)
      (l.record volumeId share) where
  named other userId share' he := by
    by_cases hu : userId = share.userId
    · subst hu
      by_cases hv : other = volumeId
      · subst hv
        rw [ShareLedger.record_self] at he
        cases he
        rfl
      · rw [ShareLedger.record_other_volume hv] at he
        exact h.named other _ share' he
    · rw [ShareLedger.record_other_user hu] at he
      exact h.named other userId share' he
  absent userId he other := by
    rw [Table.find_put, Function.update_apply] at he
    split at he
    · cases he
    · rename_i hu
      rw [ShareLedger.record_other_user hu]
      exact h.absent userId he other
  row row hrow := by
    rcases Table.mem_put_iff.1 hrow with rfl | ⟨hrow, hne⟩
    · refine ⟨share, .of_seal hseal, rfl, fun share' => ?_⟩
      rw [ShareLedger.record_self, Option.some.injEq]
      constructor
      · rintro ⟨rfl, hactive⟩
        exact ⟨hactive, rfl⟩
      · rintro ⟨hactive, rfl⟩
        exact ⟨rfl, hactive⟩
    · obtain ⟨read, hopen, hname, hlive⟩ := h.row row hrow
      refine ⟨read, hopen, hname, fun share' => ?_⟩
      rw [ShareLedger.record_other_user hne]
      exact hlive share'

theorem revoke (h : Follows metaKey t l) (userId : String) :
    Follows metaKey (t.modify userId (fun row => { row with active := false }) fun _ => rfl)
      (l.strike userId) where
  named other user share he := by
    by_cases hu : user = userId
    · subst hu
      rw [ShareLedger.strike_self] at he
      cases he
    · rw [ShareLedger.strike_other hu] at he
      exact h.named other user share he
  absent user he other := by
    by_cases hu : user = userId
    · rw [hu, ShareLedger.strike_self]
    · rw [Table.find_modify, Function.update_of_ne hu] at he
      rw [ShareLedger.strike_other hu]
      exact h.absent user he other
  row row hrow := by
    obtain ⟨old, hold, rfl⟩ := List.mem_map.1 hrow
    obtain ⟨read, hopen, hname, hlive⟩ := h.row old hold
    split
    · rename_i hu
      subst hu
      refine ⟨read, hopen, hname, fun share' => ?_⟩
      rw [ShareLedger.strike_self]
      constructor
      · rintro ⟨he, -⟩
        cases he
      · rintro ⟨he, -⟩
        cases he
    · rename_i hu
      refine ⟨read, hopen, hname, fun share' => ?_⟩
      rw [ShareLedger.strike_other hu]
      exact hlive share'

theorem step (h : Follows metaKey s.1 s.2) (c : ShareCall) :
    Follows metaKey (c.step metaKey s).1 (c.step metaKey s).2 := by
  obtain ⟨t, l⟩ := s
  rw [ShareCall.step]
  cases hc : c.serve metaKey t with
  | error e => exact h
  | ok t' =>
    rcases ShareCall.serve_eq_ok hc with ⟨nonce, volumeId, share, sql, data, rfl, hseal, rfl⟩ |
      ⟨userId, sql, rfl, rfl⟩
    · exact h.insert volumeId hseal
    · exact h.revoke userId

/-- The record of the row that a volume lists for a user. -/
theorem listed_iff (h : Follows metaKey t l) {volumeId : String} {share : ShareRecord} :
    (∃ row ∈ t.rows, row.volumeId = volumeId ∧ row.active = true ∧ Opens metaKey row share) ↔
      (l volumeId share.userId = some share ∧ share.active = true) ∧
        ∃ row, t.find share.userId = some row ∧ row.volumeId = volumeId := by
  constructor
  · rintro ⟨row, hrow, rfl, hactive, hopen⟩
    obtain ⟨read, hread, hname, hlive⟩ := h.row row hrow
    obtain rfl := hopen.unique hread
    rw [hname]
    exact ⟨(hlive share).2 ⟨hactive, rfl⟩, row, Table.find_of_mem hrow, rfl⟩
  · rintro ⟨hl, row, hrow, rfl⟩
    obtain ⟨read, hread, -, hlive⟩ := h.row row (Table.mem_of_find hrow)
    rw [← Table.key_of_find hrow] at hl
    obtain ⟨hactive, rfl⟩ := (hlive share).1 hl
    exact ⟨row, Table.mem_of_find hrow, rfl, hactive, hread⟩

theorem listShares (h : Follows metaKey t l) (volumeId : String) :
    ∃ listed, SharingStore.listShares metaKey volumeId .working t = .ok listed ∧
      (listed.map ShareRecord.userId).Nodup ∧ ∀ share, share ∈ listed ↔
        ∃ row ∈ t.rows, row.volumeId = volumeId ∧ row.active = true ∧ Opens metaKey row share := by
  have hopen : ∀ row ∈ t.rows.filter fun row => row.volumeId = volumeId && row.active,
      ∃ share : ShareRecord, Opens metaKey row share := by
    intro row hrow
    obtain ⟨share, hshare, -⟩ := h.row row (List.mem_filter.1 hrow).1
    exact ⟨share, hshare⟩
  obtain ⟨listed, hlisted, hall⟩ := openRows_of_opens ShareRow.data
    (fun row => shareAad row.sid) (fun _ => rfl) (fun _ => rfl) hopen
  have hnames : listed.map ShareRecord.userId =
      (t.rows.filter fun row => row.volumeId = volumeId && row.active).map ShareRow.sid := by
    refine map_of_opens hall fun row hrow share hshare => ?_
    obtain ⟨read, hread, hname, -⟩ := h.row row (List.mem_filter.1 hrow).1
    rw [hshare.unique hread, hname]
  refine ⟨listed, hlisted, ?_, fun share => ?_⟩
  · rw [hnames]
    exact t.key_nodup.sublist (List.filter_sublist.map _)
  · rw [mem_of_opens hall]
    simp only [List.mem_filter, Bool.and_eq_true, decide_eq_true_eq, and_assoc]

/-- The listings tell the ledger as long as no live share has lost its row. -/
theorem listsLedger_iff (h : Follows metaKey t l) : ListsLedger metaKey (t, l) ↔ Placed (t, l) := by
  constructor
  · rintro hlists volumeId userId ⟨share, hshare, hactive⟩
    obtain ⟨listed, hlisted, -, hmem⟩ := hlists volumeId
    obtain ⟨listed', hlisted', -, hrows⟩ := h.listShares volumeId
    obtain rfl : listed = listed' := Except.ok.inj (hlisted.symm.trans hlisted')
    obtain rfl := h.named volumeId userId share hshare
    exact (h.listed_iff.1 ((hrows share).1 ((hmem share).2 ⟨hshare, hactive⟩))).2
  · intro hplaced volumeId
    obtain ⟨listed, hlisted, hnodup, hrows⟩ := h.listShares volumeId
    refine ⟨listed, hlisted, hnodup, fun share => ?_⟩
    rw [hrows share, h.listed_iff]
    exact ⟨And.left, fun hl => ⟨hl, hplaced volumeId share.userId ⟨share, hl⟩⟩⟩

end Follows

/-- Exactly the calls that give a share to a user without an active one elsewhere keep every
    live share in its row. -/
theorem placed_step_iff (h : Follows metaKey s.1 s.2) (hp : Placed s) (c : ShareCall) :
    Placed (c.step metaKey s) ↔ c.OneVolume metaKey s := by
  obtain ⟨t, l⟩ := s
  rw [ShareCall.step]
  cases hc : c.serve metaKey t with
  | error e =>
    refine ⟨fun _ => ?_, fun _ => hp⟩
    cases c with
    | insert nonce volumeId share sql =>
      rintro ⟨t', ht'⟩
      cases hc.symm.trans ht'
    | revoke userId sql => trivial
  | ok t' =>
    rcases ShareCall.serve_eq_ok hc with ⟨nonce, volumeId, share, sql, data, rfl, -, rfl⟩ |
      ⟨userId, sql, rfl, rfl⟩
    · have hfind := Table.find_put t ⟨share.userId, volumeId, share.userId, data, share.active⟩
      constructor
      · rintro hp' - other hother ⟨old, hold, hactive⟩
        obtain ⟨row, hrow, hvol⟩ := hp' other share.userId
          ⟨old, (ShareLedger.record_other_volume hother).trans hold, hactive⟩
        rw [hfind, Function.update_self] at hrow
        cases hrow
        exact hother hvol.symm
      · rintro halone other userId ⟨live, hlive, hactive⟩
        dsimp only [ShareCall.enter] at hlive ⊢
        rw [hfind]
        by_cases hu : userId = share.userId
        · subst hu
          refine ⟨_, Function.update_self .., ?_⟩
          by_contra hother
          have hother : other ≠ volumeId := fun he => hother he.symm
          rw [ShareLedger.record_other_volume hother] at hlive
          exact halone ⟨_, hc⟩ other hother ⟨live, hlive, hactive⟩
        · rw [Function.update_of_ne hu]
          rw [ShareLedger.record_other_user hu] at hlive
          exact hp other userId ⟨live, hlive, hactive⟩
    · refine ⟨fun _ => trivial, fun _ => ?_⟩
      rintro other user ⟨live, hlive, hactive⟩
      dsimp only [ShareCall.enter] at hlive ⊢
      by_cases hu : user = userId
      · rw [hu, ShareLedger.strike_self] at hlive
        cases hlive
      · rw [ShareLedger.strike_other hu] at hlive
        rw [Table.find_modify, Function.update_of_ne hu]
        exact hp other user ⟨live, hlive, hactive⟩

omit [Primitives] [Postcard ShareRecord] in
theorem filter_map_of_kept {Row : Type} {f : Row → Row} {p : Row → Bool} {rows : List Row}
    (h : ∀ row ∈ rows, f row = row ∨ (p (f row) = false ∧ p row = false)) :
    (rows.map f).filter p = rows.filter p := by
  induction rows with
  | nil => rfl
  | cons row rows ih =>
    rw [List.map_cons, List.filter_cons, List.filter_cons,
      ih fun x hx => h x (List.mem_cons_of_mem row hx)]
    rcases h row List.mem_cons_self with he | ⟨hnew, hold⟩
    · rw [he]
    · rw [hnew, hold]
      rfl

/-- Such a call leaves the listings of the other volumes. -/
theorem leavesOthers_of_oneVolume (h : Follows metaKey s.1 s.2) (hp : Placed s) {c : ShareCall}
    (hone : c.OneVolume metaKey s) : c.LeavesOthers metaKey s := by
  obtain ⟨t, l⟩ := s
  intro volumeId helse
  rw [ShareCall.step]
  cases hc : c.serve metaKey t with
  | error e => rfl
  | ok t' =>
    -- A listed row belongs to a user with a live share of the volume.
    have hlive : ∀ row ∈ t.rows, row.volumeId = volumeId → row.active = true →
        l.Live volumeId row.sid := by
      rintro row hrow rfl hactive
      obtain ⟨read, -, -, hl⟩ := h.row row hrow
      exact ⟨read, (hl read).2 ⟨hactive, rfl⟩⟩
    have hrows : (t'.rows.filter fun row => row.volumeId = volumeId && row.active) =
        t.rows.filter fun row => row.volumeId = volumeId && row.active := by
      rcases ShareCall.serve_eq_ok hc with ⟨nonce, other, share, sql, data, rfl, -, rfl⟩ |
        ⟨userId, sql, rfl, rfl⟩
      · have hother : ¬ other = volumeId := helse
        refine (List.filter_append _ _).trans ?_
        rw [List.filter_cons_of_neg (by simp [hother]), List.filter_nil, List.append_nil,
          List.filter_filter]
        refine List.filter_congr fun row hrow => Bool.and_eq_left_iff_imp.2 fun hlisted => ?_
        rw [Bool.and_eq_true, decide_eq_true_eq] at hlisted
        have hrowLive := hlive row hrow hlisted.1 hlisted.2
        refine decide_eq_true fun hsid => ?_
        rw [hsid] at hrowLive
        exact hone ⟨_, hc⟩ volumeId (fun he => hother he.symm) hrowLive
      · refine filter_map_of_kept fun row hrow => ?_
        split
        · rename_i hsid
          have hrowLive : ¬ (row.volumeId = volumeId ∧ row.active = true) := by
            rintro ⟨hvol, hactive⟩
            exact helse (hsid ▸ hlive row hrow hvol hactive)
          refine .inr ⟨by simp, ?_⟩
          rw [← Bool.not_eq_true, Bool.and_eq_true, decide_eq_true_eq]
          exact hrowLive
        · exact .inl rfl
    unfold SharingStore.listShares
    rw [hrows]

/-- The listings are the ledger throughout a run, and no call changes another volume's, exactly
    when no share is given to a user who has an active one of another volume. -/
theorem listings_independent_iff (metaKey : Bytes) (calls : List ShareCall) :
    (Runs.Throughout (ShareCall.step metaKey) (ListsLedger metaKey) calls ShareCall.start ∧
      Runs.Admits (ShareCall.step metaKey) (ShareCall.LeavesOthers metaKey) calls ShareCall.start) ↔
    Runs.Admits (ShareCall.step metaKey) (ShareCall.OneVolume metaKey) calls ShareCall.start := by
  have hJ : ∀ (c : ShareCall) (s : Shares × ShareLedger), Follows metaKey s.1 s.2 →
      Follows metaKey (c.step metaKey s).1 (c.step metaKey s).2 := fun c _ h => h.step c
  have hlists : ∀ s : Shares × ShareLedger, Follows metaKey s.1 s.2 →
      (ListsLedger metaKey s ↔ Placed s) := fun _ h => h.listsLedger_iff
  have hI : ∀ (c : ShareCall) (s : Shares × ShareLedger), Follows metaKey s.1 s.2 →
      ListsLedger metaKey s → (ListsLedger metaKey (c.step metaKey s) ↔ c.OneVolume metaKey s) :=
    fun c s h hs => (hlists _ (h.step c)).trans (placed_step_iff h ((hlists s h).1 hs) c)
  have hstart : ListsLedger metaKey ShareCall.start := by
    refine (hlists _ Follows.start).2 ?_
    rintro volumeId userId ⟨share, hshare, -⟩
    cases hshare
  have hiff := Runs.throughout_iff_admits hJ hI calls Follows.start hstart
  rw [hiff]
  refine ⟨And.left, fun h => ⟨h, ?_⟩⟩
  exact h.imp hJ (fun c s hs hl => (hI c s hs hl).2)
    (fun c s hs hl => leavesOthers_of_oneVolume hs ((hlists s hs).1 hl)) Follows.start hstart

end

section
open scoped Sample

/-- The share of volume `v` is gone from its listing once the user has one of volume `w`. -/
theorem share_lost_to_other_volume : ∃ t l,
    Runs.runAll (ShareCall.step []) [.insert Sample.zeroNonce "v" Sample.share .working,
      .insert Sample.zeroNonce "w" Sample.share .working] ShareCall.start = (t, l) ∧
    l "v" "u" = some Sample.share ∧ Sample.share.active = true ∧
    SharingStore.listShares [] "v" .working t = .ok [] := by
  obtain ⟨data, hdata⟩ := Sample.seals_share
  have hserve := ShareCall.serve_insert hdata
  refine ⟨(Table.empty.put ⟨"u", "v", "u", data, true⟩).put ⟨"u", "w", "u", data, true⟩,
    (ShareLedger.record (fun _ _ => none) "v" Sample.share).record "w" Sample.share, ?_, ?_, rfl, rfl⟩
  · rw [Runs.runAll, List.foldl_cons, List.foldl_cons, List.foldl_nil]
    simp only [ShareCall.step, hserve]
    rfl
  · rw [ShareLedger.record_other_volume (by decide)]
    exact ShareLedger.record_self

end

end TgCryptFs

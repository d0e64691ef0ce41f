import TgCryptFs.Api.Session

set_option autoImplicit false

/-!
# One session per volume

The check for an open session and the insertion of a new one are two acquisitions of the
lock. Where no second request passes the check before the first one has inserted, a volume
has one session at a time and it is the one that was returned.
-/
namespace TgCryptFs
open Library

/-- The sessions of a volume returned since it was last closed. -/
def live (volumeId : String) : List ApiResponse → List VolumeSession
  | [] => []
  | .opened session :: log =>
    if session.volumeId = volumeId then session :: live volumeId log else live volumeId log
  | .closed v :: log => if v = volumeId then [] else live volumeId log
  | _ :: log => live volumeId log

namespace Api

/-- No request passes the check for a volume while another one is between its check and its
    end. -/
def Exclusive (e : ApiEvent) (a : Api) : Prop :=
  ∀ k fault volumeId password, e = .advance k fault →
    a.requests k = some (.open volumeId password .check) → a.sessions volumeId = none →
    ∀ j r, a.requests j = some r → r.opening volumeId = false

structure OneSession (a : Api) : Prop where
  only : ∀ j k r r' v, a.requests j = some r → a.requests k = some r' → r.opening v = true →
    r'.opening v = true → j = k
  absent : ∀ k r v, a.requests k = some r → r.opening v = true → a.sessions v = none
  named : ∀ k v password session, a.requests k = some (.open v password (.insert session)) →
    session.volumeId = v
  live : ∀ v, live v a.log = (a.sessions v).toList

namespace OneSession

variable {a a' : Api} {k : ℕ} {x : Option ApiRequest}

theorem update (h : OneSession a) (hreq : a'.requests = Function.update a.requests k x)
    (hnew : ∀ r v, x = some r → r.opening v = true → a'.sessions v = none ∧
      ∀ j r', j ≠ k → a.requests j = some r' → r'.opening v = false)
    (hold : ∀ j r v, j ≠ k → a.requests j = some r → r.opening v = true → a'.sessions v = none)
    (hnamed : ∀ v password session, x = some (.open v password (.insert session)) →
      session.volumeId = v)
    (hlive : ∀ v, TgCryptFs.live v a'.log = (a'.sessions v).toList) : OneSession a' := by
  have hat := fun j r => requests_of_update hreq (j := j) (r := r)
  refine ⟨fun i j r r' v hi hj hr hr' => ?_, fun j r v hj hr => ?_, fun j v p s hj => ?_, hlive⟩
  · rcases hat i r hi with ⟨rfl, hx⟩ | ⟨hik, hi⟩
    · rcases hat j r' hj with ⟨rfl, -⟩ | ⟨hjk, hj⟩
      · rfl
      · rw [(hnew r v hx hr).2 j r' hjk hj] at hr'
        cases hr'
    · rcases hat j r' hj with ⟨rfl, hx⟩ | ⟨-, hj⟩
      · rw [(hnew r' v hx hr').2 i r hik hi] at hr
        cases hr
      · exact h.only i j r r' v hi hj hr hr'
  · rcases hat j r hj with ⟨rfl, hx⟩ | ⟨hjk, hj⟩
    · exact (hnew r v hx hr).1
    · exact hold j r v hjk hj hr
  · rcases hat j _ hj with ⟨rfl, hx⟩ | ⟨-, hj⟩
    · exact hnamed v p s hx
    · exact h.named j v p s hj

/-- A request that does not open a volume, with the table as it was. -/
theorem update_of_not_opening (h : OneSession a) (hreq : a'.requests = Function.update a.requests k x)
    (hsessions : a'.sessions = a.sessions) (hlog : ∀ v, TgCryptFs.live v a'.log = TgCryptFs.live v a.log)
    (hx : ∀ r v, x = some r → r.opening v = false) : OneSession a' := by
  refine h.update hreq (fun r v hr ho => ?_) (fun j r v _ hj ho => ?_) (fun v p s hr => ?_) fun v => ?_
  · rw [hx r v hr] at ho
    cases ho
  · rw [hsessions]
    exact h.absent j r v hj ho
  · have := hx _ v hr
    rw [ApiRequest.opening, decide_eq_false_iff_not] at this
    · exact absurd rfl this
    · exact fun h => by cases h
  · rw [hlog, hsessions]
    exact h.live v

/-- A request that goes on with opening the volume it has passed the check for. -/
theorem update_of_opening (h : OneSession a) {v : String} {r r' : ApiRequest}
    (hk : a.requests k = some r) (hr : r.opening v = true)
    (hreq : a'.requests = Function.update a.requests k (some r'))
    (hsessions : a'.sessions = a.sessions) (hlog : a'.log = a.log)
    (hr' : ∀ w, r'.opening w = true → w = v)
    (hnamed : ∀ w password session, r' = .open w password (.insert session) → session.volumeId = w) :
    OneSession a' := by
  refine h.update hreq (fun q w hq hw => ?_) (fun j q w _ hj hw => ?_) (fun w p s hq => ?_) fun w => ?_
  · cases hq
    obtain rfl := hr' w hw
    refine ⟨hsessions ▸ h.absent k r w hk hr, fun j q hjk hj => ?_⟩
    rw [Bool.eq_false_iff]
    exact fun ho => hjk (h.only j k q r w hj hk ho hr)
  · rw [hsessions]
    exact h.absent j q w hj hw
  · exact hnamed w p s (Option.some.inj hq)
  · rw [hlog, hsessions]
    exact h.live w

theorem answer_of_live (h : OneSession a) (hreq : a'.requests = Function.update a.requests k none)
    (hsessions : a'.sessions = a.sessions) {response : ApiResponse} (hlog : a'.log = response :: a.log)
    (hlive : ∀ v, TgCryptFs.live v (response :: a.log) = TgCryptFs.live v a.log) : OneSession a' :=
  h.update_of_not_opening hreq hsessions (fun v => by rw [hlog, hlive]) fun r v hr => by cases hr

theorem arrive (h : OneSession a) {r : ApiRequest} (hr : ∀ v, r.opening v = false) :
    OneSession (a.arrive k r) := by
  unfold Api.arrive
  split
  · exact h
  · refine h.update_of_not_opening rfl rfl (fun _ => rfl) fun q v hq => ?_
    cases hq
    exact hr v

theorem start (baseDir : Pieces) (fs : Fs) : OneSession (Api.start baseDir fs) where
  only _ _ _ _ _ h := by cases h
  absent _ _ _ h := by cases h
  named _ _ _ _ h := by cases h
  live _ := rfl

theorem advanceClose (h : OneSession a) (volumeId : String) :
    OneSession (a.advanceClose k volumeId) := by
  unfold Api.advanceClose
  split
  · refine h.update rfl (fun r v hr => by cases hr) (fun j r v _ hj ho => ?_)
      (fun v p s hs => by cases hs) fun v => ?_
    · change Function.update a.sessions volumeId none v = none
      by_cases e : v = volumeId
      · rw [e, Function.update_self]
      · rw [Function.update_of_ne e]
        exact h.absent j r v hj ho
    · change TgCryptFs.live v (.closed volumeId :: a.log) =
        (Function.update a.sessions volumeId none v).toList
      rw [TgCryptFs.live]
      by_cases e : volumeId = v
      · subst e
        rw [if_pos rfl, Function.update_self]
        rfl
      · rw [if_neg e, Function.update_of_ne fun h => e h.symm]
        exact h.live v
  · exact h.answer_of_live rfl rfl rfl fun _ => rfl

theorem advanceDelete (noise : Noise) (h : OneSession a) (volumeId : String) (pc : DeletePc) :
    OneSession (a.advanceDelete noise k volumeId pc) := by
  cases pc with
  | check =>
    rw [Api.advanceDelete]
    split
    · exact h.answer_of_live rfl rfl rfl fun _ => rfl
    · exact h.update_of_not_opening rfl rfl (fun _ => rfl) fun r v hr => by cases hr; rfl
  | mounted =>
    exact h.update_of_not_opening rfl rfl (fun _ => rfl) fun r v hr => by cases hr; rfl
  | delete =>
    rw [Api.advanceDelete]
    split
    · exact h.answer_of_live rfl rfl rfl fun _ => rfl
    · exact h.answer_of_live rfl rfl rfl fun _ => rfl

variable [Primitives] [KeyDerivation] [ConfigFormat]

theorem advanceOpen (h : OneSession a) {fault : Bool} {volumeId password : String} {pc : OpenPc}
    (hk : a.requests k = some (.open volumeId password pc))
    (hex : Exclusive (.advance k fault) a) : OneSession (a.advanceOpen k fault volumeId password pc) := by
  cases pc with
  | check =>
    rw [Api.advanceOpen]
    split
    · exact h.answer_of_live rfl rfl rfl fun _ => rfl
    · rename_i hopen
      have habsent : a.sessions volumeId = none := by
        rwa [isOpen, Option.not_isSome_iff_eq_none] at hopen
      refine h.update rfl (fun r v hr ho => ?_) (fun j r v _ hj ho => h.absent j r v hj ho)
        (fun v p s hs => by cases hs) h.live
      cases hr
      obtain rfl : volumeId = v := of_decide_eq_true ho
      exact ⟨habsent, fun j r _ hj => hex k fault volumeId password rfl hk habsent j r hj⟩
  | derive =>
    rw [Api.advanceOpen]
    split
    · exact h.answer_of_live rfl rfl rfl fun _ => rfl
    · exact h.update_of_opening hk (decide_eq_true rfl) rfl rfl rfl
        (fun w hw => (of_decide_eq_true hw).symm) fun w p s hs => by cases hs
  | database result =>
    rw [Api.advanceOpen]
    split
    · exact h.answer_of_live rfl rfl rfl fun _ => rfl
    · refine h.update_of_opening hk (decide_eq_true rfl) rfl rfl rfl
        (fun w hw => (of_decide_eq_true hw).symm) fun w p s hs => ?_
      cases hs
      rfl
  | insert session =>
    have hv := h.named k volumeId password session hk
    have habsent := h.absent k _ volumeId hk (decide_eq_true rfl)
    rw [Api.advanceOpen]
    refine h.update rfl (fun r v hr => by cases hr) (fun j r v hjk hj ho => ?_)
      (fun v p s hs => by cases hs) fun v => ?_
    · -- another request for the same volume would be this one
      have hne : v ≠ volumeId := by
        rintro rfl
        exact hjk (h.only j k r _ v hj hk ho (decide_eq_true rfl))
      change Function.update a.sessions volumeId (some session) v = none
      rw [Function.update_of_ne hne]
      exact h.absent j r v hj ho
    · change TgCryptFs.live v (.opened session :: a.log) =
        (Function.update a.sessions volumeId (some session) v).toList
      rw [TgCryptFs.live, hv]
      by_cases e : volumeId = v
      · subst e
        rw [if_pos rfl, Function.update_self, h.live, habsent]
        rfl
      · rw [if_neg e, Function.update_of_ne fun h => e h.symm]
        exact h.live v

theorem step (noise : Noise) (e : ApiEvent) (h : OneSession a) (hex : Exclusive e a) :
    OneSession (Api.step noise e a) := by
  cases e with
  | «open» k volumeId password => exact h.arrive fun _ => rfl
  | close k volumeId => exact h.arrive fun _ => rfl
  | delete k volumeId => exact h.arrive fun _ => rfl
  | advance k fault =>
    unfold Api.step
    dsimp only
    split
    · exact h
    · rename_i hk
      exact h.advanceOpen hk hex
    · exact h.advanceClose _
    · exact h.advanceDelete noise _ _

end OneSession
end Api

theorem Api.Exclusive.of_single {a : Api} {k : ℕ} (h : a.Single k) (e : ApiEvent) :
    Api.Exclusive e a := by
  intro i fault volumeId password _ hi _ j r hj
  obtain rfl := h.eq hi
  obtain rfl := h.eq hj
  rw [hi] at hj
  cases hj
  rfl

namespace Sample

/-- One request to open, to its end. -/
def openOnceEvents : List ApiEvent :=
  [.open 0 "a" "pw", .advance 0 false, .advance 0 false, .advance 0 false, .advance 0 false]

def openedOnce [Primitives] [KeyDerivation] [ConfigFormat] : Api :=
  Runs.runAll (Api.step fun _ _ _ => 0) openOnceEvents (Api.start ["", "home", "v"] disk)

theorem openedOnce_runs [Primitives] [KeyDerivation] [ConfigFormat] :
    Runs (Api.step fun _ _ _ => 0) Api.Exclusive (Api.start ["", "home", "v"] disk) openedOnce := by
  have hone : ∀ e ∈ openOnceEvents, e.request = 0 := by decide
  refine Runs.of_admits _ .start (Api.admits_of_single _ (fun _ => true) ?_ _ hone ?_ rfl)
  · exact fun e a ha _ => .of_single ha e
  · exact fun _ _ => rfl

/-- Two requests to open one volume that take turns. -/
def openedTwice [Primitives] [KeyDerivation] [ConfigFormat] : Api :=
  Runs.runAll (Api.step fun _ _ _ => 0)
    [.open 0 "a" "pw", .open 1 "a" "pw", .advance 0 false, .advance 1 false, .advance 0 false,
      .advance 1 false, .advance 0 false, .advance 1 false, .advance 0 false, .advance 1 false]
    (Api.start ["", "home", "v"] disk)

end Sample

section
open scoped Sample

end

end TgCryptFs

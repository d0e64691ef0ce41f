import TgCryptFs.Api.Session

set_option autoImplicit false

/-!
# Open sessions and deletion

The handler looks for a session with the id as it is spelled in the request, and the session
is inserted long after the request to open looked. Where ids that lead to one directory are
spelled alike and the two do not overlap, the directory of an open session stays.
-/
namespace TgCryptFs
open Library

namespace Api

/-- A session in the table or about to be put there. -/
def Holds (a : Api) (session : VolumeSession) : Prop :=
  (∃ v, a.sessions v = some session) ∨
    ∃ k v password, a.requests k = some (.open v password (.insert session))

/-- A session whose directory is where the id leads, or below, has that id. -/
def SpelledAlike (a : Api) (volumeId : String) : Prop :=
  ∀ session d, a.Holds session →
    a.fs.resolve (FileSystem.join a.baseDir (pieces volumeId)) = some d → d <+: session.dir →
    session.volumeId = volumeId

/-- An open and a delete of one volume are not both past their checks, and a delete meets no
    session of its directory under another spelling. -/
def Guarded (e : ApiEvent) (a : Api) : Prop :=
  ∀ k fault, e = .advance k fault →
    (∀ v password, a.requests k = some (.open v password .check) → a.sessions v = none →
      ∀ j pc, a.requests j = some (.delete v pc) → pc = .check) ∧
    (∀ v pc, a.requests k = some (.delete v pc) → a.sessions v = none → a.SpelledAlike v) ∧
    (∀ v, a.requests k = some (.delete v .check) → a.sessions v = none →
      ∀ j r, a.requests j = some r → r.opening v = false)

structure Shielded (a : Api) : Prop where
  stored : ∀ v session, a.sessions v = some session →
    session.volumeId = v ∧ a.fs.kind session.dir = some .dir
  inserting : ∀ k v password session, a.requests k = some (.open v password (.insert session)) →
    session.volumeId = v ∧ a.fs.kind session.dir = some .dir
  deleting : ∀ k v pc, a.requests k = some (.delete v pc) → pc ≠ .check →
    a.sessions v = none ∧ ∀ j r, a.requests j = some r → r.opening v = false

namespace Shielded

variable {a a' : Api} {k : ℕ} {x : Option ApiRequest}

/-- One request goes on or is over. -/
theorem update (h : Shielded a) (hreq : a'.requests = Function.update a.requests k x)
    (hstored : ∀ v session, a'.sessions v = some session →
      session.volumeId = v ∧ a'.fs.kind session.dir = some .dir)
    (hinserting : ∀ v password session, x = some (.open v password (.insert session)) →
      session.volumeId = v ∧ a'.fs.kind session.dir = some .dir)
    (hkept : ∀ j v password session, a.requests j = some (.open v password (.insert session)) →
      a'.fs.kind session.dir = some .dir)
    (hdeleting : ∀ v pc, x = some (.delete v pc) → pc ≠ .check →
      a'.sessions v = none ∧ ∀ j r, j ≠ k → a.requests j = some r → r.opening v = false)
    (hothers : ∀ j v pc, j ≠ k → a.requests j = some (.delete v pc) → pc ≠ .check →
      a'.sessions v = none ∧ ∀ r, x = some r → r.opening v = false) : Shielded a' := by
  refine ⟨hstored, fun j v p s hj => ?_, fun j v pc hj hpc => ?_⟩
  · rcases requests_of_update hreq hj with ⟨-, hx⟩ | ⟨-, hj⟩
    · exact hinserting v p s hx
    · exact ⟨(h.inserting j v p s hj).1, hkept j v p s hj⟩
  · rcases requests_of_update hreq hj with ⟨rfl, hx⟩ | ⟨hjk, hj⟩
    · obtain ⟨hnone, hno⟩ := hdeleting v pc hx hpc
      refine ⟨hnone, fun i r hi => ?_⟩
      rcases requests_of_update hreq hi with ⟨-, hx'⟩ | ⟨hij, hi⟩
      · rw [hx] at hx'
        cases hx'
        rfl
      · exact hno i r hij hi
    · obtain ⟨hnone, hno⟩ := hothers j v pc hjk hj hpc
      refine ⟨hnone, fun i r hi => ?_⟩
      rcases requests_of_update hreq hi with ⟨-, hx⟩ | ⟨-, hi⟩
      · exact hno r hx
      · exact (h.deleting j v pc hj hpc).2 i r hi

theorem update_of_same (h : Shielded a) (hreq : a'.requests = Function.update a.requests k x)
    (hsessions : a'.sessions = a.sessions)
    (hdirs : ∀ d, a.fs.kind d = some .dir → a'.fs.kind d = some .dir)
    (hinserting : ∀ v password session, x = some (.open v password (.insert session)) →
      session.volumeId = v ∧ a'.fs.kind session.dir = some .dir)
    (hdeleting : ∀ v pc, x = some (.delete v pc) → pc ≠ .check →
      a.sessions v = none ∧ ∀ j r, j ≠ k → a.requests j = some r → r.opening v = false)
    (hopening : ∀ j v pc r, j ≠ k → a.requests j = some (.delete v pc) → pc ≠ .check → x = some r →
      r.opening v = false) : Shielded a' := by
  refine h.update hreq (fun v s hs => ?_) hinserting (fun j v p s hj => ?_) (fun v pc hx hpc => ?_)
    fun j v pc hjk hj hpc => ⟨?_, fun r hx => hopening j v pc r hjk hj hpc hx⟩
  · rw [hsessions] at hs
    exact ⟨(h.stored v s hs).1, hdirs _ (h.stored v s hs).2⟩
  · exact hdirs _ (h.inserting j v p s hj).2
  · rw [hsessions]
    exact hdeleting v pc hx hpc
  · rw [hsessions]
    exact (h.deleting j v pc hj hpc).1

/-- A request is over, and nothing else has changed but files. -/
theorem answer (h : Shielded a) (hreq : a'.requests = Function.update a.requests k none)
    (hsessions : a'.sessions = a.sessions)
    (hdirs : ∀ d, a.fs.kind d = some .dir → a'.fs.kind d = some .dir) : Shielded a' :=
  h.update_of_same hreq hsessions hdirs (fun _ _ _ h => by cases h) (fun _ _ h => by cases h)
    fun _ _ _ _ _ _ _ h => by cases h

theorem start (baseDir : Pieces) (fs : Fs) : Shielded (Api.start baseDir fs) where
  stored _ _ h := by cases h
  inserting _ _ _ _ h := by cases h
  deleting _ _ _ h := by cases h

theorem arrive (h : Shielded a) {r : ApiRequest} (hopen : ∀ v, r.opening v = false)
    (hdelete : ∀ v pc, r = .delete v pc → pc = .check) : Shielded (a.arrive k r) := by
  unfold Api.arrive
  split
  · exact h
  refine h.update_of_same rfl rfl (fun _ hd => hd) (fun v p s hx => ?_) (fun v pc hx hpc => ?_)
    fun j v pc q _ _ _ hx => ?_
  · have := hopen v
    rw [Option.some.inj hx, ApiRequest.opening, decide_eq_false_iff_not] at this
    · exact absurd rfl this
    · exact fun h => by cases h
  · exact absurd (hdelete v pc (Option.some.inj hx)) hpc
  · rw [← Option.some.inj hx]
    exact hopen v

theorem advanceClose (h : Shielded a) (volumeId : String) : Shielded (a.advanceClose k volumeId) := by
  unfold Api.advanceClose
  split
  · have hsub : ∀ v s, Function.update a.sessions volumeId none v = some s → a.sessions v = some s := by
      intro v s hs
      by_cases e : v = volumeId
      · rw [e, Function.update_self] at hs
        cases hs
      · rwa [Function.update_of_ne e] at hs
    refine h.update rfl (fun v s hs => h.stored v s (hsub v s hs)) (fun _ _ _ hx => by cases hx)
      (fun j v p s hj => (h.inserting j v p s hj).2) (fun _ _ hx => by cases hx)
      fun j v pc _ hj hpc => ⟨?_, fun _ hx => by cases hx⟩
    rw [Option.eq_none_iff_forall_ne_some]
    intro s hs
    have := hsub v s hs
    rw [(h.deleting j v pc hj hpc).1] at this
    cases this
  · exact h.answer rfl rfl fun _ hd => hd

theorem advanceDelete (noise : Noise) (h : Shielded a) {fault : Bool} {volumeId : String} {pc : DeletePc}
    (hk : a.requests k = some (.delete volumeId pc)) (hg : Guarded (.advance k fault) a) :
    Shielded (a.advanceDelete noise k volumeId pc) := by
  obtain ⟨-, hspelled, hclear⟩ := hg k fault rfl
  cases pc with
  | check =>
    rw [Api.advanceDelete]
    split
    · exact h.answer rfl rfl fun _ hd => hd
    · rename_i hopen
      have habsent : a.sessions volumeId = none := by
        rwa [isOpen, Option.not_isSome_iff_eq_none] at hopen
      refine h.update_of_same rfl rfl (fun _ hd => hd) (fun _ _ _ hx => by cases hx) (fun v pc hx _ => ?_)
        fun _ _ _ r _ _ _ hx => by cases hx; rfl
      cases hx
      exact ⟨habsent, fun j r _ hj => hclear volumeId hk habsent j r hj⟩
  | mounted =>
    refine h.update_of_same rfl rfl (fun _ hd => hd) (fun _ _ _ hx => by cases hx) (fun v pc hx _ => ?_)
      fun _ _ _ r _ _ _ hx => by cases hx; rfl
    cases hx
    obtain ⟨hnone, hno⟩ := h.deleting k volumeId .mounted hk fun e => by cases e
    exact ⟨hnone, fun j r _ hj => hno j r hj⟩
  | delete =>
    obtain ⟨hnone, hno⟩ := h.deleting k volumeId .delete hk fun e => by cases e
    have halike := hspelled volumeId .delete hk hnone
    have hdirs : ∀ s, a.Holds s → s.volumeId ≠ volumeId → a.fs.kind s.dir = some .dir →
        (deleteVolume noise volumeId a.baseDir a.fs).2.kind s.dir = some .dir := by
      intro s hs hne hd
      exact kind_deleteVolume noise hd fun l hl hp => hne (halike s l hs hl hp)
    have hstored : ∀ v s, a.sessions v = some s → s.volumeId = v ∧
        (deleteVolume noise volumeId a.baseDir a.fs).2.kind s.dir = some .dir := by
      intro v s hs
      obtain ⟨hv, hd⟩ := h.stored v s hs
      refine ⟨hv, hdirs s (.inl ⟨v, hs⟩) (fun e => ?_) hd⟩
      rw [← hv, e, hnone] at hs
      cases hs
    have hinserting : ∀ j v p s, a.requests j = some (.open v p (.insert s)) →
        (deleteVolume noise volumeId a.baseDir a.fs).2.kind s.dir = some .dir := by
      intro j v p s hj
      obtain ⟨hv, hd⟩ := h.inserting j v p s hj
      refine hdirs s (.inr ⟨j, v, p, hj⟩) (fun e => ?_) hd
      have := hno j _ hj
      rw [ApiRequest.opening, ← hv, e, decide_eq_false_iff_not] at this
      · exact this rfl
      · exact fun h => by cases h
    have hend : ∀ response, Shielded ({ a with
        fs := (deleteVolume noise volumeId a.baseDir a.fs).2 }.answer k response) := by
      intro response
      exact h.update rfl hstored (fun _ _ _ hx => by cases hx) hinserting (fun _ _ hx => by cases hx)
        fun j v pc _ hj hpc => ⟨(h.deleting j v pc hj hpc).1, fun _ hx => by cases hx⟩
    rw [Api.advanceDelete]
    split
    · rename_i he
      have := hend
      rw [he] at this
      exact this _
    · rename_i he
      have := hend
      rw [he] at this
      exact this _

variable [Primitives] [KeyDerivation] [ConfigFormat]

theorem advanceOpen (h : Shielded a) {fault : Bool} {volumeId password : String} {pc : OpenPc}
    (hk : a.requests k = some (.open volumeId password pc)) (hg : Guarded (.advance k fault) a) :
    Shielded (a.advanceOpen k fault volumeId password pc) := by
  -- past its check, the request is for none of the volumes that are being deleted
  have hother : pc ≠ .check → ∀ j v dpc, a.requests j = some (.delete v dpc) → dpc ≠ .check →
      volumeId ≠ v := by
    intro hpc j v dpc hj hdpc
    have := (h.deleting j v dpc hj hdpc).2 k _ hk
    rw [ApiRequest.opening] at this
    · exact of_decide_eq_false this
    · exact fun e => hpc e
  cases pc with
  | check =>
    rw [Api.advanceOpen]
    split
    · exact h.answer rfl rfl fun _ hd => hd
    · rename_i hopen
      have habsent : a.sessions volumeId = none := by
        rwa [isOpen, Option.not_isSome_iff_eq_none] at hopen
      refine h.update_of_same rfl rfl (fun _ hd => hd) (fun _ _ _ hx => by cases hx)
        (fun _ _ hx => by cases hx) fun j v pc r _ hj hpc hx => ?_
      cases hx
      refine decide_eq_false fun e => hpc ?_
      subst e
      exact (hg k fault rfl).1 volumeId password hk habsent j pc hj
  | derive =>
    rw [Api.advanceOpen]
    split
    · exact h.answer rfl rfl fun _ hd => hd
    · refine h.update_of_same rfl rfl (fun _ hd => hd) (fun _ _ _ hx => by cases hx)
        (fun _ _ hx => by cases hx) fun j v pc r _ hj hpc hx => ?_
      cases hx
      exact decide_eq_false (hother (fun e => by cases e) j v pc hj hpc)
  | database result =>
    rw [Api.advanceOpen]
    split
    · exact h.answer rfl rfl fun _ hd => hd
    · rename_i d fs' hdb
      have hdb : openDatabase result.paths.baseDir a.fs = some (d, fs') := by
        split at hdb
        · cases hdb
        · exact hdb
      obtain ⟨hd, hmono⟩ := openDatabase_spec hdb
      refine h.update_of_same rfl rfl (fun l hl => hmono l _ hl) (fun v p s hx => ?_)
        (fun _ _ hx => by cases hx) fun j v pc r _ hj hpc hx => ?_
      · cases hx
        exact ⟨rfl, hmono d _ hd⟩
      · cases hx
        exact decide_eq_false (hother (fun e => by cases e) j v pc hj hpc)
  | insert session =>
    obtain ⟨hv, hd⟩ := h.inserting k volumeId password session hk
    rw [Api.advanceOpen]
    refine h.update rfl (fun v s hs => ?_) (fun _ _ _ hx => by cases hx)
      (fun j v p s hj => (h.inserting j v p s hj).2) (fun _ _ hx => by cases hx)
      fun j v pc _ hj hpc => ⟨?_, fun _ hx => by cases hx⟩
    · change Function.update a.sessions volumeId (some session) v = some s at hs
      by_cases e : v = volumeId
      · rw [e, Function.update_self] at hs
        cases hs
        exact ⟨hv.trans e.symm, hd⟩
      · rw [Function.update_of_ne e] at hs
        exact h.stored v s hs
    · change Function.update a.sessions volumeId (some session) v = none
      have hne : v ≠ volumeId := (hother (fun e => by cases e) j v pc hj hpc).symm
      rw [Function.update_of_ne hne]
      exact (h.deleting j v pc hj hpc).1

theorem step (noise : Noise) (e : ApiEvent) (h : Shielded a) (hg : Guarded e a) :
    Shielded (Api.step noise e a) := by
  cases e with
  | «open» k volumeId password => exact h.arrive (fun _ => rfl) fun _ _ e => by cases e
  | close k volumeId => exact h.arrive (fun _ => rfl) fun _ _ e => by cases e
  | delete k volumeId => exact h.arrive (fun _ => rfl) fun _ _ e => by cases e; rfl
  | advance k fault =>
    unfold Api.step
    dsimp only
    split
    · exact h
    · rename_i hk
      exact h.advanceOpen hk hg
    · exact h.advanceClose _
    · rename_i hk
      exact h.advanceDelete noise hk hg

theorem refused (noise : Noise) (h : Shielded a) {fault : Bool} {v w : String} {pc : DeletePc}
    {session : VolumeSession} (hk : a.requests k = some (.delete v pc))
    (hs : a.sessions w = some session)
    (hr : a.fs.resolve (FileSystem.join a.baseDir (pieces v)) = some session.dir)
    (hg : Guarded (.advance k fault) a) :
    Api.step noise (.advance k fault) a = a.answer k (.failed (.volumeIsMounted v)) := by
  have hopen : a.sessions v ≠ none := by
    intro hnone
    have halike := (hg k fault rfl).2.1 v pc hk hnone session _ (.inl ⟨w, hs⟩) hr List.prefix_rfl
    rw [← (h.stored w session hs).1, halike, hnone] at hs
    cases hs
  have hcheck : pc = .check := by
    by_contra hpc
    exact hopen (h.deleting k v pc hk hpc).1
  subst hcheck
  unfold Api.step
  dsimp only
  rw [hk]
  dsimp only
  rw [Api.advanceDelete, isOpen, if_pos (Option.isSome_iff_ne_none.2 hopen)]

end Shielded
end Api

/-- The directory of an open session is there, and a delete that leads to it answers that the
    volume is mounted and does nothing else. -/
theorem open_session_keeps_volume [Primitives] [KeyDerivation] [ConfigFormat] {noise : Noise}
    {baseDir : Pieces} {fs : Fs} {a : Api}
    (h : Runs (Api.step noise) Api.Guarded (Api.start baseDir fs) a) :
    (∀ v session, a.sessions v = some session → a.fs.kind session.dir = some .dir) ∧
    ∀ k v pc w session fault, a.requests k = some (.delete v pc) → a.sessions w = some session →
      a.fs.resolve (FileSystem.join a.baseDir (pieces v)) = some session.dir →
      Api.Guarded (.advance k fault) a →
      (Api.step noise (.advance k fault) a).log = .failed (.volumeIsMounted v) :: a.log ∧
      (Api.step noise (.advance k fault) a).fs = a.fs := by
  have hinv : Api.Shielded a :=
    h.invariant Api.Shielded (.start baseDir fs) fun e a ha he => ha.step noise e he
  refine ⟨fun v s hs => (hinv.stored v s hs).2, fun k v pc w s fault hk hs hr hg => ?_⟩
  rw [hinv.refused noise hk hs hr hg]
  exact ⟨rfl, rfl⟩

namespace Sample

/-- The volume is opened, and then a request comes to delete it. -/
def guardedEvents : List ApiEvent :=
  [.open 0 "a" "pw", .advance 0 false, .advance 0 false, .advance 0 false, .advance 0 false,
    .delete 0 "a"]

/-- The deletion runs between the opening of the database and the insertion of the session. -/
def overlappingEvents : List ApiEvent :=
  [.open 0 "a" "pw", .advance 0 false, .advance 0 false, .advance 0 false, .delete 1 "a",
    .advance 1 false, .advance 1 false, .advance 1 false, .advance 0 false]

/-- The volume is opened and then deleted under another spelling. -/
def respelledEvents : List ApiEvent :=
  [.open 0 "a" "pw", .advance 0 false, .advance 0 false, .advance 0 false, .advance 0 false,
    .delete 0 "a/", .advance 0 false, .advance 0 false, .advance 0 false]

variable [Primitives] [KeyDerivation] [ConfigFormat]

def served (es : List ApiEvent) : Api :=
  Runs.runAll (Api.step fun _ _ _ => 0) es (Api.start ["", "home", "v"] disk)

/-- The request to delete, if it is one, is for an open volume. -/
def refusing (a : Api) : Bool :=
  match a.requests 0 with
  | some (.delete v _) => a.isOpen v
  | _ => true

omit [Primitives] [KeyDerivation] [ConfigFormat] in
theorem guarded_of_refusing (e : ApiEvent) (a : Api) (hsingle : a.Single 0)
    (h : refusing a = true) : Api.Guarded e a := by
  have hdel : ∀ j v pc, a.requests j = some (.delete v pc) → a.sessions v ≠ none := by
    intro j v pc hj
    obtain rfl := hsingle.eq hj
    rw [refusing, hj] at h
    exact Option.isSome_iff_ne_none.1 h
  exact fun k fault _ => ⟨fun v p _ hnone j pc hj => absurd hnone (hdel j v pc hj),
    fun v pc hj hnone => absurd hnone (hdel k v pc hj),
    fun v hj hnone => absurd hnone (hdel k v .check hj)⟩

end Sample

section
open scoped Sample

theorem open_session_keeps_volume_of_single :
    ((Sample.served Sample.guardedEvents).sessions "a").map (·.dir) = some ["home", "v", "a"] ∧
    ∀ v session, (Sample.served Sample.guardedEvents).sessions v = some session →
      (Sample.served Sample.guardedEvents).fs.kind session.dir = some .dir := by
  have hopen : ((Sample.served Sample.guardedEvents).sessions "a").map (·.dir) =
      some ["home", "v", "a"] := by
    decide +kernel
  have hes : ∀ e ∈ Sample.guardedEvents, e.request = 0 := by decide
  have hadmits : Runs.Admits (Api.step fun _ _ _ => 0) Api.Guarded Sample.guardedEvents
      (Api.start ["", "home", "v"] Sample.disk) :=
    Api.admits_of_single _ Sample.refusing Sample.guarded_of_refusing _ hes (fun _ _ => rfl) (by decide +kernel)
  have hruns : Runs (Api.step fun _ _ _ => 0) Api.Guarded (Api.start ["", "home", "v"] Sample.disk)
      (Sample.served Sample.guardedEvents) := Runs.of_admits _ .start hadmits
  exact ⟨hopen, (open_session_keeps_volume hruns).1⟩

theorem open_session_loses_volume :
    (((Sample.served Sample.overlappingEvents).sessions "a").map (·.dir) = some ["home", "v", "a"] ∧
      (Sample.served Sample.overlappingEvents).fs.kind ["home", "v", "a"] = none) ∧
    ((Sample.served Sample.respelledEvents).sessions "a").map (·.dir) = some ["home", "v", "a"] ∧
      (Sample.served Sample.respelledEvents).fs.kind ["home", "v", "a"] = none := by
  decide +kernel

end

end TgCryptFs

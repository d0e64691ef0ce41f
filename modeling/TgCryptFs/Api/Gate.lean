import TgCryptFs.Api.Server
import TgCryptFs.Library.Clients

set_option autoImplicit false

/-!
# Clients without the token

They are refused, or told the version and a few numbers. So the server does for everybody else what
it would do without them, and they can tell two servers apart by these numbers only.
-/
namespace TgCryptFs
open Library
namespace Http

/-- What `GET /status` shows of the state. -/
structure PublicView where
  telegramConnected : Bool
  volumesMounted : ℕ
  totalVolumes : ℕ
  deadmanArmed : Bool
deriving DecidableEq

def App.view [ConfigCodec] (a : App) : PublicView :=
  ⟨a.hasSession, a.api.listOpen.length, ((VolumeService.list a.api.baseDir a.fs).toOption.getD []).length,
    a.deadman.isArmed⟩

/-- A task that needed no token. -/
def Task.Public : Task → Prop
  | .status _ | .once .version _ => True
  | _ => False

/-- An answer that shows nothing but the public numbers. -/
def Response.Public (r : Response) : Prop :=
  r = ⟨200, none⟩ ∨ r = ⟨404, none⟩ ∨ r = ApiError.authRequired.intoResponse ∨
    r = ok [("version", .string version)] ∨ ∃ status : SystemStatus, r = ⟨200, some status.toJson⟩

namespace ServerEvent

def client : ServerEvent → Option ℕ
  | .request client _ | .advance client _ => some client
  | _ => none

variable (strangers : ℕ → Prop)

def Theirs (e : ServerEvent) : Prop := ∃ client ∈ e.client, strangers client

instance [DecidablePred strangers] : DecidablePred (Theirs strangers) := fun e =>
  inferInstanceAs (Decidable (∃ client ∈ e.client, strangers client))

/-- The strangers do not have the token. -/
def Tokenless [Primitives] (auth : BearerAuth) : ServerEvent → Prop
  | .request client r => strangers client → ¬ r.CarriesToken auth
  | _ => True

end ServerEvent

/-! ## What an event of a stranger comes to -/

/-- A change of what one client has. -/
inductive Turn where
  | idle
  | answer (response : Response)
  | continueWith (task : Task)

def Turn.Public : Turn → Prop
  | .idle => True
  | .answer response => response.Public
  | .continueWith task => task.Public

def Server.turn (s : Server) (client : ℕ) : Turn → Server
  | .idle => s
  | .answer response => s.answer client response
  | .continueWith task => s.continueWith client task

/-- What a public task does next where this is the view. -/
def Task.publicTurn (m : Moment) (view : PublicView) : Task → Turn
  | .status .volumes => .continueWith (.status (.sessions view.totalVolumes))
  | .status (.sessions total) => .continueWith (.status (.cache total view.volumesMounted))
  | .status (.cache total mounted) => .continueWith (.status (.deadman total mounted))
  | .status (.deadman total mounted) => .answer ⟨200, some (SystemStatus.toJson
      ⟨version, view.telegramConnected, mounted, total, 0, 0, view.deadmanArmed, m.uptimeSecs⟩)⟩
  | _ => .answer (ok [("version", .string version)])

/-- What a stranger's event does where this is the view and this is the stranger's task. -/
def ServerEvent.publicTurn (view : PublicView) (task : Option Task) : ServerEvent → Turn
  | .request _ r =>
    match task with
    | some _ => .idle
    | none =>
      match withoutToken r with
      | .error response => .answer response
      | .ok .status => .continueWith (.status .volumes)
      | .ok _ => .continueWith (.once .version r.body)
  | .advance _ m =>
    match task with
    | none => .idle
    | some task => task.publicTurn m view
  | _ => .idle

theorem Task.publicTurn_public (m : Moment) (view : PublicView) (task : Task) :
    (task.publicTurn m view).Public := by
  unfold publicTurn
  split
  · trivial
  · trivial
  · trivial
  · exact .inr (.inr (.inr (.inr ⟨_, rfl⟩)))
  · exact .inr (.inr (.inr (.inl rfl)))

theorem withoutToken_cases (r : Request) :
    (∃ response : Response, withoutToken r = .error response ∧ response.Public) ∨
      withoutToken r = .ok .status ∨ withoutToken r = .ok .version := by
  unfold withoutToken
  split
  · exact .inl ⟨_, rfl, .inl rfl⟩
  split
  · exact .inl ⟨_, rfl, .inr (.inl rfl)⟩
  split
  · exact .inr (.inl rfl)
  split
  · exact .inr (.inr rfl)
  · exact .inl ⟨_, rfl, .inr (.inr (.inl rfl))⟩

theorem ServerEvent.publicTurn_public (view : PublicView) (task : Option Task) (e : ServerEvent) :
    (e.publicTurn view task).Public := by
  cases e with
  | request client r =>
    cases task with
    | some task => trivial
    | none =>
      rcases withoutToken_cases r with ⟨response, h, hpublic⟩ | h | h
      · rw [publicTurn, h]
        exact hpublic
      · rw [publicTurn, h]
        trivial
      · rw [publicTurn, h]
        trivial
  | advance client m =>
    cases task with
    | none => trivial
    | some task => exact task.publicTurn_public m view
  | files change => trivial
  | database d change => trivial
  | daemon run change => trivial

/-! ## What one client's events leave alone -/

/-- Nothing has changed of any other client. -/
structure Server.Touches (client : Option ℕ) (s s' : Server) : Prop where
  auth : s'.auth = s.auth
  tasks : ∀ k, some k ≠ client → s'.tasks k = s.tasks k
  answers : ∀ k, some k ≠ client → s'.answers k = s.answers k

namespace Server

variable {s : Server} {client : ℕ}

theorem touches_app (a : App) (client : Option ℕ) : s.Touches client { s with app := a } :=
  ⟨rfl, fun _ _ => rfl, fun _ _ => rfl⟩

theorem Touches.answer {s' : Server} (h : s.Touches (some client) s') (response : Response) :
    s.Touches (some client) (s'.answer client response) where
  auth := h.auth
  tasks k hk := by
    have hne : k ≠ client := fun e => hk (congrArg some e)
    exact (Function.update_of_ne hne _ _).trans (h.tasks k hk)
  answers k hk := by
    have hne : k ≠ client := fun e => hk (congrArg some e)
    exact (Function.update_of_ne hne _ _).trans (h.answers k hk)

theorem Touches.continueWith {s' : Server} (h : s.Touches (some client) s') (task : Task) :
    s.Touches (some client) (s'.continueWith client task) where
  auth := h.auth
  tasks k hk := by
    have hne : k ≠ client := fun e => hk (congrArg some e)
    exact (Function.update_of_ne hne _ _).trans (h.tasks k hk)
  answers := h.answers

theorem touches_turn (turn : Turn) : s.Touches (some client) (s.turn client turn) := by
  have hself : s.Touches (some client) s := touches_app s.app _
  cases turn with
  | idle => exact hself
  | answer response => exact hself.answer response
  | continueWith task => exact hself.continueWith task

end Server

theorem Server.touches_call [Primitives] [KeyDerivation] [ConfigCodec] (noise : Noise) (s : Server)
    (client : ℕ) (body : Except ℕ Json) (endpoint : Endpoint) :
    s.Touches (some client) (s.call noise client body endpoint) := by
  have hself : s.Touches (some client) s := touches_app s.app _
  have henter : ∀ e, s.Touches (some client) (s.enter noise client e) := fun e =>
    (touches_app _ _).continueWith _
  unfold call
  split
  · exact hself.continueWith _
  · exact hself.continueWith _
  · exact hself.continueWith _
  · split
    · exact hself.answer _
    · split
      · exact hself.answer _
      · exact henter _
  · exact henter _
  · exact henter _
  · exact hself.continueWith _

/-! ## Both sides -/

variable {s t : Server} {client : ℕ} {strangers : ℕ → Prop} {auth auth' : BearerAuth}

/-- Nothing that the strangers have needed the token. -/
structure Server.TheirsPublic (strangers : ℕ → Prop) (s : Server) : Prop where
  tasks : ∀ k, strangers k → ∀ task, s.tasks k = some task → task.Public
  answers : ∀ k, strangers k → ∀ response ∈ s.answers k, response.Public

/-- The strangers have not come yet. -/
structure Server.Unvisited (strangers : ℕ → Prop) (s : Server) : Prop where
  tasks : ∀ k, strangers k → s.tasks k = none
  answers : ∀ k, strangers k → s.answers k = []

theorem Server.Unvisited.theirsPublic (h : s.Unvisited strangers) : s.TheirsPublic strangers where
  tasks k hk task htask := by
    rw [h.tasks k hk] at htask
    cases htask
  answers k hk response hresponse := by
    rw [h.answers k hk] at hresponse
    cases hresponse

/-- The second state is the first one without the strangers. -/
structure SameForOthers (strangers : ℕ → Prop) (auth : BearerAuth) (s t : Server) : Prop where
  left : s.auth = auth
  right : t.auth = auth
  app : s.app = t.app
  tasks : ∀ k, ¬ strangers k → s.tasks k = t.tasks k
  answers : ∀ k, ¬ strangers k → s.answers k = t.answers k
  theirs : s.TheirsPublic strangers

/-- In both states the strangers have been shown the same. -/
structure ShownAlike (strangers : ℕ → Prop) (auth auth' : BearerAuth) (s t : Server) : Prop where
  left : s.auth = auth
  right : t.auth = auth'
  tasks : ∀ k, strangers k → s.tasks k = t.tasks k
  answers : ∀ k, strangers k → s.answers k = t.answers k
  theirs : s.TheirsPublic strangers

theorem Server.TheirsPublic.turn (h : s.TheirsPublic strangers) {turn : Turn} (hturn : turn.Public) :
    (s.turn client turn).TheirsPublic strangers where
  tasks k hk task htask := by
    cases turn with
    | idle => exact h.tasks k hk task htask
    | answer response =>
      change Function.update s.tasks client none k = some task at htask
      rw [Function.update_apply] at htask
      split at htask
      · cases htask
      · exact h.tasks k hk task htask
    | continueWith task' =>
      change Function.update s.tasks client (some task') k = some task at htask
      rw [Function.update_apply] at htask
      split at htask
      · cases htask
        exact hturn
      · exact h.tasks k hk task htask
  answers k hk response hresponse := by
    cases turn with
    | idle => exact h.answers k hk response hresponse
    | answer response' =>
      change response ∈ Function.update s.answers client (response' :: s.answers client) k at hresponse
      rw [Function.update_apply] at hresponse
      split at hresponse
      · rename_i he
        rcases List.mem_cons.1 hresponse with rfl | hresponse
        · exact hturn
        · exact h.answers k hk response (he ▸ hresponse)
      · exact h.answers k hk response hresponse
    | continueWith task => exact h.answers k hk response hresponse

/-- What the strangers have is what they had. -/
theorem Server.TheirsPublic.of_touches {s' : Server} {client : Option ℕ} (h : s.TheirsPublic strangers)
    (htouches : s.Touches client s') (hother : ∀ k, strangers k → some k ≠ client) :
    s'.TheirsPublic strangers where
  tasks k hk task htask := h.tasks k hk task ((htouches.tasks k (hother k hk)).symm.trans htask)
  answers k hk response hresponse := by
    rw [htouches.answers k (hother k hk)] at hresponse
    exact h.answers k hk response hresponse

theorem Server.app_turn (turn : Turn) : (s.turn client turn).app = s.app := by
  cases turn with
  | idle => rfl
  | answer response => rfl
  | continueWith task => rfl

/-- The same turn on both sides. -/
theorem ShownAlike.turn (h : ShownAlike strangers auth auth' s t) {turn : Turn} (hturn : turn.Public) :
    ShownAlike strangers auth auth' (s.turn client turn) (t.turn client turn) where
  left := (s.touches_turn turn).auth.trans h.left
  right := (t.touches_turn turn).auth.trans h.right
  tasks k hk := by
    cases turn with
    | idle => exact h.tasks k hk
    | answer response =>
      change Function.update s.tasks client none k = Function.update t.tasks client none k
      rw [Function.update_apply, Function.update_apply, h.tasks k hk]
    | continueWith task =>
      change Function.update s.tasks client (some task) k = Function.update t.tasks client (some task) k
      rw [Function.update_apply, Function.update_apply, h.tasks k hk]
  answers k hk := by
    cases turn with
    | idle => exact h.answers k hk
    | answer response =>
      change Function.update s.answers client _ k = Function.update t.answers client _ k
      rw [Function.update_apply, Function.update_apply, h.answers k hk]
      split
      · rename_i he
        rw [← he, h.answers k hk]
      · rfl
    | continueWith task => exact h.answers k hk
  theirs := h.theirs.turn hturn

theorem Server.ne_of_not (hclient : ¬ strangers client) (k : ℕ) (hk : strangers k) : some k ≠ some client := by
  rintro he
  cases he
  exact hclient hk

namespace SameForOthers

theorem withApp (h : SameForOthers strangers auth s t) (a : App) :
    SameForOthers strangers auth { s with app := a } { t with app := a } :=
  { h with app := rfl, theirs := ⟨h.theirs.tasks, h.theirs.answers⟩ }

theorem answer (h : SameForOthers strangers auth s t) (hclient : ¬ strangers client) (response : Response) :
    SameForOthers strangers auth (s.answer client response) (t.answer client response) where
  left := h.left
  right := h.right
  app := h.app
  tasks k hk := by
    unfold Server.answer
    dsimp only
    rw [Function.update_apply, Function.update_apply, h.tasks k hk]
  answers k hk := by
    unfold Server.answer
    dsimp only
    rw [Function.update_apply, Function.update_apply, h.answers k hk, h.answers client hclient]
  theirs := h.theirs.of_touches (s.touches_turn (.answer response)) (Server.ne_of_not hclient)

theorem continueWith (h : SameForOthers strangers auth s t) (hclient : ¬ strangers client) (task : Task) :
    SameForOthers strangers auth (s.continueWith client task) (t.continueWith client task) where
  left := h.left
  right := h.right
  app := h.app
  tasks k hk := by
    unfold Server.continueWith
    dsimp only
    rw [Function.update_apply, Function.update_apply, h.tasks k hk]
  answers k hk := h.answers k hk
  theirs := h.theirs.of_touches (s.touches_turn (.continueWith task)) (Server.ne_of_not hclient)

section

variable [Primitives] [KeyDerivation] [ConfigCodec]

theorem enter (h : SameForOthers strangers auth s t) (hclient : ¬ strangers client) (noise : Noise)
    (e : ApiEvent) :
    SameForOthers strangers auth (s.enter noise client e) (t.enter noise client e) := by
  unfold Server.enter
  rw [h.app]
  have hsame := (h.withApp { t.app with api := t.app.api.step noise e }).continueWith hclient .session
  exact hsame

theorem call (h : SameForOthers strangers auth s t) (hclient : ¬ strangers client) (noise : Noise)
    (body : Except ℕ Json) (endpoint : Endpoint) :
    SameForOthers strangers auth (s.call noise client body endpoint) (t.call noise client body endpoint) := by
  unfold Server.call
  split
  · exact h.continueWith hclient _
  · exact h.continueWith hclient _
  · exact h.continueWith hclient _
  · split
    · exact h.answer hclient _
    · split
      · exact h.answer hclient _
      · exact h.enter hclient noise _
  · exact h.enter hclient noise _
  · exact h.enter hclient noise _
  · exact h.continueWith hclient _

end

end SameForOthers

section

variable [Primitives] [KeyDerivation] [ConfigCodec] [Causes] [Postcard ShareRecord] [Postcard Invite]
  [DeadmanCodec]

/-- A public task changes nothing, and it goes on by the view alone. -/
theorem Task.run_public {task : Task} (h : task.Public) (noise : Noise) (client : ℕ) (m : Moment) (a : App) :
    ∃ outcome : Outcome, task.run noise client m a = (outcome, a) ∧
      task.publicTurn m a.view = match outcome with
        | .goesOn task => .continueWith task
        | .answers response => .answer response := by
  match task, h with
  | .status .volumes, _ => exact ⟨_, rfl, rfl⟩
  | .status (.sessions total), _ => exact ⟨_, rfl, rfl⟩
  | .status (.cache total mounted), _ => exact ⟨_, rfl, rfl⟩
  | .status (.deadman total mounted), _ => exact ⟨_, rfl, rfl⟩
  | .once .version body, _ => exact ⟨_, rfl, rfl⟩

theorem Server.step_stranger (noise : Noise) {e : ServerEvent} (hclient : e.client = some client)
    (htoken : ∀ r, e = .request client r → ¬ r.CarriesToken s.auth)
    (htask : ∀ task, s.tasks client = some task → task.Public) :
    step noise e s = s.turn client (e.publicTurn s.app.view (s.tasks client)) := by
  cases e with
  | request client' r =>
    cases hclient
    unfold step ServerEvent.publicTurn
    dsimp only
    cases hs : s.tasks client with
    | some task => rfl
    | none =>
      dsimp only
      rw [dispatch_of_not_carries (htoken r rfl)]
      rcases withoutToken_cases r with ⟨response, h, -⟩ | h | h
      · rw [h]
        rfl
      · rw [h]
        rfl
      · rw [h]
        rfl
  | advance client' m =>
    cases hclient
    unfold step ServerEvent.publicTurn
    dsimp only
    cases hs : s.tasks client with
    | none => rfl
    | some task =>
      obtain ⟨outcome, hrun, hturn⟩ := Task.run_public (htask task hs) noise client m s.app
      dsimp only
      rw [hrun, hturn]
      cases outcome with
      | goesOn task => rfl
      | answers response => rfl
  | files change => cases hclient
  | database d change => cases hclient
  | daemon run change => cases hclient

/-- What the strangers do changes nothing that is behind the handlers. -/
theorem Server.app_step_theirs (noise : Noise) {e : ServerEvent} (h : s.TheirsPublic strangers)
    (htheirs : e.Theirs strangers) (htoken : e.Tokenless strangers s.auth) :
    (step noise e s).app = s.app := by
  obtain ⟨client, hclient, hstranger⟩ := htheirs
  have hnone : ∀ r, e = .request client r → ¬ r.CarriesToken s.auth := by
    rintro r rfl
    exact htoken hstranger
  rw [step_stranger noise hclient hnone (h.tasks client hstranger), app_turn]

theorem Server.touches_step (noise : Noise) (e : ServerEvent) (s : Server) :
    s.Touches e.client (step noise e s) := by
  have hself : ∀ client, s.Touches client s := touches_app s.app
  cases e with
  | request client r =>
    unfold step
    dsimp only
    split
    · exact hself _
    · split
      · exact (hself (some client)).answer _
      · exact touches_call noise s client r.body _
  | advance client m =>
    unfold step
    dsimp only
    split
    · exact hself _
    · split
      · exact (touches_app _ (some client)).continueWith _
      · exact (touches_app _ (some client)).answer _
  | files change => exact touches_app _ _
  | database d change => exact touches_app _ _
  | daemon run change => exact touches_app _ _


theorem unnoticed (noise : Noise) (strangers : ℕ → Prop) (auth : BearerAuth) :
    Unnoticed (Server.step noise) (ServerEvent.Tokenless strangers auth) (ServerEvent.Theirs strangers)
      (SameForOthers strangers auth) where
  skip e s t htheirs htoken h := by
    obtain ⟨client, hclient, hstranger⟩ := htheirs
    have hnone : ∀ r, e = .request client r → ¬ r.CarriesToken s.auth := by
      rintro r rfl
      rw [h.left]
      exact htoken hstranger
    rw [Server.step_stranger noise hclient hnone (h.theirs.tasks client hstranger)]
    have htouches : s.Touches (some client) _ := s.touches_turn (e.publicTurn s.app.view (s.tasks client))
    have hother : ∀ k, ¬ strangers k → some k ≠ some client := by
      rintro k hk he
      cases he
      exact hk hstranger
    refine ⟨htouches.auth.trans h.left, h.right, ?_, fun k hk => ?_, fun k hk => ?_, ?_⟩
    · exact (Server.app_turn _).trans h.app
    · exact (htouches.tasks k (hother k hk)).trans (h.tasks k hk)
    · exact (htouches.answers k (hother k hk)).trans (h.answers k hk)
    · exact h.theirs.turn (ServerEvent.publicTurn_public ..)
  keep e s t htheirs h := by
    have hclient : ∀ client, e.client = some client → ¬ strangers client := fun client he hk =>
      htheirs ⟨client, he, hk⟩
    cases e with
    | request client r =>
      have hclient := hclient client rfl
      unfold Server.step
      dsimp only
      rw [h.tasks client hclient, h.left, h.right]
      split
      · exact h
      · split
        · exact h.answer hclient _
        · exact h.call hclient noise _ _
    | advance client m =>
      have hclient := hclient client rfl
      unfold Server.step
      dsimp only
      rw [h.tasks client hclient, h.app]
      split
      · exact h
      · split
        · exact (h.withApp _).continueWith hclient _
        · exact (h.withApp _).answer hclient _
    | files change =>
      unfold Server.step
      dsimp only
      rw [h.app]
      exact h.withApp _
    | database d change =>
      unfold Server.step
      dsimp only
      rw [h.app]
      exact h.withApp _
    | daemon run change =>
      unfold Server.step
      dsimp only
      rw [h.app]
      exact h.withApp _

theorem confined (noise : Noise) (strangers : ℕ → Prop) (auth auth' : BearerAuth) :
    DeterminedByView (Server.step noise)
      (fun e => e.Tokenless strangers auth ∧ e.Tokenless strangers auth') (ServerEvent.Theirs strangers)
      (fun s => s.app.view) (ShownAlike strangers auth auth') where
  both e s t htheirs htoken hview h := by
    obtain ⟨client, hclient, hstranger⟩ := htheirs
    have hs : ∀ r, e = .request client r → ¬ r.CarriesToken s.auth := by
      rintro r rfl
      rw [h.left]
      exact htoken.1 hstranger
    have ht : ∀ r, e = .request client r → ¬ r.CarriesToken t.auth := by
      rintro r rfl
      rw [h.right]
      exact htoken.2 hstranger
    have hpublic := h.theirs.tasks client hstranger
    have hpublic' := hpublic
    rw [h.tasks client hstranger] at hpublic'
    rw [Server.step_stranger noise hclient hs hpublic, Server.step_stranger noise hclient ht hpublic']
    rw [hview, h.tasks client hstranger]
    exact h.turn (ServerEvent.publicTurn_public ..)
  left e s t htheirs h := by
    have htouches := Server.touches_step noise e s
    have hother : ∀ k, strangers k → some k ≠ e.client := fun k hk he => htheirs ⟨k, he.symm, hk⟩
    refine ⟨htouches.auth.trans h.left, h.right, fun k hk => ?_, fun k hk => ?_, ?_⟩
    · exact (htouches.tasks k (hother k hk)).trans (h.tasks k hk)
    · exact (htouches.answers k (hother k hk)).trans (h.answers k hk)
    · exact h.theirs.of_touches htouches hother
  right e s t htheirs h := by
    have htouches := Server.touches_step noise e t
    have hother : ∀ k, strangers k → some k ≠ e.client := fun k hk he => htheirs ⟨k, he.symm, hk⟩
    refine ⟨h.left, htouches.auth.trans h.right, fun k hk => ?_, fun k hk => ?_, h.theirs⟩
    · exact (h.tasks k hk).trans (htouches.tasks k (hother k hk)).symm
    · exact (h.answers k hk).trans (htouches.answers k (hother k hk)).symm

/-- Clients without the token leave no trace: with them or without them the server comes to the
    same state, and everybody else is answered the same. They are refused, or told the version and
    the public numbers. -/
theorem strangers_leave_no_trace [DecidablePred strangers] {noise : Noise} {es : List ServerEvent}
    (hs : s.Unvisited strangers) (hes : ∀ e ∈ es, e.Tokenless strangers s.auth) :
    (Runs.runAll (Server.step noise) es s).app =
      (Runs.runAll (Server.step noise) (es.filter fun e => ¬ e.Theirs strangers) s).app ∧
    (∀ k, ¬ strangers k →
      (Runs.runAll (Server.step noise) es s).tasks k =
        (Runs.runAll (Server.step noise) (es.filter fun e => ¬ e.Theirs strangers) s).tasks k ∧
      (Runs.runAll (Server.step noise) es s).answers k =
        (Runs.runAll (Server.step noise) (es.filter fun e => ¬ e.Theirs strangers) s).answers k) ∧
    ∀ k, strangers k → ∀ response ∈ (Runs.runAll (Server.step noise) es s).answers k, response.Public := by
  have hstart : SameForOthers strangers s.auth s s :=
    ⟨rfl, rfl, rfl, fun _ _ => rfl, fun _ _ => rfl, hs.theirsPublic⟩
  have hend := (unnoticed noise strangers s.auth).runAll es hes hstart
  exact ⟨hend.app, fun k hk => ⟨hend.tasks k hk, hend.answers k hk⟩, hend.theirs.answers⟩

/-- What clients without the token are shown depends on the public numbers at the moments they come
    or wait: two servers, with any tokens, volumes and other clients, that agree on them at these moments
    answer them the same. -/
theorem strangers_see_the_view {noise : Noise} {es es' : List ServerEvent} (hs : s.Unvisited strangers)
    (ht : t.Unvisited strangers)
    (hes : ∀ e ∈ es, e.Tokenless strangers s.auth ∧ e.Tokenless strangers t.auth)
    (hside : SideBySide (Server.step noise) (ServerEvent.Theirs strangers) (fun s => s.app.view) es es' s t)
    (k : ℕ) (hk : strangers k) :
    (Runs.runAll (Server.step noise) es s).answers k = (Runs.runAll (Server.step noise) es' t).answers k := by
  have hstart : ShownAlike strangers s.auth t.auth s t :=
    ⟨rfl, rfl, fun k hk => (hs.tasks k hk).trans (ht.tasks k hk).symm,
      fun k hk => (hs.answers k hk).trans (ht.answers k hk).symm, hs.theirsPublic⟩
  exact ((confined noise strangers s.auth t.auth).runAll hes hside hstart).answers k hk

end

section

open scoped Sample SampleVolume SampleServer
open SampleVolume

namespace SampleServer

/-- Client 7 has no token. -/
def stranger (k : ℕ) : Prop := k = 7

instance : DecidablePred stranger := fun k => inferInstanceAs (Decidable (k = 7))

def asking (path : String) : ServerEvent := .request 7 ⟨.get, path, [], .error 415⟩

def owning (method : Method) (path : String) : ServerEvent :=
  .request 0 ⟨method, path, [("authorization", utf8 "Bearer t0")], .error 415⟩

/-- Another process empties a table of shares. -/
def rewriting : ServerEvent := .database ["v"] fun db => ⟨Table.empty, db.invites⟩

theorem unvisited (token : String) : (server token).Unvisited stranger := ⟨fun _ _ => rfl, fun _ _ => rfl⟩

theorem tokenless_asking (auth : BearerAuth) (path : String) : (asking path).Tokenless stranger auth := by
  intro _ hcarries
  obtain ⟨token, htoken, -⟩ := hcarries
  cases htoken

theorem tokenless_owning (auth : BearerAuth) (method : Method) (path : String) :
    (owning method path).Tokenless stranger auth := by
  intro h
  cases h

/-- The stranger asks for the status while the owner arms the switch. -/
def visit : List ServerEvent :=
  [asking "/api/v1/status", owning .post "/api/v1/deadman/arm", asking "/api/v1/volumes", .advance 7 moment,
    .advance 0 moment, .advance 7 moment]

theorem tokenless_visit (auth : BearerAuth) : ∀ e ∈ visit, e.Tokenless stranger auth := by
  have hrest : ∀ k, (ServerEvent.advance k moment).Tokenless stranger auth := fun _ => trivial
  intro e he
  simp only [visit, List.mem_cons, List.not_mem_nil, or_false] at he
  rcases he with rfl | rfl | rfl | rfl | rfl | rfl
  · exact tokenless_asking auth _
  · exact tokenless_owning auth _ _
  · exact tokenless_asking auth _
  · exact hrest 7
  · exact hrest 0
  · exact hrest 7

end SampleServer

open SampleServer

theorem strangers_leave_no_trace_sample :
    (Runs.runAll (Server.step SampleServer.noise) visit (server "t0")).app =
      (Runs.runAll (Server.step SampleServer.noise)
        [owning .post "/api/v1/deadman/arm", .advance 0 moment] (server "t0")).app := by
  obtain ⟨happ, -⟩ := strangers_leave_no_trace (unvisited "t0") (tokenless_visit _)
  exact happ

/-- Two servers with different tokens show the same, although another process writes to a database of the first. -/
theorem strangers_see_the_view_sample :
    (Runs.runAll (Server.step SampleServer.noise)
      [rewriting, asking "/api/v1/status", .advance 7 moment] (server "t0")).answers 7 =
    (Runs.runAll (Server.step SampleServer.noise)
      [asking "/api/v1/status", .advance 7 moment] (server "t1")).answers 7 := by
  have hadvance : (ServerEvent.advance 7 moment).Theirs stranger := ⟨7, rfl, rfl⟩
  have hasking : (asking "/api/v1/status").Theirs stranger := ⟨7, rfl, rfl⟩
  have hrewriting : ¬ rewriting.Theirs stranger := by
    rintro ⟨client, hclient, -⟩
    cases hclient
  have hleft := Server.app_step_theirs SampleServer.noise
    ((unvisited "t0").theirsPublic.of_touches (Server.touches_step SampleServer.noise rewriting _)
      fun k hk he => hrewriting ⟨k, he.symm, hk⟩) hasking (tokenless_asking _ _)
  have hright := Server.app_step_theirs SampleServer.noise (unvisited "t1").theirsPublic hasking
    (tokenless_asking _ _)
  have hview : (Server.step SampleServer.noise rewriting (server "t0")).app.view = (server "t1").app.view := rfl
  refine strangers_see_the_view (unvisited "t0") (unvisited "t1") ?_ ?_ 7 rfl
  · intro e he
    simp only [List.mem_cons, List.not_mem_nil, or_false] at he
    rcases he with rfl | rfl | rfl
    · exact ⟨trivial, trivial⟩
    · exact ⟨tokenless_asking _ _, tokenless_asking _ _⟩
    · exact ⟨trivial, trivial⟩
  · refine .left hrewriting (.both hasking hview (.both hadvance ?_ .nil))
    rw [hleft, hright]
    exact hview

end

end Http
end TgCryptFs

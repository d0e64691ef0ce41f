import TgCryptFs.Library.Text
import TgCryptFs.Library.Results
import TgCryptFs.Telegram.Client

set_option autoImplicit false

/-!
# `tgcryptfs auth login`

The dialogue that signs in: phone number, verification code and, where the account has one,
the 2FA password. Each of the last two has three attempts.
-/
namespace TgCryptFs
open Library

namespace TelegramError

def display : TelegramError → String
  | notConnected => "not connected"
  | authRequired => "authentication required"
  | upload text => s!"upload failed: {text}"
  | download text => s!"download failed: {text}"
  | messageNotFound id => s!"message not found: {id}"
  | delete text => s!"delete failed: {text}"
  | blockTooLarge size max => s!"block too large: {size} bytes (max {max})"
  | session text => s!"session error: {text}"
  | rateLimited seconds => s!"rate limited, retry after {seconds}s"
  | api text => s!"telegram API error: {text}"
  | io text => s!"IO error: {text}"

def suggestion : TelegramError → String
  | notConnected => "Run `tgcryptfs auth login` to connect to Telegram"
  | authRequired => "Run `tgcryptfs auth login` to authenticate with your Telegram account"
  | upload _ => "Check your internet connection and try again"
  | download _ =>
    "Check your internet connection; the message may have been deleted from Telegram"
  | messageNotFound _ => "The block may have been deleted from the Telegram group"
  | delete _ => "You may lack admin permissions in the storage group"
  | blockTooLarge _ _ => "Reduce the volume's block size configuration"
  | session _ => "Try `tgcryptfs auth logout` then `tgcryptfs auth login` to reset the session"
  | rateLimited seconds =>
    if seconds > 60 then "Telegram is rate-limiting requests; wait and try again later"
    else "Telegram is rate-limiting requests; retrying automatically"
  | api _ => "Check Telegram service status; this may be a temporary outage"
  | io _ => "Check file permissions and available disk space"

end TelegramError

/-- `{state:?}`. -/
def AuthState.debug : AuthState → String
  | notAuthenticated => "NotAuthenticated"
  | awaitingCode => "AwaitingCode"
  | awaitingPassword => "AwaitingPassword"
  | authenticated => "Authenticated"

def telegramErr (e : TelegramError) : String := s!"{e.display}\n  Suggestion: {e.suggestion}"

/-- What is typed at each question, or why it cannot be read, and the network at each call. -/
structure LoginDialogue where
  connecting : Network
  phone : Except String Text
  requesting : Network
  code : ℕ → Except String Text
  signingIn : ℕ → Network
  password : ℕ → Except String Text
  checking : ℕ → Network

def maxCodeAttempts : ℕ := 3

def maxPasswordAttempts : ℕ := 3

/-- `1..=3`. -/
def loginAttempts : List ℕ := [1, 2, 3]

def prompt (line : Except String Text) : Except String Text := line.map Text.trim

/-- `connect` when no other call is on the client. -/
def TelegramClient.connect (net : Network) (c : TelegramClient) :
    TelegramClient × Except TelegramError AuthState :=
  match openSession net with
  | .error e => (c, .error e)
  | .ok authorized =>
    ({ c with connected := c.connected || authorized, inner := true },
      .ok (if authorized then .authenticated else .notAuthenticated))

namespace LoginDialogue

/-- One turn of the loops of `login` and `handle_2fa`. An empty answer uses up its attempt. -/
def turn (max : ℕ) (ask : ℕ → Except String Text)
    (check : ℕ → TelegramClient → TelegramClient × Except TelegramError AuthState)
    (settle : AuthState → TelegramClient → TelegramClient × Except String Unit)
    (gaveUp : TelegramError → String) (attempt : ℕ) (c : TelegramClient) :
    TelegramClient × Option (Except String Unit) :=
  match ask attempt with
  | .error e => (c, some (.error e))
  | .ok [] => (c, none)
  | .ok _ =>
    match check attempt c with
    | (c, .ok state) => ((settle state c).1, some (settle state c).2)
    | (c, .error e) =>
      if max - attempt > 0 then (c, none) else (c, some (.error (gaveUp e)))

/-- `bail!` behind a loop that has not returned. -/
def orBail (text : String) (r : TelegramClient × Option (Except String Unit)) :
    TelegramClient × Except String Unit := (r.1, r.2.getD (.error text))

variable (d : LoginDialogue)

def settlePassword (state : AuthState) (c : TelegramClient) :
    TelegramClient × Except String Unit :=
  match state with
  | .authenticated => (c, .ok ())
  | other => (c, .error s!"unexpected auth state after 2FA: {other.debug}")

def passwordTurn : ℕ → TelegramClient → TelegramClient × Option (Except String Unit) :=
  turn maxPasswordAttempts d.password (fun attempt c => c.checkPassword (d.checking attempt))
    settlePassword fun e => s!"failed 2FA after {maxPasswordAttempts} attempts: {e.display}"

def handle2fa (c : TelegramClient) : TelegramClient × Except String Unit :=
  orBail "2FA authentication failed: max password attempts exceeded"
    (firstReturn d.passwordTurn loginAttempts c)

def settleCode (state : AuthState) (c : TelegramClient) : TelegramClient × Except String Unit :=
  match state with
  | .authenticated => (c, .ok ())
  | .awaitingPassword => d.handle2fa c
  | other => (c, .error s!"unexpected auth state: {other.debug}")

def codeTurn : ℕ → TelegramClient → TelegramClient × Option (Except String Unit) :=
  turn maxCodeAttempts (fun attempt => prompt (d.code attempt))
    (fun attempt c => c.signIn (d.signingIn attempt)) d.settleCode
    fun e => s!"failed to sign in after {maxCodeAttempts} attempts: {e.display}"

/-- From the phone number on. -/
def signInInteractively (c : TelegramClient) : TelegramClient × Except String Unit :=
  match prompt d.phone with
  | .error e => (c, .error e)
  | .ok [] => (c, .error "phone number is required")
  | .ok _ =>
    match c.requestLoginCode d.requesting with
    | .error e => (c, .error (telegramErr e))
    | .ok _ =>
      orBail "authentication failed: max code attempts exceeded"
        (firstReturn d.codeTurn loginAttempts c)

def login (apiId : ℤ) (apiHash : String) : TelegramClient × Except String Unit :=
  let c := TelegramClient.new { apiId := apiId, apiHash := apiHash }
  match c.connect d.connecting with
  | (c, .error e) => (c, .error (telegramErr e))
  | (c, .ok .authenticated) => (c, .ok ())
  | (c, .ok .notAuthenticated) => d.signInInteractively c
  | (c, .ok state) => (c, .error s!"unexpected auth state after connect: {state.debug}")

/-! ## When it succeeds -/

/-- The attempt is used up: nothing is typed, or the code does not sign in. -/
def CodeFails (attempt : ℕ) : Prop :=
  ∃ code, prompt (d.code attempt) = .ok code ∧
    (code = [] ∨ (d.signingIn attempt).signIn = .invalidCode ∨
      (∃ e, (d.signingIn attempt).signIn = .failed e) ∨
      (d.signingIn attempt).signIn = .user ∧ ∃ e, (d.signingIn attempt).saveToFile = .error e)

def CodeAccepted (attempt : ℕ) : Prop :=
  (∃ code, prompt (d.code attempt) = .ok code ∧ code ≠ []) ∧
    (d.signingIn attempt).signIn = .user ∧ (d.signingIn attempt).saveToFile = .ok ()

def PasswordAsked (attempt : ℕ) : Prop :=
  (∃ code, prompt (d.code attempt) = .ok code ∧ code ≠ []) ∧
    ∃ token, (d.signingIn attempt).signIn = .passwordRequired token

def PasswordAccepted (attempt : ℕ) : Prop :=
  (∃ password, d.password attempt = .ok password ∧ password ≠ []) ∧
    (d.checking attempt).checkPassword = .ok () ∧ (d.checking attempt).saveToFile = .ok ()

/-- The first password typed is the right one: the token for it is gone after one check. -/
def PasswordGiven : Prop :=
  ∃ pre attempt post, loginAttempts = pre ++ attempt :: post ∧
    (∀ j ∈ pre, d.password j = .ok []) ∧ d.PasswordAccepted attempt

theorem orBail_eq_ok {text : String} {r : TelegramClient × Option (Except String Unit)} :
    (orBail text r).2 = .ok () ↔ r.2 = some (.ok ()) := by
  cases h : r.2 <;> simp [orBail, h]

section

variable {max attempt : ℕ} {ask : ℕ → Except String Text}
  {check : ℕ → TelegramClient → TelegramClient × Except TelegramError AuthState}
  {settle : AuthState → TelegramClient → TelegramClient × Except String Unit}
  {gaveUp : TelegramError → String} {c c' : TelegramClient}

theorem turn_unread {e : String} (h : ask attempt = .error e) :
    turn max ask check settle gaveUp attempt c = (c, some (.error e)) := by
  simp [turn, h]

theorem turn_empty (h : ask attempt = .ok []) :
    turn max ask check settle gaveUp attempt c = (c, none) := by
  simp [turn, h]

theorem turn_answered {answer : Text} {state : AuthState} (h : ask attempt = .ok answer)
    (hne : answer ≠ []) (hcheck : check attempt c = (c', .ok state)) :
    turn max ask check settle gaveUp attempt c =
      ((settle state c').1, some (settle state c').2) := by
  cases answer with
  | nil => exact absurd rfl hne
  | cons x answer => simp [turn, h, hcheck]

theorem turn_refused {answer : Text} {e : TelegramError} (h : ask attempt = .ok answer)
    (hne : answer ≠ []) (hcheck : check attempt c = (c', .error e)) :
    turn max ask check settle gaveUp attempt c =
      (c', if attempt < max then none else some (.error (gaveUp e))) := by
  cases answer with
  | nil => exact absurd rfl hne
  | cons x answer =>
    simp only [turn, h, hcheck]
    by_cases hlast : attempt < max
    · have hpos : max - attempt > 0 := by omega
      simp [hlast, hpos]
    · have hpos : ¬ max - attempt > 0 := by omega
      simp [hlast, hpos]

end

section

variable {d : LoginDialogue} {c : TelegramClient} {net : Network}

/-! ### The password -/

theorem checkPassword_accepted {token : PasswordToken} (hinner : c.inner = true)
    (htoken : c.passwordToken = some token) (hcheck : net.checkPassword = .ok ())
    (hsave : net.saveToFile = .ok ()) :
    c.checkPassword net = ({ c with passwordToken := none, connected := true },
      .ok .authenticated) := by
  simp [TelegramClient.checkPassword, hinner, htoken, hcheck, TelegramClient.authenticated,
    TelegramClient.saveSessionInner, hsave, Except.mapError, Except.map]

/-- However a check ends, the token is gone. -/
theorem checkPassword_refused (hinner : c.inner = true)
    (h : c.passwordToken = none ∨ ¬ (net.checkPassword = .ok () ∧ net.saveToFile = .ok ())) :
    ∃ c' e, c.checkPassword net = (c', .error e) ∧ c'.inner = true ∧ c'.passwordToken = none := by
  cases htoken : c.passwordToken with
  | none =>
    refine ⟨c, .api "no cached password token (call sign_in first)", ?_, hinner, htoken⟩
    simp [TelegramClient.checkPassword, hinner, htoken]
  | some token =>
    cases hcheck : net.checkPassword with
    | error e =>
      refine ⟨{ c with passwordToken := none }, .api s!"2FA password check failed: {e}", ?_, hinner,
        rfl⟩
      simp [TelegramClient.checkPassword, hinner, htoken, hcheck]
    | ok u =>
      cases hsave : net.saveToFile with
      | ok v => simp [htoken, hcheck, hsave] at h
      | error e =>
        refine ⟨{ c with passwordToken := none, connected := true },
          .session s!"save session: {e}", ?_, hinner, rfl⟩
        simp [TelegramClient.checkPassword, hinner, htoken, hcheck,
          TelegramClient.authenticated, TelegramClient.saveSessionInner, hsave, Except.mapError,
          Except.map]

/-- After a check that fails the loop goes on in vain. -/
theorem passwordTurn_spent (attempt : ℕ) (c : TelegramClient)
    (hc : c.inner = true ∧ c.passwordToken = none) :
    (d.passwordTurn attempt c).2 ≠ some (.ok ()) ∧
      (d.passwordTurn attempt c).1.inner = true ∧
      (d.passwordTurn attempt c).1.passwordToken = none := by
  unfold passwordTurn
  cases hask : d.password attempt with
  | error e => simp [turn_unread hask, hc]
  | ok password =>
    by_cases hempty : password = []
    · subst hempty
      simp [turn_empty hask, hc]
    · obtain ⟨c', e, hcheck, hc'⟩ := checkPassword_refused hc.1 (.inl hc.2)
      rw [turn_refused hask hempty hcheck]
      refine ⟨?_, hc'⟩
      split <;> simp

theorem handle2fa_succeeds_iff (hinner : c.inner = true) (htoken : c.passwordToken ≠ none) :
    (d.handle2fa c).2 = .ok () ↔ d.PasswordGiven := by
  rw [handle2fa, orBail_eq_ok]
  apply firstReturn_eq_some_iff (P := fun c => c.inner = true ∧ c.passwordToken ≠ none)
  · intro i c hc hempty
    rw [passwordTurn, turn_empty hempty]
    exact ⟨rfl, hc⟩
  · rintro i c ⟨hinner, htoken⟩ ⟨⟨password, hask, hne⟩, hcheck, hsave⟩
    obtain ⟨token, htoken⟩ := Option.ne_none_iff_exists'.1 htoken
    rw [passwordTurn, turn_answered hask hne (checkPassword_accepted hinner htoken hcheck hsave)]
    rfl
  · intro is i c hc hempty hnot
    cases hask : d.password i with
    | error e => simp [firstReturn, passwordTurn, turn_unread hask]
    | ok password =>
      have hne : password ≠ [] := fun h => hempty (by rw [hask, h])
      have hrefused : ¬ ((d.checking i).checkPassword = .ok () ∧
          (d.checking i).saveToFile = .ok ()) := fun h => hnot ⟨⟨password, hask, hne⟩, h⟩
      obtain ⟨c', e, hcheck, hc'⟩ := checkPassword_refused hc.1 (.inr hrefused)
      have hturn : d.passwordTurn i c = _ := turn_refused hask hne hcheck
      by_cases hlast : i < maxPasswordAttempts
      · rw [firstReturn_cons_none (by rw [hturn, if_pos hlast]), hturn]
        exact firstReturn_ne_some passwordTurn_spent is hc'
      · simp [firstReturn, hturn, hlast]
  · exact ⟨hinner, htoken⟩

/-! ### The code -/

theorem signIn_accepted (hinner : c.inner = true) (huser : net.signIn = .user)
    (hsave : net.saveToFile = .ok ()) :
    c.signIn net = ({ c with connected := true }, .ok .authenticated) := by
  simp [TelegramClient.signIn, hinner, huser, TelegramClient.authenticated,
    TelegramClient.saveSessionInner, hsave, Except.mapError, Except.map]

theorem signIn_password {token : PasswordToken} (hinner : c.inner = true)
    (h : net.signIn = .passwordRequired token) :
    c.signIn net = ({ c with passwordToken := some token }, .ok .awaitingPassword) := by
  simp [TelegramClient.signIn, hinner, h]

theorem signIn_refused (hinner : c.inner = true)
    (hpassword : ∀ token, net.signIn ≠ .passwordRequired token)
    (haccepted : ¬ (net.signIn = .user ∧ net.saveToFile = .ok ())) :
    ∃ c' e, c.signIn net = (c', .error e) ∧ c'.inner = true := by
  cases h : net.signIn with
  | passwordRequired token => exact absurd h (hpassword token)
  | invalidCode =>
    exact ⟨c, .api "invalid verification code", by simp [TelegramClient.signIn, hinner, h], hinner⟩
  | failed e =>
    exact ⟨c, .api s!"sign in: {e}", by simp [TelegramClient.signIn, hinner, h], hinner⟩
  | user =>
    cases hsave : net.saveToFile with
    | ok u => simp [h, hsave] at haccepted
    | error e =>
      refine ⟨{ c with connected := true }, .session s!"save session: {e}", ?_, hinner⟩
      simp [TelegramClient.signIn, hinner, h, TelegramClient.authenticated,
        TelegramClient.saveSessionInner, hsave, Except.mapError, Except.map]

theorem codeFails_iff {attempt : ℕ} :
    d.CodeFails attempt ↔ prompt (d.code attempt) = .ok [] ∨
      (∃ code, prompt (d.code attempt) = .ok code) ∧
        (∀ token, (d.signingIn attempt).signIn ≠ .passwordRequired token) ∧
        ¬ ((d.signingIn attempt).signIn = .user ∧ (d.signingIn attempt).saveToFile = .ok ()) := by
  unfold CodeFails
  constructor
  · rintro ⟨code, hask, rfl | h | ⟨e, h⟩ | ⟨h, e, hsave⟩⟩
    · exact .inl hask
    · exact .inr ⟨⟨code, hask⟩, by simp [h], by simp [h]⟩
    · exact .inr ⟨⟨code, hask⟩, by simp [h], by simp [h]⟩
    · exact .inr ⟨⟨code, hask⟩, by simp [h], by simp [hsave]⟩
  · rintro (hask | ⟨⟨code, hask⟩, hpassword, haccepted⟩)
    · exact ⟨[], hask, .inl rfl⟩
    · refine ⟨code, hask, .inr ?_⟩
      cases h : (d.signingIn attempt).signIn with
      | passwordRequired token => exact absurd h (hpassword token)
      | invalidCode => simp
      | failed e => simp
      | user =>
        cases hsave : (d.signingIn attempt).saveToFile with
        | ok u => simp [h, hsave] at haccepted
        | error e => simp

theorem codes_succeed_iff (hinner : c.inner = true) (attempts : List ℕ) :
    (firstReturn d.codeTurn attempts c).2 = some (.ok ()) ↔
      ∃ pre k post, attempts = pre ++ k :: post ∧
        (∀ j ∈ pre, d.CodeFails j ∧ (j < maxCodeAttempts ∨ prompt (d.code j) = .ok [])) ∧
        (d.CodeAccepted k ∨ d.PasswordAsked k ∧ d.PasswordGiven) := by
  apply firstReturn_eq_some_iff (P := fun c => c.inner = true)
  · rintro i c hinner ⟨hfails, hmore⟩
    by_cases hempty : prompt (d.code i) = .ok []
    · rw [codeTurn, turn_empty hempty]
      exact ⟨rfl, hinner⟩
    · obtain ⟨⟨code, hask⟩, hrefused⟩ := (codeFails_iff.1 hfails).resolve_left hempty
      have hne : code ≠ [] := fun h => hempty (by rw [hask, h])
      obtain ⟨c', e, hcheck, hinner'⟩ := signIn_refused hinner hrefused.1 hrefused.2
      rw [codeTurn, turn_refused hask hne hcheck, if_pos (hmore.resolve_right hempty)]
      exact ⟨rfl, hinner'⟩
  · rintro i c hinner (⟨⟨code, hask, hne⟩, huser, hsave⟩ |
      ⟨⟨⟨code, hask, hne⟩, token, htoken⟩, hgiven⟩)
    · rw [codeTurn, turn_answered hask hne (signIn_accepted hinner huser hsave)]
      rfl
    · rw [codeTurn, turn_answered hask hne (signIn_password hinner htoken)]
      have h2fa := (handle2fa_succeeds_iff (c := { c with passwordToken := some token }) hinner
        (by simp)).2 hgiven
      simp [settleCode, h2fa]
  · intro is i c hinner hgoes hsettles
    cases hask : prompt (d.code i) with
    | error e =>
      have hturn : d.codeTurn i c = _ := turn_unread hask
      simp [firstReturn, hturn]
    | ok code =>
      have hne : code ≠ [] := by
        rintro rfl
        exact hgoes ⟨codeFails_iff.2 (.inl hask), .inr hask⟩
      cases hsign : (d.signingIn i).signIn with
      | passwordRequired token =>
        have hturn : d.codeTurn i c = _ :=
          turn_answered hask hne (signIn_password hinner hsign)
        have hnot : ¬ d.PasswordGiven := fun h =>
          hsettles (.inr ⟨⟨⟨code, hask, hne⟩, token, hsign⟩, h⟩)
        have h2fa := mt (handle2fa_succeeds_iff
          (c := { c with passwordToken := some token }) hinner (by simp)).1 hnot
        simp [firstReturn, hturn, settleCode, h2fa]
      | _ =>
        have haccepted : ¬ ((d.signingIn i).signIn = .user ∧
            (d.signingIn i).saveToFile = .ok ()) := fun h =>
          hsettles (.inl ⟨⟨code, hask, hne⟩, h⟩)
        obtain ⟨c', e, hcheck, -⟩ := signIn_refused hinner (by simp [hsign]) haccepted
        have hturn : d.codeTurn i c = _ := turn_refused hask hne hcheck
        have hlast : ¬ i < maxCodeAttempts := fun hlt =>
          hgoes ⟨codeFails_iff.2 (.inr ⟨⟨code, hask⟩, by simp [hsign], haccepted⟩), .inl hlt⟩
        simp [firstReturn, hturn, hlast]
  · exact hinner

/-! ### The dialogue -/

theorem lt_of_loginAttempts {pre post : List ℕ} {k j : ℕ} (h : loginAttempts = pre ++ k :: post)
    (hj : j ∈ pre) : j < maxCodeAttempts := by
  have hsorted : (pre ++ k :: post).Pairwise (· < ·) := h ▸ by decide
  have hjk : j < k := (List.pairwise_append.1 hsorted).2.2 j hj k (by simp)
  have hk : k ∈ loginAttempts := h ▸ by simp
  have hle : ∀ n ∈ loginAttempts, n ≤ maxCodeAttempts := by decide
  exact lt_of_lt_of_le hjk (hle k hk)

theorem signInInteractively_succeeds_iff (hinner : c.inner = true) :
    (d.signInInteractively c).2 = .ok () ↔
      (∃ phone, prompt d.phone = .ok phone ∧ phone ≠ []) ∧
      (∃ token, d.requesting.requestLoginCode = .ok token) ∧
      ∃ pre k post, loginAttempts = pre ++ k :: post ∧ (∀ j ∈ pre, d.CodeFails j) ∧
        (d.CodeAccepted k ∨ d.PasswordAsked k ∧ d.PasswordGiven) := by
  unfold signInInteractively
  cases hphone : prompt d.phone with
  | error e => simp
  | ok phone =>
    cases phone with
    | nil => simp
    | cons x phone =>
      cases hrequest : d.requesting.requestLoginCode with
      | error e => simp [TelegramClient.requestLoginCode, hinner, hrequest, Except.mapError]
      | ok token =>
        simp only [TelegramClient.requestLoginCode, hinner, if_true, hrequest, Except.mapError,
          orBail_eq_ok, codes_succeed_iff hinner]
        constructor
        · rintro ⟨pre, k, post, heq, hpre, hk⟩
          exact ⟨⟨x :: phone, rfl, by simp⟩, ⟨token, rfl⟩, pre, k, post, heq,
            fun j hj => (hpre j hj).1, hk⟩
        · rintro ⟨-, -, pre, k, post, heq, hpre, hk⟩
          exact ⟨pre, k, post, heq,
            fun j hj => ⟨hpre j hj, .inl (lt_of_loginAttempts heq hj)⟩, hk⟩

/-- Signing in succeeds exactly for a session that is authorized already, or where a code is
    accepted or asks for the password before the attempts run out. Of the three attempts at the
    password only the first one that types something can succeed. -/
theorem login_succeeds_iff (apiId : ℤ) (apiHash : String) :
    (d.login apiId apiHash).2 = .ok () ↔
      TelegramClient.openSession d.connecting = .ok true ∨
      TelegramClient.openSession d.connecting = .ok false ∧
        (∃ phone, prompt d.phone = .ok phone ∧ phone ≠ []) ∧
        (∃ token, d.requesting.requestLoginCode = .ok token) ∧
        ∃ pre k post, loginAttempts = pre ++ k :: post ∧ (∀ j ∈ pre, d.CodeFails j) ∧
          (d.CodeAccepted k ∨ d.PasswordAsked k ∧ d.PasswordGiven) := by
  unfold login TelegramClient.connect
  cases hopen : TelegramClient.openSession d.connecting with
  | error e => simp
  | ok authorized =>
    cases authorized with
    | true => simp
    | false =>
      simp only [Bool.or_false, Bool.false_eq_true, if_false, Except.ok.injEq, false_or, true_and]
      exact signInInteractively_succeeds_iff rfl

end

/-! ## As a run of the client -/

section

variable {build : Overflow} {config : TelegramConfig} {d : LoginDialogue} {c : TelegramClient}

/-- A state of the client with no call under its lock. -/
def Idle (build : Overflow) (config : TelegramConfig) (c : TelegramClient) : Prop :=
  c.locked = false ∧ ∃ tasks, TelegramClient.Reachable build config ⟨c, tasks⟩

/-- A call that comes alone gets the lock at once. -/
theorem Idle.turn {call : TelegramCall} (hc : Idle build config c)
    (hphase : (c.enter call).phase = .waiting 0) (net : Network) :
    Idle build config (({ c with locked := true }).turn build net call 0).1.unlocked := by
  obtain ⟨hlocked, tasks, h⟩ := hc
  have henter := h.entered call
  rw [show c.enter call = ⟨call, .waiting 0⟩ from hphase ▸ rfl] at henter
  have hlock : TelegramClient.advance build .lock c ⟨call, .waiting 0⟩ =
      some ({ c with locked := true }, ⟨call, .working 0⟩) := by
    simp [TelegramClient.advance, hlocked]
  have hanswer : TelegramClient.advance build (.answer net) { c with locked := true }
      ⟨call, .working 0⟩ = _ := rfl
  exact ⟨rfl, _, (henter.act_last hlock).act_last hanswer⟩

theorem Idle.connect (hc : Idle build config c) (net : Network) :
    Idle build config (c.connect net).1 := by
  obtain ⟨hlocked, tasks, h⟩ := hc
  have henter := h.entered .connect
  unfold TelegramClient.connect
  cases hopen : TelegramClient.openSession net with
  | error e => exact ⟨hlocked, tasks, h⟩
  | ok authorized =>
    have hanswer : TelegramClient.advance build (.answer net) c (c.enter .connect) =
        some ({ c with connected := c.connected || authorized },
          ⟨.connect, .storing authorized⟩) := by
      simp [TelegramClient.advance, TelegramClient.enter, hopen]
    have hstore : TelegramClient.advance build .lock
        { c with connected := c.connected || authorized } ⟨.connect, .storing authorized⟩ =
        some ({ c with connected := c.connected || authorized, inner := true },
          ⟨.connect, .returned 0 (.ok (.auth
            (if authorized then .authenticated else .notAuthenticated)))⟩) := by
      simp [TelegramClient.advance, hlocked]
    exact ⟨hlocked, _, (henter.act_last hanswer).act_last hstore⟩

theorem signIn_idle (hlocked : c.locked = false) (net : Network) :
    (({ c with locked := true } : TelegramClient).signIn net).1.unlocked = (c.signIn net).1 := by
  obtain ⟨config, uploads, downloads, stats, connected, inner, locked, token⟩ := c
  obtain rfl : locked = false := hlocked
  unfold TelegramClient.signIn
  cases inner <;> cases net.signIn <;> rfl

theorem checkPassword_idle (hlocked : c.locked = false) (net : Network) :
    (({ c with locked := true } : TelegramClient).checkPassword net).1.unlocked =
      (c.checkPassword net).1 := by
  obtain ⟨config, uploads, downloads, stats, connected, inner, locked, token⟩ := c
  obtain rfl : locked = false := hlocked
  unfold TelegramClient.checkPassword
  cases inner <;> cases token <;> cases net.checkPassword <;> rfl

theorem idle_signIn (hc : Idle build config c) (net : Network) :
    Idle build config (c.signIn net).1 := by
  have hphase : (c.enter (.signIn ⟨"", ""⟩ "")).phase = .waiting 0 := rfl
  have h := hc.turn hphase net
  rwa [TelegramClient.turn, signIn_idle hc.1] at h

theorem idle_checkPassword (hc : Idle build config c) (net : Network) :
    Idle build config (c.checkPassword net).1 := by
  have hphase : (c.enter (.checkPassword "")).phase = .waiting 0 := rfl
  have h := hc.turn hphase net
  rwa [TelegramClient.turn, checkPassword_idle hc.1] at h

theorem idle_turn {max : ℕ} {ask : ℕ → Except String Text}
    {check : ℕ → TelegramClient → TelegramClient × Except TelegramError AuthState}
    {settle : AuthState → TelegramClient → TelegramClient × Except String Unit}
    {gaveUp : TelegramError → String}
    (hcheck : ∀ n c, Idle build config c → Idle build config (check n c).1)
    (hsettle : ∀ state c, Idle build config c → Idle build config (settle state c).1)
    (attempt : ℕ) (c : TelegramClient) (hc : Idle build config c) :
    Idle build config (turn max ask check settle gaveUp attempt c).1 := by
  have hnext := hcheck attempt c hc
  unfold LoginDialogue.turn
  cases ask attempt with
  | error e => exact hc
  | ok answer =>
    cases answer with
    | nil => exact hc
    | cons x answer =>
      cases hr : check attempt c with
      | mk c' r =>
        rw [hr] at hnext
        cases r with
        | ok state => exact hsettle state c' hnext
        | error e =>
          dsimp only
          split <;> exact hnext

theorem idle_handle2fa (hc : Idle build config c) : Idle build config (d.handle2fa c).1 := by
  apply firstReturn_keeps _ _ hc
  apply idle_turn
  · exact fun n c hc => idle_checkPassword hc _
  · intro state c hc
    cases state <;> exact hc

theorem idle_codes (hc : Idle build config c) :
    Idle build config (firstReturn d.codeTurn loginAttempts c).1 := by
  apply firstReturn_keeps _ _ hc
  apply idle_turn
  · exact fun n c hc => idle_signIn hc _
  · intro state c hc
    cases state with
    | awaitingPassword => exact idle_handle2fa hc
    | _ => exact hc

theorem idle_signInInteractively (hc : Idle build config c) :
    Idle build config (d.signInInteractively c).1 := by
  unfold signInInteractively
  cases prompt d.phone with
  | error e => exact hc
  | ok phone =>
    cases phone with
    | nil => exact hc
    | cons x phone =>
      cases c.requestLoginCode d.requesting with
      | error e => exact hc
      | ok token => exact idle_codes hc

/-- The dialogue leaves the client in a state that its calls, one after the other, bring about,
    so that what holds in every interleaving of calls holds here too. -/
theorem login_reachable (build : Overflow) (apiId : ℤ) (apiHash : String) (d : LoginDialogue) :
    Idle build { apiId := apiId, apiHash := apiHash } (d.login apiId apiHash).1 := by
  have hnew : Idle build { apiId := apiId, apiHash := apiHash }
      (TelegramClient.new { apiId := apiId, apiHash := apiHash }) := ⟨rfl, [], .start⟩
  have hconnect := hnew.connect d.connecting
  rw [login]
  cases hr : (TelegramClient.new { apiId := apiId, apiHash := apiHash }).connect d.connecting with
  | mk c r =>
    rw [hr] at hconnect
    cases r with
    | error e => simpa only [hr] using hconnect
    | ok state =>
      cases state with
      | notAuthenticated => simpa only [hr] using idle_signInInteractively hconnect
      | _ => simpa only [hr] using hconnect

end

end LoginDialogue
end TgCryptFs

import TgCryptFs.Api.Handlers
import TgCryptFs.Core.CreateVolume
import TgCryptFs.Library.Text

set_option autoImplicit false

/-!
# Requests, routes and the bearer token

CORS answers `OPTIONS` requests itself, and a path without a route is answered before anything asks
for the token. Everything else passes `require_auth` first, a method the route does not have
included.
-/
namespace TgCryptFs
namespace Http
open Library

inductive Method where
  | get | head | post | put | delete | options | other
deriving DecidableEq, Repr

structure Request where
  method : Method
  /-- `uri().path()`, with its escapes. -/
  path : String
  /-- The names in lower case. -/
  headers : List (String × Bytes)
  /-- What the `Json` extractor makes of the body, or the status it is rejected with. -/
  body : Except ℕ Json

/-- What the server's own code answers has a body. -/
structure Response where
  status : ℕ
  body : Option Json

/-! ## Errors -/

inductive ApiError where
  | volumeNotFound (volumeId : String)
  | volumeAlreadyExists (volumeId : String)
  | volumeIsMounted (volumeId : String)
  | volumeNotMounted (volumeId : String)
  | authRequired
  | telegram (message : String)
  | crypto (message : String)
  | storage (message : String)
  | invalidArgument (message : String)
  | sessionNotOpen (volumeId : String)
  | sessionAlreadyOpen (volumeId : String)
  | internal (message : String)
  | io (message : String)
deriving DecidableEq, Repr

structure ErrorResponse where
  error : String
  code : String
  suggestion : String
deriving DecidableEq, Repr

def ErrorResponse.toJson (r : ErrorResponse) : Json :=
  .object [("error", .string r.error), ("code", .string r.code), ("suggestion", .string r.suggestion)]

namespace ApiError

def statusCode : ApiError → ℕ
  | volumeNotFound _ => 404
  | volumeAlreadyExists _ | volumeIsMounted _ | sessionAlreadyOpen _ => 409
  | volumeNotMounted _ | sessionNotOpen _ | invalidArgument _ => 400
  | authRequired => 401
  | telegram _ => 502
  | crypto _ | storage _ | internal _ | io _ => 500

def suggestion : ApiError → String
  | volumeNotFound _ => "Check the volume ID with GET /api/v1/volumes"
  | volumeAlreadyExists _ => "Use a different name or delete the existing volume first"
  | volumeIsMounted _ => "Unmount the volume first with POST /api/v1/volumes/:id/unmount"
  | volumeNotMounted _ => "Mount the volume first with POST /api/v1/volumes/:id/mount"
  | authRequired => "Authenticate first with POST /api/v1/auth/session"
  | telegram _ => "Check your Telegram connection and try again"
  | crypto _ => "Verify your password is correct"
  | storage _ => "The storage backend encountered an error; check disk space"
  | sessionNotOpen _ => "Open the volume first with POST /api/v1/volumes/:id/open"
  | sessionAlreadyOpen _ =>
    "The volume is already open; close it first with POST /api/v1/volumes/:id/close"
  | invalidArgument _ => "Check the request body and query parameters"
  | internal _ => "An unexpected error occurred; check server logs for details"
  | io _ => "Check file permissions and available disk space"

def errorCode : ApiError → String
  | volumeNotFound _ => "VOLUME_NOT_FOUND"
  | volumeAlreadyExists _ => "VOLUME_EXISTS"
  | volumeIsMounted _ => "VOLUME_MOUNTED"
  | volumeNotMounted _ => "VOLUME_NOT_MOUNTED"
  | authRequired => "AUTH_REQUIRED"
  | telegram _ => "TELEGRAM_ERROR"
  | crypto _ => "CRYPTO_ERROR"
  | storage _ => "STORAGE_ERROR"
  | sessionNotOpen _ => "SESSION_NOT_OPEN"
  | sessionAlreadyOpen _ => "SESSION_ALREADY_OPEN"
  | invalidArgument _ => "INVALID_ARGUMENT"
  | internal _ => "INTERNAL_ERROR"
  | io _ => "IO_ERROR"

/-- `to_string`. -/
def message : ApiError → String
  | volumeNotFound v => "volume not found: " ++ v
  | volumeAlreadyExists v => "volume already exists: " ++ v
  | volumeIsMounted v => "volume is mounted: " ++ v
  | volumeNotMounted v => "volume is not mounted: " ++ v
  | authRequired => "authentication required"
  | telegram m => "telegram error: " ++ m
  | crypto m => "crypto error: " ++ m
  | storage m => "storage error: " ++ m
  | invalidArgument m => "invalid argument: " ++ m
  | sessionNotOpen v => "session not open: " ++ v
  | sessionAlreadyOpen v => "session already open: " ++ v
  | internal m => "internal error: " ++ m
  | io m => "io error: " ++ m

def toErrorResponse (e : ApiError) : ErrorResponse := ⟨e.message, e.errorCode, e.suggestion⟩

def intoResponse (e : ApiError) : Response := ⟨e.statusCode, some e.toErrorResponse.toJson⟩

end ApiError

/-! ## The bearer token -/

structure BearerAuth where
  tokenHash : Bytes
deriving DecidableEq

def constantTimeEq (a b : Bytes) : Bool :=
  if a.length ≠ b.length then false
  else (a.zip b).foldl (fun diff p => diff ||| (p.1 ^^^ p.2)) 0 == 0

/-- 32 bytes of the generator. -/
def generateToken (random : Bytes) : String := hexEncode random

/-- `HeaderValue::to_str`, for visible characters, blanks and tabs only. -/
def headerText (value : Bytes) : Option Text :=
  if value.all fun b => (32 ≤ b && b < 127) || b = 9 then some (value.map fun b => Char.ofNat b.toNat)
  else none

def extractBearerToken (r : Request) : Option String :=
  ((r.headers.lookup "authorization").bind headerText).bind fun value =>
    (Text.stripPrefix "Bearer ".toList value).map String.ofList

/-- The requests that anybody may make. -/
def Request.Public (r : Request) : Prop :=
  r.method = .get ∧ (r.path = "/api/v1/status" ∨ r.path = "/api/v1/version")

instance (r : Request) : Decidable r.Public := inferInstanceAs (Decidable (_ ∧ _))

section

variable [Primitives]

def BearerAuth.new (token : String) : BearerAuth := ⟨blake3 (utf8 token)⟩

def BearerAuth.verify (auth : BearerAuth) (candidate : String) : Bool :=
  constantTimeEq auth.tokenHash (blake3 (utf8 candidate))

/-- `auth` is the extension of the request. -/
def requireAuth (auth : Option BearerAuth) (r : Request) : Except ApiError Unit :=
  if r.Public then .ok ()
  else
    match auth with
    | none => .error (.internal "auth middleware misconfigured")
    | some auth =>
      match extractBearerToken r with
      | none => .error .authRequired
      | some token => if auth.verify token then .ok () else .error .authRequired

end

/-! ## Routes -/

/-- The handlers, with the parameter of the path. -/
inductive Endpoint where
  | status | version
  | loginStart | logout | authStatus
  | createVolume | listVolumes
  | info (volumeId : String) | deleteVolume (volumeId : String)
  | openVolume (volumeId : String) | closeVolume (volumeId : String)
  | mount (volumeId : String) | unmount (volumeId : String)
  | listShares (volumeId : String) | createShare | revokeShare (userId : String)
  | createInvite | acceptInvite (inviteId : String)
  | deadmanStatus | arm | disarm
deriving DecidableEq, Repr

structure Route where
  path : String
  method : Method
  handler : String → Endpoint

/-- Each route has at most one parameter. -/
def v1 : List Route :=
  [⟨"/status", .get, fun _ => .status⟩,
   ⟨"/version", .get, fun _ => .version⟩,
   ⟨"/auth/session", .post, fun _ => .loginStart⟩,
   ⟨"/auth/session", .delete, fun _ => .logout⟩,
   ⟨"/auth/status", .get, fun _ => .authStatus⟩,
   ⟨"/volumes", .post, fun _ => .createVolume⟩,
   ⟨"/volumes", .get, fun _ => .listVolumes⟩,
   ⟨"/volumes/:id", .get, .info⟩,
   ⟨"/volumes/:id", .delete, .deleteVolume⟩,
   ⟨"/volumes/:id/open", .post, .openVolume⟩,
   ⟨"/volumes/:id/close", .post, .closeVolume⟩,
   ⟨"/volumes/:id/mount", .post, .mount⟩,
   ⟨"/volumes/:id/unmount", .post, .unmount⟩,
   ⟨"/shares/volume/:volume_id", .get, .listShares⟩,
   ⟨"/shares", .post, fun _ => .createShare⟩,
   ⟨"/shares/:id", .delete, .revokeShare⟩,
   ⟨"/invites", .post, fun _ => .createInvite⟩,
   ⟨"/invites/:code/accept", .post, .acceptInvite⟩,
   ⟨"/deadman/status", .get, fun _ => .deadmanStatus⟩,
   ⟨"/deadman/arm", .post, fun _ => .arm⟩,
   ⟨"/deadman/disarm", .post, fun _ => .disarm⟩]

/-- The values of a route's parameters in a path. The last segment must not be empty. -/
def captures : List String → List String → Option (List String)
  | [], [] => some []
  | p :: ps, s :: ss =>
    if p.toList.head? = some ':' then
      if ps = [] ∧ s = "" then none else (captures ps ss).map (s :: ·)
    else if p = s then captures ps ss
    else none
  | _, _ => none

/-- What matches a path: the methods of a route, nested under `/api/v1`. -/
def matched (path : String) : List (Route × List String) :=
  v1.filterMap fun route =>
    (captures (pieces ("/api/v1" ++ route.path)) (pieces path)).map fun params => (route, params)

/-- A handler of `GET` serves `HEAD` as well. -/
def Method.serves (handler request : Method) : Bool :=
  request = handler || (handler = .get && request = .head)

def hexValue (b : UInt8) : Option UInt8 :=
  if 48 ≤ b ∧ b ≤ 57 then some (b - 48)
  else if 65 ≤ b ∧ b ≤ 70 then some (b - 55)
  else if 97 ≤ b ∧ b ≤ 102 then some (b - 87)
  else none

/-- An escape that is none stays as it is. -/
def percentDecode : Bytes → Bytes
  | 37 :: a :: b :: rest =>
    match hexValue a, hexValue b with
    | some x, some y => (x * 16 + y) :: percentDecode rest
    | _, _ => 37 :: percentDecode (a :: b :: rest)
  | c :: rest => c :: percentDecode rest
  | [] => []

/-- The parameter as the `Path` extractor gives it. -/
def pathParam : List String → Option String
  | [] => some ""
  | s :: _ => String.fromUTF8? ⟨(percentDecode (utf8 s)).toArray⟩

/-- The handler that is called, or the answer without one. -/
def dispatch [Primitives] (auth : Option BearerAuth) (r : Request) : Except Response Endpoint :=
  if r.method = .options then .error ⟨200, none⟩
  else
    match matched r.path with
    | [] => .error ⟨404, none⟩
    | routes =>
      match requireAuth auth r with
      | .error e => .error e.intoResponse
      | .ok _ =>
        match routes.find? fun route => route.1.method.serves r.method with
        | none => .error ⟨405, none⟩
        | some (route, params) =>
          match pathParam params with
          | none => .error ⟨400, none⟩
          | some param => .ok (route.handler param)

/-! ## What the token lets through -/

theorem foldl_or_xor_eq_zero (ps : List (UInt8 × UInt8)) (init : UInt8) :
    ps.foldl (fun diff p => diff ||| (p.1 ^^^ p.2)) init = 0 ↔ init = 0 ∧ ∀ p ∈ ps, p.1 = p.2 := by
  induction ps generalizing init with
  | nil => simp
  | cons p ps ih =>
    rw [List.foldl_cons, ih, UInt8.or_eq_zero_iff, UInt8.xor_eq_zero_iff, List.forall_mem_cons, and_assoc]

theorem constantTimeEq_iff {a b : Bytes} : constantTimeEq a b = true ↔ a = b := by
  unfold constantTimeEq
  split
  · rename_i hlength
    exact iff_of_false Bool.false_ne_true fun h => hlength (congrArg List.length h)
  · rename_i hlength
    rw [beq_iff_eq, foldl_or_xor_eq_zero]
    constructor
    · rintro ⟨-, h⟩
      exact eq_of_zip_eq (not_not.1 hlength) h
    · rintro rfl
      exact ⟨rfl, fun _ => zip_self_eq⟩

/-- A character that `to_str` lets through. -/
def Visible (c : Char) : Prop := 32 ≤ c.toNat ∧ c.toNat < 127

instance (c : Char) : Decidable (Visible c) := inferInstanceAs (Decidable (_ ∧ _))

theorem utf8EncodeChar_of_visible {c : Char} (h : Visible c) :
    String.utf8EncodeChar c = [c.val.toUInt8] := by
  apply String.utf8EncodeChar_eq_singleton
  rw [Char.utf8Size_eq_one_iff, UInt32.le_iff_toNat_le]
  have hlt : c.val.toNat < 127 := h.2
  exact hlt.le

theorem headerText_utf8 {s : String} (h : ∀ c ∈ s.toList, Visible c) :
    headerText (utf8 s) = some s.toList := by
  have hbytes : utf8 s = s.toList.map fun c => c.val.toUInt8 := by
    rw [utf8, List.map_eq_flatMap]
    exact List.flatMap_congr fun c hc => utf8EncodeChar_of_visible (h c hc)
  have hvalue : ∀ c ∈ s.toList, c.val.toUInt8.toNat = c.toNat := by
    intro c hc
    have hlt : c.val.toNat < 127 := (h c hc).2
    rw [UInt32.toNat_toUInt8]
    exact Nat.mod_eq_of_lt (by omega)
  have hvisible : (s.toList.map fun c => c.val.toUInt8).all
      (fun b => (32 ≤ b && b < 127) || b = 9) = true := by
    rw [List.all_map, List.all_eq_true]
    intro c hc
    have hc' := h c hc
    have hb := hvalue c hc
    simp only [Function.comp_apply, Bool.or_eq_true, Bool.and_eq_true, decide_eq_true_eq]
    refine .inl ⟨?_, ?_⟩
    · rw [UInt8.le_iff_toNat_le, hb]
      exact hc'.1
    · rw [UInt8.lt_iff_toNat_lt, hb]
      exact hc'.2
  rw [hbytes, headerText, if_pos hvisible, List.map_map]
  congr 1
  apply (List.map_congr_left fun c hc => ?_).trans (List.map_id s.toList)
  rw [Function.comp_apply, hvalue c hc]
  exact Char.ofNat_toNat c

theorem visible_hexEncode (random : Bytes) : ∀ c ∈ (hexEncode random).toList, Visible c := by
  have hdigit : ∀ n : UInt8, Visible (hexDigit n) := by
    intro n
    unfold hexDigit
    by_cases h : n.toNat < 16
    · have hall : ∀ i < 16, Visible ("0123456789abcdef".toList.getD i '0') := by decide
      exact hall _ h
    · rw [List.getD_eq_default _ _ (by simpa using h)]
      decide
  intro c hc
  rw [hexEncode, String.toList_ofList, List.mem_flatMap] at hc
  obtain ⟨x, -, hc⟩ := hc
  rcases List.mem_pair.1 hc with rfl | rfl
  · exact hdigit _
  · exact hdigit _

theorem matched_status : ∃ rest, matched "/api/v1/status" = (⟨"/status", .get, fun _ => .status⟩, []) :: rest :=
  ⟨_, rfl⟩

theorem matched_version : ∃ rest, matched "/api/v1/version" = (⟨"/version", .get, fun _ => .version⟩, []) :: rest :=
  ⟨_, rfl⟩

section

variable [Primitives] {auth : BearerAuth} {r : Request}

def Request.CarriesToken (auth : BearerAuth) (r : Request) : Prop :=
  ∃ token, extractBearerToken r = some token ∧ blake3 (utf8 token) = auth.tokenHash

theorem BearerAuth.verify_iff {candidate : String} :
    auth.verify candidate = true ↔ blake3 (utf8 candidate) = auth.tokenHash := by
  rw [verify, constantTimeEq_iff]
  exact eq_comm

theorem requireAuth_of_carries (h : r.CarriesToken auth) : requireAuth (some auth) r = .ok () := by
  obtain ⟨token, htoken, hhash⟩ := h
  unfold requireAuth
  split
  · rfl
  · rw [htoken]
    exact if_pos (BearerAuth.verify_iff.2 hhash)

theorem requireAuth_of_not_carries (h : ¬ r.CarriesToken auth) :
    requireAuth (some auth) r = if r.Public then .ok () else .error .authRequired := by
  unfold requireAuth
  split
  · rfl
  · dsimp only
    split
    · rfl
    · rename_i token htoken
      rw [if_neg]
      exact fun hverify => h ⟨token, htoken, BearerAuth.verify_iff.1 hverify⟩

/-- The token that the server prints lets in. -/
theorem carries_generated (random : Bytes)
    (h : r.headers.lookup "authorization" = some (utf8 ("Bearer " ++ generateToken random))) :
    r.CarriesToken (BearerAuth.new (generateToken random)) := by
  refine ⟨generateToken random, ?_, rfl⟩
  have hvisible : ∀ c ∈ ("Bearer " ++ generateToken random).toList, Visible c := by
    intro c hc
    rw [String.toList_append, List.mem_append] at hc
    rcases hc with hc | hc
    · have hall : ("Bearer ".toList.all fun c => Visible c) = true := by decide
      exact of_decide_eq_true (List.all_eq_true.1 hall c hc)
    · exact visible_hexEncode random c hc
  have hstrip : Text.stripPrefix "Bearer ".toList ("Bearer " ++ generateToken random).toList =
      some (generateToken random).toList := by
    rw [Text.stripPrefix_eq_some, String.toList_append]
  rw [extractBearerToken, h, Option.bind_some, headerText_utf8 hvisible, Option.bind_some, hstrip,
    Option.map_some, String.ofList_toList]

/-- What a request without the token comes to, which is the same for every token. -/
def withoutToken (r : Request) : Except Response Endpoint :=
  if r.method = .options then .error ⟨200, none⟩
  else if matched r.path = [] then .error ⟨404, none⟩
  else if r.method = .get ∧ r.path = "/api/v1/status" then .ok .status
  else if r.method = .get ∧ r.path = "/api/v1/version" then .ok .version
  else .error ApiError.authRequired.intoResponse

theorem dispatch_of_not_carries (h : ¬ r.CarriesToken auth) : dispatch (some auth) r = withoutToken r := by
  unfold dispatch withoutToken
  split
  · rfl
  split
  · rename_i hnone
    rw [if_pos hnone]
  rename_i hsome
  rw [if_neg hsome, requireAuth_of_not_carries h]
  by_cases hstatus : r.method = .get ∧ r.path = "/api/v1/status"
  · obtain ⟨rest, hmatched⟩ := matched_status
    rw [if_pos hstatus, if_pos ⟨hstatus.1, .inl hstatus.2⟩, hstatus.1, hstatus.2, hmatched]
    rfl
  by_cases hversion : r.method = .get ∧ r.path = "/api/v1/version"
  · obtain ⟨rest, hmatched⟩ := matched_version
    rw [if_neg hstatus, if_pos hversion, if_pos ⟨hversion.1, .inr hversion.2⟩, hversion.1, hversion.2, hmatched]
    rfl
  have hprivate : ¬ r.Public := by
    rintro ⟨hmethod, hpath | hpath⟩
    · exact hstatus ⟨hmethod, hpath⟩
    · exact hversion ⟨hmethod, hpath⟩
  rw [if_neg hstatus, if_neg hversion, if_neg hprivate]

end

end Http
end TgCryptFs

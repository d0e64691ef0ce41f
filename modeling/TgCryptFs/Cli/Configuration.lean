import Mathlib
import TgCryptFs.Library.Runs
import TgCryptFs.Telegram.Login

set_option autoImplicit false

/-!
# `tgcryptfs configure` and the environment of a command

The wizard writes a `.env` file, and every command reads it before its arguments are parsed. A
variable that the shell has set is left alone.
-/
namespace TgCryptFs
open Library

/-! ## Reading -/

/-- The environment of a process. -/
abbrev Environment := Text → Option Text

namespace Environment

/-- No variable has such a name. -/
def BadKey (key : Text) : Prop := key = [] ∨ '=' ∈ key ∨ '\x00' ∈ key

instance (key : Text) : Decidable (BadKey key) := inferInstanceAs (Decidable (_ ∨ _))

def varOs (key : Text) (env : Environment) : Option Text :=
  if BadKey key then none else env key

/-- `set_var`, which panics on what the system cannot hold. -/
def setVar (key value : Text) (env : Environment) : Option Environment :=
  if BadKey key ∨ '\x00' ∈ value then none
  else some (Function.update env key (some value))

/-- One line of the file. -/
def loadLine (env : Environment) (line : Text) : Option Environment :=
  let line := Text.trim line
  if line = [] ∨ ['#'] <+: line then some env
  else
    match Text.splitOnce '=' line with
    | none => some env
    | some (key, value) =>
      let key := Text.trim key
      let value := Text.trim value
      if env.varOs key = none then env.setVar key value else some env

/-- No content where there is no file, or one that cannot be read as a text. -/
def loadConfigEnv (content : Option Text) (env : Environment) : Option Environment :=
  match content with
  | none => some env
  | some t => (Text.lines t).foldlM loadLine env

end Environment

/-! ## Writing -/

/-- What the wizard has been told. -/
structure Configured where
  apiId : ℕ
  apiHash : Text
  volumesDir : Text
  sessionPath : Text
  deadmanTimeout : Option ℕ
deriving DecidableEq, Repr

namespace Configured

def assignment (key : String) (value : Text) : Text := key.toList ++ '=' :: value

/-- The variables of the file. -/
def assignments (a : Configured) : List (String × Text) :=
  [("TG_API_ID", Nat.toDigits 10 a.apiId), ("TG_API_HASH", a.apiHash),
    ("TGCRYPTFS_VOLUMES_DIR", a.volumesDir), ("TGCRYPTFS_SESSION_PATH", a.sessionPath)] ++
  match a.deadmanTimeout with
  | none => []
  | some timeout => [("TGCRYPTFS_DEADMAN_ENABLED", "true".toList),
      ("TGCRYPTFS_DEADMAN_TIMEOUT_HOURS", Nat.toDigits 10 timeout)]

def envLines (a : Configured) : List Text :=
  ["# TGCryptFS Configuration".toList, "# Generated by `tgcryptfs configure`".toList,
    "#".toList, "# Telegram API credentials - DO NOT share these".toList,
    assignment "TG_API_ID" (Nat.toDigits 10 a.apiId), assignment "TG_API_HASH" a.apiHash, [],
    "# Storage paths".toList, assignment "TGCRYPTFS_VOLUMES_DIR" a.volumesDir,
    assignment "TGCRYPTFS_SESSION_PATH" a.sessionPath] ++
  match a.deadmanTimeout with
  | none => []
  | some timeout => [[], "# Deadman switch".toList,
      assignment "TGCRYPTFS_DEADMAN_ENABLED" "true".toList,
      assignment "TGCRYPTFS_DEADMAN_TIMEOUT_HOURS" (Nat.toDigits 10 timeout)]

def envContent (a : Configured) : Text := Text.ofLines a.envLines

end Configured

/-! ## The wizard -/

/-- Reading a line: nothing is left behind the end of the input. -/
def readLine : List Text → Text × List Text
  | [] => ([], [])
  | line :: typed => (Text.trim line, typed)

def promptDefault (default : Text) (typed : List Text) : Text × List Text :=
  (if (readLine typed).1 = [] then default else (readLine typed).1, (readLine typed).2)

def promptYesNo (defaultYes : Bool) (typed : List Text) : Bool × List Text :=
  (if (readLine typed).1 = [] then defaultYes
    else (readLine typed).1.map Char.toLower ∈ ["y".toList, "yes".toList], (readLine typed).2)

/-- Asks until the number is right; at the end of the input it asks for ever. -/
def askApiId : List Text → Option (ℕ × List Text)
  | [] => none
  | line :: typed =>
    match Text.parseI32 (Text.trim line) with
    | some id => if id > 0 then some (id.toNat, typed) else askApiId typed
    | none => askApiId typed

def askApiHash : List Text → Option (Text × List Text)
  | [] => none
  | line :: typed =>
    if Text.trim line = [] then askApiHash typed
    else if Text.byteLength (Text.trim line) < 16 then askApiHash typed
    else some (Text.trim line, typed)

/-- The places that are offered. -/
structure ConfigureDefaults where
  volumesDir : Text
  sessionPath : Text

/-- From the question for the browser on to the one for the deadman switch. -/
def askConfiguration (defaults : ConfigureDefaults) (typed : List Text) :
    Option (Configured × List Text) := do
  let (apiId, typed) ← askApiId (promptYesNo true typed).2
  let (apiHash, typed) ← askApiHash typed
  let (volumesDir, typed) := promptDefault defaults.volumesDir typed
  let (sessionPath, typed) := promptDefault defaults.sessionPath typed
  let (enableDeadman, typed) := promptYesNo false typed
  if enableDeadman then
    let (timeout, typed) := promptDefault "72".toList typed
    return (⟨apiId, apiHash, volumesDir, sessionPath,
      some ((Text.parseU64 timeout).getD 72)⟩, typed)
  else return (⟨apiId, apiHash, volumesDir, sessionPath, none⟩, typed)

/-- What is shown of a file that is there already. -/
def shownLines (existing : Text) : List Text :=
  (Text.lines existing).filterMap fun line =>
    if ['#'] <+: line ∨ line = [] then none
    else (Text.splitOnce '=' line).map fun p =>
      if "HASH".toList <:+: p.1 ∨ "SECRET".toList <:+: p.1 then p.1 ++ "=****".toList else line

/-! ## The hint for the shell -/

inductive RcFile where
  | zshrc | fishConfig | bashrc
deriving DecidableEq, Repr

def detectShell (shell : Text) : RcFile :=
  if "zsh".toList <:+: shell then .zshrc
  else if "fish".toList <:+: shell then .fishConfig
  else .bashrc

def sourceSnippet (envDisplay : Text) : RcFile → Text
  | .fishConfig =>
    "# TGCryptFS credentials\nfor line in (string match -rv '^\\s*#|^\\s*$' < \"".toList ++
      envDisplay ++
      "\")\n    set -l kv (string split -m1 '=' -- $line)\n    set -gx $kv[1] $kv[2]\nend".toList
  | _ =>
    "# TGCryptFS credentials\nset -a; source \"".toList ++ envDisplay ++ "\"; set +a".toList

def sourceBlock (envDisplay : Text) (rc : RcFile) : Text :=
  '\n' :: sourceSnippet envDisplay rc ++ ['\n']

/-! ## Its runs -/

/-- The files that the wizard writes. -/
structure ConfigFiles where
  env : Option Text
  rc : RcFile → Text

/-- A run of the wizard: what is typed, the shell, and whether the directories can be made. -/
structure ConfigureRun where
  typed : List Text
  shell : Text
  dirsMade : Bool

/-- What a file of the shell is searched for. -/
def credentialsMark : Text := "TGCryptFS credentials".toList

def addToShell (envDisplay : Text) (shell : RcFile) (files : ConfigFiles) : ConfigFiles :=
  if credentialsMark <:+: files.rc shell then files
  else { files with
    rc := Function.update files.rc shell (files.rc shell ++ sourceBlock envDisplay shell) }

/-- A run that does not come to its end changes nothing. -/
def configure (defaults : ConfigureDefaults) (envDisplay : Text) (r : ConfigureRun)
    (files : ConfigFiles) : ConfigFiles :=
  let start : Bool × List Text :=
    match files.env with
    | none => (true, r.typed)
    | some _ => promptYesNo false r.typed
  if start.1 then
    match askConfiguration defaults start.2 with
    | none => files
    | some (a, typed) =>
      if r.dirsMade then
        let files := { files with env := some a.envContent }
        if (promptYesNo true typed).1 then addToShell envDisplay (detectShell r.shell) files
        else files
      else files
  else files

/-! ## The file read back -/

namespace Environment

/-- A name as the wizard writes them. -/
structure PlainKey (key : Text) : Prop where
  good : ¬ BadKey key
  solid : ∀ c ∈ key, Text.isWhitespace c = false
  plain : ¬ ['#'] <+: key

/-- A value that comes back as it was written. -/
structure PlainValue (value : Text) : Prop where
  oneLine : '\n' ∉ value
  trimmed : Text.trim value = value

/-- A variable that is set where the shell has not set it. -/
def setAbsent (env : Environment) (p : Text × Text) : Option Environment :=
  if env p.1 = none then
    if '\x00' ∈ p.2 then none else some (Function.update env p.1 (some p.2))
  else some env

variable {env : Environment} {key value : Text}

theorem loadLine_comment {line : Text} (h : Text.trim line = [] ∨ ['#'] <+: Text.trim line) :
    loadLine env line = some env := by
  simp [loadLine, h]

theorem PlainKey.trim (h : PlainKey key) : Text.trim key = key := by
  apply Text.trim_of_solid
  · exact fun c hc => h.solid c (List.mem_of_head? hc)
  · exact fun c hc => h.solid c (List.mem_of_getLast? hc)

theorem solidEnd_assigned (hvalue : PlainValue value) (key : Text) :
    Text.SolidEnd (key ++ '=' :: value) := by
  apply Text.SolidEnd.append_left _ (by simp)
  cases hv : value with
  | nil => simpa using Text.solidEnd_concat (c := '=') (by decide) []
  | cons c rest =>
    have hsolid : Text.SolidEnd value := hvalue.trimmed ▸ Text.solidEnd_trim value
    simpa [hv] using hsolid.append_left (by simp [hv]) ['=']

theorem trim_assigned (hkey : PlainKey key) (hvalue : PlainValue value) :
    Text.trim (key ++ '=' :: value) = key ++ '=' :: value := by
  apply Text.trim_of_solid _ (solidEnd_assigned hvalue key)
  intro c hc
  cases key with
  | nil => exact absurd (.inl rfl) hkey.good
  | cons k rest =>
    obtain rfl : k = c := by simpa using hc
    exact hkey.solid k (by simp)

theorem loadLine_assigned (hkey : PlainKey key) (hvalue : PlainValue value) :
    loadLine env (key ++ '=' :: value) = setAbsent env (key, value) := by
  have hsplit : Text.splitOnce '=' (key ++ '=' :: value) = some (key, value) :=
    Text.splitOnce_append (fun h => hkey.good (.inr (.inl h))) value
  have hcomment : ¬ ['#'] <+: key ++ '=' :: value := by
    cases key with
    | nil => exact absurd (.inl rfl) hkey.good
    | cons k rest => simpa using hkey.plain
  have hne : key ++ '=' :: value ≠ [] := by simp
  simp only [loadLine, trim_assigned hkey hvalue, hne, hcomment, or_self, if_false, hsplit,
    hkey.trim, hvalue.trimmed, varOs, setVar, hkey.good, false_or, setAbsent]

/-- All that the variables of a list with different names do. -/
theorem foldlM_setAbsent {ps : List (Text × Text)} (hkeys : (ps.map Prod.fst).Nodup)
    (env : Environment) :
    ps.foldlM setAbsent env =
      if ∃ p ∈ ps, env p.1 = none ∧ '\x00' ∈ p.2 then none
      else some fun key => (env key).or (ps.lookup key) := by
  induction ps generalizing env with
  | nil => simp [pure]
  | cons p ps ih =>
    obtain ⟨hfresh, hkeys⟩ : p.1 ∉ ps.map Prod.fst ∧ (ps.map Prod.fst).Nodup := by
      simpa using hkeys
    have hother : ∀ q ∈ ps, q.1 ≠ p.1 := fun q hq heq =>
      hfresh (heq ▸ List.mem_map_of_mem hq)
    have hlookup : ∀ key, (p :: ps).lookup key = if key = p.1 then some p.2 else ps.lookup key := by
      intro key
      obtain ⟨k, v⟩ := p
      by_cases hkey : key = k
      · simp [List.lookup, hkey]
      · have hbeq : (key == k) = false := by simpa using hkey
        simp [List.lookup, hbeq, hkey]
    rw [List.foldlM_cons]
    by_cases hset : env p.1 = none
    · by_cases hnul : '\x00' ∈ p.2
      · simp [setAbsent, hset, hnul]
      · have hsame : ∀ q ∈ ps, Function.update env p.1 (some p.2) q.1 = env q.1 := fun q hq =>
          Function.update_of_ne (hother q hq) _ _
        have hpanic : (∃ q ∈ ps, Function.update env p.1 (some p.2) q.1 = none ∧ '\x00' ∈ q.2) ↔
            ∃ q ∈ p :: ps, env q.1 = none ∧ '\x00' ∈ q.2 := by
          simp only [List.mem_cons, exists_eq_or_imp, hnul, and_false, false_or]
          exact exists_congr fun q => and_congr_right fun hq => by rw [hsame q hq]
        simp only [setAbsent, hset, if_true, hnul, if_false, Option.bind_eq_bind, Option.bind_some,
          ih hkeys, hpanic]
        congr 2
        funext key
        rw [hlookup]
        by_cases hkey : key = p.1
        · subst hkey
          simp [hset]
        · simp [hkey]
    · have hpanic : (∃ q ∈ ps, env q.1 = none ∧ '\x00' ∈ q.2) ↔
          ∃ q ∈ p :: ps, env q.1 = none ∧ '\x00' ∈ q.2 := by
        simp [hset]
      simp only [setAbsent, hset, if_false, Option.bind_eq_bind, Option.bind_some, ih hkeys, hpanic]
      congr 2
      funext key
      rw [hlookup]
      by_cases hkey : key = p.1
      · subst hkey
        obtain ⟨v, hv⟩ := Option.ne_none_iff_exists'.1 hset
        simp [hv]
      · simp [hkey]

theorem lookup_of_mem {ps : List (Text × Text)} (hkeys : (ps.map Prod.fst).Nodup)
    {p : Text × Text} (hp : p ∈ ps) : ps.lookup p.1 = some p.2 := by
  obtain ⟨pre, post, rfl⟩ := List.append_of_mem hp
  rw [List.map_append, List.map_cons] at hkeys
  apply List.lookup_eq_some_iff.2
  refine ⟨pre, post, rfl, fun q hq => ?_⟩
  have hne := (List.nodup_append.1 hkeys).2.2 q.1 (List.mem_map_of_mem hq) p.1 (by simp)
  simpa using Ne.symm hne

end Environment

namespace Configured

/-- What the wizard makes sure of. -/
structure Sound (a : Configured) : Prop where
  apiId : 0 < a.apiId ∧ a.apiId < 2 ^ 31
  apiHash : Environment.PlainValue a.apiHash
  hashLength : 16 ≤ Text.byteLength a.apiHash
  volumesDir : Environment.PlainValue a.volumesDir
  sessionPath : Environment.PlainValue a.sessionPath

/-- The variables under the names that the environment has for them. -/
def pairs (a : Configured) : List (Text × Text) :=
  a.assignments.map fun p => (p.1.toList, p.2)

theorem plainValue_toDigits (n : ℕ) : Environment.PlainValue (Nat.toDigits 10 n) := by
  have hsolid : ∀ c ∈ Nat.toDigits 10 n, Text.isWhitespace c = false := fun c hc =>
    Text.isWhitespace_of_isDigit (Text.isDigit_of_mem_toDigits hc)
  constructor
  · exact fun h => absurd (hsolid _ h) (by decide)
  · apply Text.trim_of_solid
    · exact fun c hc => hsolid c (List.mem_of_head? hc)
    · exact fun c hc => hsolid c (List.mem_of_getLast? hc)

def keys : List String :=
  ["TG_API_ID", "TG_API_HASH", "TGCRYPTFS_VOLUMES_DIR", "TGCRYPTFS_SESSION_PATH",
    "TGCRYPTFS_DEADMAN_ENABLED", "TGCRYPTFS_DEADMAN_TIMEOUT_HOURS"]

theorem exists_key {a : Configured} {p : Text × Text} (hp : p ∈ a.pairs) :
    ∃ key ∈ keys, p.1 = key.toList := by
  have hlisted : ∀ q ∈ a.assignments, q.1 ∈ keys := by
    unfold assignments
    cases a.deadmanTimeout <;> simp [keys]
  obtain ⟨q, hq, rfl⟩ := List.mem_map.1 hp
  exact ⟨q.1, hlisted q hq, rfl⟩

theorem plainKey_pairs (a : Configured) : ∀ p ∈ a.pairs, Environment.PlainKey p.1 := by
  have hkeys : ∀ key ∈ keys, ¬ Environment.BadKey key.toList ∧
      (key.toList.all fun c => Text.isWhitespace c = false) = true ∧ ¬ ['#'] <+: key.toList := by
    decide +kernel
  intro p hp
  obtain ⟨key, hkey, heq⟩ := exists_key hp
  obtain ⟨hgood, hall, hplain⟩ := hkeys key hkey
  have hsolid : ∀ c ∈ key.toList, Text.isWhitespace c = false := fun c hc =>
    of_decide_eq_true (List.all_eq_true.1 hall c hc)
  exact heq ▸ ⟨hgood, hsolid, hplain⟩

theorem plainValue_pairs {a : Configured} (ha : a.Sound) :
    ∀ p ∈ a.pairs, Environment.PlainValue p.2 := by
  have htrue : Environment.PlainValue "true".toList := ⟨by decide, by decide⟩
  intro p hp
  obtain ⟨q, hq, rfl⟩ := List.mem_map.1 hp
  unfold assignments at hq
  obtain hq | hq := List.mem_append.1 hq
  · simp only [List.mem_cons, List.not_mem_nil, or_false] at hq
    obtain rfl | rfl | rfl | rfl := hq
    · exact plainValue_toDigits a.apiId
    · exact ha.apiHash
    · exact ha.volumesDir
    · exact ha.sessionPath
  · cases htimeout : a.deadmanTimeout with
    | none => simp [htimeout] at hq
    | some timeout =>
      simp only [htimeout, List.mem_cons, List.not_mem_nil, or_false] at hq
      obtain rfl | rfl := hq
      · exact htrue
      · exact plainValue_toDigits timeout

theorem nodup_pairs (a : Configured) : (a.pairs.map Prod.fst).Nodup := by
  have hnames : (a.assignments.map Prod.fst).Nodup := by
    have hkeys : keys.Nodup := by decide +kernel
    unfold assignments
    cases a.deadmanTimeout with
    | none => exact hkeys.sublist (List.take_sublist 4 keys)
    | some timeout => exact hkeys
  have hpairs : a.pairs.map Prod.fst = (a.assignments.map Prod.fst).map String.toList := by
    simp [pairs]
  rw [hpairs]
  exact List.Nodup.map (fun _ _ => String.toList_injective) hnames

/-- The lines of the file that set nothing. -/
def comments : List Text :=
  [[], "# TGCryptFS Configuration".toList, "# Generated by `tgcryptfs configure`".toList,
    "#".toList, "# Telegram API credentials - DO NOT share these".toList,
    "# Storage paths".toList, "# Deadman switch".toList]

theorem comments_plain : ∀ line ∈ comments,
    '\n' ∉ line ∧ Text.trim line = line ∧ (line = [] ∨ ['#'] <+: line) := by
  decide +kernel

theorem loadLine_comments {env : Environment} {line : Text} (h : line ∈ comments) :
    Environment.loadLine env line = some env := by
  obtain ⟨-, htrim, hcomment⟩ := comments_plain line h
  exact Environment.loadLine_comment (htrim.symm ▸ hcomment)

/-- Lines that set the variables of a list, one after the other. -/
inductive Setting : List Text → List (Text × Text) → Prop where
  | done : Setting [] []
  | skip {line : Text} {ls : List Text} {ps : List (Text × Text)} (hline : line ∈ comments)
      (h : Setting ls ps) : Setting (line :: ls) ps
  | assign {key value : Text} {ls : List Text} {ps : List (Text × Text)} (h : Setting ls ps) :
      Setting ((key ++ '=' :: value) :: ls) ((key, value) :: ps)

theorem Setting.append {ls ls' : List Text} {ps ps' : List (Text × Text)} (h : Setting ls ps)
    (h' : Setting ls' ps') : Setting (ls ++ ls') (ps ++ ps') := by
  induction h with
  | done => exact h'
  | skip hline _ ih => exact .skip hline ih
  | assign _ ih => exact .assign ih

theorem setting_envLines (a : Configured) : Setting a.envLines a.pairs := by
  rw [pairs, assignments, List.map_append]
  apply Setting.append
  · have hhead : Setting (comments.drop 1 |>.take 4) [] :=
      .skip (by decide) (.skip (by decide) (.skip (by decide) (.skip (by decide) .done)))
    exact hhead.append
      (.assign (.assign (.skip (by decide) (.skip (by decide) (.assign (.assign .done))))))
  · cases a.deadmanTimeout with
    | none => exact .done
    | some timeout => exact .skip (by decide) (.skip (by decide) (.assign (.assign .done)))

theorem Setting.plain {ls : List Text} {ps : List (Text × Text)} (h : Setting ls ps)
    (hkey : ∀ p ∈ ps, Environment.PlainKey p.1) (hvalue : ∀ p ∈ ps, Environment.PlainValue p.2) :
    ∀ line ∈ ls, '\n' ∉ line ∧ Text.SolidEnd line := by
  induction h with
  | done => simp
  | @skip line ls ps hline _ ih =>
    obtain ⟨hone, htrim, -⟩ := comments_plain line hline
    simpa [hone, htrim ▸ Text.solidEnd_trim line] using ih hkey hvalue
  | @assign key value ls ps _ ih =>
    obtain ⟨hkey₁, hkeys⟩ := List.forall_mem_cons.1 hkey
    obtain ⟨hvalue₁, hvalues⟩ := List.forall_mem_cons.1 hvalue
    have hbreak : '\n' ∉ key := fun h => absurd (hkey₁.solid _ h) (by decide)
    have hend := Environment.solidEnd_assigned hvalue₁ key
    simpa [hbreak, hvalue₁.oneLine, hend] using ih hkeys hvalues

theorem Setting.foldlM {ls : List Text} {ps : List (Text × Text)} (h : Setting ls ps)
    (hkey : ∀ p ∈ ps, Environment.PlainKey p.1) (hvalue : ∀ p ∈ ps, Environment.PlainValue p.2)
    (env : Environment) :
    ls.foldlM Environment.loadLine env = ps.foldlM Environment.setAbsent env := by
  induction h generalizing env with
  | done => rfl
  | skip hline _ ih =>
    rw [List.foldlM_cons, loadLine_comments hline]
    exact ih hkey hvalue env
  | assign _ ih =>
    obtain ⟨hkey₁, hkeys⟩ := List.forall_mem_cons.1 hkey
    obtain ⟨hvalue₁, hvalues⟩ := List.forall_mem_cons.1 hvalue
    rw [List.foldlM_cons, List.foldlM_cons, Environment.loadLine_assigned hkey₁ hvalue₁]
    exact congrArg _ (funext fun env => ih hkeys hvalues env)

theorem lines_envContent {a : Configured} (ha : a.Sound) :
    Text.lines a.envContent = a.envLines :=
  Text.lines_ofLines ((setting_envLines a).plain (plainKey_pairs a) (plainValue_pairs ha))

/-- What a command finds after the wizard: what the shell has set, and the configured values for
    the rest. It stops where one of these has a NUL. -/
theorem loadConfigEnv_envContent {a : Configured} (ha : a.Sound) (env : Environment) :
    Environment.loadConfigEnv (some a.envContent) env =
      if ∃ p ∈ a.pairs, env p.1 = none ∧ '\x00' ∈ p.2 then none
      else some fun key => (env key).or (a.pairs.lookup key) := by
  rw [Environment.loadConfigEnv, lines_envContent ha,
    (setting_envLines a).foldlM (plainKey_pairs a) (plainValue_pairs ha)]
  exact Environment.foldlM_setAbsent (nodup_pairs a) env

end Configured
/-! ## The runs of the wizard -/

section

variable {typed rest : List Text}

theorem plainValue_trim {line : Text} (h : '\n' ∉ line) :
    Environment.PlainValue (Text.trim line) := by
  refine ⟨fun hbreak => h ?_, Text.trim_trim line⟩
  obtain ⟨pre, post, -, -, heq⟩ := Text.exists_trim line
  rw [heq]
  simp [hbreak]

theorem readLine_plain (htyped : ∀ line ∈ typed, '\n' ∉ line) :
    Environment.PlainValue (readLine typed).1 ∧ (readLine typed).2 ⊆ typed := by
  cases typed with
  | nil => exact ⟨⟨by simp [readLine], by simp [readLine, Text.trim]⟩, by simp [readLine]⟩
  | cons line typed => exact ⟨plainValue_trim (htyped line (by simp)), by simp [readLine]⟩

theorem promptDefault_plain {default : Text} (hdefault : Environment.PlainValue default)
    (htyped : ∀ line ∈ typed, '\n' ∉ line) :
    Environment.PlainValue (promptDefault default typed).1 ∧
      (promptDefault default typed).2 ⊆ typed := by
  obtain ⟨hplain, hrest⟩ := readLine_plain htyped
  refine ⟨?_, hrest⟩
  unfold promptDefault
  split
  · exact hdefault
  · exact hplain

theorem askApiId_eq_some {id : ℕ} (h : askApiId typed = some (id, rest)) :
    0 < id ∧ id < 2 ^ 31 ∧ rest ⊆ typed := by
  induction typed with
  | nil => cases h
  | cons line typed ih =>
    rw [askApiId] at h
    cases hparse : Text.parseI32 (Text.trim line) with
    | none =>
      simp only [hparse] at h
      obtain ⟨hpos, hlt, hsub⟩ := ih h
      exact ⟨hpos, hlt, List.subset_cons_of_subset _ hsub⟩
    | some n =>
      simp only [hparse] at h
      split at h
      · rename_i hn
        obtain ⟨rfl, rfl⟩ : n.toNat = id ∧ typed = rest := by simpa using h
        have hlt := Text.parseI32_lt hparse
        exact ⟨by omega, by omega, by simp⟩
      · obtain ⟨hpos, hlt, hsub⟩ := ih h
        exact ⟨hpos, hlt, List.subset_cons_of_subset _ hsub⟩

theorem askApiHash_eq_some {hash : Text} (htyped : ∀ line ∈ typed, '\n' ∉ line)
    (h : askApiHash typed = some (hash, rest)) :
    Environment.PlainValue hash ∧ 16 ≤ Text.byteLength hash ∧ rest ⊆ typed := by
  induction typed with
  | nil => cases h
  | cons line typed ih =>
    obtain ⟨hline, htyped⟩ := List.forall_mem_cons.1 htyped
    rw [askApiHash] at h
    split_ifs at h with hempty hshort
    · obtain ⟨hplain, hlong, hsub⟩ := ih htyped h
      exact ⟨hplain, hlong, List.subset_cons_of_subset _ hsub⟩
    · obtain ⟨hplain, hlong, hsub⟩ := ih htyped h
      exact ⟨hplain, hlong, List.subset_cons_of_subset _ hsub⟩
    · obtain ⟨rfl, rfl⟩ : Text.trim line = hash ∧ typed = rest := by simpa using h
      exact ⟨plainValue_trim hline, by omega, by simp⟩

/-- The places that are offered can be written down. -/
structure ConfigureDefaults.Plain (defaults : ConfigureDefaults) : Prop where
  volumesDir : Environment.PlainValue defaults.volumesDir
  sessionPath : Environment.PlainValue defaults.sessionPath

theorem askConfiguration_sound {defaults : ConfigureDefaults} (hdefaults : defaults.Plain)
    (htyped : ∀ line ∈ typed, '\n' ∉ line) {a : Configured}
    (h : askConfiguration defaults typed = some (a, rest)) : a.Sound := by
  have hnarrow : ∀ {ls : List Text}, ls ⊆ typed → ∀ line ∈ ls, '\n' ∉ line :=
    fun hsub line hline => htyped line (hsub hline)
  have hbrowser := (readLine_plain htyped).2
  obtain ⟨⟨apiId, typed₁⟩, hid, h⟩ := Option.bind_eq_some_iff.1 h
  obtain ⟨hpos, hlt, hsub₁⟩ := askApiId_eq_some hid
  have hsub₁ : typed₁ ⊆ typed := List.Subset.trans hsub₁ hbrowser
  obtain ⟨⟨apiHash, typed₂⟩, hhash, h⟩ := Option.bind_eq_some_iff.1 h
  obtain ⟨hplain, hlong, hsub₂⟩ := askApiHash_eq_some (hnarrow hsub₁) hhash
  have hsub₂ : typed₂ ⊆ typed := List.Subset.trans hsub₂ hsub₁
  obtain ⟨hvolumes, hsub₃⟩ := promptDefault_plain hdefaults.volumesDir (hnarrow hsub₂)
  obtain ⟨hsession, -⟩ := promptDefault_plain hdefaults.sessionPath
    (hnarrow (List.Subset.trans hsub₃ hsub₂))
  dsimp only at h
  split_ifs at h <;> cases h <;> exact ⟨⟨hpos, hlt⟩, hplain, hlong, hvolumes, hsession⟩

end

section

variable {defaults : ConfigureDefaults} {envDisplay : Text} {files : ConfigFiles}

/-- All that a run of the wizard does. -/
theorem configure_cases (hdefaults : defaults.Plain) (envDisplay : Text) (r : ConfigureRun)
    (htyped : ∀ line ∈ r.typed, '\n' ∉ line) (files : ConfigFiles) :
    configure defaults envDisplay r files = files ∨
      ∃ a : Configured, a.Sound ∧
        (configure defaults envDisplay r files = { files with env := some a.envContent } ∨
          configure defaults envDisplay r files =
            addToShell envDisplay (detectShell r.shell) { files with env := some a.envContent }) := by
  have hstart : (promptYesNo false r.typed).2 ⊆ r.typed := (readLine_plain htyped).2
  unfold configure
  extract_lets start
  have hstart : ∀ line ∈ start.2, '\n' ∉ line := by
    intro line hline
    apply htyped
    simp only [start] at hline
    cases henv : files.env with
    | none => simpa [henv] using hline
    | some t => exact hstart (by simpa [henv] using hline)
  cases start.1 with
  | false => simp
  | true =>
    cases hask : askConfiguration defaults start.2 with
    | none => simp
    | some answer =>
      obtain ⟨a, rest⟩ := answer
      have ha := askConfiguration_sound hdefaults hstart hask
      by_cases hdirs : r.dirsMade
      · by_cases hadd : (promptYesNo true rest).1
        · exact .inr ⟨a, ha, .inr (by simp [hdirs, hadd])⟩
        · exact .inr ⟨a, ha, .inl (by simp [hdirs, hadd])⟩
      · simp [hdirs]

theorem mark_sourceBlock (envDisplay : Text) (rc : RcFile) :
    credentialsMark <:+: sourceBlock envDisplay rc := by
  have hhead : ∃ head tail, sourceSnippet envDisplay rc = head ++ tail ∧
      credentialsMark <:+: head := by
    cases rc <;> exact ⟨_, _, List.append_assoc _ _ _, by decide +kernel⟩
  obtain ⟨head, tail, hsnippet, hmark⟩ := hhead
  have hblock : sourceBlock envDisplay rc = ['\n'] ++ head ++ (tail ++ ['\n']) := by
    simp [sourceBlock, hsnippet]
  rw [hblock]
  exact hmark.trans (List.infix_append _ _ _)

/-- A file of the shell is as it was, or has got the block for it once. -/
def Hinted (envDisplay : Text) (rc rc' : RcFile → Text) : Prop :=
  ∀ shell, rc' shell = rc shell ∨
    ¬ credentialsMark <:+: rc shell ∧ rc' shell = rc shell ++ sourceBlock envDisplay shell

theorem hinted_addToShell {rc : RcFile → Text} (h : Hinted envDisplay rc files.rc)
    (shell : RcFile) : Hinted envDisplay rc (addToShell envDisplay shell files).rc := by
  unfold addToShell
  split
  · exact h
  · rename_i hmark
    intro other
    by_cases hshell : other = shell
    · subst hshell
      obtain hsame | ⟨-, hadded⟩ := h other
      · exact .inr ⟨hsame ▸ hmark, by simp [hsame]⟩
      · refine absurd ((mark_sourceBlock envDisplay other).trans ?_) hmark
        rw [hadded]
        exact (List.suffix_append _ _).isInfix
    · simpa [hshell] using h other

/-- The arguments of `auth login`: the flag, then the variable, then what was built in. A variable
    that is no number ends the command. -/
def loginApiId (builtin : Option Text) (flag : Option ℤ) (env : Environment) : Option ℤ :=
  match flag with
  | some id => some id
  | none =>
    match env "TG_API_ID".toList with
    | some t => Text.parseI32 t
    | none => builtin.bind Text.parseI32

def loginApiHash (builtin flag : Option Text) (env : Environment) : Option Text :=
  (flag.or (env "TG_API_HASH".toList)).or builtin

/-- What the file of a wizard's run is to the commands that come after it. -/
structure Configured.Serves (a : Configured) (content : Text) : Prop where
  loads : ∀ env, Environment.loadConfigEnv (some content) env =
    if ∃ p ∈ a.pairs, env p.1 = none ∧ '\x00' ∈ p.2 then none
    else some fun key => (env key).or (a.pairs.lookup key)
  login : ∀ env env', Environment.loadConfigEnv (some content) env = some env' →
    env "TG_API_ID".toList = none → env "TG_API_HASH".toList = none →
    ∀ builtin builtin', loginApiId builtin none env' = some (a.apiId : ℤ) ∧
      loginApiHash builtin' none env' = some a.apiHash
  shown : shownLines content = a.pairs.map fun p =>
    if p.1 = "TG_API_HASH".toList then p.1 ++ "=****".toList else p.1 ++ '=' :: p.2

theorem Configured.Setting.shown {ls : List Text} {ps : List (Text × Text)}
    (h : Configured.Setting ls ps) (hkey : ∀ p ∈ ps, Environment.PlainKey p.1) :
    (ls.filterMap fun line =>
      if ['#'] <+: line ∨ line = [] then none
      else (Text.splitOnce '=' line).map fun p =>
        if "HASH".toList <:+: p.1 ∨ "SECRET".toList <:+: p.1 then p.1 ++ "=****".toList
        else line) =
      ps.map fun p =>
        if "HASH".toList <:+: p.1 ∨ "SECRET".toList <:+: p.1 then p.1 ++ "=****".toList
        else p.1 ++ '=' :: p.2 := by
  induction h with
  | done => rfl
  | @skip line ls ps hline _ ih =>
    obtain ⟨-, -, hcomment⟩ := Configured.comments_plain line hline
    rw [List.filterMap_cons_none (by simp [hcomment.symm]), ih hkey]
  | @assign key value ls ps _ ih =>
    obtain ⟨hkey₁, hkeys⟩ := List.forall_mem_cons.1 hkey
    have hsplit : Text.splitOnce '=' (key ++ '=' :: value) = some (key, value) :=
      Text.splitOnce_append (fun h => hkey₁.good (.inr (.inl h))) value
    have hcomment : ¬ ['#'] <+: key ++ '=' :: value := by
      cases key with
      | nil => exact absurd (.inl rfl) hkey₁.good
      | cons k rest => simpa using hkey₁.plain
    rw [List.map_cons, List.filterMap_cons_some (b := if "HASH".toList <:+: key ∨
      "SECRET".toList <:+: key then key ++ "=****".toList else key ++ '=' :: value)
      (by simp [hcomment, hsplit]), ih hkeys]

theorem Configured.Sound.serves {a : Configured} (ha : a.Sound) : a.Serves a.envContent := by
  have hidMem : (("TG_API_ID".toList, Nat.toDigits 10 a.apiId) : Text × Text) ∈ a.pairs :=
    List.mem_cons_self
  have hhashMem : (("TG_API_HASH".toList, a.apiHash) : Text × Text) ∈ a.pairs :=
    List.mem_cons_of_mem _ List.mem_cons_self
  have hid := Environment.lookup_of_mem (Configured.nodup_pairs a) hidMem
  have hhash := Environment.lookup_of_mem (Configured.nodup_pairs a) hhashMem
  constructor
  case loads => exact Configured.loadConfigEnv_envContent ha
  case login =>
    intro env env' hload hnoId hnoHash builtin builtin'
    rw [Configured.loadConfigEnv_envContent ha] at hload
    split_ifs at hload
    obtain rfl := Option.some.inj hload
    constructor
    · simp only [loginApiId, hnoId, hid, Option.none_or]
      exact Text.parseI32_toDigits ha.apiId.2
    · simp only [loginApiHash, hnoHash, hhash, Option.none_or, Option.some_or]
  case shown =>
    rw [shownLines, Configured.lines_envContent ha,
      (Configured.setting_envLines a).shown (Configured.plainKey_pairs a)]
    apply List.map_congr_left
    intro p hp
    have hkeys : ∀ key ∈ Configured.keys, ("HASH".toList <:+: key.toList ∨
        "SECRET".toList <:+: key.toList) ↔ key.toList = "TG_API_HASH".toList := by
      decide +kernel
    obtain ⟨key, hkey, heq⟩ := Configured.exists_key hp
    have hsecret := hkeys key hkey
    rw [← heq] at hsecret
    simp only [hsecret]

end

namespace SampleConfiguration

def defaults : ConfigureDefaults where
  volumesDir := "/home/user/.local/share/tgcryptfs/volumes".toList
  sessionPath := "/home/user/.config/tgcryptfs/tgcryptfs.session".toList

/-- No browser, two wrong numbers before the right one, and the places as they are offered. -/
def run : ConfigureRun where
  typed := ["n".toList, "x".toList, "-5".toList, " +12345678 ".toList,
    "0123456789abcdef0123456789abcdef".toList, [], [], "y".toList, "48".toList, []]
  shell := "/usr/bin/zsh".toList
  dirsMade := true

def files : ConfigFiles := configure defaults "~/.env".toList run ⟨none, fun _ => []⟩

end SampleConfiguration

end TgCryptFs

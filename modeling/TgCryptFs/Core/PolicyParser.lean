import TgCryptFs.Core.Policy
import TgCryptFs.Library.Text
import TgCryptFs.Library.Words

set_option autoImplicit false

/-!
# Parsing a policy

`parse_policy` strips keywords, searches for the next quote or brace and slices by the offset it
has found. One slice goes by a fixed length: the message about a missing `rule` shows twenty
bytes.
-/
namespace TgCryptFs
open Library

/-- Why there is no policy. A slice and a product may panic. -/
inductive PolicyFailure where
  | policy (message : String)
  | sliced
  | overflowed
deriving DecidableEq

namespace PolicyParser

/-- `ok_or_else(..)?`. -/
def expect {α : Type} (message : String) : Option α → Except PolicyFailure α
  | some a => .ok a
  | none => .error (.policy message)

def sliced : Option Text → Except PolicyFailure Text
  | some t => .ok t
  | none => .error .sliced

def multiplied : Option ℕ → Except PolicyFailure ℕ
  | some n => .ok n
  | none => .error .overflowed

def parseQuotedString (input : Text) : Except PolicyFailure (Text × Text) := do
  let input := Text.trim input
  if input.head? ≠ some '"' then .error (.policy "expected quoted string")
  else
    let tail ← sliced (Text.sliceFrom 1 input)
    let close ← expect "unterminated string" (Text.find '"' tail)
    let name ← sliced (Text.slice 1 (close + 1) input)
    let rest ← sliced (Text.sliceFrom (close + 2) input)
    pure (name, rest)

variable (build : Overflow)

def parseDuration (s : Text) : Except PolicyFailure ℕ := do
  let s := Text.trim s
  let message := "invalid duration: " ++ String.ofList s
  match Text.stripSuffix ['d'] s with
  | some days =>
    let n ← expect message (Text.parseU64 days)
    multiplied (build.mulU64 n 86400)
  | none =>
    match Text.stripSuffix ['h'] s with
    | some hours =>
      let n ← expect message (Text.parseU64 hours)
      multiplied (build.mulU64 n 3600)
    | none =>
      match Text.stripSuffix ['s'] s with
      | some secs => expect message (Text.parseU64 secs)
      | none => expect message (Text.parseU64 s)

/-- The rule before its first line. -/
def ruleDefaults (pattern : Text) : PolicyRule where
  pathPattern := String.ofList pattern
  onDelete := .soft
  recordChanges := true
  mutable := true
  retentionSecs := none
  onExpiry := .hold

/-- The match on the key of a line. -/
def assign (rule : PolicyRule) (key value : String) : Except PolicyFailure PolicyRule :=
  if key = "mutable" then .ok { rule with mutable := value = "true" }
  else if key = "on_delete" then
    if value = "immediate" then .ok { rule with onDelete := .immediate }
    else if value = "soft" then .ok { rule with onDelete := .soft }
    else if value = "reject" then .ok { rule with onDelete := .reject }
    else .error (.policy ("invalid on_delete: " ++ value))
  else if key = "record_changes" then .ok { rule with recordChanges := value = "true" }
  else if key = "retention" then do
    let secs ← parseDuration build value.toList
    pure { rule with retentionSecs := some secs }
  else if key = "on_expiry" then
    if value = "purge" then .ok { rule with onExpiry := .purge }
    else if value = "hold" then .ok { rule with onExpiry := .hold }
    else .error (.policy ("invalid on_expiry: " ++ value))
  else .error (.policy ("unknown rule key: " ++ key))

def parseLine (rule : PolicyRule) (line : Text) : Except PolicyFailure PolicyRule := do
  let line := Text.trim line
  if line = [] then pure rule
  else
    let (key, value) ← expect ("invalid rule line: " ++ String.ofList line) (Text.splitOnce '=' line)
    assign build rule (String.ofList (Text.trim key)) (String.ofList (Text.trim value))

def parseRuleBody (pattern body : Text) : Except PolicyFailure PolicyRule :=
  (Text.lines body).foldlM (parseLine build) (ruleDefaults pattern)

/-- The loop of `parse_rules`, once. -/
def parseRule (rest : Text) : Except PolicyFailure (PolicyRule × Text) := do
  match Text.stripPrefix "rule".toList rest with
  | none =>
    let shown ← sliced (Text.sliceTo (min (Text.byteLength rest) 20) rest)
    .error (.policy ("expected 'rule', got: " ++ String.ofList shown))
  | some rest =>
    let (pattern, afterPattern) ← parseQuotedString (Text.trim rest)
    let afterBrace ← expect "expected '\x7b' after rule pattern"
      (Text.stripPrefix ['\x7b'] (Text.trim afterPattern))
    let braceEnd ← expect "expected '\x7d' to close rule" (Text.find '\x7d' afterBrace)
    let ruleBody ← sliced (Text.sliceTo braceEnd afterBrace)
    let rest ← sliced (Text.sliceFrom (braceEnd + 1) afterBrace)
    let rule ← parseRuleBody build pattern ruleBody
    pure (rule, rest)

/-! ## What one rule is read from -/

theorem parseQuotedString_quoted {t name rest : Text} (h : Text.trim t = '"' :: (name ++ '"' :: rest))
    (hname : '"' ∉ name) : parseQuotedString t = .ok (name, rest) := by
  have hclose : Text.byteLength ('"' :: (name ++ ['"'])) = Text.byteLength name + 2 := by
    rw [Text.byteLength_cons, Text.byteLength_append]
    change 1 + (Text.byteLength name + 1) = Text.byteLength name + 2
    omega
  have htail : Text.sliceFrom 1 ('"' :: (name ++ '"' :: rest)) = some (name ++ '"' :: rest) :=
    Text.sliceFrom_append ['"'] _
  have hslice : Text.slice 1 (Text.byteLength name + 1) ('"' :: (name ++ '"' :: rest)) = some name := by
    rw [Nat.add_comm _ 1]
    have := Text.slice_append ['"'] name ('"' :: rest)
    exact this
  have hrest : Text.sliceFrom (Text.byteLength name + 2) ('"' :: (name ++ '"' :: rest)) = some rest := by
    have := Text.sliceFrom_append ('"' :: (name ++ ['"'])) rest
    rw [hclose] at this
    simpa using this
  unfold parseQuotedString
  simp only [h, htail, sliced, expect, Text.find_append hname, hslice, hrest, List.head?_cons,
    ne_eq, not_true_eq_false, if_false, bind, Except.bind, pure, Except.pure]

/-- A missing quote is an error, never a panic. -/
theorem parseQuotedString_unquoted {t : Text}
    (h : ¬ ∃ name rest, Text.trim t = '"' :: (name ++ '"' :: rest) ∧ '"' ∉ name) :
    ∃ message, parseQuotedString t = .error (.policy message) := by
  unfold parseQuotedString
  dsimp only
  split
  · exact ⟨_, rfl⟩
  · rename_i hhead
    obtain ⟨tail, htrim⟩ := List.head?_eq_some_iff.1 (not_not.1 hhead)
    have hno : '"' ∉ tail := by
      intro hmem
      obtain ⟨name, rest, rfl, hname⟩ := Text.exists_first hmem
      exact h ⟨name, rest, htrim, hname⟩
    have hslice : Text.sliceFrom 1 ('"' :: tail) = some tail := Text.sliceFrom_append ['"'] tail
    rw [htrim, hslice]
    refine ⟨"unterminated string", ?_⟩
    simp only [sliced, expect, Text.find_eq_none hno, bind, Except.bind]

/-- A rule at the start of a text, from its keyword to its closing brace. -/
def RuleText (t pattern body rest : Text) : Prop :=
  ∃ w w', Text.Blank w ∧ Text.Blank w' ∧ '"' ∉ pattern ∧ '\x7d' ∉ body ∧
    t = "rule".toList ++ (w ++ '"' :: (pattern ++ '"' :: (w' ++ '\x7b' :: (body ++ '\x7d' :: rest))))

variable {build : Overflow} {t pattern body rest : Text}

theorem solidStart_cons {c : Char} {t : Text} (h : Text.isWhitespace c = false) :
    Text.SolidStart (c :: t) := fun x hx => by
  cases hx
  exact h

theorem trim_blank_cons {w t : Text} {c : Char} (hw : Text.Blank w) (hc : Text.isWhitespace c = false)
    (he : Text.SolidEnd (w ++ c :: t)) : Text.trim (w ++ c :: t) = c :: t :=
  Text.trim_of_blank_front hw (solidStart_cons hc) he.of_append

theorem parseRule_of_ruleText (he : Text.SolidEnd t) (h : RuleText t pattern body rest) :
    parseRule build t = (parseRuleBody build pattern body).map (·, rest) := by
  obtain ⟨w, w', hw, hw', hpattern, hbody, rfl⟩ := h
  have hquote := trim_blank_cons hw (by decide) he.of_append
  have hafter := trim_blank_cons hw' (by decide) he.of_append.of_append.of_cons.of_append.of_cons
  have hstring : parseQuotedString (Text.trim (w ++ '"' :: (pattern ++ '"' ::
      (w' ++ '\x7b' :: (body ++ '\x7d' :: rest))))) = .ok (pattern, w' ++ '\x7b' :: (body ++ '\x7d' :: rest)) :=
    parseQuotedString_quoted ((Text.trim_trim _).trans hquote) hpattern
  have hrest : Text.sliceFrom (Text.byteLength body + 1) (body ++ '\x7d' :: rest) = some rest := by
    have := Text.sliceFrom_append (body ++ ['\x7d']) rest
    rw [Text.byteLength_append, List.append_assoc] at this
    exact this
  have hstrip : Text.stripPrefix ['\x7b'] ('\x7b' :: (body ++ '\x7d' :: rest)) =
      some (body ++ '\x7d' :: rest) := Text.stripPrefix_eq_some.2 rfl
  unfold parseRule
  rw [Text.stripPrefix_eq_some.2 rfl]
  simp only [hstring, hafter, hstrip, bind, Except.bind, expect, sliced, Text.find_append hbody,
    Text.sliceTo_append, hrest]
  cases parseRuleBody build pattern body <;> rfl

/-- A quoted name, the blanks before it and the blanks behind it. -/
theorem exists_blanks_of_quoted {r name after : Text} (he : Text.SolidEnd r)
    (hr : Text.trim (Text.trim r) = '"' :: (name ++ '"' :: after)) :
    ∃ w w', Text.Blank w ∧ Text.Blank w' ∧ r = w ++ '"' :: (name ++ '"' :: (w' ++ Text.trim after)) := by
  obtain ⟨w, hw, hwr⟩ := Text.exists_trim_of_solidEnd he
  rw [Text.trim_trim] at hr
  rw [hr] at hwr
  have hafter : Text.SolidEnd after := by
    rw [hwr] at he
    exact he.of_append.of_cons.of_append.of_cons
  obtain ⟨w', hw', hwa⟩ := Text.exists_trim_of_solidEnd hafter
  refine ⟨w, w', hw, hw', ?_⟩
  rw [← hwa]
  exact hwr

/-- Where the text begins with no rule, the parser says so, unless the twentieth byte of what it
    would show is within a character. -/
theorem parseRule_of_not (build : Overflow) (he : Text.SolidEnd t)
    (h : ¬ ∃ pattern body rest, RuleText t pattern body rest) :
    (∃ message, parseRule build t = .error (.policy message)) ∨
    (parseRule build t = .error .sliced ∧ ¬ "rule".toList <+: t ∧
      ¬ Text.Boundary (min (Text.byteLength t) 20) t) := by
  unfold parseRule
  cases hrule : Text.stripPrefix "rule".toList t with
  | none =>
    dsimp only
    cases hslice : Text.sliceTo (min (Text.byteLength t) 20) t with
    | none =>
      refine .inr ⟨rfl, Text.stripPrefix_eq_none.1 hrule, fun hb => ?_⟩
      rw [← Text.isSome_sliceTo, hslice] at hb
      cases hb
    | some shown => exact .inl ⟨_, rfl⟩
  | some r =>
    left
    obtain rfl := Text.stripPrefix_eq_some.1 hrule
    dsimp only
    by_cases hq : ∃ name rest, Text.trim (Text.trim r) = '"' :: (name ++ '"' :: rest) ∧ '"' ∉ name
    · obtain ⟨pattern, after, hr, hpattern⟩ := hq
      obtain ⟨w, w', hw, hw', hwr⟩ := exists_blanks_of_quoted he.of_append hr
      rw [parseQuotedString_quoted hr hpattern]
      simp only [bind, Except.bind]
      cases hbrace : Text.stripPrefix ['\x7b'] (Text.trim after) with
      | none => exact ⟨_, rfl⟩
      | some x =>
        rw [Text.stripPrefix_eq_some.1 hbrace] at hwr
        have hno : '\x7d' ∉ x := by
          intro hmem
          obtain ⟨body, rest, rfl, hbody⟩ := Text.exists_first hmem
          exact h ⟨pattern, body, rest, w, w', hw, hw', hpattern, hbody, by rw [hwr]; rfl⟩
        refine ⟨"expected '\x7d' to close rule", ?_⟩
        simp only [expect, Text.find_eq_none hno]
    · obtain ⟨message, he⟩ := parseQuotedString_unquoted hq
      rw [he]
      exact ⟨message, rfl⟩

theorem length_of_ruleText (h : RuleText t pattern body rest) : rest.length < t.length := by
  obtain ⟨w, w', -, -, -, -, rfl⟩ := h
  simp only [List.length_append, List.length_cons]
  omega

/-- A rule that is read leaves less of the text. -/
theorem length_parseRule {rule : PolicyRule} (h : parseRule build (Text.trim t) = .ok (rule, rest)) :
    rest.length < t.length := by
  have he := Text.solidEnd_trim t
  by_cases hr : ∃ pattern body rest, RuleText (Text.trim t) pattern body rest
  · obtain ⟨pattern, body, rest', hr⟩ := hr
    rw [parseRule_of_ruleText he hr] at h
    cases hb : parseRuleBody build pattern body with
    | error e =>
      rw [hb] at h
      cases h
    | ok rule' =>
      rw [hb] at h
      cases h
      exact (length_of_ruleText hr).trans_le (Text.length_trim_le t)
  · rcases parseRule_of_not build he hr with ⟨message, he⟩ | ⟨he, -⟩
    · rw [he] at h
      cases h
    · rw [he] at h
      cases h

/-! ## All rules -/

/-- `parse_rules`, from where its loop stands. -/
def parseRules (build : Overflow) (rest : Text) : Except PolicyFailure (List PolicyRule) :=
  let rest' := Text.trim rest
  if rest' = [] then .ok []
  else
    match _h : parseRule build rest' with
    | .error e => .error e
    | .ok (rule, rest'') => (parseRules build rest'').map (rule :: ·)
termination_by rest.length
decreasing_by exact length_parseRule ‹_›

end PolicyParser

open PolicyParser

def parsePolicy (build : Overflow) (input : String) (policyId : UInt32) :
    Except PolicyFailure MutabilityPolicy := do
  let input := Text.trim input.toList
  let rest ← expect "expected 'policy' keyword" (Text.stripPrefix "policy".toList input)
  let (name, rest) ← parseQuotedString (Text.trim rest)
  let rest ← expect "expected '\x7b' after policy name" (Text.stripPrefix ['\x7b'] (Text.trim rest))
  let rest ← expect "expected '\x7d' at end of policy" (Text.stripSuffix ['\x7d'] (Text.trim rest))
  let rules ← parseRules build rest
  pure { policyId := policyId, name := String.ofList name, rules := rules }

end TgCryptFs

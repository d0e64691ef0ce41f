import TgCryptFs.Core.PolicyGrammar

set_option autoImplicit false

/-!
# Where the policy parser panics

The loop over the rules is stopped by a text that is no rule, and shows its first twenty bytes; in
a body, a retention in days or hours is multiplied without a check. Nothing else can panic.
-/
namespace TgCryptFs
open Library

namespace PolicyParser

/-- What is left is no rule, and its twentieth byte is within a character. -/
def SplitsCharacter (rest : Text) : Prop :=
  ¬ Text.Blank rest ∧ ¬ "rule".toList <+: Text.trim rest ∧
    ¬ Text.Boundary (min (Text.byteLength (Text.trim rest)) 20) (Text.trim rest)

/-- What is left begins with a rule that has a retention beyond `u64`. -/
def OverflowsIn (rest : Text) : Prop :=
  ∃ pattern body t', RuleText (Text.trim rest) pattern body t' ∧ BodyExceeds body

variable {build : Overflow} {text rest : Text} {rules : List PolicyRule}

theorem parseRules_of_splitsCharacter (h : SplitsCharacter rest) :
    parseRules build rest = .error .sliced := by
  obtain ⟨hblank, hrule, hboundary⟩ := h
  refine parseRules_error (mt Text.trim_eq_nil_iff.1 hblank) ?_
  rw [← Text.isSome_sliceTo, Bool.not_eq_true, Option.isSome_eq_false_iff, Option.isNone_iff_eq_none] at hboundary
  unfold parseRule
  rw [Text.stripPrefix_eq_none.2 hrule]
  dsimp only
  rw [hboundary]
  rfl

theorem parseRules_of_overflowsIn (h : OverflowsIn rest) :
    parseRules .panics rest = .error .overflowed := by
  obtain ⟨pattern, body, t', hrule, hbody⟩ := h
  refine parseRules_error (not_blank_of_ruleText hrule) ?_
  rw [parseRule_of_ruleText (Text.solidEnd_trim rest) hrule, parseRuleBody_of_exceeds hbody]
  rfl

/-- How the parser ends: it reads all rules, reports an error or panics for one of the two
    reasons. -/
theorem parseRules_outcome (build : Overflow) (text : Text) :
    ∃ rules rest, After build text rules rest ∧
      (Text.Blank rest ∨ (∃ message, parseRules build rest = .error (.policy message)) ∨
      SplitsCharacter rest ∨ (build = .panics ∧ OverflowsIn rest)) := by
  obtain ⟨rules, rest, hafter, hend⟩ := parseRules_cases build text
  refine ⟨rules, rest, hafter, ?_⟩
  rcases hend with hblank | ⟨hblank, hno⟩ | ⟨pattern, body, t', hrule, hno⟩
  · exact .inl hblank
  · have hne := mt Text.trim_eq_nil_iff.1 hblank
    rcases parseRule_of_not build (Text.solidEnd_trim rest) hno with ⟨message, he⟩ | ⟨-, hs⟩
    · exact .inr (.inl ⟨message, parseRules_error hne he⟩)
    · exact .inr (.inr (.inl ⟨hblank, hs⟩))
  · by_cases hexc : build = .panics ∧ BodyExceeds body
    · exact .inr (.inr (.inr ⟨hexc.1, pattern, body, t', hrule, hexc.2⟩))
    · obtain ⟨message, he⟩ := parseRuleBody_of_not pattern hno hexc
      refine .inr (.inl ⟨message, parseRules_error (not_blank_of_ruleText hrule) ?_⟩)
      rw [parseRule_of_ruleText (Text.solidEnd_trim rest) hrule, he]
      rfl

/-- The parser comes to `rest` after the keyword, the name and some rules. -/
def Reaches (build : Overflow) (input : String) (name : Text) (rules : List PolicyRule) (rest : Text) : Prop :=
  ∃ text, Header input.toList name text ∧ After build text rules rest

variable {input : String} {name : Text} {policyId : UInt32}

theorem parsePolicy_reaches (policyId : UInt32) (h : Reaches build input name rules rest) :
    parsePolicy build input policyId =
      (parseRules build rest).map fun more => ⟨policyId, String.ofList name, rules ++ more⟩ := by
  obtain ⟨text, hheader, hafter⟩ := h
  rw [parsePolicy_of_header hheader, parseRules_after hafter]
  cases parseRules build rest <;> rfl

/-- The parser returns, with a policy or with an error. -/
def Returns (build : Overflow) (input : String) (policyId : UInt32) : Prop :=
  (∃ p, parsePolicy build input policyId = .ok p) ∨
    ∃ message, parsePolicy build input policyId = .error (.policy message)

theorem not_returns {e : PolicyFailure} (h : parsePolicy build input policyId = .error e)
    (he : ∀ message, e ≠ .policy message) : ¬ Returns build input policyId := by
  rintro (⟨p, hp⟩ | ⟨message, hm⟩)
  · rw [h] at hp
    cases hp
  · rw [h] at hm
    exact he message (Except.error.inj hm)

theorem returns_of_reaches (hsplit : ∀ name rules rest, Reaches build input name rules rest → ¬ SplitsCharacter rest)
    (hover : build = .panics → ∀ name rules rest, Reaches build input name rules rest → ¬ OverflowsIn rest) :
    Returns build input policyId := by
  by_cases hheader : ∃ name text, Header input.toList name text
  · obtain ⟨name, text, hheader⟩ := hheader
    obtain ⟨rules, rest, hafter, hend⟩ := parseRules_outcome build text
    have hreach : Reaches build input name rules rest := ⟨text, hheader, hafter⟩
    rw [Returns, parsePolicy_reaches policyId hreach]
    rcases hend with hblank | ⟨message, he⟩ | hs | ⟨hb, ho⟩
    · rw [parseRules_blank hblank]
      exact .inl ⟨_, rfl⟩
    · rw [he]
      exact .inr ⟨message, rfl⟩
    · exact absurd hs (hsplit _ _ _ hreach)
    · exact absurd ho (hover hb _ _ _ hreach)
  · exact .inr (parsePolicy_of_not build policyId hheader)

end PolicyParser

open PolicyParser

/-- The parser returns on a text in every build if and only if it never comes to a text that its
    message would split within a character, nor, where an overflow panics, to a retention beyond
    `u64`. -/
theorem parsePolicy_returns_iff (input : String) :
    (∀ build policyId, Returns build input policyId) ↔
      ∀ build name rules rest, Reaches build input name rules rest →
        ¬ SplitsCharacter rest ∧ ¬ (build = .panics ∧ OverflowsIn rest) := by
  constructor
  · intro h build name rules rest hreach
    have hreturns := h build 0
    refine ⟨fun hs => ?_, ?_⟩
    · have he := parsePolicy_reaches 0 hreach
      rw [parseRules_of_splitsCharacter hs] at he
      exact not_returns he (fun _ => PolicyFailure.noConfusion) hreturns
    · rintro ⟨rfl, ho⟩
      have he := parsePolicy_reaches 0 hreach
      rw [parseRules_of_overflowsIn ho] at he
      exact not_returns he (fun _ => PolicyFailure.noConfusion) hreturns
  · intro h build policyId
    exact returns_of_reaches (fun name rules rest hr => (h build name rules rest hr).1)
      fun hb name rules rest hr ho => (h build name rules rest hr).2 ⟨hb, ho⟩

/-- Nineteen digits and a letter of two bytes where a rule should begin. -/
theorem parsePolicy_panics :
    ¬ ∀ (build : Overflow) (input : String) (policyId : UInt32), Returns build input policyId := by
  intro h
  have hheader : Header "policy \"p\" \x7b1234567890123456789é\x7d".toList ['p'] "1234567890123456789é".toList :=
    ⟨[' '], [' '], by decide, by decide, by decide, by decide⟩
  have hsplit : SplitsCharacter "1234567890123456789é".toList := by
    refine ⟨?_, ?_, ?_⟩
    · rw [← Text.trim_eq_nil_iff]
      decide
    · decide
    · rw [← Text.isSome_sliceTo]
      decide
  have he := @parsePolicy_reaches .panics _ _ _ _ 0 ⟨_, hheader, .nil _⟩
  rw [parseRules_of_splitsCharacter hsplit] at he
  exact not_returns he (fun _ => PolicyFailure.noConfusion) (h .panics _ 0)

end TgCryptFs

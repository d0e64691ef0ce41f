import Mathlib.Data.List.Forall2
import TgCryptFs.Core.PolicyParser

set_option autoImplicit false

/-!
# The texts the policy parser reads

What a line, a body and a sequence of rules have to look like, told without the parser, and for
each what the parser makes of it and of anything else.
-/
namespace TgCryptFs
open Library

namespace PolicyParser

/-- What a line of a rule does. -/
inductive Setting where
  | mutable (b : Bool)
  | onDelete (d : DeleteBehavior)
  | recordChanges (b : Bool)
  | retention (secs : ℕ)
  | onExpiry (e : ExpiryBehavior)
deriving DecidableEq

def Setting.set (rule : PolicyRule) : Setting → PolicyRule
  | .mutable b => { rule with mutable := b }
  | .onDelete d => { rule with onDelete := d }
  | .recordChanges b => { rule with recordChanges := b }
  | .retention secs => { rule with retentionSecs := some secs }
  | .onExpiry e => { rule with onExpiry := e }

/-! ## Durations -/

inductive TimeUnit where
  | days | hours | secs | bare
deriving DecidableEq

namespace TimeUnit

def suffix : TimeUnit → Text
  | days => ['d']
  | hours => ['h']
  | secs => ['s']
  | bare => []

def factor : TimeUnit → ℕ
  | days => 86400
  | hours => 3600
  | secs => 1
  | bare => 1

end TimeUnit

/-- A number that `u64` can hold, and its unit. -/
def Duration (s : Text) (u : TimeUnit) (n : ℕ) : Prop :=
  ∃ digits, s = digits ++ u.suffix ∧ Text.parseU64 digits = some n

variable {build : Overflow} {s t : Text}

theorem isDigit_of_parseU64 {digits : Text} {n : ℕ} (h : Text.parseU64 digits = some n) {c : Char}
    (hc : digits.getLast? = some c) : c.isDigit = true := by
  obtain ⟨front, rfl⟩ := List.getLast?_eq_some_iff.1 hc
  unfold Text.parseU64 at h
  dsimp only at h
  split at h
  · cases h
  rename_i hall
  rw [not_or, not_not, List.all_eq_true] at hall
  refine hall.2 c ?_
  cases hs : Text.stripPrefix ['+'] (front ++ [c]) with
  | none => exact List.mem_append_right _ List.mem_cons_self
  | some rest =>
    rw [hs] at hall
    have he := Text.stripPrefix_eq_some.1 hs
    cases rest using List.reverseRecOn with
    | nil => exact absurd rfl hall.1
    | append_singleton rest x =>
      rw [← List.append_assoc] at he
      rw [(List.append_inj' he rfl).2 |> List.singleton_inj.1]
      exact List.mem_append_right _ List.mem_cons_self

theorem lt_of_parseU64 {digits : Text} {n : ℕ} (h : Text.parseU64 digits = some n) : n < 2 ^ 64 := by
  unfold Text.parseU64 at h
  dsimp only at h
  split at h
  · cases h
  split at h
  · rename_i hlt
    rwa [← Option.some.inj h]
  · cases h

theorem mulU64_one {n : ℕ} (h : n < 2 ^ 64) : build.mulU64 n 1 = some n := by
  rw [Overflow.mulU64_of_lt (by rwa [Nat.mul_one]), Nat.mul_one]

/-- A number ends with a digit, so that no unit can be taken off it. -/
theorem stripSuffix_of_parseU64 {digits : Text} {n : ℕ} (h : Text.parseU64 digits = some n) {c : Char}
    (hc : c.isDigit = false) : Text.stripSuffix [c] digits = none := by
  rw [Text.stripSuffix_eq_none]
  rintro ⟨front, rfl⟩
  rw [isDigit_of_parseU64 h List.getLast?_concat] at hc
  cases hc

theorem stripSuffix_concat (s : Text) (c : Char) : Text.stripSuffix [c] (s ++ [c]) = some s :=
  Text.stripSuffix_eq_some.2 rfl

theorem stripSuffix_concat_ne {c c' : Char} (h : c' ≠ c) (s : Text) :
    Text.stripSuffix [c] (s ++ [c']) = none := by
  rw [Text.stripSuffix_eq_none]
  rintro ⟨front, he⟩
  exact h (List.singleton_inj.1 (List.append_inj' he rfl).2).symm

theorem parseDuration_of_duration {u : TimeUnit} {n : ℕ} (h : Duration (Text.trim s) u n) :
    parseDuration build s = multiplied (build.mulU64 n u.factor) := by
  obtain ⟨digits, hs, hn⟩ := h
  unfold parseDuration
  rw [hs]
  cases u with
  | days =>
    simp only [TimeUnit.suffix, stripSuffix_concat, hn, expect, bind, Except.bind]
    rfl
  | hours =>
    simp only [TimeUnit.suffix, stripSuffix_concat, stripSuffix_concat_ne (show 'h' ≠ 'd' by decide), hn,
      expect, bind, Except.bind]
    rfl
  | secs =>
    simp only [TimeUnit.suffix, stripSuffix_concat, stripSuffix_concat_ne (show 's' ≠ 'd' by decide),
      stripSuffix_concat_ne (show 's' ≠ 'h' by decide), hn, expect, TimeUnit.factor,
      mulU64_one (lt_of_parseU64 hn), multiplied]
  | bare =>
    simp only [TimeUnit.suffix, List.append_nil, stripSuffix_of_parseU64 hn (show 'd'.isDigit = false from rfl),
      stripSuffix_of_parseU64 hn (show 'h'.isDigit = false from rfl),
      stripSuffix_of_parseU64 hn (show 's'.isDigit = false from rfl), hn, expect, TimeUnit.factor,
      mulU64_one (lt_of_parseU64 hn), multiplied]

theorem parseDuration_of_not (build : Overflow) (h : ¬ ∃ u n, Duration (Text.trim s) u n) :
    ∃ message, parseDuration build s = .error (.policy message) := by
  have hnone : ∀ (u : TimeUnit) digits, Text.trim s = digits ++ u.suffix →
      Text.parseU64 digits = none := by
    intro u digits hs
    by_contra hn
    obtain ⟨n, hn⟩ := Option.ne_none_iff_exists'.1 hn
    exact h ⟨u, n, digits, hs, hn⟩
  unfold parseDuration
  dsimp only
  cases hd : Text.stripSuffix ['d'] (Text.trim s) with
  | some days =>
    dsimp only
    rw [hnone .days days (Text.stripSuffix_eq_some.1 hd)]
    exact ⟨_, rfl⟩
  | none =>
    dsimp only
    cases hh : Text.stripSuffix ['h'] (Text.trim s) with
    | some hours =>
      dsimp only
      rw [hnone .hours hours (Text.stripSuffix_eq_some.1 hh)]
      exact ⟨_, rfl⟩
    | none =>
      dsimp only
      cases hsec : Text.stripSuffix ['s'] (Text.trim s) with
      | some secs =>
        dsimp only
        rw [hnone .secs secs (Text.stripSuffix_eq_some.1 hsec)]
        exact ⟨_, rfl⟩
      | none =>
        dsimp only
        rw [hnone .bare _ (List.append_nil _).symm]
        exact ⟨_, rfl⟩

/-! ## Lines -/

/-- What the parser takes a key and a value for. -/
inductive Understood (build : Overflow) : String → String → Setting → Prop where
  | mutable (value : String) : Understood build "mutable" value (.mutable (value = "true"))
  | immediate : Understood build "on_delete" "immediate" (.onDelete .immediate)
  | soft : Understood build "on_delete" "soft" (.onDelete .soft)
  | reject : Understood build "on_delete" "reject" (.onDelete .reject)
  | recordChanges (value : String) :
      Understood build "record_changes" value (.recordChanges (value = "true"))
  | retention {value : String} {u : TimeUnit} {n secs : ℕ} (h : Duration (Text.trim value.toList) u n)
      (hsecs : build.mulU64 n u.factor = some secs) :
      Understood build "retention" value (.retention secs)
  | purge : Understood build "on_expiry" "purge" (.onExpiry .purge)
  | hold : Understood build "on_expiry" "hold" (.onExpiry .hold)

/-- A retention of more seconds than a `u64` holds. -/
def Exceeds (key value : String) : Prop :=
  key = "retention" ∧ ∃ u n, Duration (Text.trim value.toList) u n ∧ 2 ^ 64 ≤ n * u.factor

variable {rule : PolicyRule} {key value : String}

theorem assign_of_understood {setting : Setting} (h : Understood build key value setting) :
    assign build rule key value = .ok (setting.set rule) := by
  cases h with
  | retention h hsecs =>
    change (parseDuration build value.toList >>= _) = _
    rw [parseDuration_of_duration h, hsecs]
    rfl
  | _ => rfl

theorem assign_of_exceeds (h : Exceeds key value) :
    assign .panics rule key value = .error .overflowed := by
  obtain ⟨rfl, u, n, hd, hge⟩ := h
  change (parseDuration .panics value.toList >>= _) = _
  rw [parseDuration_of_duration hd, Overflow.mulU64_panics_iff.2 ⟨rfl, hge⟩]
  rfl

theorem assign_of_not (h : ¬ ∃ setting, Understood build key value setting)
    (hexc : ¬ (build = .panics ∧ Exceeds key value)) :
    ∃ message, assign build rule key value = .error (.policy message) := by
  unfold assign
  split
  · rename_i he
    subst he
    exact absurd ⟨_, .mutable value⟩ h
  split
  · rename_i he
    subst he
    split
    · rename_i hv
      subst hv
      exact absurd ⟨_, .immediate⟩ h
    split
    · rename_i hv
      subst hv
      exact absurd ⟨_, .soft⟩ h
    split
    · rename_i hv
      subst hv
      exact absurd ⟨_, .reject⟩ h
    · exact ⟨_, rfl⟩
  split
  · rename_i he
    subst he
    exact absurd ⟨_, .recordChanges value⟩ h
  split
  · rename_i he
    subst he
    by_cases hd : ∃ u n, Duration (Text.trim value.toList) u n
    · obtain ⟨u, n, hd⟩ := hd
      cases hsecs : build.mulU64 n u.factor with
      | none =>
        obtain ⟨rfl, hge⟩ := Overflow.mulU64_panics_iff.1 hsecs
        exact absurd ⟨rfl, rfl, u, n, hd, hge⟩ hexc
      | some secs => exact absurd ⟨_, .retention hd hsecs⟩ h
    · obtain ⟨message, he⟩ := parseDuration_of_not build hd
      rw [he]
      exact ⟨message, rfl⟩
  split
  · rename_i he
    subst he
    split
    · rename_i hv
      subst hv
      exact absurd ⟨_, .purge⟩ h
    split
    · rename_i hv
      subst hv
      exact absurd ⟨_, .hold⟩ h
    · exact ⟨_, rfl⟩
  · exact ⟨_, rfl⟩

/-- The two sides of the first `=` in a line. -/
def KeyValue (line : Text) (key value : String) : Prop :=
  ∃ k v, line = k ++ '=' :: v ∧ '=' ∉ k ∧ key = String.ofList (Text.trim k) ∧
    value = String.ofList (Text.trim v)

theorem KeyValue.unique {line : Text} {key' value' : String} (h : KeyValue line key value)
    (h' : KeyValue line key' value') : key = key' ∧ value = value' := by
  obtain ⟨k, v, rfl, hk, rfl, rfl⟩ := h
  obtain ⟨k', v', he, hk', rfl, rfl⟩ := h'
  obtain ⟨rfl, rfl⟩ := Text.first_unique he hk hk'
  exact ⟨rfl, rfl⟩

/-- The line sets something. -/
def LineSets (build : Overflow) (line : Text) (setting : Setting) : Prop :=
  ∃ key value, KeyValue line key value ∧ Understood build key value setting

def LineExceeds (line : Text) : Prop := ∃ key value, KeyValue line key value ∧ Exceeds key value

/-- The lines of a body without the blank ones, each without the blanks around it. -/
def entries (body : Text) : List Text := ((Text.lines body).map Text.trim).filter (· ≠ [])

/-- A line that `entries` lists. -/
def Entry (line : Text) : Prop := Text.trim line = line ∧ line ≠ []

theorem entry_of_mem {body line : Text} (h : line ∈ entries body) : Entry line := by
  obtain ⟨hmem, hne⟩ := List.mem_filter.1 h
  obtain ⟨l, -, rfl⟩ := List.mem_map.1 hmem
  exact ⟨Text.trim_trim l, of_decide_eq_true hne⟩

theorem parseLine_of_keyValue {line : Text} (he : Entry line) (h : KeyValue line key value) :
    parseLine build rule line = assign build rule key value := by
  obtain ⟨k, v, rfl, hk, rfl, rfl⟩ := h
  unfold parseLine
  simp only [he.1, if_neg he.2, Text.splitOnce_append hk, expect, bind, Except.bind]

theorem parseLine_of_not_keyValue {line : Text} (he : Entry line) (h : ¬ ∃ key value, KeyValue line key value) :
    ∃ message, parseLine build rule line = .error (.policy message) := by
  have hno : '=' ∉ line := by
    intro hmem
    obtain ⟨k, v, rfl, hk⟩ := Text.exists_first hmem
    exact h ⟨_, _, k, v, rfl, hk, rfl, rfl⟩
  unfold parseLine
  simp only [he.1, if_neg he.2, Text.splitOnce_eq_none hno, expect, bind, Except.bind]
  exact ⟨_, rfl⟩

theorem parseLine_of_lineSets {line : Text} {setting : Setting} (he : Entry line)
    (h : LineSets build line setting) : parseLine build rule line = .ok (setting.set rule) := by
  obtain ⟨key, value, hkv, hu⟩ := h
  rw [parseLine_of_keyValue he hkv, assign_of_understood hu]

theorem parseLine_of_lineExceeds {line : Text} (he : Entry line) (h : LineExceeds line) :
    parseLine .panics rule line = .error .overflowed := by
  obtain ⟨key, value, hkv, hexc⟩ := h
  rw [parseLine_of_keyValue he hkv, assign_of_exceeds hexc]

theorem parseLine_of_not (rule : PolicyRule) {line : Text} (he : Entry line)
    (h : ¬ ∃ setting, LineSets build line setting)
    (hexc : ¬ (build = .panics ∧ LineExceeds line)) :
    ∃ message, parseLine build rule line = .error (.policy message) := by
  by_cases hkv : ∃ key value, KeyValue line key value
  · obtain ⟨key, value, hkv⟩ := hkv
    rw [parseLine_of_keyValue he hkv]
    exact assign_of_not (fun ⟨setting, hu⟩ => h ⟨setting, key, value, hkv, hu⟩)
      fun ⟨hb, hx⟩ => hexc ⟨hb, key, value, hkv, hx⟩
  · exact parseLine_of_not_keyValue he hkv

/-! ## Bodies -/

/-- The lines of the body set these, one after the other. -/
def BodySets (build : Overflow) (body : Text) (settings : List Setting) : Prop :=
  List.Forall₂ (LineSets build) (entries body) settings

/-- The first line that sets nothing is a retention that is too long. -/
def BodyExceeds (body : Text) : Prop :=
  ∃ before line after settings, entries body = before ++ line :: after ∧
    List.Forall₂ (LineSets .panics) before settings ∧ LineExceeds line

def ruleOf (pattern : Text) (settings : List Setting) : PolicyRule :=
  settings.foldl Setting.set (ruleDefaults pattern)

theorem foldlM_entries (ls : List Text) (rule : PolicyRule) :
    ls.foldlM (parseLine build) rule =
      ((ls.map Text.trim).filter (· ≠ [])).foldlM (parseLine build) rule := by
  induction ls generalizing rule with
  | nil => rfl
  | cons line ls ih =>
    have htrim : parseLine build rule line = parseLine build rule (Text.trim line) := by
      unfold parseLine
      rw [Text.trim_trim]
    rw [List.map_cons, List.foldlM_cons]
    by_cases hblank : Text.trim line = []
    · have hskip : parseLine build rule line = .ok rule := by
        unfold parseLine
        simp only [hblank, if_true]
        rfl
      rw [List.filter_cons_of_neg (by simpa using hblank), hskip]
      exact ih rule
    · rw [List.filter_cons_of_pos (by simpa using hblank), List.foldlM_cons, htrim]
      exact congrArg _ (funext ih)

variable {pattern body : Text} {settings : List Setting}

theorem parseRuleBody_eq : parseRuleBody build pattern body =
    (entries body).foldlM (parseLine build) (ruleDefaults pattern) :=
  foldlM_entries _ _

theorem foldlM_of_sets {ls : List Text} (he : ∀ line ∈ ls, Entry line)
    (h : List.Forall₂ (LineSets build) ls settings) (rule : PolicyRule) :
    ls.foldlM (parseLine build) rule = .ok (settings.foldl Setting.set rule) := by
  induction h generalizing rule with
  | nil => rfl
  | cons hline _ ih =>
    rw [List.foldlM_cons, parseLine_of_lineSets (he _ List.mem_cons_self) hline]
    exact ih (fun line hl => he line (List.mem_cons_of_mem _ hl)) _

theorem parseRuleBody_of_sets (h : BodySets build body settings) :
    parseRuleBody build pattern body = .ok (ruleOf pattern settings) :=
  parseRuleBody_eq.trans (foldlM_of_sets (fun _ => entry_of_mem) h _)

theorem parseRuleBody_of_exceeds (h : BodyExceeds body) :
    parseRuleBody .panics pattern body = .error .overflowed := by
  obtain ⟨before, line, after, settings, he, hbefore, hline⟩ := h
  have hentry : ∀ l ∈ before ++ line :: after, Entry l := fun l hl => entry_of_mem (he ▸ hl)
  rw [parseRuleBody_eq, he, List.foldlM_append,
    foldlM_of_sets (fun l hl => hentry l (List.mem_append_left _ hl)) hbefore]
  change (line :: after).foldlM (parseLine .panics) _ = _
  rw [List.foldlM_cons,
    parseLine_of_lineExceeds (hentry line (List.mem_append_right _ List.mem_cons_self)) hline]
  rfl

theorem foldlM_of_not {ls : List Text} (he : ∀ line ∈ ls, Entry line)
    (h : ¬ ∃ settings, List.Forall₂ (LineSets build) ls settings)
    (hexc : ¬ (build = .panics ∧ ∃ before line after settings, ls = before ++ line :: after ∧
      List.Forall₂ (LineSets build) before settings ∧ LineExceeds line)) (rule : PolicyRule) :
    ∃ message, ls.foldlM (parseLine build) rule = .error (.policy message) := by
  induction ls generalizing rule with
  | nil => exact absurd ⟨[], .nil⟩ h
  | cons line ls ih =>
    have hline := he line List.mem_cons_self
    rw [List.foldlM_cons]
    by_cases hs : ∃ setting, LineSets build line setting
    · obtain ⟨setting, hs⟩ := hs
      rw [parseLine_of_lineSets hline hs]
      refine ih (fun l hl => he l (List.mem_cons_of_mem _ hl)) ?_ ?_ _
      · exact fun ⟨settings, hrest⟩ => h ⟨setting :: settings, .cons hs hrest⟩
      · rintro ⟨hb, before, l, after, settings, rfl, hbefore, hl⟩
        exact hexc ⟨hb, line :: before, l, after, setting :: settings, rfl, .cons hs hbefore, hl⟩
    · obtain ⟨message, hm⟩ := parseLine_of_not rule hline hs
        fun ⟨hb, hx⟩ => hexc ⟨hb, [], line, ls, [], rfl, .nil, hx⟩
      rw [hm]
      exact ⟨message, rfl⟩

theorem parseRuleBody_of_not (pattern : Text) (h : ¬ ∃ settings, BodySets build body settings)
    (hexc : ¬ (build = .panics ∧ BodyExceeds body)) :
    ∃ message, parseRuleBody build pattern body = .error (.policy message) := by
  rw [parseRuleBody_eq]
  refine foldlM_of_not (fun _ => entry_of_mem) h ?_ _
  rintro ⟨rfl, hx⟩
  exact hexc ⟨rfl, hx⟩

/-! ## Rules -/

/-- `rest` is what is left of the text when these rules have been read. -/
inductive After (build : Overflow) : Text → List PolicyRule → Text → Prop where
  | nil (t : Text) : After build t [] t
  | cons {t pattern body t' rest : Text} {settings : List Setting} {rules : List PolicyRule}
      (h : RuleText (Text.trim t) pattern body t') (hbody : BodySets build body settings)
      (hrest : After build t' rules rest) : After build t (ruleOf pattern settings :: rules) rest

variable {rest : Text} {rules : List PolicyRule}

theorem not_blank_of_ruleText {t' : Text} (h : RuleText (Text.trim t) pattern body t') :
    ¬ Text.trim t = [] := by
  obtain ⟨w, w', -, -, -, -, ht⟩ := h
  rw [ht]
  exact List.cons_ne_nil _ _

theorem parseRules_eq (build : Overflow) (t : Text) : parseRules build t =
    if Text.trim t = [] then .ok []
    else parseRule build (Text.trim t) >>= fun p => (parseRules build p.2).map (p.1 :: ·) := by
  conv_lhs => rw [parseRules]
  split
  · rfl
  split
  · rename_i e he
    rw [he]
    rfl
  · rename_i rule rest he
    rw [he]
    rfl

theorem parseRules_blank (h : Text.Blank t) : parseRules build t = .ok [] := by
  rw [parseRules_eq, if_pos (Text.trim_eq_nil_iff.2 h)]

theorem parseRules_error {e : PolicyFailure} (hne : Text.trim t ≠ [])
    (h : parseRule build (Text.trim t) = .error e) : parseRules build t = .error e := by
  rw [parseRules_eq, if_neg hne, h]
  rfl

theorem parseRules_rule {t' : Text} (h : RuleText (Text.trim t) pattern body t')
    (hbody : BodySets build body settings) :
    parseRules build t = (parseRules build t').map (ruleOf pattern settings :: ·) := by
  rw [parseRules_eq, if_neg (not_blank_of_ruleText h),
    parseRule_of_ruleText (Text.solidEnd_trim t) h, parseRuleBody_of_sets hbody]
  rfl

/-- What the parser makes of a text after some rules is what it makes of the rest. -/
theorem parseRules_after (h : After build t rules rest) :
    parseRules build t = (parseRules build rest).map (rules ++ ·) := by
  induction h with
  | nil t =>
    cases parseRules build t <;> rfl
  | @cons t pattern body t' rest settings rules h hbody hrest ih =>
    rw [parseRules_rule h hbody, ih]
    cases parseRules build rest <;> rfl

/-- Where the parser stops: at the end of the rules, at a text that is no rule, or in a body that
    is none. -/
theorem parseRules_cases (build : Overflow) (t : Text) :
    ∃ rules rest, After build t rules rest ∧
      (Text.Blank rest ∨
      (¬ Text.Blank rest ∧ ¬ ∃ pattern body t', RuleText (Text.trim rest) pattern body t') ∨
      ∃ pattern body t', RuleText (Text.trim rest) pattern body t' ∧
        ¬ ∃ settings, BodySets build body settings) := by
  induction hn : t.length using Nat.strong_induction_on generalizing t with
  | _ n ih =>
    subst hn
    by_cases hb : Text.Blank t
    · exact ⟨[], t, .nil t, .inl hb⟩
    by_cases hr : ∃ pattern body t', RuleText (Text.trim t) pattern body t'
    · obtain ⟨pattern, body, t', hr⟩ := hr
      by_cases hbody : ∃ settings, BodySets build body settings
      · obtain ⟨settings, hbody⟩ := hbody
        have hlt := (length_of_ruleText hr).trans_le (Text.length_trim_le t)
        obtain ⟨rules, rest, hafter, hend⟩ := ih t'.length hlt t' rfl
        exact ⟨ruleOf pattern settings :: rules, rest, .cons hr hbody hafter, hend⟩
      · exact ⟨[], t, .nil t, .inr (.inr ⟨pattern, body, t', hr, hbody⟩)⟩
    · exact ⟨[], t, .nil t, .inr (.inl ⟨hb, hr⟩)⟩

/-! ## The policy -/

/-- The keyword, the name and the braces, with the text between these. -/
def Header (input name text : Text) : Prop :=
  ∃ w w', Text.Blank w ∧ Text.Blank w' ∧ '"' ∉ name ∧
    Text.trim input =
      "policy".toList ++ (w ++ '"' :: (name ++ '"' :: (w' ++ '\x7b' :: (text ++ ['\x7d']))))

theorem parseRules_congr {t' : Text} (h : Text.trim t = Text.trim t') :
    parseRules build t = parseRules build t' := by
  rw [parseRules_eq, h, ← parseRules_eq]

/-- The parser trims the text between the braces together with the last brace. -/
theorem trim_concat_brace (text : Text) : ∃ text', Text.trim (text ++ ['\x7d']) = text' ++ ['\x7d'] ∧
    Text.trim text' = Text.trim text := by
  obtain ⟨a, ha, he⟩ := Text.exists_trim_of_solidEnd (Text.solidEnd_concat (c := '\x7d') rfl text)
  revert he
  cases Text.trim (text ++ ['\x7d']) using List.reverseRecOn with
  | nil =>
    intro he
    have hmem : '\x7d' ∈ a := by
      rw [List.append_nil] at he
      rw [← he]
      exact List.mem_append_right _ List.mem_cons_self
    exact absurd (ha _ hmem) (by decide)
  | append_singleton text' c =>
    intro he
    rw [← List.append_assoc] at he
    obtain ⟨rfl, hc⟩ := List.append_inj' he rfl
    rw [List.singleton_inj.1 hc]
    refine ⟨text', rfl, ?_⟩
    have hsur := Text.trim_surround ha Text.blank_nil text'
    rw [List.append_nil] at hsur
    exact hsur.symm

variable {input : String} {name text : Text} {policyId : UInt32}

theorem parsePolicy_of_header (h : Header input.toList name text) :
    parsePolicy build input policyId =
      (parseRules build text).map (⟨policyId, String.ofList name, ·⟩) := by
  obtain ⟨w, w', hw, hw', hname, htrim⟩ := h
  have he := Text.solidEnd_trim input.toList
  rw [htrim] at he
  have hquote := trim_blank_cons hw (by decide) he.of_append
  have hbrace := trim_blank_cons hw' (by decide) he.of_append.of_append.of_cons.of_append.of_cons
  have hstring := parseQuotedString_quoted ((Text.trim_trim _).trans hquote) hname
  have hopen : Text.stripPrefix ['\x7b'] ('\x7b' :: (text ++ ['\x7d'])) = some (text ++ ['\x7d']) :=
    Text.stripPrefix_eq_some.2 rfl
  obtain ⟨text', hlast, htext⟩ := trim_concat_brace text
  unfold parsePolicy
  simp only [htrim, Text.stripPrefix_eq_some.2 rfl, expect, hstring, hbrace, hopen, bind, Except.bind]
  rw [hlast, Text.stripSuffix_eq_some.2 rfl]
  dsimp only
  rw [parseRules_congr htext]
  cases parseRules build text <;> rfl

theorem parsePolicy_of_not (build : Overflow) (policyId : UInt32)
    (h : ¬ ∃ name text, Header input.toList name text) :
    ∃ message, parsePolicy build input policyId = .error (.policy message) := by
  have he := Text.solidEnd_trim input.toList
  unfold parsePolicy
  dsimp only
  cases hpolicy : Text.stripPrefix "policy".toList (Text.trim input.toList) with
  | none => exact ⟨_, rfl⟩
  | some r =>
    have htrim := Text.stripPrefix_eq_some.1 hpolicy
    rw [htrim] at he
    dsimp only [expect, bind, Except.bind]
    by_cases hq : ∃ name rest, Text.trim (Text.trim r) = '"' :: (name ++ '"' :: rest) ∧ '"' ∉ name
    · obtain ⟨name, after, hr, hname⟩ := hq
      obtain ⟨w, w', hw, hw', hwr⟩ := exists_blanks_of_quoted he.of_append hr
      rw [parseQuotedString_quoted hr hname]
      dsimp only
      cases hbrace : Text.stripPrefix ['\x7b'] (Text.trim after) with
      | none => exact ⟨_, rfl⟩
      | some x =>
        rw [Text.stripPrefix_eq_some.1 hbrace] at hwr
        dsimp only
        cases hlast : Text.stripSuffix ['\x7d'] (Text.trim x) with
        | none => exact ⟨_, rfl⟩
        | some y =>
          have hx : Text.SolidEnd x := by
            have hr := he.of_append
            rw [hwr] at hr
            exact hr.of_append.of_cons.of_append.of_cons.of_append.of_cons
          obtain ⟨b, hb, hxb⟩ := Text.exists_trim_of_solidEnd hx
          rw [Text.stripSuffix_eq_some.1 hlast, ← List.append_assoc] at hxb
          refine absurd ⟨name, b ++ y, w, w', hw, hw', hname, ?_⟩ h
          rw [htrim, hwr, ← hxb]
          rfl
    · obtain ⟨message, he⟩ := parseQuotedString_unquoted hq
      rw [he]
      exact ⟨message, rfl⟩

end PolicyParser
end TgCryptFs

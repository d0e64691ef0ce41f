import TgCryptFs.Core.PolicyTotality

set_option autoImplicit false

/-!
# What a policy may say

The values that the format documents, and what the fields of a rule are when its lines have only
these. The parser takes more: any literal but `true` for false, a sign before a number, and, where
products wrap, a number of days that `u64` cannot hold in seconds.
-/
namespace TgCryptFs
open Library

namespace PolicyParser

/-! ## Values -/

def boolText (b : Bool) : String := if b then "true" else "false"

def deleteText : DeleteBehavior → String
  | .immediate => "immediate"
  | .soft => "soft"
  | .reject => "reject"

def expiryText : ExpiryBehavior → String
  | .purge => "purge"
  | .hold => "hold"

/-- A key and a value of the documented format, and what they set. -/
inductive Documented : String → String → Setting → Prop where
  | mutable (b : Bool) : Documented "mutable" (boolText b) (.mutable b)
  | onDelete (d : DeleteBehavior) : Documented "on_delete" (deleteText d) (.onDelete d)
  | recordChanges (b : Bool) : Documented "record_changes" (boolText b) (.recordChanges b)
  | retention {value : String} {digits : Text} {u : TimeUnit} {secs : ℕ}
      (hvalue : value.toList = digits ++ u.suffix) (hne : digits ≠ [])
      (hdigits : digits.all Char.isDigit = true) (hsecs : secs = Nat.ofDigitChars 10 digits 0 * u.factor)
      (hlt : secs < 2 ^ 64) : Documented "retention" value (.retention secs)
  | onExpiry (e : ExpiryBehavior) : Documented "on_expiry" (expiryText e) (.onExpiry e)

/-- What the parser takes although the format has no such value. -/
inductive Lenient : String → String → Prop where
  | mutable {value : String} (h : ∀ b, value ≠ boolText b) : Lenient "mutable" value
  | recordChanges {value : String} (h : ∀ b, value ≠ boolText b) : Lenient "record_changes" value
  | signed {value : String} (h : ['+'] <+: value.toList) : Lenient "retention" value
  | wraps {key value : String} (h : Exceeds key value) : Lenient key value

variable {build : Overflow} {key value : String} {setting : Setting}

theorem factor_pos (u : TimeUnit) : 0 < u.factor := by cases u <;> decide

theorem mulU64_wraps_of_lt {a b n : ℕ} (h : build.mulU64 a b = some n) (hlt : a * b < 2 ^ 64) : n = a * b := by
  rw [Overflow.mulU64_of_lt hlt] at h
  exact (Option.some.inj h).symm

theorem isDigit_plus : ('+').isDigit = false := rfl

theorem stripPrefix_plus_of_digits {digits : Text} (hne : digits ≠ []) (hdigits : digits.all Char.isDigit = true) :
    ¬ ['+'] <+: digits := by
  rintro ⟨r, rfl⟩
  rw [List.all_eq_true] at hdigits
  have := hdigits '+' List.mem_cons_self
  rw [isDigit_plus] at this
  cases this

/-- A number without a sign is its digits. -/
theorem parseU64_unsigned {digits : Text} {n : ℕ} (hsign : ¬ ['+'] <+: digits) :
    Text.parseU64 digits = some n ↔
      digits ≠ [] ∧ digits.all Char.isDigit = true ∧ n = Nat.ofDigitChars 10 digits 0 ∧ n < 2 ^ 64 := by
  unfold Text.parseU64
  rw [Text.stripPrefix_eq_none.2 hsign]
  dsimp only [Option.getD_none]
  constructor
  · intro h
    split at h
    · cases h
    rename_i hall
    rw [not_or, not_not] at hall
    split at h
    · rename_i hlt
      have hn := Option.some.inj h
      exact ⟨hall.1, hall.2, hn.symm, hn ▸ hlt⟩
    · cases h
  · rintro ⟨hne, hall, rfl, hlt⟩
    rw [if_neg (not_or.2 ⟨hne, not_not.2 hall⟩), if_pos hlt]

theorem understood_of_documented (h : Documented key value setting)
    (htrim : Text.trim value.toList = value.toList) : Understood build key value setting := by
  cases h with
  | mutable b => cases b <;> exact .mutable _
  | onDelete d =>
    cases d with
    | immediate => exact .immediate
    | soft => exact .soft
    | reject => exact .reject
  | recordChanges b => cases b <;> exact .recordChanges _
  | @retention _ digits u secs hvalue hne hdigits hsecs hlt =>
    subst hsecs
    have hn : Nat.ofDigitChars 10 digits 0 < 2 ^ 64 :=
      (Nat.le_mul_of_pos_right _ (factor_pos u)).trans_lt hlt
    refine .retention ⟨digits, htrim.trans hvalue, ?_⟩ (Overflow.mulU64_of_lt hlt)
    exact (parseU64_unsigned (stripPrefix_plus_of_digits hne hdigits)).2 ⟨hne, hdigits, rfl, hn⟩
  | onExpiry e =>
    cases e with
    | purge => exact .purge
    | hold => exact .hold

theorem documented_of_understood (h : Understood build key value setting)
    (htrim : Text.trim value.toList = value.toList) (hlenient : ¬ Lenient key value) :
    Documented key value setting := by
  cases h with
  | mutable value =>
    have hb : ∃ b, value = boolText b := by
      by_contra hno
      exact hlenient (.mutable fun b hb => hno ⟨b, hb⟩)
    obtain ⟨b, rfl⟩ := hb
    cases b <;> exact .mutable _
  | immediate => exact .onDelete .immediate
  | soft => exact .onDelete .soft
  | reject => exact .onDelete .reject
  | recordChanges value =>
    have hb : ∃ b, value = boolText b := by
      by_contra hno
      exact hlenient (.recordChanges fun b hb => hno ⟨b, hb⟩)
    obtain ⟨b, rfl⟩ := hb
    cases b <;> exact .recordChanges _
  | @retention _ u n secs hd hsecs =>
    have hlt : n * u.factor < 2 ^ 64 := by
      by_contra hge
      exact hlenient (.wraps ⟨rfl, u, n, hd, not_lt.1 hge⟩)
    obtain ⟨digits, hvalue, hn⟩ := hd
    rw [htrim] at hvalue
    have hsign : ¬ ['+'] <+: digits := by
      rintro ⟨r, rfl⟩
      exact hlenient (.signed ⟨r ++ u.suffix, by rw [hvalue, List.append_assoc]⟩)
    obtain ⟨hne, hdigits, rfl, -⟩ := (parseU64_unsigned hsign).1 hn
    rw [mulU64_wraps_of_lt hsecs hlt]
    exact .retention hvalue hne hdigits rfl hlt
  | purge => exact .onExpiry .purge
  | hold => exact .onExpiry .hold

/-- The two unit letters and the digits leave no choice. -/
theorem Duration.unique {s : Text} {u u' : TimeUnit} {n n' : ℕ} (h : Duration s u n) (h' : Duration s u' n') :
    u = u' ∧ n = n' := by
  obtain ⟨digits, rfl, hn⟩ := h
  obtain ⟨digits', he, hn'⟩ := h'
  have hlast : ∀ (d d' : Text) (c : Char) (m : ℕ), Text.parseU64 d = some m → c.isDigit = false →
      d ≠ d' ++ [c] := by
    rintro d d' c m hm hc rfl
    have hdigit := isDigit_of_parseU64 hm List.getLast?_concat
    rw [hc] at hdigit
    cases hdigit
  have hsuffix : ∀ u : TimeUnit, u = .bare ∨ ∃ c, u.suffix = [c] ∧ c.isDigit = false := by
    intro u
    cases u with
    | days => exact .inr ⟨'d', rfl, rfl⟩
    | hours => exact .inr ⟨'h', rfl, rfl⟩
    | secs => exact .inr ⟨'s', rfl, rfl⟩
    | bare => exact .inl rfl
  have hsame : u.suffix = u'.suffix → u = u' := by cases u <;> cases u' <;> decide
  rcases hsuffix u with rfl | ⟨c, hc, hdigit⟩ <;> rcases hsuffix u' with rfl | ⟨c', hc', hdigit'⟩
  · rw [TimeUnit.suffix, List.append_nil, List.append_nil] at he
    subst he
    rw [hn] at hn'
    exact ⟨rfl, Option.some.inj hn'⟩
  · rw [TimeUnit.suffix, List.append_nil, hc'] at he
    exact absurd he (hlast _ _ _ _ hn hdigit')
  · rw [TimeUnit.suffix, List.append_nil, hc] at he
    exact absurd he.symm (hlast _ _ _ _ hn' hdigit)
  · rw [hc, hc'] at he
    obtain ⟨rfl, hcc⟩ := List.append_inj' he rfl
    rw [hn] at hn'
    exact ⟨hsame (hc.trans (hcc.trans hc'.symm)), Option.some.inj hn'⟩

theorem Documented.literal (h : Documented key value setting)
    (hkey : key = "mutable" ∨ key = "record_changes") : ∃ b, value = boolText b := by
  cases h with
  | mutable b => exact ⟨b, rfl⟩
  | recordChanges b => exact ⟨b, rfl⟩
  | onDelete d => exact absurd hkey (by decide)
  | retention => exact absurd hkey (by decide)
  | onExpiry e => exact absurd hkey (by decide)

theorem Documented.duration (h : Documented "retention" value setting) :
    ∃ u n, Duration value.toList u n ∧ ¬ ['+'] <+: value.toList ∧ n * u.factor < 2 ^ 64 := by
  generalize hkey : "retention" = key at h
  cases h with
  | @retention _ digits u secs hvalue hne hdigits hsecs hlt =>
    subst hsecs
    have hsign := stripPrefix_plus_of_digits hne hdigits
    have hn : Nat.ofDigitChars 10 digits 0 < 2 ^ 64 :=
      (Nat.le_mul_of_pos_right _ (factor_pos u)).trans_lt hlt
    refine ⟨u, _, ⟨digits, hvalue, (parseU64_unsigned hsign).2 ⟨hne, hdigits, rfl, hn⟩⟩, ?_, hlt⟩
    rw [hvalue]
    obtain ⟨c, rest, rfl⟩ := List.exists_cons_of_ne_nil hne
    rintro ⟨r, hr⟩
    obtain ⟨rfl, -⟩ := List.cons.inj hr
    exact hsign ⟨rest, rfl⟩
  | mutable b => exact absurd hkey (by decide)
  | recordChanges b => exact absurd hkey (by decide)
  | onDelete d => exact absurd hkey (by decide)
  | onExpiry e => exact absurd hkey (by decide)

theorem not_lenient_of_documented (h : Documented key value setting)
    (htrim : Text.trim value.toList = value.toList) : ¬ Lenient key value := by
  intro hl
  cases hl with
  | mutable hno =>
    obtain ⟨b, hb⟩ := h.literal (.inl rfl)
    exact hno b hb
  | recordChanges hno =>
    obtain ⟨b, hb⟩ := h.literal (.inr rfl)
    exact hno b hb
  | signed hsign =>
    obtain ⟨u, n, -, hno, -⟩ := h.duration
    exact hno hsign
  | wraps hexc =>
    obtain ⟨rfl, u', n', hd', hge⟩ := hexc
    obtain ⟨u, n, hd, -, hlt⟩ := h.duration
    rw [htrim] at hd'
    obtain ⟨rfl, rfl⟩ := hd.unique hd'
    exact absurd hlt (not_lt.2 hge)

/-! ## Lines -/

theorem KeyValue.trim {line : Text} (h : KeyValue line key value) :
    Text.trim value.toList = value.toList := by
  obtain ⟨k, v, -, -, -, rfl⟩ := h
  rw [String.toList_ofList, Text.trim_trim]

def LineDocumented (line : Text) (setting : Setting) : Prop :=
  ∃ key value, KeyValue line key value ∧ Documented key value setting

def LineLenient (line : Text) : Prop := ∃ key value, KeyValue line key value ∧ Lenient key value

variable {line : Text}

theorem lineSets_of_lineDocumented (h : LineDocumented line setting) : LineSets build line setting := by
  obtain ⟨key, value, hkv, hd⟩ := h
  exact ⟨key, value, hkv, understood_of_documented hd hkv.trim⟩

theorem lineDocumented_of_lineSets (h : LineSets build line setting) (hlenient : ¬ LineLenient line) :
    LineDocumented line setting := by
  obtain ⟨key, value, hkv, hu⟩ := h
  exact ⟨key, value, hkv, documented_of_understood hu hkv.trim fun hl => hlenient ⟨key, value, hkv, hl⟩⟩

theorem not_lineLenient_of_lineDocumented (h : LineDocumented line setting) : ¬ LineLenient line := by
  rintro ⟨key, value, hkv, hl⟩
  obtain ⟨key', value', hkv', hd⟩ := h
  obtain ⟨rfl, rfl⟩ := hkv.unique hkv'
  exact not_lenient_of_documented hd hkv.trim hl

/-! ## Fields -/

namespace Setting

def mutable? : Setting → Option Bool
  | mutable b => some b
  | _ => none

def onDelete? : Setting → Option DeleteBehavior
  | onDelete d => some d
  | _ => none

def recordChanges? : Setting → Option Bool
  | recordChanges b => some b
  | _ => none

def retention? : Setting → Option ℕ
  | retention secs => some secs
  | _ => none

def onExpiry? : Setting → Option ExpiryBehavior
  | onExpiry e => some e
  | _ => none

end Setting

/-- The last line that speaks of a field. -/
def lastOf {α : Type} (field : Setting → Option α) (settings : List Setting) : Option α :=
  (settings.filterMap field).getLast?

theorem lastOf_concat {α : Type} (field : Setting → Option α) (settings : List Setting) (setting : Setting) :
    lastOf field (settings ++ [setting]) = (field setting).or (lastOf field settings) := by
  unfold lastOf
  rw [List.filterMap_append, List.getLast?_append]
  cases h : field setting with
  | none => simp only [List.filterMap_cons_none h, List.filterMap_nil, List.getLast?_nil, Option.none_or]
  | some a => simp only [List.filterMap_cons_some h, List.filterMap_nil, List.getLast?_singleton, Option.some_or]

/-- Each field has the value of its last line, and without one its default. -/
def lastValues (pattern : Text) (settings : List Setting) : PolicyRule where
  pathPattern := String.ofList pattern
  onDelete := (lastOf Setting.onDelete? settings).getD .soft
  recordChanges := (lastOf Setting.recordChanges? settings).getD true
  mutable := (lastOf Setting.mutable? settings).getD true
  retentionSecs := lastOf Setting.retention? settings
  onExpiry := (lastOf Setting.onExpiry? settings).getD .hold

theorem ruleOf_eq (pattern : Text) (settings : List Setting) :
    ruleOf pattern settings = lastValues pattern settings := by
  induction settings using List.reverseRecOn with
  | nil => rfl
  | append_singleton settings setting ih =>
    rw [ruleOf, List.foldl_append]
    change Setting.set (ruleOf pattern settings) setting = _
    rw [ih]
    unfold lastValues
    simp only [lastOf_concat]
    cases setting <;> rfl

/-! ## The whole text -/

/-- The rules of a text, a pattern and a body each, to its end. -/
inductive Sections : Text → List (Text × Text) → Prop where
  | nil {t : Text} (h : Text.Blank t) : Sections t []
  | cons {t pattern body t' : Text} {sections : List (Text × Text)}
      (h : RuleText (Text.trim t) pattern body t') (hrest : Sections t' sections) :
      Sections t ((pattern, body) :: sections)

/-- A quote is no blank, so that the first one opens the string. -/
theorem first_quote_unique {w w' t t' : Text} {c : Char} (hc : Text.isWhitespace c = false)
    (hw : Text.Blank w) (hw' : Text.Blank w') (h : w ++ c :: t = w' ++ c :: t') : t = t' := by
  have hno : ∀ {w : Text}, Text.Blank w → c ∉ w := by
    intro w hw hmem
    rw [hw c hmem] at hc
    cases hc
  exact (Text.first_unique h (hno hw) (hno hw')).2

variable {t pattern body rest pattern' body' rest' : Text}

theorem RuleText.unique (h : RuleText t pattern body rest) (h' : RuleText t pattern' body' rest') :
    pattern = pattern' ∧ body = body' ∧ rest = rest' := by
  obtain ⟨w₁, w₂, hw₁, hw₂, hp, hb, rfl⟩ := h
  obtain ⟨v₁, v₂, hv₁, hv₂, hp', hb', he⟩ := h'
  have hstring := first_quote_unique (by decide) hw₁ hv₁ (List.append_cancel_left he)
  obtain ⟨rfl, hafter⟩ := Text.first_unique hstring hp hp'
  have hbrace := first_quote_unique (by decide) hw₂ hv₂ hafter
  obtain ⟨rfl, rfl⟩ := Text.first_unique hbrace hb hb'
  exact ⟨rfl, rfl, rfl⟩

theorem Header.unique {input name name' text text' : Text} (h : Header input name text)
    (h' : Header input name' text') : name = name' ∧ text = text' := by
  obtain ⟨w₁, w₂, hw₁, hw₂, hname, htrim⟩ := h
  obtain ⟨v₁, v₂, hv₁, hv₂, hname', htrim'⟩ := h'
  rw [htrim] at htrim'
  have hstring := first_quote_unique (by decide) hw₁ hv₁ (List.append_cancel_left htrim')
  obtain ⟨rfl, hafter⟩ := Text.first_unique hstring hname hname'
  have hbrace := first_quote_unique (by decide) hw₂ hv₂ hafter
  exact ⟨rfl, (List.append_inj' hbrace rfl).1⟩

theorem not_ruleText_of_blank (h : Text.Blank t) : ¬ RuleText (Text.trim t) pattern body rest := fun hr =>
  not_blank_of_ruleText hr (Text.trim_eq_nil_iff.2 h)

theorem Sections.unique {sections sections' : List (Text × Text)} (h : Sections t sections)
    (h' : Sections t sections') : sections = sections' := by
  induction h generalizing sections' with
  | nil hblank =>
    cases h' with
    | nil => rfl
    | cons hr => exact absurd hr (not_ruleText_of_blank hblank)
  | cons hr _ ih =>
    cases h' with
    | nil hblank => exact absurd hr (not_ruleText_of_blank hblank)
    | cons hr' hrest' =>
      obtain ⟨rfl, rfl, rfl⟩ := hr.unique hr'
      rw [ih hrest']

/-- The lines of a section set what the rule has. -/
def SectionSets (build : Overflow) (sec : Text × Text) (rule : PolicyRule) : Prop :=
  ∃ settings, BodySets build sec.2 settings ∧ rule = ruleOf sec.1 settings

theorem after_iff_sections {rules : List PolicyRule} :
    (∃ rest, After build t rules rest ∧ Text.Blank rest) ↔
      ∃ sections, Sections t sections ∧ List.Forall₂ (SectionSets build) sections rules := by
  constructor
  · rintro ⟨rest, hafter, hblank⟩
    induction hafter with
    | nil t => exact ⟨[], .nil hblank, .nil⟩
    | @cons t pattern body t' rest settings rules h hbody _ ih =>
      obtain ⟨sections, hsections, hsets⟩ := ih hblank
      exact ⟨(pattern, body) :: sections, .cons h hsections, .cons ⟨settings, hbody, rfl⟩ hsets⟩
  · rintro ⟨sections, hsections, hsets⟩
    induction hsections generalizing rules with
    | @nil t hblank =>
      cases hsets
      exact ⟨t, .nil t, hblank⟩
    | cons h _ ih =>
      cases hsets with
      | cons hset hsets =>
        obtain ⟨settings, hbody, rfl⟩ := hset
        obtain ⟨rest, hafter, hblank⟩ := ih hsets
        exact ⟨rest, .cons h hbody hafter, hblank⟩

variable {input : String} {policyId : UInt32} {p : MutabilityPolicy}

theorem parsePolicy_of_sections {name text : Text} {sections : List (Text × Text)} {rules : List PolicyRule}
    (hheader : Header input.toList name text) (hsections : Sections text sections)
    (hsets : List.Forall₂ (SectionSets build) sections rules) :
    parsePolicy build input policyId = .ok ⟨policyId, String.ofList name, rules⟩ := by
  obtain ⟨rest, hafter, hblank⟩ := after_iff_sections.2 ⟨sections, hsections, hsets⟩
  rw [parsePolicy_reaches policyId ⟨text, hheader, hafter⟩, parseRules_blank hblank]
  change Except.ok (MutabilityPolicy.mk _ _ (rules ++ [])) = _
  rw [List.append_nil]

theorem sections_of_parsePolicy (h : parsePolicy build input policyId = .ok p) :
    ∃ name text sections, Header input.toList name text ∧ Sections text sections ∧
      List.Forall₂ (SectionSets build) sections p.rules ∧ p.policyId = policyId ∧ p.name = String.ofList name := by
  by_cases hheader : ∃ name text, Header input.toList name text
  · obtain ⟨name, text, hheader⟩ := hheader
    obtain ⟨rules, rest, hafter, hend⟩ := parseRules_outcome build text
    have hp := parsePolicy_reaches policyId ⟨text, hheader, hafter⟩
    rw [h] at hp
    rcases hend with hblank | ⟨message, he⟩ | hs | ⟨rfl, ho⟩
    · rw [parseRules_blank hblank] at hp
      obtain ⟨sections, hsections, hsets⟩ := after_iff_sections.1 ⟨rest, hafter, hblank⟩
      obtain rfl := Except.ok.inj hp
      refine ⟨name, text, sections, hheader, hsections, ?_, rfl, rfl⟩
      change List.Forall₂ _ _ (rules ++ [])
      rwa [List.append_nil]
    · rw [he] at hp
      cases hp
    · rw [parseRules_of_splitsCharacter hs] at hp
      cases hp
    · rw [parseRules_of_overflowsIn ho] at hp
      cases hp
  · obtain ⟨message, he⟩ := parsePolicy_of_not build policyId hheader
    rw [h] at he
    cases he

/-! ## The documented policies -/

/-- Every line is documented, and each field has the value of its last line or its default. -/
def SectionDocumented (sec : Text × Text) (rule : PolicyRule) : Prop :=
  ∃ settings, List.Forall₂ LineDocumented (entries sec.2) settings ∧ rule = lastValues sec.1 settings

theorem Understood.wraps (h : Understood .panics key value setting) : Understood .wraps key value setting := by
  cases h with
  | @retention _ u n secs hd hsecs =>
    have hlt : n * u.factor < 2 ^ 64 := by
      by_contra hge
      rw [Overflow.mulU64_panics_iff.2 ⟨rfl, not_lt.1 hge⟩] at hsecs
      cases hsecs
    rw [Overflow.mulU64_of_lt hlt] at hsecs
    exact .retention hd (by rw [Overflow.mulU64_of_lt hlt, hsecs])
  | mutable value => exact .mutable value
  | recordChanges value => exact .recordChanges value
  | immediate => exact .immediate
  | soft => exact .soft
  | reject => exact .reject
  | purge => exact .purge
  | hold => exact .hold

theorem LineSets.wraps (h : LineSets build line setting) : LineSets .wraps line setting := by
  cases build with
  | wraps => exact h
  | panics =>
    obtain ⟨key, value, hkv, hu⟩ := h
    exact ⟨key, value, hkv, hu.wraps⟩

variable {sec : Text × Text} {rule : PolicyRule}

theorem SectionSets.wraps (h : SectionSets build sec rule) :
    ∃ settings, BodySets .wraps sec.2 settings := by
  obtain ⟨settings, hbody, -⟩ := h
  exact ⟨settings, hbody.imp fun _ _ => LineSets.wraps⟩

theorem forall₂_imp_mem {α β : Type} {R S : α → β → Prop} {as : List α} {bs : List β}
    (h : List.Forall₂ R as bs) (himp : ∀ a ∈ as, ∀ b, R a b → S a b) : List.Forall₂ S as bs := by
  have hmem := (List.forall₂_and_left as bs).2 ⟨fun a (ha : a ∈ as) => ha, h⟩
  exact hmem.imp fun a b hab => himp a hab.1 b hab.2

theorem exists_forall₂_iff {α β : Type} {R : α → β → Prop} {as : List α} :
    (∃ bs, List.Forall₂ R as bs) ↔ ∀ a ∈ as, ∃ b, R a b := by
  constructor
  · rintro ⟨bs, h⟩
    induction h with
    | nil => exact List.forall_mem_nil _
    | cons hab _ ih => exact List.forall_mem_cons.2 ⟨⟨_, hab⟩, ih⟩
  · intro h
    induction as with
    | nil => exact ⟨[], .nil⟩
    | cons a as ih =>
      obtain ⟨⟨b, hb⟩, htail⟩ := List.forall_mem_cons.1 h
      obtain ⟨bs, hbs⟩ := ih htail
      exact ⟨b :: bs, .cons hb hbs⟩

theorem sectionDocumented_of_sets (h : SectionSets build sec rule)
    (hlenient : ∀ line ∈ entries sec.2, ¬ LineLenient line) : SectionDocumented sec rule := by
  obtain ⟨settings, hbody, rfl⟩ := h
  exact ⟨settings, forall₂_imp_mem hbody fun l hl s hs => lineDocumented_of_lineSets hs (hlenient l hl),
    ruleOf_eq _ _⟩

theorem sectionSets_of_documented (h : SectionDocumented sec rule) : SectionSets build sec rule := by
  obtain ⟨settings, hlines, rfl⟩ := h
  exact ⟨settings, hlines.imp fun _ _ => lineSets_of_lineDocumented, (ruleOf_eq _ _).symm⟩

/-- No retention overflows, and what is read as a policy is documented line by line. -/
def KeepsMeaning (build : Overflow) (input : String) (policyId : UInt32) : Prop :=
  parsePolicy build input policyId ≠ .error .overflowed ∧
  ∀ p, parsePolicy build input policyId = .ok p → ∃ name text sections,
    Header input.toList name text ∧ Sections text sections ∧ p.policyId = policyId ∧
      p.name = String.ofList name ∧ List.Forall₂ SectionDocumented sections p.rules

/-- The text has the form of a policy, with lines that the parser takes where products wrap, and
    one of them is not documented. -/
def ReadsMore (input : String) : Prop :=
  ∃ name text sections, Header input.toList name text ∧ Sections text sections ∧
    (∀ sec ∈ sections, ∃ settings, BodySets .wraps sec.2 settings) ∧
    ∃ sec ∈ sections, ∃ line ∈ entries sec.2, LineLenient line

theorem keepsMeaning_of_not_readsMore (hover : build = .panics →
    ∀ name rules rest, Reaches build input name rules rest → ¬ OverflowsIn rest)
    (hmore : ¬ ReadsMore input) : KeepsMeaning build input policyId := by
  constructor
  · intro he
    by_cases hheader : ∃ name text, Header input.toList name text
    · obtain ⟨name, text, hheader⟩ := hheader
      obtain ⟨rules, rest, hafter, hend⟩ := parseRules_outcome build text
      have hp := parsePolicy_reaches policyId ⟨text, hheader, hafter⟩
      rw [he] at hp
      rcases hend with hblank | ⟨message, hm⟩ | hs | ⟨hb, ho⟩
      · rw [parseRules_blank hblank] at hp
        cases hp
      · rw [hm] at hp
        cases hp
      · rw [parseRules_of_splitsCharacter hs] at hp
        cases hp
      · exact hover hb _ _ _ ⟨text, hheader, hafter⟩ ho
    · obtain ⟨message, hm⟩ := parsePolicy_of_not build policyId hheader
      rw [he] at hm
      cases hm
  · intro p hp
    obtain ⟨name, text, sections, hheader, hsections, hsets, hid, hname⟩ := sections_of_parsePolicy hp
    refine ⟨name, text, sections, hheader, hsections, hid, hname, forall₂_imp_mem hsets ?_⟩
    intro sec hsec rule hset
    refine sectionDocumented_of_sets hset fun line hline hlenient => hmore ?_
    refine ⟨name, text, sections, hheader, hsections, fun sec' hsec' => ?_, sec, hsec, line, hline, hlenient⟩
    obtain ⟨rule', hset'⟩ := exists_forall₂_iff.1 ⟨_, hsets⟩ sec' hsec'
    exact hset'.wraps

theorem not_keepsMeaning_of_readsMore (h : ReadsMore input) : ¬ KeepsMeaning .wraps input policyId := by
  rintro ⟨-, hkeeps⟩
  obtain ⟨name, text, sections, hheader, hsections, hbodies, sec, hsec, line, hline, hlenient⟩ := h
  have hrules : ∀ sec ∈ sections, ∃ rule, SectionSets .wraps sec rule := by
    intro sec hsec
    obtain ⟨settings, hbody⟩ := hbodies sec hsec
    exact ⟨_, settings, hbody, rfl⟩
  obtain ⟨rules, hsets⟩ := exists_forall₂_iff.2 hrules
  obtain ⟨name', text', sections', hheader', hsections', -, -, hdocs⟩ :=
    hkeeps _ (parsePolicy_of_sections hheader hsections hsets)
  obtain ⟨rfl, rfl⟩ := hheader.unique hheader'
  obtain rfl := hsections.unique hsections'
  obtain ⟨rule, settings, hlines, -⟩ := exists_forall₂_iff.1 ⟨_, hdocs⟩ _ hsec
  obtain ⟨setting, hdoc⟩ := exists_forall₂_iff.1 ⟨_, hlines⟩ _ hline
  exact not_lineLenient_of_lineDocumented hdoc hlenient

end PolicyParser

open PolicyParser

/-- The parser keeps to the documented values on a text if and only if it comes to no retention
    beyond `u64`, and the text is no policy with a line that says more. -/
theorem parsePolicy_keepsMeaning_iff (input : String) :
    (∀ build policyId, KeepsMeaning build input policyId) ↔
      (∀ name rules rest, Reaches .panics input name rules rest → ¬ OverflowsIn rest) ∧
      ¬ ReadsMore input := by
  constructor
  · intro h
    refine ⟨fun name rules rest hreach ho => ?_, fun hmore => not_keepsMeaning_of_readsMore hmore (h .wraps 0)⟩
    have hp := parsePolicy_reaches 0 hreach
    rw [parseRules_of_overflowsIn ho] at hp
    exact (h .panics 0).1 hp
  · rintro ⟨hover, hmore⟩ build policyId
    exact keepsMeaning_of_not_readsMore (fun hb name rules rest hr => hover name rules rest (hb ▸ hr)) hmore

/-- A file that its owner wants mutable, in another word than `true`. -/
theorem parsePolicy_reads_yes :
    ¬ ∀ (build : Overflow) (input : String) (policyId : UInt32), KeepsMeaning build input policyId := by
  intro h
  refine not_keepsMeaning_of_readsMore ?_
    (h .wraps "policy \"p\" \x7b rule \"**\" \x7b mutable = yes \x7d \x7d" 0)
  have hsets : LineSets .wraps "mutable = yes".toList (.mutable false) :=
    ⟨"mutable", "yes", ⟨"mutable ".toList, " yes".toList, by decide, by decide, by decide, by decide⟩,
      .mutable "yes"⟩
  have hentries : entries " mutable = yes ".toList = ["mutable = yes".toList] := by decide
  refine ⟨['p'], " rule \"**\" \x7b mutable = yes \x7d ".toList, [("**".toList, " mutable = yes ".toList)],
    ⟨[' '], [' '], by decide, by decide, by decide, by decide⟩, ?_, ?_, ?_⟩
  · have hrule : RuleText (Text.trim " rule \"**\" \x7b mutable = yes \x7d ".toList) "**".toList
        " mutable = yes ".toList [] :=
      ⟨[' '], [' '], by decide, by decide, by decide, by decide, by decide⟩
    exact .cons hrule (.nil (by decide))
  · intro sec hsec
    rw [List.mem_singleton.1 hsec]
    refine ⟨[.mutable false], ?_⟩
    rw [BodySets, hentries]
    exact .cons hsets .nil
  · refine ⟨_, List.mem_cons_self, "mutable = yes".toList, ?_, "mutable", "yes", ?_, .mutable ?_⟩
    · rw [hentries]
      exact List.mem_cons_self
    · exact ⟨"mutable ".toList, " yes".toList, by decide, by decide, by decide, by decide⟩
    · intro b
      cases b <;> decide

end TgCryptFs

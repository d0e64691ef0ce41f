import TgCryptFs.Core.PolicyValues

set_option autoImplicit false

/-!
# Policies as texts

A policy is written with its rules in order and a line for each field, in any order and with any
blanks. The parser reads it back, whatever its name and its patterns are, so long as there is no
quote in them.
-/
namespace TgCryptFs
open Library

namespace PolicyParser

/-! ## Lines -/

def keys : List String := ["mutable", "on_delete", "record_changes", "retention", "on_expiry"]

namespace Setting

def key : Setting → String
  | mutable _ => "mutable"
  | onDelete _ => "on_delete"
  | recordChanges _ => "record_changes"
  | retention _ => "retention"
  | onExpiry _ => "on_expiry"

def value : Setting → String
  | mutable b => boolText b
  | onDelete d => deleteText d
  | recordChanges b => boolText b
  | retention secs => String.ofList (secs.repr.toList ++ ['s'])
  | onExpiry e => expiryText e

/-- A retention is a `u64`. -/
def Fits : Setting → Prop
  | retention secs => secs < 2 ^ 64
  | _ => True

end Setting

/-- A character of a key or a value. -/
def Plain (c : Char) : Prop := Text.isWhitespace c = false ∧ c ≠ '=' ∧ c ≠ '\x7d'

instance : DecidablePred Plain := fun c =>
  inferInstanceAs (Decidable (Text.isWhitespace c = false ∧ c ≠ '=' ∧ c ≠ '\x7d'))

theorem plain_of_isDigit {c : Char} (h : c.isDigit = true) : Plain c := by
  obtain ⟨hlow, hhigh⟩ : 48 ≤ c.val.toNat ∧ c.val.toNat ≤ 57 := by
    simpa [Char.isDigit, UInt32.le_iff_toNat_le] using h
  have hval : c.toNat = c.val.toNat := rfl
  refine ⟨?_, ?_, ?_⟩
  · simp [Text.isWhitespace, UInt32.le_iff_toNat_le, ← UInt32.toNat_inj]
    omega
  · rintro rfl
    revert hhigh
    decide
  · rintro rfl
    revert hhigh
    decide

variable {s : Setting} {t w : Text}

theorem key_mem (s : Setting) : s.key ∈ keys := by
  cases s with
  | mutable b => exact .head _
  | onDelete d => exact .tail _ (.head _)
  | recordChanges b => exact .tail _ (.tail _ (.head _))
  | retention secs => exact .tail _ (.tail _ (.tail _ (.head _)))
  | onExpiry e => exact .tail _ (.tail _ (.tail _ (.tail _ (.head _))))

theorem plain_of_all (h : t.all (fun c => decide (Plain c)) = true) {c : Char} (hc : c ∈ t) : Plain c :=
  of_decide_eq_true (List.all_eq_true.1 h c hc)

theorem plain_key {c : Char} (hc : c ∈ s.key.toList) : Plain c := by
  have hall : ∀ k ∈ keys, k.toList.all (fun c => decide (Plain c)) = true := by decide
  exact plain_of_all (hall _ (key_mem s)) hc

theorem key_ne_nil : s.key.toList ≠ [] := by
  have hall : ∀ k ∈ keys, k.toList ≠ [] := by decide
  exact hall _ (key_mem s)

theorem isDigit_of_mem_repr {n : ℕ} {c : Char} (hc : c ∈ n.repr.toList) : c.isDigit = true := by
  rw [Nat.toList_repr] at hc
  exact Nat.isDigit_of_mem_toDigits (by decide) (by decide) hc

theorem plain_value {c : Char} (hc : c ∈ s.value.toList) : Plain c := by
  have hbool : ∀ b, (boolText b).toList.all (fun c => decide (Plain c)) = true := by decide
  cases s with
  | mutable b => exact plain_of_all (hbool b) hc
  | onDelete d =>
    refine plain_of_all ?_ hc
    cases d <;> decide
  | recordChanges b => exact plain_of_all (hbool b) hc
  | retention secs =>
    rw [Setting.value, String.toList_ofList] at hc
    rcases List.mem_append.1 hc with hc | hc
    · exact plain_of_isDigit (isDigit_of_mem_repr hc)
    · rw [List.mem_singleton.1 hc]
      decide
  | onExpiry e =>
    refine plain_of_all ?_ hc
    cases e <;> decide

theorem value_ne_nil : s.value.toList ≠ [] := by
  cases s with
  | mutable b => cases b <;> decide
  | onDelete d => cases d <;> decide
  | recordChanges b => cases b <;> decide
  | retention secs =>
    rw [Setting.value, String.toList_ofList]
    exact List.append_ne_nil_of_right_ne_nil _ (List.cons_ne_nil _ _)
  | onExpiry e => cases e <;> decide

theorem documented_value (h : s.Fits) :
    Documented s.key s.value s := by
  cases s with
  | mutable b => exact .mutable b
  | onDelete d => exact .onDelete d
  | recordChanges b => exact .recordChanges b
  | retention secs =>
    have hsecs : secs = Nat.ofDigitChars 10 secs.repr.toList 0 * TimeUnit.secs.factor := by
      rw [Nat.toList_repr, Nat.ofDigitChars_ten_toDigits]
      exact (Nat.mul_one secs).symm
    have hvalue : (Setting.retention secs).value.toList = secs.repr.toList ++ TimeUnit.secs.suffix :=
      String.toList_ofList
    refine .retention hvalue ?_ (List.all_eq_true.2 fun _ => isDigit_of_mem_repr) hsecs h
    rw [Nat.toList_repr]
    exact Nat.toDigits_ne_nil
  | onExpiry e => exact .onExpiry e

/-- Blanks within a line. -/
def Inline (w : Text) : Prop := Text.Blank w ∧ '\n' ∉ w

/-- The line of a setting from its key on. -/
def FieldLine (s : Setting) (line : Text) : Prop :=
  ∃ b c d, Inline b ∧ Inline c ∧ Inline d ∧
    line = s.key.toList ++ (b ++ '=' :: (c ++ (s.value.toList ++ d)))

theorem solidStart_of_plain (hne : t ≠ []) (h : ∀ c ∈ t, Plain c) (r : Text) : Text.SolidStart (t ++ r) := by
  intro c hc
  obtain ⟨x, t, rfl⟩ := List.exists_cons_of_ne_nil hne
  obtain rfl := Option.some.inj hc
  exact (h x List.mem_cons_self).1

theorem solidEnd_of_plain (h : ∀ c ∈ t, Plain c) : Text.SolidEnd t := fun c hc =>
  (h c (List.mem_of_getLast? hc)).1

theorem trim_plain (hne : t ≠ []) (h : ∀ c ∈ t, Plain c) : Text.trim t = t := by
  have hs := solidStart_of_plain hne h []
  rw [List.append_nil] at hs
  exact Text.trim_of_solid hs (solidEnd_of_plain h)

variable {line : Text}

theorem trim_fieldLine (h : FieldLine s line) : ∃ b c, Inline b ∧ Inline c ∧
    Text.trim line = s.key.toList ++ (b ++ '=' :: (c ++ s.value.toList)) := by
  obtain ⟨b, c, d, hb, hc, hd, rfl⟩ := h
  refine ⟨b, c, hb, hc, ?_⟩
  have hend : Text.SolidEnd (s.key.toList ++ (b ++ '=' :: (c ++ s.value.toList))) := by
    have hvalue := (solidEnd_of_plain fun _ => plain_value).append_left (value_ne_nil (s := s))
      (s.key.toList ++ (b ++ '=' :: c))
    simpa using hvalue
  have htrim := Text.trim_eq Text.blank_nil hd.1
    (solidStart_of_plain key_ne_nil (fun _ => plain_key) (b ++ '=' :: (c ++ s.value.toList))) hend
  simpa using htrim

theorem lineDocumented_of_fieldLine (hfits : s.Fits) (h : FieldLine s line) :
    LineDocumented (Text.trim line) s := by
  obtain ⟨b, c, hb, hc, htrim⟩ := trim_fieldLine h
  refine ⟨s.key, s.value, ⟨s.key.toList ++ b, c ++ s.value.toList, ?_, ?_, ?_, ?_⟩, documented_value hfits⟩
  · rw [htrim, List.append_assoc]
  · rw [List.mem_append, not_or]
    refine ⟨fun hmem => (plain_key hmem).2.1 rfl, fun hmem => ?_⟩
    exact absurd (hb.1 _ hmem) (by decide)
  · have hsur := Text.trim_surround Text.blank_nil hb.1 s.key.toList
    rw [List.nil_append, trim_plain key_ne_nil fun _ => plain_key] at hsur
    rw [hsur, String.ofList_toList]
  · have hsur := Text.trim_surround hc.1 Text.blank_nil s.value.toList
    rw [List.append_nil, trim_plain value_ne_nil fun _ => plain_value] at hsur
    rw [hsur, String.ofList_toList]

theorem mem_fieldLine {c : Char} (h : FieldLine s line) (hc : c ∈ line) :
    c ≠ '\n' ∧ c ≠ '\x7d' := by
  have hplain : ∀ {c : Char}, Plain c → c ≠ '\n' ∧ c ≠ '\x7d' := by
    rintro c ⟨hblank, -, hbrace⟩
    refine ⟨?_, hbrace⟩
    rintro rfl
    exact absurd hblank (by decide)
  have hinline : ∀ {w : Text}, Inline w → c ∈ w → c ≠ '\n' ∧ c ≠ '\x7d' := by
    intro w hw hmem
    refine ⟨fun he => hw.2 (he ▸ hmem), ?_⟩
    rintro rfl
    exact absurd (hw.1 _ hmem) (by decide)
  obtain ⟨b, c', d, hb, hc', hd, rfl⟩ := h
  rcases List.mem_append.1 hc with hc | hc
  · exact hplain (plain_key hc)
  rcases List.mem_append.1 hc with hc | hc
  · exact hinline hb hc
  rcases List.mem_cons.1 hc with rfl | hc
  · decide
  rcases List.mem_append.1 hc with hc | hc
  · exact hinline hc' hc
  rcases List.mem_append.1 hc with hc | hc
  · exact hplain (plain_value hc)
  · exact hinline hd hc

theorem fieldLine_trim_ne_nil (h : FieldLine s line) : Text.trim line ≠ [] := by
  obtain ⟨b, c, -, -, htrim⟩ := trim_fieldLine h
  rw [htrim]
  exact List.append_ne_nil_of_left_ne_nil key_ne_nil _

/-! ## Bodies -/

theorem trim_stripReturn (line : Text) : Text.trim (Text.stripReturn line) = Text.trim line := by
  unfold Text.stripReturn
  cases h : Text.stripSuffix ['\r'] line with
  | none => rfl
  | some r =>
    rw [Text.stripSuffix_eq_some.1 h]
    exact (Text.trim_surround Text.blank_nil (by decide) r).symm

/-- What is left of the pieces between line ends. -/
theorem entries_eq (body : Text) : entries body = ((body.splitOn '\n').map Text.trim).filter (· ≠ []) := by
  have hlast : ∀ last : Text, ((([last] : List Text).filter (· ≠ [])).map Text.trim).filter (· ≠ []) =
      ([last].map Text.trim).filter (· ≠ []) := by
    intro last
    by_cases hnil : last = []
    · subst hnil
      rfl
    · rw [List.filter_cons_of_pos (by simpa using hnil), List.filter_nil]
  have hmap : ∀ ls : List Text, (ls.map Text.stripReturn).map Text.trim = ls.map Text.trim := by
    intro ls
    rw [List.map_map]
    exact List.map_congr_left fun line _ => trim_stripReturn line
  have hne := List.splitOn_ne_nil '\n' body
  unfold entries Text.lines
  dsimp only
  rw [List.getLast?_eq_some_getLast hne, Option.toList_some, List.map_append, List.filter_append, hmap, hlast,
    ← List.filter_append, ← List.map_append, List.dropLast_append_getLast hne]

theorem entries_newline (a b : Text) : entries (a ++ '\n' :: b) = entries a ++ entries b := by
  rw [entries_eq, entries_eq, entries_eq, List.splitOn_append_cons_self, List.map_append, List.filter_append]

theorem entries_single (hno : '\n' ∉ t) (hne : Text.trim t ≠ []) : entries t = [Text.trim t] := by
  rw [entries_eq, List.splitOn_eq_singleton hno, List.map_singleton,
    List.filter_cons_of_pos (by simpa using hne), List.filter_nil]

theorem entries_nil : entries [] = [] := by decide

theorem entries_blank_append (hw : Text.Blank w) (t : Text) : entries (w ++ t) = entries t := by
  induction w with
  | nil => rfl
  | cons c w ih =>
    have htail : Text.Blank w := fun x hx => hw x (List.mem_cons_of_mem _ hx)
    rw [← ih htail]
    by_cases hc : c = '\n'
    · subst hc
      have hsplit := entries_newline [] (w ++ t)
      rwa [entries_nil] at hsplit
    · have htrim : ∀ p : Text, Text.trim (c :: p) = Text.trim p := by
        intro p
        have hblank : Text.Blank [c] := fun x hx => by
          rw [List.mem_singleton.1 hx]
          exact hw c List.mem_cons_self
        have hsur := Text.trim_surround hblank Text.blank_nil p
        rwa [List.append_nil] at hsur
      rw [entries_eq, entries_eq, List.cons_append, List.splitOn_cons_eq_if_modifyHead,
        if_neg (by simpa using hc)]
      obtain ⟨p, ps, hps⟩ := List.exists_cons_of_ne_nil (List.splitOn_ne_nil '\n' (w ++ t))
      rw [hps, List.modifyHead_cons, List.map_cons, List.map_cons, htrim]

/-- The lines of a body, with blanks and blank lines before each and after the last. -/
inductive BodyText : Text → List Setting → Prop where
  | nil {w : Text} (hw : Text.Blank w) : BodyText w []
  | last {w line : Text} {s : Setting} (hw : Text.Blank w) (h : FieldLine s line) : BodyText (w ++ line) [s]
  | cons {w line rest : Text} {s : Setting} {settings : List Setting} (hw : Text.Blank w)
      (h : FieldLine s line) (hrest : BodyText rest settings) :
      BodyText (w ++ (line ++ '\n' :: rest)) (s :: settings)

variable {body : Text} {settings : List Setting}

theorem bodyText_documented (h : BodyText body settings) (hfits : ∀ s ∈ settings, s.Fits) :
    List.Forall₂ LineDocumented (entries body) settings := by
  induction h with
  | @nil w hw =>
    have he := entries_blank_append hw []
    rw [List.append_nil, entries_nil] at he
    rw [he]
    exact .nil
  | @last w line s hw h =>
    rw [entries_blank_append hw, entries_single (fun hn => (mem_fieldLine h hn).1 rfl) (fieldLine_trim_ne_nil h)]
    exact .cons (lineDocumented_of_fieldLine (hfits s List.mem_cons_self) h) .nil
  | @cons w line rest s settings hw h _ ih =>
    rw [entries_blank_append hw, entries_newline,
      entries_single (fun hn => (mem_fieldLine h hn).1 rfl) (fieldLine_trim_ne_nil h)]
    exact .cons (lineDocumented_of_fieldLine (hfits s List.mem_cons_self) h)
      (ih fun s hs => hfits s (List.mem_cons_of_mem _ hs))

theorem not_mem_bodyText (h : BodyText body settings) : '\x7d' ∉ body := by
  have hblank : ∀ {w : Text}, Text.Blank w → '\x7d' ∉ w := fun hw hmem => absurd (hw _ hmem) (by decide)
  induction h with
  | nil hw => exact hblank hw
  | last hw h =>
    rw [List.mem_append, not_or]
    exact ⟨hblank hw, fun hmem => (mem_fieldLine h hmem).2 rfl⟩
  | cons hw h _ ih =>
    rw [List.mem_append, List.mem_append, List.mem_cons, not_or, not_or, not_or]
    exact ⟨hblank hw, fun hmem => (mem_fieldLine h hmem).2 rfl, by decide, ih⟩

/-! ## Fields -/

/-- One line for each field, and none for a retention that is not there. -/
def fieldsOf (rule : PolicyRule) : List Setting :=
  [.mutable rule.mutable, .onDelete rule.onDelete, .recordChanges rule.recordChanges] ++
    rule.retentionSecs.toList.map .retention ++ [.onExpiry rule.onExpiry]

variable {rule : PolicyRule}

theorem lastOf_of_perm {α : Type} {field : Setting → Option α} {a : Option α}
    (h : settings.Perm (fieldsOf rule)) (hfield : (fieldsOf rule).filterMap field = a.toList) :
    lastOf field settings = a := by
  have hperm := h.filterMap field
  rw [hfield] at hperm
  unfold lastOf
  cases a with
  | none =>
    rw [hperm.eq_nil]
    rfl
  | some a =>
    rw [hperm.eq_singleton]
    rfl

/-- The order of the lines does not matter. -/
theorem lastValues_of_perm (h : settings.Perm (fieldsOf rule)) :
    lastValues rule.pathPattern.toList settings = rule := by
  have hnone : ∀ {α : Type} (field : Setting → Option α), (∀ secs, field (.retention secs) = none) →
      (rule.retentionSecs.toList.map Setting.retention).filterMap field = [] := by
    intro α field hno
    rw [List.filterMap_map, List.filterMap_eq_nil_iff]
    exact fun secs _ => hno secs
  have hsome : (rule.retentionSecs.toList.map Setting.retention).filterMap Setting.retention? =
      rule.retentionSecs.toList := by
    rw [List.filterMap_map]
    exact List.filterMap_some
  have hmutable : lastOf Setting.mutable? settings = some rule.mutable := by
    refine lastOf_of_perm h ?_
    rw [fieldsOf, List.filterMap_append, List.filterMap_append, hnone _ fun _ => rfl]
    rfl
  have honDelete : lastOf Setting.onDelete? settings = some rule.onDelete := by
    refine lastOf_of_perm h ?_
    rw [fieldsOf, List.filterMap_append, List.filterMap_append, hnone _ fun _ => rfl]
    rfl
  have hrecordChanges : lastOf Setting.recordChanges? settings = some rule.recordChanges := by
    refine lastOf_of_perm h ?_
    rw [fieldsOf, List.filterMap_append, List.filterMap_append, hnone _ fun _ => rfl]
    rfl
  have hretention : lastOf Setting.retention? settings = rule.retentionSecs := by
    refine lastOf_of_perm h ?_
    rw [fieldsOf, List.filterMap_append, List.filterMap_append, hsome]
    exact List.append_nil _
  have honExpiry : lastOf Setting.onExpiry? settings = some rule.onExpiry := by
    refine lastOf_of_perm h ?_
    rw [fieldsOf, List.filterMap_append, List.filterMap_append, hnone _ fun _ => rfl]
    rfl
  unfold lastValues
  rw [hmutable, honDelete, hrecordChanges, hretention, honExpiry, String.ofList_toList]
  rfl

/-! ## Rules -/

/-- A rule from its keyword to its closing brace. -/
def RendersRule (rule : PolicyRule) (t : Text) : Prop :=
  ∃ w w' body settings, Text.Blank w ∧ Text.Blank w' ∧ BodyText body settings ∧
    settings.Perm (fieldsOf rule) ∧
    t = "rule".toList ++ (w ++ '"' :: (rule.pathPattern.toList ++ '"' :: (w' ++ '\x7b' :: (body ++ ['\x7d']))))

/-- The rules, with blanks before each and after the last. -/
inductive RendersRules : List PolicyRule → Text → Prop where
  | nil {w : Text} (hw : Text.Blank w) : RendersRules [] w
  | cons {w t rest : Text} {rule : PolicyRule} {rules : List PolicyRule} (hw : Text.Blank w)
      (h : RendersRule rule t) (hrest : RendersRules rules rest) : RendersRules (rule :: rules) (w ++ (t ++ rest))

/-- The policy, from the blanks before its keyword to those after its last brace. -/
def Renders (p : MutabilityPolicy) (t : Text) : Prop :=
  ∃ w w₁ w₂ w₃ rules, Text.Blank w ∧ Text.Blank w₁ ∧ Text.Blank w₂ ∧ Text.Blank w₃ ∧
    RendersRules p.rules rules ∧
    t = w ++ ("policy".toList ++ (w₁ ++ '"' :: (p.name.toList ++ '"' :: (w₂ ++ '\x7b' :: (rules ++ ['\x7d'])))) ++ w₃)

/-- There is no quote in the pattern, and the retention is a `u64`. -/
def RuleWritable (rule : PolicyRule) : Prop :=
  '"' ∉ rule.pathPattern.toList ∧ ∀ secs ∈ rule.retentionSecs, secs < 2 ^ 64

theorem fits_of_mem_fieldsOf (hfits : ∀ secs ∈ rule.retentionSecs, secs < 2 ^ 64) (hs : s ∈ fieldsOf rule) :
    s.Fits := by
  cases s with
  | retention secs =>
    refine hfits secs (Option.mem_toList.1 ?_)
    simpa [fieldsOf] using hs
  | _ => trivial

theorem Sections.congr {t t' : Text} {sections : List (Text × Text)} (htrim : Text.trim t = Text.trim t')
    (h : Sections t sections) : Sections t' sections := by
  cases h with
  | nil hblank => exact .nil (Text.trim_eq_nil_iff.1 (htrim ▸ Text.trim_eq_nil_iff.2 hblank))
  | cons hr hrest =>
    rw [htrim] at hr
    exact .cons hr hrest

theorem ruleText_of_rendersRule {rest : Text} (hw : Text.Blank w) (h : RendersRule rule t)
    (hquote : '"' ∉ rule.pathPattern.toList) : ∃ body settings rest',
      RuleText (Text.trim (w ++ (t ++ rest))) rule.pathPattern.toList body rest' ∧ BodyText body settings ∧
      settings.Perm (fieldsOf rule) ∧ Text.trim rest' = Text.trim rest := by
  obtain ⟨v, v', body, settings, hv, hv', hbody, hperm, rfl⟩ := h
  obtain ⟨rest', b, hb, rfl, hsolid, htrim⟩ := Text.exists_solidEnd rest
  refine ⟨body, settings, rest', ⟨v, v', hv, hv', hquote, not_mem_bodyText hbody, ?_⟩, hbody, hperm, htrim⟩
  have hsplit : ∀ r : Text, "rule".toList ++ (v ++ '"' :: (rule.pathPattern.toList ++ '"' ::
      (v' ++ '\x7b' :: (body ++ '\x7d' :: r)))) = ("rule".toList ++ (v ++ '"' :: (rule.pathPattern.toList ++
      '"' :: (v' ++ '\x7b' :: body)))) ++ (['\x7d'] ++ r) := by
    intro r
    simp only [List.append_assoc, List.cons_append, List.nil_append]
  have hstart : ∀ r : Text, Text.SolidStart ("rule".toList ++ r) := fun r c hc => by
    cases hc
    rfl
  have hend : Text.SolidEnd ("rule".toList ++ (v ++ '"' :: (rule.pathPattern.toList ++ '"' ::
      (v' ++ '\x7b' :: (body ++ '\x7d' :: rest'))))) := by
    rw [hsplit, ← List.append_assoc]
    exact (Text.solidEnd_concat rfl _).append hsolid
  have heq := Text.trim_eq hw hb (hstart _) hend
  rw [← heq]
  congr 1
  simp only [List.append_assoc, List.cons_append, List.nil_append]

theorem sections_of_rendersRules {rules : List PolicyRule} (h : RendersRules rules t)
    (hrules : ∀ rule ∈ rules, RuleWritable rule) :
    ∃ sections, Sections t sections ∧ List.Forall₂ SectionDocumented sections rules := by
  induction h with
  | nil hw => exact ⟨[], .nil hw, .nil⟩
  | @cons w t rest rule rules hw h _ ih =>
    obtain ⟨hquote, hfits⟩ := hrules rule List.mem_cons_self
    obtain ⟨body, settings, rest', hr, hbody, hperm, htrim⟩ := ruleText_of_rendersRule hw h hquote
    obtain ⟨sections, hsections, hdocs⟩ := ih fun rule hr => hrules rule (List.mem_cons_of_mem _ hr)
    refine ⟨(rule.pathPattern.toList, body) :: sections, .cons hr (hsections.congr htrim.symm), .cons ?_ hdocs⟩
    refine ⟨settings, bodyText_documented hbody fun s hs => ?_, (lastValues_of_perm hperm).symm⟩
    exact fits_of_mem_fieldsOf hfits (hperm.mem_iff.1 hs)

theorem header_of_renders {p : MutabilityPolicy} (h : Renders p t) (hname : '"' ∉ p.name.toList) :
    ∃ text, Header t p.name.toList text ∧ RendersRules p.rules text := by
  obtain ⟨w, w₁, w₂, w₃, rules, hw, hw₁, hw₂, hw₃, hrules, rfl⟩ := h
  refine ⟨rules, ⟨w₁, w₂, hw₁, hw₂, hname, ?_⟩, hrules⟩
  rw [← List.append_assoc]
  refine Text.trim_eq hw hw₃ (fun c hc => ?_) ?_
  · cases hc
    rfl
  · have hlast : ("policy".toList ++ (w₁ ++ '"' :: (p.name.toList ++ '"' :: (w₂ ++ '\x7b' :: (rules ++ ['\x7d']))))) =
        ("policy".toList ++ (w₁ ++ '"' :: (p.name.toList ++ '"' :: (w₂ ++ '\x7b' :: rules)))) ++ ['\x7d'] := by
      simp only [List.append_assoc, List.cons_append]
    rw [hlast]
    exact Text.solidEnd_concat rfl _

/-! ## The usual text -/

def renderLine (s : Setting) : Text := s.key.toList ++ ([' '] ++ '=' :: ([' '] ++ (s.value.toList ++ [])))

def renderBody : List Setting → Text
  | [] => "  ".toList
  | s :: settings => "    ".toList ++ (renderLine s ++ '\n' :: renderBody settings)

def renderRule (rule : PolicyRule) : Text :=
  "rule".toList ++ ([' '] ++ '"' :: (rule.pathPattern.toList ++ '"' ::
    ([' '] ++ '\x7b' :: ((['\n'] ++ renderBody (fieldsOf rule)) ++ ['\x7d']))))

def renderRules : List PolicyRule → Text
  | [] => ['\n']
  | rule :: rules => "\n  ".toList ++ (renderRule rule ++ renderRules rules)

/-- Two blanks before a rule, four before a line. -/
def render (p : MutabilityPolicy) : Text :=
  [] ++ ("policy".toList ++ ([' '] ++ '"' :: (p.name.toList ++ '"' ::
    ([' '] ++ '\x7b' :: (renderRules p.rules ++ ['\x7d'])))) ++ [])

theorem inline_space : Inline [' '] := ⟨by decide, by decide⟩

theorem inline_nil : Inline [] := ⟨Text.blank_nil, List.not_mem_nil⟩

theorem fieldLine_renderLine (s : Setting) : FieldLine s (renderLine s) :=
  ⟨[' '], [' '], [], inline_space, inline_space, inline_nil, rfl⟩

theorem bodyText_renderBody (settings : List Setting) : BodyText (renderBody settings) settings := by
  induction settings with
  | nil => exact .nil (by decide)
  | cons s settings ih => exact .cons (by decide) (fieldLine_renderLine s) ih

theorem BodyText.blank_append (hw : Text.Blank w) (h : BodyText body settings) : BodyText (w ++ body) settings := by
  cases h with
  | nil hw' => exact .nil (hw.append hw')
  | last hw' h =>
    rw [← List.append_assoc]
    exact .last (hw.append hw') h
  | cons hw' h hrest =>
    rw [← List.append_assoc]
    exact .cons (hw.append hw') h hrest

theorem rendersRule_renderRule (rule : PolicyRule) : RendersRule rule (renderRule rule) :=
  ⟨[' '], [' '], _, _, inline_space.1, inline_space.1, (bodyText_renderBody _).blank_append (by decide),
    .refl _, rfl⟩

theorem rendersRules_renderRules (rules : List PolicyRule) : RendersRules rules (renderRules rules) := by
  induction rules with
  | nil => exact .nil (by decide)
  | cons rule rules ih => exact .cons (by decide) (rendersRule_renderRule rule) ih

theorem renders_render (p : MutabilityPolicy) : Renders p (render p) :=
  ⟨[], [' '], [' '], [], _, Text.blank_nil, inline_space.1, inline_space.1, Text.blank_nil,
    rendersRules_renderRules p.rules, rfl⟩

end PolicyParser

open PolicyParser

/-- There is no quote in a name or a pattern, and every retention is a `u64`. -/
def MutabilityPolicy.Writable (p : MutabilityPolicy) : Prop :=
  '"' ∉ p.name.toList ∧ ∀ rule ∈ p.rules, RuleWritable rule

/-- The parser reads back what has been written, with whatever blanks and in whatever order. -/
theorem parsePolicy_of_renders (build : Overflow) (p : MutabilityPolicy) (text : String) (policyId : UInt32)
    (hwritable : p.Writable) (h : Renders p text.toList) :
    parsePolicy build text policyId = .ok { p with policyId := policyId } := by
  obtain ⟨rules, hheader, hrules⟩ := header_of_renders h hwritable.1
  obtain ⟨sections, hsections, hdocs⟩ := sections_of_rendersRules hrules hwritable.2
  have hsets : List.Forall₂ (SectionSets build) sections p.rules :=
    hdocs.imp fun _ _ => sectionSets_of_documented
  rw [parsePolicy_of_sections hheader hsections hsets, String.ofList_toList]

/-- Braces, an equals sign, a line end and keywords in the name and the pattern. -/
def braced : MutabilityPolicy where
  policyId := 0
  name := "rule \x7d policy \x7b"
  rules := [
    { pathPattern := "a = \x7bb\x7d\nretention"
      onDelete := .reject
      recordChanges := false
      mutable := true
      retentionSecs := some 30
      onExpiry := .purge }]

theorem braced_round_trip : braced.Writable ∧
    parsePolicy .panics (String.ofList (render braced)) 7 = .ok { braced with policyId := 7 } := by
  have hwritable : braced.Writable := by
    refine ⟨by decide, fun rule hr => ?_⟩
    rw [List.mem_singleton.1 hr]
    refine ⟨by decide, fun secs hs => ?_⟩
    cases hs
    decide
  refine ⟨hwritable, parsePolicy_of_renders .panics braced _ 7 hwritable ?_⟩
  rw [String.toList_ofList]
  exact renders_render braced

end TgCryptFs

import TgCryptFs.Core.Policy
import TgCryptFs.Core.Shred
import TgCryptFs.Library.Wildcards

set_option autoImplicit false

/-!
# Paths that a rule matches

Between the slashes `**` stands for any number of segments, and every way to split the path is
tried. Within a segment only a `*` at one end is a wildcard: the first character, and if that
is none, the last.
-/
namespace TgCryptFs
open Library

/-- Within a segment. -/
def globMatchSegment (pattern segment : String) : Bool :=
  if pattern = "*" then true
  else if pattern.toList.head? = some '*' then pattern.toList.tail.isSuffixOf segment.toList
  else if pattern.toList.getLast? = some '*' then
    pattern.toList.dropLast.isPrefixOf segment.toList
  else pattern = segment

def globMatchParts : List String → List String → Bool
  | [], path => path.isEmpty
  | p :: pattern, path =>
    if p = "**" then
      (List.range (path.length + 1)).any fun i => globMatchParts pattern (path.drop i)
    else
      match path with
      | [] => false
      | s :: path => if globMatchSegment p s then globMatchParts pattern path else false

def globMatches (pattern path : String) : Bool :=
  if pattern = "**" ∨ pattern = "**/*" then true
  else globMatchParts (pieces pattern) (pieces path)

/-- The first rule that matches. -/
def MutabilityPolicy.matchRule (policy : MutabilityPolicy) (path : String) : Option PolicyRule :=
  policy.rules.find? fun rule => globMatches rule.pathPattern path

/-! ## Between the slashes -/

def Deep (p : String) : Prop := p = "**"

theorem deep_star : Deep "**" := rfl

/-- The segments of the path arise from those of the pattern: `**` stands for any of them, any
    other segment for one that it matches. -/
def Matches (pattern path : String) : Prop :=
  Denotes Deep (fun p s => globMatchSegment p s = true) (pieces pattern) (pieces path)

theorem globMatchParts_iff {pattern path : List String} : globMatchParts pattern path = true ↔
    Denotes Deep (fun p s => globMatchSegment p s = true) pattern path := by
  induction pattern generalizing path with
  | nil => exact List.isEmpty_iff.trans denotes_nil_iff.symm
  | cons p pattern ih =>
    by_cases hp : p = "**"
    · unfold globMatchParts
      rw [if_pos hp, List.any_eq_true, denotes_wild_iff (show Deep p from hp)]
      refine exists_congr fun i => ?_
      rw [List.mem_range, Nat.lt_succ_iff, ih]
    · unfold globMatchParts
      rw [if_neg hp, denotes_one_iff (show ¬ Deep p from hp)]
      cases path with
      | nil => exact iff_of_false nofun fun ⟨_, _, h, _⟩ => nomatch h
      | cons s path =>
        dsimp only
        constructor
        · intro h
          split at h
          · rename_i hs
            exact ⟨s, path, rfl, hs, ih.1 h⟩
          · cases h
        · rintro ⟨_, _, ⟨⟩, hs, h⟩
          rw [if_pos hs]
          exact ih.2 h

theorem globMatchSegment_star (segment : String) : globMatchSegment "*" segment = true := if_pos rfl

theorem pieces_deep : pieces "**" = ["**"] := by decide +kernel

theorem pieces_deep_star : pieces "**/*" = ["**", "*"] := by decide +kernel

theorem matches_deep (path : String) : Matches "**" path := by
  rw [Matches, pieces_deep]
  exact denotes_wild deep_star _

/-- A path has a last segment, and `*` takes it. -/
theorem matches_deep_star (path : String) : Matches "**/*" path := by
  rw [Matches, pieces_deep_star, ← List.dropLast_append_getLast (pieces_ne_nil path)]
  exact .wild _ deep_star (.one (by unfold Deep; decide) (globMatchSegment_star _) .nil)

theorem globMatches_iff {pattern path : String} :
    globMatches pattern path = true ↔ Matches pattern path := by
  unfold globMatches
  split
  · rename_i h
    rcases h with rfl | rfl
    · exact iff_of_true rfl (matches_deep path)
    · exact iff_of_true rfl (matches_deep_star path)
  · exact globMatchParts_iff

theorem globMatches_shortcut {pattern path : String} :
    globMatches pattern path = globMatchParts (pieces pattern) (pieces path) :=
  Bool.eq_iff_iff.2 (globMatches_iff.trans globMatchParts_iff.symm)

theorem matchRule_eq_some_iff {policy : MutabilityPolicy} {path : String} {rule : PolicyRule} :
    policy.matchRule path = some rule ↔
      ∃ before after, policy.rules = before ++ rule :: after ∧ Matches rule.pathPattern path ∧
        ∀ earlier ∈ before, ¬ Matches earlier.pathPattern path := by
  rw [MutabilityPolicy.matchRule, List.find?_eq_some_iff_append, globMatches_iff]
  simp only [Bool.not_eq_true', ← Bool.not_eq_true, globMatches_iff]
  constructor
  · rintro ⟨hm, before, after, hrules, hno⟩
    exact ⟨before, after, hrules, hm, hno⟩
  · rintro ⟨before, after, hrules, hm, hno⟩
    exact ⟨hm, before, after, hrules, hno⟩

theorem matchRule_eq_none_iff {policy : MutabilityPolicy} {path : String} :
    policy.matchRule path = none ↔ ∀ rule ∈ policy.rules, ¬ Matches rule.pathPattern path := by
  rw [MutabilityPolicy.matchRule, List.find?_eq_none]
  simp only [globMatches_iff]

/-- The matcher with its shortcuts and its backtracking, and the choice of a rule, go by the
    relation. -/
theorem glob_exact :
    (∀ pattern path, globMatches pattern path = true ↔ Matches pattern path) ∧
    (∀ pattern, pattern = "**" ∨ pattern = "**/*" → ∀ path,
      globMatches pattern path = globMatchParts (pieces pattern) (pieces path)) ∧
    ∀ (policy : MutabilityPolicy) (path : String),
      (∀ rule, policy.matchRule path = some rule ↔
        ∃ before after, policy.rules = before ++ rule :: after ∧ Matches rule.pathPattern path ∧
          ∀ earlier ∈ before, ¬ Matches earlier.pathPattern path) ∧
      (policy.matchRule path = none ↔ ∀ rule ∈ policy.rules, ¬ Matches rule.pathPattern path) :=
  ⟨fun _ _ => globMatches_iff, fun _ _ _ => globMatches_shortcut,
    fun _ _ => ⟨fun _ => matchRule_eq_some_iff, matchRule_eq_none_iff⟩⟩

/-! ## Within a segment -/

def Star (c : Char) : Prop := c = '*'

instance : DecidablePred Star := fun c => inferInstanceAs (Decidable (c = '*'))

theorem star_asterisk : Star '*' := rfl

/-- The segment arises from the pattern when each `*` is replaced by some characters. -/
def Wildcard (pattern segment : String) : Prop :=
  Denotes Star Eq pattern.toList segment.toList

/-- There is no `*`, or one only, which is the first or the last character. -/
def OuterStar (pattern : String) : Prop :=
  (∀ c ∈ pattern.toList, ¬ Star c) ∨
    (∃ cs, pattern.toList = '*' :: cs ∧ ∀ c ∈ cs, ¬ Star c) ∨
    ∃ cs, pattern.toList = cs ++ ['*'] ∧ ∀ c ∈ cs, ¬ Star c

section

variable {pattern segment : String} {cs : List Char}

theorem globMatchSegment_first (h : pattern.toList = '*' :: cs) :
    globMatchSegment pattern segment = true ↔ cs <:+ segment.toList := by
  unfold globMatchSegment
  split
  · rename_i he
    rw [he] at h
    obtain rfl : [] = cs := (List.cons.inj h).2
    exact iff_of_true rfl List.nil_suffix
  · rw [h, List.head?_cons, if_pos rfl, List.tail_cons]
    exact List.isSuffixOf_iff_suffix

theorem globMatchSegment_last (hfirst : pattern.toList.head? ≠ some '*')
    (h : pattern.toList = cs ++ ['*']) :
    globMatchSegment pattern segment = true ↔ cs <+: segment.toList := by
  unfold globMatchSegment
  rw [if_neg, if_neg hfirst, if_pos, h, List.dropLast_concat]
  · exact List.isPrefixOf_iff_prefix
  · rw [h, List.getLast?_concat]
  · rintro rfl
    exact hfirst rfl

theorem globMatchSegment_literal (hfirst : pattern.toList.head? ≠ some '*')
    (hlast : pattern.toList.getLast? ≠ some '*') :
    globMatchSegment pattern segment = true ↔ pattern = segment := by
  unfold globMatchSegment
  rw [if_neg, if_neg hfirst, if_neg hlast]
  · exact decide_eq_true_iff
  · rintro rfl
    exact hfirst rfl

/-- The three shapes a pattern has for the matcher. -/
theorem pattern_cases (pattern : String) :
    (∃ cs, pattern.toList = '*' :: cs) ∨
    (pattern.toList.head? ≠ some '*' ∧ ∃ cs, pattern.toList = cs ++ ['*']) ∨
    (pattern.toList.head? ≠ some '*' ∧ pattern.toList.getLast? ≠ some '*') := by
  by_cases hfirst : pattern.toList.head? = some '*'
  · exact .inl ⟨_, (List.cons_head?_tail hfirst).symm⟩
  · by_cases hlast : pattern.toList.getLast? = some '*'
    · obtain ⟨cs, h⟩ := List.getLast?_eq_some_iff.1 hlast
      exact .inr (.inl ⟨hfirst, cs, h⟩)
    · exact .inr (.inr ⟨hfirst, hlast⟩)

/-- The stars the matcher does not look at stand for themselves, and that is one way to replace
    them. -/
theorem wildcard_of_globMatchSegment (h : globMatchSegment pattern segment = true) :
    Wildcard pattern segment := by
  unfold Wildcard
  rcases pattern_cases pattern with ⟨cs, hcs⟩ | ⟨hfirst, cs, hcs⟩ | ⟨hfirst, hlast⟩
  · obtain ⟨skip, hskip⟩ := (globMatchSegment_first hcs).1 h
    rw [hcs, ← hskip]
    exact .wild skip star_asterisk (denotes_self _ cs)
  · obtain ⟨rest, hrest⟩ := (globMatchSegment_last hfirst hcs).1 h
    rw [hcs, ← hrest]
    exact denotes_append_iff.2 ⟨cs, rest, rfl, denotes_self _ cs, denotes_wild star_asterisk rest⟩
  · rw [(globMatchSegment_literal hfirst hlast).1 h]
    exact denotes_self _ _

theorem globMatchSegment_of_wildcard (ho : OuterStar pattern) (h : Wildcard pattern segment) :
    globMatchSegment pattern segment = true := by
  unfold Wildcard at h
  rcases ho with hno | ⟨cs, hcs, hno⟩ | ⟨cs, hcs, hno⟩
  · have hfirst : pattern.toList.head? ≠ some '*' := fun hf => hno _ (List.mem_of_head? hf) rfl
    have hlast : pattern.toList.getLast? ≠ some '*' := fun hl => hno _ (List.mem_of_getLast? hl) rfl
    refine (globMatchSegment_literal hfirst hlast).2 (String.toList_inj.1 ?_)
    exact (denotes_literal_iff hno).1 h
  · rw [hcs] at h
    obtain ⟨i, -, hi⟩ := (denotes_wild_iff star_asterisk).1 h
    rw [globMatchSegment_first hcs, (denotes_literal_iff hno).1 hi]
    exact List.drop_suffix i _
  · rw [hcs] at h
    obtain ⟨ys, zs, hsplit, hy, -⟩ := denotes_append_iff.1 h
    obtain rfl := (denotes_literal_iff hno).1 hy
    by_cases hfirst : pattern.toList.head? = some '*'
    · -- the star at the end is the one at the beginning
      cases cs with
      | nil =>
        rw [globMatchSegment_first hcs]
        exact List.nil_suffix
      | cons c cs =>
        rw [hcs] at hfirst
        exact absurd (Option.some.inj hfirst) (hno c List.mem_cons_self)
    · rw [globMatchSegment_last hfirst hcs, hsplit]
      exact List.prefix_append _ _

/-- With all its stars gone, a segment that the pattern denotes is not matched where the matcher
    takes a star for a character. -/
theorem outerStar_of_complete
    (h : ∀ segment, Wildcard pattern segment → globMatchSegment pattern segment = true) :
    OuterStar pattern := by
  let bare := pattern.toList.filter fun c => ¬ Star c
  have hbare : ∀ c ∈ bare, ¬ Star c := fun c hc => of_decide_eq_true (List.mem_filter.1 hc).2
  have hm : globMatchSegment pattern (String.ofList bare) = true := by
    refine h _ ?_
    rw [Wildcard, String.toList_ofList]
    exact denotes_filter _
  rcases pattern_cases pattern with ⟨cs, hcs⟩ | ⟨hfirst, cs, hcs⟩ | ⟨hfirst, hlast⟩
  · rw [globMatchSegment_first hcs, String.toList_ofList] at hm
    exact .inr (.inl ⟨cs, hcs, fun c hc => hbare c (hm.subset hc)⟩)
  · rw [globMatchSegment_last hfirst hcs, String.toList_ofList] at hm
    exact .inr (.inr ⟨cs, hcs, fun c hc => hbare c (hm.subset hc)⟩)
  · have he := (globMatchSegment_literal hfirst hlast).1 hm
    refine .inl fun c hc => hbare c ?_
    rwa [he, String.toList_ofList] at hc

theorem globMatchSegment_iff (ho : OuterStar pattern) :
    globMatchSegment pattern segment = true ↔ Wildcard pattern segment :=
  ⟨wildcard_of_globMatchSegment, globMatchSegment_of_wildcard ho⟩

end

/-- A pattern segment matches what it denotes, and nothing else, exactly where it has no star but
    one at an end. What it matches it always denotes, and so does a path. -/
theorem star_exact_iff (pattern : String) :
    ((∀ segment, globMatchSegment pattern segment = true ↔ Wildcard pattern segment) ↔
      OuterStar pattern) ∧
    (∀ path, globMatches pattern path = true →
      Denotes Deep Wildcard (pieces pattern) (pieces path)) ∧
    ((∀ p ∈ pieces pattern, ¬ Deep p → OuterStar p) → ∀ path, globMatches pattern path = true ↔
      Denotes Deep Wildcard (pieces pattern) (pieces path)) := by
  refine ⟨⟨fun h => ?_, fun h _ => globMatchSegment_iff h⟩, fun path h => ?_, fun ho path => ?_⟩
  · exact outerStar_of_complete fun segment => (h segment).2
  · exact (globMatches_iff.1 h).imp fun _ _ _ _ => wildcard_of_globMatchSegment
  · rw [globMatches_iff]
    constructor
    · exact fun h => h.imp fun _ _ _ _ => wildcard_of_globMatchSegment
    · exact fun h => h.imp fun p hp hd _ => globMatchSegment_of_wildcard (ho p hp hd)

theorem inner_star_literal : Wildcard "secret*.key" "secret1.key" ∧
    globMatchSegment "secret*.key" "secret1.key" = false ∧
    globMatches "**/secret*.key" "keys/secret1.key" = false := by
  refine ⟨?_, by decide +kernel, by decide +kernel⟩
  have h : Denotes Star Eq ("secret".toList ++ '*' :: ".key".toList)
      ("secret".toList ++ (['1'] ++ ".key".toList)) :=
    denotes_append_iff.2 ⟨_, _, rfl, denotes_self _ _, .wild ['1'] star_asterisk (denotes_self _ _)⟩
  exact h

end TgCryptFs

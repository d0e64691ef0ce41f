import Mathlib.Data.List.Nodup
import TgCryptFs.Library.Replacement
import TgCryptFs.Library.Tokens

set_option autoImplicit false

/-!
# Renaming by replacement

Names are replaced in a text one after the other. This renames the tokens of the text as long as a
name is found nowhere else, and where it is found elsewhere, the later steps do not repair it.
-/
namespace TgCryptFs.Library

variable {α : Type} [DecidableEq α] {isWord : α → Bool}

/-- The names with their substitutes, in the order in which they are replaced. -/
abbrev Steps (α : Type) := List (List α × List α)

def replaceSteps (steps : Steps α) (text : List α) : List α :=
  steps.foldl (fun text step => replaceEvery step.1 step.2 text) text

/-- What a token becomes. -/
def renameToken (steps : Steps α) (w : List α) : List α :=
  if w = [] then [] else (steps.lookup w).getD w

def renameTokens (isWord : α → Bool) (steps : Steps α) (text : List α) : List α :=
  mapRegions isWord (renameToken steps) text

/-- Every step stands in `P` to the steps before it. -/
def EachStep (P : Steps α → List α × List α → Prop) : Steps α → Steps α → Prop
  | _, [] => True
  | done, step :: rest => P done step ∧ EachStep P (done ++ [step]) rest

instance decidableEachStep (P : Steps α → List α × List α → Prop)
    [∀ done step, Decidable (P done step)] : ∀ done rest, Decidable (EachStep P done rest)
  | _, [] => isTrue trivial
  | done, step :: rest =>
    have := decidableEachStep P (done ++ [step]) rest
    inferInstanceAs (Decidable (P done step ∧ EachStep P (done ++ [step]) rest))

/-- The name is found in what the token has become only if it is the token itself. -/
def TokenClear (done : Steps α) (name w : List α) : Prop :=
  name <:+: renameToken done w → w = name ∧ name ≠ [] ∧ done.lookup name = none

instance (done : Steps α) (name w : List α) : Decidable (TokenClear done name w) :=
  inferInstanceAs (Decidable (_ → _))

/-- When the tokens of the names before it have been renamed, the name is found only as a whole token
of the text. -/
def StepClear (isWord : α → Bool) (text : List α) (done : Steps α) (step : List α × List α) : Prop :=
  (¬ IsWord isWord step.1 → ¬ step.1 <:+: renameTokens isWord done text) ∧
  ∀ w ∈ regions isWord text, TokenClear done step.1 w

instance (text : List α) (done : Steps α) (step : List α × List α) :
    Decidable (StepClear isWord text done step) :=
  inferInstanceAs (Decidable (_ ∧ ∀ w ∈ regions isWord text, TokenClear done step.1 w))

def Clear (isWord : α → Bool) (steps : Steps α) (text : List α) : Prop :=
  EachStep (StepClear isWord text) [] steps

instance (steps : Steps α) (text : List α) : Decidable (Clear isWord steps text) :=
  inferInstanceAs (Decidable (EachStep _ [] steps))

omit [DecidableEq α] in
theorem exists_first_of_not {P : Steps α → List α × List α → Prop} {done rest : Steps α}
    (h : ¬ EachStep P done rest) : ∃ fine step after, rest = fine ++ step :: after ∧
      EachStep P done fine ∧ ¬ P (done ++ fine) step := by
  induction rest generalizing done with
  | nil => exact absurd trivial h
  | cons step rest ih =>
    by_cases hstep : P done step
    · obtain ⟨fine, bad, after, rfl, hfine, hbad⟩ := ih fun hrest => h ⟨hstep, hrest⟩
      refine ⟨step :: fine, bad, after, rfl, ⟨hstep, hfine⟩, ?_⟩
      rwa [List.append_cons]
    · exact ⟨[], step, rest, rfl, trivial, by rwa [List.append_nil]⟩

/-! ## One token -/

theorem renameToken_append (done rest : Steps α) {w : List α} :
    renameToken (done ++ rest) w =
      if done.lookup w = none then renameToken rest w else renameToken done w := by
  unfold renameToken
  rw [List.lookup_append]
  cases done.lookup w with
  | none => rfl
  | some sub => rfl

theorem renameToken_of_lookup_none {steps : Steps α} {w : List α} (h : steps.lookup w = none) :
    renameToken steps w = w := by
  rw [renameToken, h]
  split_ifs with hw
  · exact hw.symm
  · rfl

theorem renameToken_of_lookup {steps : Steps α} {w sub : List α} (hw : w ≠ []) (h : steps.lookup w = some sub) :
    renameToken steps w = sub := by
  rw [renameToken, h, if_neg hw]
  rfl

/-- A step that is clear for a token renames it, if it is the one to be renamed. -/
theorem replaceEvery_renameToken {done : Steps α} {step : List α × List α} {w : List α}
    (h : TokenClear done step.1 w) :
    replaceEvery step.1 step.2 (renameToken done w) = renameToken (done ++ [step]) w := by
  by_cases hfound : step.1 <:+: renameToken done w
  · obtain ⟨rfl, hne, hnone⟩ := h hfound
    rw [renameToken_append, if_pos hnone, renameToken_of_lookup_none hnone, replaceEvery_self hne]
    exact (renameToken_of_lookup hne List.lookup_cons_self).symm
  · rw [replaceEvery_of_absent step.2 hfound, renameToken_append]
    split_ifs with hnone
    · rw [renameToken_of_lookup_none hnone] at hfound ⊢
      have hne : w ≠ step.1 := by
        rintro rfl
        exact hfound (List.infix_refl _)
      refine (renameToken_of_lookup_none ?_).symm
      rw [List.lookup_cons, beq_false_of_ne hne]
      rfl
    · rfl

/-- After the first step that finds its name there is a last one. -/
theorem exists_last {step : List α × List α} (rest : Steps α) {text : List α} (h : step.1 <:+: text) :
    ∃ before last after, step :: rest = before ++ last :: after ∧
      last.1 <:+: replaceSteps before text ∧
      replaceSteps (step :: rest) text = replaceEvery last.1 last.2 (replaceSteps before text) := by
  have hlater : ∀ (rest : Steps α) (text : List α), replaceSteps rest text = text ∨
      ∃ before last after, rest = before ++ last :: after ∧ last.1 <:+: replaceSteps before text ∧
        replaceSteps rest text = replaceEvery last.1 last.2 (replaceSteps before text) := by
    intro rest
    induction rest with
    | nil => exact fun text => .inl rfl
    | cons step rest ih =>
      intro text
      rcases ih (replaceEvery step.1 step.2 text) with hsame | ⟨before, last, after, rfl, hfound, heq⟩
      · by_cases hstep : step.1 <:+: text
        · exact .inr ⟨[], step, rest, rfl, hstep, hsame⟩
        · refine .inl (hsame.trans (replaceEvery_of_absent step.2 hstep))
      · exact .inr ⟨step :: before, last, after, rfl, hfound, heq⟩
  rcases hlater rest (replaceEvery step.1 step.2 text) with hsame | ⟨before, last, after, rfl, hfound, heq⟩
  · exact ⟨[], step, rest, rfl, h, hsame⟩
  · exact ⟨step :: before, last, after, rfl, hfound, heq⟩

theorem exists_infix_replaceSteps {step : List α × List α} (rest : Steps α) {text : List α}
    (h : step.1 <:+: text) : ∃ s ∈ step :: rest, s.2 <:+: replaceSteps (step :: rest) text := by
  obtain ⟨before, last, after, heq, hfound, hresult⟩ := exists_last rest h
  refine ⟨last, ?_, ?_⟩
  · rw [heq]
    exact List.mem_append_right _ List.mem_cons_self
  · rw [hresult]
    exact infix_replaceEvery last.2 hfound

/-- Substitutes of one length that are all different. -/
structure Distinct (steps : Steps α) (length : ℕ) : Prop where
  pos : 0 < length
  length_eq : ∀ step ∈ steps, step.2.length = length
  nodup : (steps.map Prod.snd).Nodup

namespace Distinct

variable {steps : Steps α} {length : ℕ} (hsteps : Distinct steps length)
include hsteps

omit [DecidableEq α] in
theorem eq_of_found {s t : List α × List α} (hs : s ∈ steps) (ht : t ∈ steps) (h : s.2 <:+: t.2) : s = t := by
  have hsub := h.eq_of_length ((hsteps.length_eq s hs).trans (hsteps.length_eq t ht).symm)
  exact List.inj_on_of_nodup_map hsteps.nodup hs ht hsub

omit [DecidableEq α] in
theorem ne_nil {s : List α × List α} (hs : s ∈ steps) : s.2 ≠ [] := by
  rw [← List.length_pos_iff, hsteps.length_eq s hs]
  exact hsteps.pos

end Distinct

theorem mem_of_lookup {steps : Steps α} {w sub : List α} (h : steps.lookup w = some sub) : (w, sub) ∈ steps := by
  obtain ⟨before, after, rfl, -⟩ := List.lookup_eq_some_iff.1 h
  exact List.mem_append_right before List.mem_cons_self

omit [DecidableEq α] in
theorem disjoint_of_append {done rest : Steps α} {length : ℕ} (h : Distinct (done ++ rest) length)
    {s : List α × List α} (hdone : s ∈ done) (hrest : s ∈ rest) : False := by
  have hnodup := h.nodup
  rw [List.map_append] at hnodup
  exact List.disjoint_of_nodup_append hnodup (List.mem_map_of_mem hdone) (List.mem_map_of_mem hrest)

/-- A token in which a step finds its name although it should not keeps a trace of it: what the last
such step writes is in no other renamed token, nor in a token that holds no substitute. -/
theorem replaceSteps_ne_of_not_clear {done rest : Steps α} {step : List α × List α} {w : List α}
    {length : ℕ} (hdistinct : Distinct (done ++ step :: rest) length)
    (hlogical : done.lookup w = none → ∀ s ∈ step :: rest, ¬ s.2 <:+: w)
    (hnot : ¬ TokenClear done step.1 w) :
    replaceSteps (step :: rest) (renameToken done w) ≠ renameToken (done ++ step :: rest) w := by
  intro heq
  have hmem : ∀ {s}, s ∈ step :: rest → s ∈ done ++ step :: rest := fun h => List.mem_append_right done h
  have hfound : step.1 <:+: renameToken done w := by
    by_contra h
    exact hnot fun h' => absurd h' h
  obtain ⟨s, hs, htrace⟩ := exists_infix_replaceSteps rest hfound
  rw [heq] at htrace
  by_cases hw : w = []
  · rw [hw, renameToken, if_pos rfl, List.infix_nil] at htrace
    exact hdistinct.ne_nil (hmem hs) htrace
  · cases hdone : done.lookup w with
    | some sub =>
      have hsub := mem_of_lookup hdone
      have hnotNone : ¬ done.lookup w = none := by
        rw [hdone]
        exact Option.some_ne_none sub
      rw [renameToken_append, if_neg hnotNone, renameToken_of_lookup hw hdone] at htrace
      have hsame := hdistinct.eq_of_found (t := (w, sub)) (hmem hs) (List.mem_append_left _ hsub) htrace
      exact disjoint_of_append hdistinct hsub (hsame ▸ hs)
    | none =>
      have hlogical := hlogical hdone
      rw [renameToken_append, if_pos hdone] at htrace heq
      rw [renameToken_of_lookup_none hdone] at heq hfound
      cases hrest : (step :: rest).lookup w with
      | none =>
        rw [renameToken_of_lookup_none hrest] at htrace
        exact hlogical s hs htrace
      | some sub =>
        have hsub := mem_of_lookup hrest
        rw [renameToken_of_lookup hw hrest] at heq
        obtain ⟨before, last, after, hsplit, hlast, hresult⟩ := exists_last rest hfound
        have hlastMem : last ∈ step :: rest := hsplit ▸ List.mem_append_right before List.mem_cons_self
        have hresult := hresult.symm.trans heq
        have hlastSub : last.2 <:+: (w, sub).2 := by
          rw [← hresult]
          exact infix_replaceEvery last.2 hlast
        obtain rfl := hdistinct.eq_of_found (hmem hlastMem) (hmem hsub) hlastSub
        have hwhole := eq_of_replaceEvery_eq hw (hdistinct.ne_nil (hmem hsub)) hlast hresult
        cases before with
        | nil =>
          have hfirst : step = (w, sub) := (List.cons.inj hsplit).1
          refine hnot fun _ => ?_
          rw [hfirst]
          exact ⟨rfl, hw, hdone⟩
        | cons first before =>
          obtain ⟨rfl, -⟩ := List.cons.inj hsplit
          obtain ⟨t, ht, htraceAgain⟩ := exists_infix_replaceSteps before hfound
          rw [hwhole] at htraceAgain
          refine hlogical t ?_ htraceAgain
          rw [hsplit]
          exact List.mem_append_left _ ht

/-! ## The text -/

theorem replaceEvery_eq_mapRegions (isWord : α → Bool) {name text : List α} (sub : List α)
    (h : IsWord isWord name ∨ ¬ name <:+: text) :
    replaceEvery name sub text = mapRegions isWord (replaceEvery name sub) text := by
  rcases h with hname | habsent
  · induction text using region_induction isWord with
    | word w hw => rw [mapRegions_of_isWord hw]
    | apart w s text hw hs ih =>
      have hnot : s ∉ name := by
        intro hmem
        rw [hname s hmem] at hs
        cases hs
      rw [mapRegions_append_cons hw hs, replaceEvery_append_cons hnot, ih]
  · rw [replaceEvery_of_absent sub habsent]
    refine (mapRegions_id isWord text).symm.trans (mapRegions_congr fun w hw => ?_)
    exact (replaceEvery_of_absent sub fun h => habsent (h.trans (infix_of_mem_regions hw))).symm

theorem isWord_replaceEvery {name sub w : List α} (hw : IsWord isWord w) (hsub : IsWord isWord sub) :
    IsWord isWord (replaceEvery name sub w) := fun c hc => (mem_replaceEvery hc).elim (hw c) (hsub c)

/-- An occurrence that reaches over the end of a region takes a letter away. -/
theorem countP_replaceEvery_span {name sub text : List α} (hsub : IsWord isWord sub)
    (hname : ¬ IsWord isWord name) (hfound : name <:+: text) :
    (replaceEvery name sub text).countP (fun c => !isWord c) < text.countP fun c => !isWord c := by
  have hletters : ∀ c ∈ sub, (!isWord c) = false := by
    intro c hc
    rw [hsub c hc]
    rfl
  rw [IsWord] at hname
  push Not at hname
  obtain ⟨c, hc, hletter⟩ := hname
  refine countP_replaceEvery_lt hletters hfound hc ?_
  rw [Bool.not_eq_true']
  exact Bool.eq_false_iff.2 hletter

section
variable {steps : Steps α} (hwords : ∀ step ∈ steps, IsWord isWord step.2)
include hwords

theorem isWord_renameToken {w : List α} (hw : IsWord isWord w) : IsWord isWord (renameToken steps w) := by
  by_cases hnil : w = []
  · rw [renameToken, if_pos hnil]
    exact nofun
  · cases hlookup : steps.lookup w with
    | none => rwa [renameToken_of_lookup_none hlookup]
    | some sub =>
      rw [renameToken_of_lookup hnil hlookup]
      exact hwords _ (mem_of_lookup hlookup)

theorem isWord_renameTokens_regions (text : List α) :
    ∀ w ∈ regions isWord text, IsWord isWord (renameToken steps w) := fun _ hw =>
  isWord_renameToken hwords (isWord_of_mem_regions hw)

theorem countP_renameTokens (text : List α) :
    (renameTokens isWord steps text).countP (fun c => !isWord c) = text.countP fun c => !isWord c :=
  countP_mapRegions (isWord_renameTokens_regions hwords text)

theorem countP_replaceSteps_le (text : List α) :
    (replaceSteps steps text).countP (fun c => !isWord c) ≤ text.countP fun c => !isWord c := by
  induction steps generalizing text with
  | nil => exact Nat.le_refl _
  | cons step steps ih =>
    obtain ⟨hstep, hrest⟩ := List.forall_mem_cons.1 hwords
    refine (ih hrest (replaceEvery step.1 step.2 text)).trans (countP_replaceEvery_le (fun c hc => ?_) _ _)
    rw [hstep c hc]
    rfl

theorem isWord_replaceSteps {w : List α} (hw : IsWord isWord w) : IsWord isWord (replaceSteps steps w) := by
  induction steps generalizing w with
  | nil => exact hw
  | cons step steps ih =>
    obtain ⟨hstep, hrest⟩ := List.forall_mem_cons.1 hwords
    exact ih hrest (isWord_replaceEvery hw hstep)

/-- As long as no letter between the regions is lost, the steps go on within the regions. -/
theorem replaceSteps_eq_mapRegions {text : List α}
    (hkept : text.countP (fun c => !isWord c) ≤ (replaceSteps steps text).countP fun c => !isWord c) :
    replaceSteps steps text = mapRegions isWord (replaceSteps steps) text := by
  induction steps generalizing text with
  | nil => exact (mapRegions_id isWord text).symm
  | cons step steps ih =>
    obtain ⟨hstep, hrest⟩ := List.forall_mem_cons.1 hwords
    have hle := countP_replaceSteps_le hrest (replaceEvery step.1 step.2 text)
    have hkept : text.countP (fun c => !isWord c) ≤
        (replaceSteps steps (replaceEvery step.1 step.2 text)).countP fun c => !isWord c := hkept
    have hapart : IsWord isWord step.1 ∨ ¬ step.1 <:+: text := by
      by_contra hspan
      obtain ⟨hname, hfound⟩ := not_or.1 hspan
      have hlt := countP_replaceEvery_span hstep hname (not_not.1 hfound)
      omega
    have hmap := replaceEvery_eq_mapRegions isWord step.2 hapart
    have hregions : ∀ w ∈ regions isWord text, IsWord isWord (replaceEvery step.1 step.2 w) := fun w hw =>
      isWord_replaceEvery (isWord_of_mem_regions hw) hstep
    have hsame : (replaceEvery step.1 step.2 text).countP (fun c => !isWord c) =
        text.countP fun c => !isWord c := by
      rw [hmap]
      exact countP_mapRegions hregions
    have hrun := ih hrest (hsame.symm ▸ hkept)
    change replaceSteps steps (replaceEvery step.1 step.2 text) = _
    rw [hrun, hmap, mapRegions_mapRegions _ hregions]
    rfl

end

/-- A step that is clear in the text renames the tokens that it is to rename. -/
theorem replaceEvery_renameTokens {done : Steps α} {step : List α × List α} {text : List α}
    (hwords : ∀ s ∈ done, IsWord isWord s.2) (h : StepClear isWord text done step) :
    replaceEvery step.1 step.2 (renameTokens isWord done text) = renameTokens isWord (done ++ [step]) text := by
  rw [replaceEvery_eq_mapRegions isWord step.2 (or_iff_not_imp_left.2 h.1), renameTokens,
    mapRegions_mapRegions _ (isWord_renameTokens_regions hwords text)]
  exact mapRegions_congr fun w hw => replaceEvery_renameToken (h.2 w hw)

theorem replaceSteps_of_eachStep {done rest : Steps α} {text : List α}
    (hwords : ∀ step ∈ done ++ rest, IsWord isWord step.2)
    (h : EachStep (StepClear isWord text) done rest) :
    replaceSteps rest (renameTokens isWord done text) = renameTokens isWord (done ++ rest) text := by
  induction rest generalizing done with
  | nil => rw [List.append_nil, replaceSteps, List.foldl_nil]
  | cons step rest ih =>
    rw [List.append_cons] at hwords ⊢
    have hdone : ∀ s ∈ done, IsWord isWord s.2 := fun s hs =>
      hwords s (List.mem_append_left rest (List.mem_append_left [step] hs))
    rw [← ih hwords h.2, ← replaceEvery_renameTokens hdone h.1]
    rfl

theorem renameTokens_nil (text : List α) : renameTokens isWord [] text = text := by
  refine Eq.trans (mapRegions_congr fun w _ => ?_) (mapRegions_id isWord text)
  exact renameToken_of_lookup_none rfl

theorem replaceSteps_of_clear {steps : Steps α} {text : List α}
    (hwords : ∀ step ∈ steps, IsWord isWord step.2) (h : Clear isWord steps text) :
    replaceSteps steps text = renameTokens isWord steps text := by
  have hrun : replaceSteps steps (renameTokens isWord [] text) = renameTokens isWord ([] ++ steps) text :=
    replaceSteps_of_eachStep hwords h
  rwa [renameTokens_nil] at hrun

/-- Where the result is right and a step is not clear, one of the tokens is to blame for the step. -/
theorem exists_token_of_not_clear {steps : Steps α} {text : List α}
    (hwords : ∀ step ∈ steps, IsWord isWord step.2)
    (heq : replaceSteps steps text = renameTokens isWord steps text) (h : ¬ Clear isWord steps text) :
    ∃ done step rest, steps = done ++ step :: rest ∧ Clear isWord done text ∧
      ∃ w ∈ regions isWord text, ¬ TokenClear done step.1 w ∧
        replaceSteps (step :: rest) (renameToken done w) = renameToken steps w := by
  obtain ⟨done, step, rest, rfl, hdone, hnot⟩ := exists_first_of_not h
  obtain ⟨hdoneWords, hrestWords⟩ := List.forall_mem_append.1 hwords
  have hstart : replaceSteps done text = renameTokens isWord done text := replaceSteps_of_clear hdoneWords hdone
  have hrun : replaceSteps (step :: rest) (renameTokens isWord done text) =
      renameTokens isWord (done ++ step :: rest) text := by
    rw [← heq, ← hstart, replaceSteps, replaceSteps, replaceSteps, List.foldl_append]
  have hkept : (renameTokens isWord done text).countP (fun c => !isWord c) =
      (replaceSteps (step :: rest) (renameTokens isWord done text)).countP fun c => !isWord c := by
    rw [hrun, countP_renameTokens hdoneWords, countP_renameTokens hwords]
  have hrestRun := replaceSteps_eq_mapRegions hrestWords (Nat.le_of_eq hkept)
  have hregions := isWord_renameTokens_regions hdoneWords text
  obtain ⟨w, hw, hbad⟩ : ∃ w ∈ regions isWord text, ¬ TokenClear done step.1 w := by
    by_contra hclear
    push Not at hclear
    refine hnot ⟨fun hname (hfound : step.1 <:+: renameTokens isWord done text) => ?_, hclear⟩
    have hlt := countP_replaceEvery_span (hrestWords step List.mem_cons_self) hname hfound
    have hle := countP_replaceSteps_le (fun s hs => hrestWords s (List.mem_cons_of_mem step hs))
      (replaceEvery step.1 step.2 (renameTokens isWord done text))
    have hkept : _ = (replaceSteps rest (replaceEvery step.1 step.2 (renameTokens isWord done text))).countP
      fun c => !isWord c := hkept
    omega
  refine ⟨done, step, rest, rfl, hdone, w, hw, hbad, ?_⟩
  have hmaps := hrestRun.symm.trans hrun
  rw [renameTokens, mapRegions_mapRegions _ hregions, renameTokens] at hmaps
  refine (mapRegions_inj (fun v hv => ?_) (isWord_renameTokens_regions hwords text)).1 hmaps w hw
  exact isWord_replaceSteps hrestWords (hregions v hv)

/-- For different substitutes that the text does not hold yet: the result is right exactly if every
step is clear. -/
theorem replaceSteps_eq_iff {steps : Steps α} {text : List α} {length : ℕ}
    (hwords : ∀ step ∈ steps, IsWord isWord step.2) (hdistinct : Distinct steps length)
    (hlogical : ∀ step ∈ steps, ¬ step.2 <:+: text) :
    replaceSteps steps text = renameTokens isWord steps text ↔ Clear isWord steps text := by
  refine ⟨fun heq => ?_, replaceSteps_of_clear hwords⟩
  by_contra hnot
  obtain ⟨done, step, rest, rfl, -, w, hw, hbad, hright⟩ := exists_token_of_not_clear hwords heq hnot
  refine replaceSteps_ne_of_not_clear hdistinct (fun _ s hs hfound => ?_) hbad hright
  exact hlogical s (List.mem_append_right done hs) (hfound.trans (infix_of_mem_regions hw))

/-! ## Substitutes that are not known beforehand -/

omit [DecidableEq α] in
theorem EachStep.at {P : Steps α → List α × List α → Prop} {done fine after : Steps α}
    {step : List α × List α} (h : EachStep P done (fine ++ step :: after)) : P (done ++ fine) step := by
  induction fine generalizing done with
  | nil =>
    rw [List.append_nil]
    exact h.1
  | cons first fine ih =>
    rw [List.append_cons]
    exact ih h.2

theorem lookup_eq_none_iff {steps : Steps α} {w : List α} :
    steps.lookup w = none ↔ w ∉ steps.map Prod.fst := by
  rw [List.lookup_eq_none_iff, List.mem_map, not_exists]
  constructor
  · rintro h step ⟨hstep, rfl⟩
    simpa using h step hstep
  · intro h step hstep
    rw [bne_iff_ne]
    rintro rfl
    exact h step ⟨hstep, rfl⟩

omit [DecidableEq α] in
/-- Steps for the same names split at the same place. -/
theorem exists_split {done rest steps : Steps α} {step : List α × List α}
    (h : steps.map Prod.fst = (done ++ step :: rest).map Prod.fst) :
    ∃ done' sub' rest', steps = done' ++ (step.1, sub') :: rest' ∧ done'.map Prod.fst = done.map Prod.fst := by
  rw [List.map_append, List.map_cons] at h
  obtain ⟨done', tail, rfl, hdone, htail⟩ := List.map_eq_append_iff.1 h
  obtain ⟨step', rest', rfl, hstep, -⟩ := List.map_eq_cons_iff.1 htail
  exact ⟨done', step'.2, rest', by rw [← hstep], hdone⟩

/-- Where the substitutes may be any of a family, and the family has some that are all different and not
in the text and some that are all different with a given one among them, the result is right for the
whole family exactly if the steps are clear for the whole family. -/
theorem clear_of_forall {F : Steps α → Prop} {names : List (List α)} {text : List α} {length : ℕ}
    (hnames : ∀ steps, F steps → steps.map Prod.fst = names)
    (hwords : ∀ steps, F steps → ∀ step ∈ steps, IsWord isWord step.2)
    (hfresh : ∃ steps, F steps ∧ Distinct steps length ∧ ∀ step ∈ steps, ¬ step.2 <:+: text)
    (hkept : ∀ steps w sub, F steps → steps.lookup w = some sub →
      ∃ steps', F steps' ∧ Distinct steps' length ∧ steps'.lookup w = some sub)
    (hright : ∀ steps, F steps → replaceSteps steps text = renameTokens isWord steps text)
    (steps : Steps α) (hF : F steps) : Clear isWord steps text := by
  -- A token that no earlier step renames looks the same for every choice of the substitutes.
  have horiginal : ∀ done step rest w, F (done ++ step :: rest) → w ∈ regions isWord text →
      renameToken done w = w → (w ≠ [] → done.lookup w = none) → TokenClear done step.1 w := by
    intro done step rest w hsteps hw hsame hnone hfound
    obtain ⟨fresh, hfreshF, hdistinct, hlogical⟩ := hfresh
    have hclear := (replaceSteps_eq_iff (hwords fresh hfreshF) hdistinct hlogical).1 (hright fresh hfreshF)
    obtain ⟨done', sub', rest', rfl, hdone⟩ :=
      exists_split ((hnames fresh hfreshF).trans (hnames _ hsteps).symm)
    have hsame' : renameToken done' w = w := by
      by_cases hnil : w = []
      · rw [hnil, renameToken, if_pos rfl]
      · refine renameToken_of_lookup_none ?_
        rw [lookup_eq_none_iff, hdone, ← lookup_eq_none_iff]
        exact hnone hnil
    rw [hsame] at hfound
    have hstep : TokenClear done' step.1 w := (EachStep.at hclear).2 w hw
    obtain ⟨rfl, hne, -⟩ := hstep (hsame'.symm ▸ hfound)
    exact ⟨rfl, hne, hnone hne⟩
  -- So only a token that an earlier step renamed can be to blame.
  have hrenamed : ∀ steps, F steps → ¬ Clear isWord steps text → ∃ done step rest w sub,
      steps = done ++ step :: rest ∧ w ∈ regions isWord text ∧ ¬ TokenClear done step.1 w ∧ w ≠ [] ∧
      done.lookup w = some sub ∧
      replaceSteps (step :: rest) (renameToken done w) = renameToken steps w := by
    intro steps hF hnot
    obtain ⟨done, step, rest, rfl, -, w, hw, hbad, heq⟩ :=
      exists_token_of_not_clear (hwords steps hF) (hright steps hF) hnot
    have hnil : w ≠ [] := by
      rintro rfl
      refine hbad (horiginal done step rest [] hF hw ?_ fun h => absurd rfl h)
      rw [renameToken, if_pos rfl]
    cases hlookup : done.lookup w with
    | none =>
      exact absurd (horiginal done step rest w hF hw (renameToken_of_lookup_none hlookup) fun _ => hlookup) hbad
    | some sub => exact ⟨done, step, rest, w, sub, rfl, hw, hbad, hnil, hlookup, heq⟩
  by_contra hnot
  obtain ⟨done, step, rest, w, sub, rfl, hw, hbad, hnil, hlookup, -⟩ := hrenamed steps hF hnot
  have hkeep : (done ++ step :: rest).lookup w = some sub := by
    rw [List.lookup_append, hlookup]
    rfl
  obtain ⟨kept, hkeptF, hdistinct, hkeptLookup⟩ := hkept _ w sub hF hkeep
  have hkeptNot : ¬ Clear isWord kept text := by
    intro hclear
    obtain ⟨done', sub', rest', rfl, hdone⟩ := exists_split ((hnames kept hkeptF).trans (hnames _ hF).symm)
    have hlookup' : done'.lookup w = some sub := by
      cases hnone : done'.lookup w with
      | none =>
        rw [lookup_eq_none_iff, hdone, ← lookup_eq_none_iff, hlookup] at hnone
        cases hnone
      | some other =>
        rw [List.lookup_append, hnone] at hkeptLookup
        exact hkeptLookup
    have hstep : TokenClear done' step.1 w := (EachStep.at hclear).2 w hw
    refine hbad fun hfound => ?_
    rw [renameToken_of_lookup hnil hlookup] at hfound
    rw [TokenClear, renameToken_of_lookup hnil hlookup'] at hstep
    obtain ⟨rfl, -, hnone⟩ := hstep hfound
    rw [hlookup'] at hnone
    cases hnone
  obtain ⟨done', step', rest', w', sub', rfl, -, hbad', -, hlookup', heq'⟩ := hrenamed kept hkeptF hkeptNot
  refine replaceSteps_ne_of_not_clear hdistinct (fun hnone => ?_) hbad' heq'
  rw [hlookup'] at hnone
  cases hnone

end TgCryptFs.Library

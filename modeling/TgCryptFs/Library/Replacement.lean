import Mathlib.Data.List.Basic
import Mathlib.Data.List.Infix
import Mathlib.Tactic.Common

set_option autoImplicit false

/-!
# Textual replacement

Every occurrence of a pattern is replaced, from the left and without overlaps. An empty pattern
occurs in front of every letter and at the end.
-/
namespace TgCryptFs.Library

variable {α : Type} [DecidableEq α]

/-- The letters still to be skipped belong to an occurrence. -/
def replaceFrom (pat sub : List α) : ℕ → List α → List α
  | _, [] => []
  | skip + 1, _ :: rest => replaceFrom pat sub skip rest
  | 0, c :: rest =>
    if pat <+: c :: rest then sub ++ replaceFrom pat sub (pat.length - 1) rest
    else c :: replaceFrom pat sub 0 rest

def replaceEvery (pat sub text : List α) : List α :=
  if pat = [] then text.flatMap (fun c => sub ++ [c]) ++ sub else replaceFrom pat sub 0 text

theorem replaceFrom_length (pat sub skipped rest : List α) :
    replaceFrom pat sub skipped.length (skipped ++ rest) = replaceFrom pat sub 0 rest := by
  induction skipped with
  | nil => rfl
  | cons c skipped ih => exact ih

theorem replaceEvery_nil (sub text : List α) :
    replaceEvery [] sub text = text.flatMap (fun c => sub ++ [c]) ++ sub := if_pos rfl

section
variable {pat : List α} (hpat : pat ≠ []) (sub : List α)
include hpat

theorem replaceEvery_nil_right : replaceEvery pat sub [] = [] := if_neg hpat

theorem replaceEvery_append (rest : List α) :
    replaceEvery pat sub (pat ++ rest) = sub ++ replaceEvery pat sub rest := by
  rw [replaceEvery, replaceEvery, if_neg hpat, if_neg hpat]
  cases pat with
  | nil => exact absurd rfl hpat
  | cons c pat =>
    rw [List.cons_append, replaceFrom, if_pos ⟨rest, rfl⟩, List.length_cons, Nat.add_sub_cancel,
      replaceFrom_length]

theorem replaceEvery_cons {c : α} {rest : List α} (h : ¬ pat <+: c :: rest) :
    replaceEvery pat sub (c :: rest) = c :: replaceEvery pat sub rest := by
  rw [replaceEvery, replaceEvery, if_neg hpat, if_neg hpat, replaceFrom, if_neg h]

theorem replaceEvery_self : replaceEvery pat sub pat = sub := by
  have h := replaceEvery_append hpat sub []
  rwa [List.append_nil, replaceEvery_nil_right hpat, List.append_nil] at h

end

omit [DecidableEq α] in
theorem ne_nil_of_absent {pat text : List α} (h : ¬ pat <:+: text) : pat ≠ [] := by
  rintro rfl
  exact h List.nil_infix

theorem replaceEvery_of_absent {pat text : List α} (sub : List α) (h : ¬ pat <:+: text) :
    replaceEvery pat sub text = text := by
  have hpat := ne_nil_of_absent h
  induction text with
  | nil => exact replaceEvery_nil_right hpat sub
  | cons c text ih =>
    rw [List.infix_cons_iff, not_or] at h
    rw [replaceEvery_cons hpat sub h.1, ih h.2]

/-- The leftmost occurrence is replaced, and then those behind it. -/
theorem exists_leftmost {pat text : List α} (hpat : pat ≠ []) (sub : List α) (h : pat <:+: text) :
    ∃ before after, text = before ++ pat ++ after ∧
      replaceEvery pat sub text = before ++ sub ++ replaceEvery pat sub after := by
  induction text with
  | nil => exact absurd (List.infix_nil.1 h) hpat
  | cons c text ih =>
    by_cases hstarts : pat <+: c :: text
    · obtain ⟨after, hafter⟩ := hstarts
      refine ⟨[], after, hafter.symm, ?_⟩
      rw [← hafter]
      exact replaceEvery_append hpat sub after
    · obtain ⟨before, after, rfl, heq⟩ := ih ((List.infix_cons_iff.1 h).resolve_left hstarts)
      refine ⟨c :: before, after, rfl, ?_⟩
      rw [replaceEvery_cons hpat sub hstarts, heq]
      rfl

/-- The substitute is found where the pattern was. -/
theorem infix_replaceEvery {pat text : List α} (sub : List α) (h : pat <:+: text) :
    sub <:+: replaceEvery pat sub text := by
  by_cases hpat : pat = []
  · subst hpat
    rw [replaceEvery_nil]
    exact List.infix_append_right
  · obtain ⟨before, after, -, heq⟩ := exists_leftmost hpat sub h
    rw [heq]
    exact List.infix_append before sub _

/-- A replacement that leaves the substitute alone was one of the whole text. -/
theorem eq_of_replaceEvery_eq {pat sub text : List α} (hpat : pat ≠ []) (hsub : sub ≠ [])
    (h : pat <:+: text) (heq : replaceEvery pat sub text = sub) : text = pat := by
  obtain ⟨before, after, rfl, hsplit⟩ := exists_leftmost hpat sub h
  have hlen := congrArg List.length (hsplit.symm.trans heq)
  simp only [List.length_append] at hlen
  have hbefore : before = [] := List.length_eq_zero_iff.1 (by omega)
  have hrest : replaceEvery pat sub after = [] := List.length_eq_zero_iff.1 (by omega)
  have hafter : ¬ pat <:+: after := by
    intro hfound
    have hsubInfix := infix_replaceEvery sub hfound
    rw [hrest] at hsubInfix
    exact hsub (List.infix_nil.1 hsubInfix)
  rw [replaceEvery_of_absent sub hafter] at hrest
  rw [hbefore, hrest, List.nil_append, List.append_nil]

theorem mem_replaceEvery {pat sub text : List α} {c : α} (h : c ∈ replaceEvery pat sub text) :
    c ∈ text ∨ c ∈ sub := by
  by_cases hpat : pat = []
  · subst hpat
    rw [replaceEvery_nil, List.mem_append, List.mem_flatMap] at h
    rcases h with ⟨d, hd, hc⟩ | hc
    · rcases List.mem_append.1 hc with hc | hc
      · exact .inr hc
      · exact .inl (List.mem_singleton.1 hc ▸ hd)
    · exact .inr hc
  · by_cases hfound : pat <:+: text
    · obtain ⟨before, after, heq, hsplit⟩ := exists_leftmost hpat sub hfound
      have hshorter : after.length < text.length := by
        have hpos := List.length_pos_iff.2 hpat
        rw [heq, List.length_append, List.length_append]
        omega
      rw [hsplit, List.mem_append, List.mem_append] at h
      rcases h with (hc | hc) | hc
      · rw [heq]
        exact .inl (List.mem_append_left _ (List.mem_append_left _ hc))
      · exact .inr hc
      · refine (mem_replaceEvery hc).imp_left fun hc => ?_
        rw [heq]
        exact List.mem_append_right _ hc
    · rw [replaceEvery_of_absent sub hfound] at h
      exact .inl h
termination_by text.length

omit [DecidableEq α] in
theorem prefix_of_prefix_append_cons {pat a b : List α} {s : α} (hs : s ∉ pat) (h : pat <+: a ++ s :: b) :
    pat <+: a := by
  rcases List.prefix_or_prefix_of_prefix h (List.prefix_append a (s :: b)) with hle | ⟨rest, rfl⟩
  · exact hle
  · cases rest with
    | nil => rw [List.append_nil]
    | cons c rest =>
      obtain ⟨hc, -⟩ := List.cons_prefix_cons.1 ((List.prefix_append_right_inj a).1 h)
      exact absurd (List.mem_append_right a (hc ▸ List.mem_cons_self)) hs

/-- A letter that the pattern does not have divides the text. -/
theorem replaceEvery_append_cons {pat : List α} {s : α} (hs : s ∉ pat) (sub a b : List α) :
    replaceEvery pat sub (a ++ s :: b) = replaceEvery pat sub a ++ s :: replaceEvery pat sub b := by
  by_cases hpat : pat = []
  · subst hpat
    simp only [replaceEvery_nil, List.flatMap_append, List.flatMap_cons, List.append_assoc,
      List.cons_append, List.nil_append]
  · by_cases hstarts : pat <+: a
    · obtain ⟨rest, hrest⟩ := hstarts
      have hpos := List.length_pos_iff.2 hpat
      have hshorter : rest.length < a.length := by
        rw [← hrest, List.length_append]
        omega
      rw [← hrest, List.append_assoc, replaceEvery_append hpat, replaceEvery_append hpat,
        replaceEvery_append_cons hs sub rest b, List.append_assoc]
    · cases a with
      | nil =>
        have hno : ¬ pat <+: s :: b := fun h => hstarts (prefix_of_prefix_append_cons hs h)
        rw [List.nil_append, replaceEvery_cons hpat sub hno, replaceEvery_nil_right hpat, List.nil_append]
      | cons c a =>
        have hno : ¬ pat <+: c :: (a ++ s :: b) := fun h => hstarts (prefix_of_prefix_append_cons hs h)
        rw [List.cons_append, replaceEvery_cons hpat sub hno, replaceEvery_cons hpat sub hstarts,
          replaceEvery_append_cons hs sub a b, List.cons_append]
termination_by a.length

/-! ## Letters that only the pattern has -/

section
variable {p : α → Bool} {sub : List α} (hsub : ∀ c ∈ sub, p c = false)
include hsub

omit [DecidableEq α] in
theorem countP_substitute : sub.countP p = 0 := by
  refine List.countP_eq_zero.2 fun c hc => ?_
  rw [hsub c hc]
  decide

theorem countP_replaceEvery_le (pat text : List α) :
    (replaceEvery pat sub text).countP p ≤ text.countP p := by
  by_cases hpat : pat = []
  · subst hpat
    rw [replaceEvery_nil, List.countP_append, countP_substitute hsub]
    refine Nat.le_of_eq ?_
    induction text with
    | nil => rfl
    | cons c text ih =>
      rw [List.flatMap_cons, List.countP_append, List.countP_append, countP_substitute hsub,
        List.countP_singleton, List.countP_cons]
      omega
  · by_cases hfound : pat <:+: text
    · obtain ⟨before, after, heq, hsplit⟩ := exists_leftmost hpat sub hfound
      have hshorter : after.length < text.length := by
        have hpos := List.length_pos_iff.2 hpat
        rw [heq, List.length_append, List.length_append]
        omega
      have hrest := countP_replaceEvery_le pat after
      rw [hsplit, heq]
      simp only [List.countP_append, countP_substitute hsub]
      omega
    · rw [replaceEvery_of_absent sub hfound]
termination_by text.length

theorem countP_replaceEvery_lt {pat text : List α} (h : pat <:+: text) {c : α} (hc : c ∈ pat)
    (hp : p c = true) : (replaceEvery pat sub text).countP p < text.countP p := by
  have hpat : pat ≠ [] := List.ne_nil_of_mem hc
  obtain ⟨before, after, heq, hsplit⟩ := exists_leftmost hpat sub h
  have hrest := countP_replaceEvery_le hsub pat after
  have hpos : 0 < pat.countP p := List.countP_pos_iff.2 ⟨c, hc, hp⟩
  rw [hsplit, heq]
  simp only [List.countP_append, countP_substitute hsub]
  omega

end

end TgCryptFs.Library

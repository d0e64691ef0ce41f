import Mathlib.Data.List.Basic
import Mathlib.Data.List.Infix
import Mathlib.Tactic.Common

set_option autoImplicit false

/-!
# Tokens

The letters that are no word letters cut a text into regions. A region is a maximal run of word
letters or is empty, and what is done to each region leaves the letters between them in place.
-/
namespace TgCryptFs.Library

variable {α : Type} (isWord : α → Bool)

/-- The first region, and each further one behind the letter in front of it. -/
def cut : List α → List α × List (α × List α)
  | [] => ([], [])
  | c :: text =>
    if isWord c then (c :: (cut text).1, (cut text).2) else ([], (c, (cut text).1) :: (cut text).2)

def regions (text : List α) : List (List α) := (cut isWord text).1 :: (cut isWord text).2.map Prod.snd

def mapRegions (f : List α → List α) (text : List α) : List α :=
  f (cut isWord text).1 ++ (cut isWord text).2.flatMap fun region => region.1 :: f region.2

/-- Word letters only. -/
def IsWord (w : List α) : Prop := ∀ c ∈ w, isWord c = true

instance (w : List α) : Decidable (IsWord isWord w) := inferInstanceAs (Decidable (∀ c ∈ w, isWord c = true))

variable {isWord}

theorem cut_of_isWord {w : List α} (hw : IsWord isWord w) : cut isWord w = (w, []) := by
  induction w with
  | nil => rfl
  | cons c w ih =>
    rw [cut, if_pos (hw c List.mem_cons_self), ih fun d hd => hw d (List.mem_cons_of_mem c hd)]

theorem cut_append_cons {w : List α} (hw : IsWord isWord w) {s : α} (hs : isWord s = false) (text : List α) :
    cut isWord (w ++ s :: text) = (w, (s, (cut isWord text).1) :: (cut isWord text).2) := by
  induction w with
  | nil => rw [List.nil_append, cut, if_neg (by rw [hs]; decide)]
  | cons c w ih =>
    rw [List.cons_append, cut, if_pos (hw c List.mem_cons_self),
      ih fun d hd => hw d (List.mem_cons_of_mem c hd)]

theorem mapRegions_of_isWord {w : List α} (hw : IsWord isWord w) (f : List α → List α) :
    mapRegions isWord f w = f w := by
  rw [mapRegions, cut_of_isWord hw]
  exact List.append_nil _

theorem mapRegions_append_cons {w : List α} (hw : IsWord isWord w) {s : α} (hs : isWord s = false)
    (f : List α → List α) (text : List α) :
    mapRegions isWord f (w ++ s :: text) = f w ++ s :: mapRegions isWord f text := by
  rw [mapRegions, cut_append_cons hw hs, List.flatMap_cons]
  rfl

theorem regions_of_isWord {w : List α} (hw : IsWord isWord w) : regions isWord w = [w] := by
  rw [regions, cut_of_isWord hw]
  rfl

theorem regions_append_cons {w : List α} (hw : IsWord isWord w) {s : α} (hs : isWord s = false)
    (text : List α) : regions isWord (w ++ s :: text) = w :: regions isWord text := by
  rw [regions, cut_append_cons hw hs]
  rfl

/-- A text is a word, or a word in front of another letter and a text. -/
theorem region_induction (isWord : α → Bool) {motive : List α → Prop} (word : ∀ w, IsWord isWord w → motive w)
    (apart : ∀ w s text, IsWord isWord w → isWord s = false → motive text → motive (w ++ s :: text))
    (text : List α) : motive text := by
  have hsplit : ∀ (w text : List α), IsWord isWord w → motive (w ++ text) := by
    intro w text
    induction text generalizing w with
    | nil =>
      intro hw
      rw [List.append_nil]
      exact word w hw
    | cons c text ih =>
      intro hw
      cases hc : isWord c with
      | false => exact apart w c text hw hc (ih [] nofun)
      | true =>
        rw [List.append_cons]
        refine ih (w ++ [c]) fun d hd => ?_
        rcases List.mem_append.1 hd with hd | hd
        · exact hw d hd
        · exact List.mem_singleton.1 hd ▸ hc
  exact hsplit [] text nofun

theorem isWord_of_mem_regions {text w : List α} (hw : w ∈ regions isWord text) : IsWord isWord w := by
  induction text using region_induction isWord with
  | word v hv =>
    rw [regions_of_isWord hv, List.mem_singleton] at hw
    exact hw ▸ hv
  | apart v s text hv hs ih =>
    rw [regions_append_cons hv hs] at hw
    rcases List.mem_cons.1 hw with rfl | hw
    · exact hv
    · exact ih hw

theorem infix_of_mem_regions {text w : List α} (hw : w ∈ regions isWord text) : w <:+: text := by
  induction text using region_induction isWord with
  | word v hv =>
    rw [regions_of_isWord hv, List.mem_singleton] at hw
    rw [hw]
  | apart v s text hv hs ih =>
    rw [regions_append_cons hv hs] at hw
    rcases List.mem_cons.1 hw with rfl | hw
    · exact (List.prefix_append w (s :: text)).isInfix
    · exact List.infix_append_of_infix_right (List.infix_cons (ih hw))

/-- A map of the regions is determined by what it makes of each. -/
theorem mapRegions_inj {f g : List α → List α} {text : List α}
    (hf : ∀ w ∈ regions isWord text, IsWord isWord (f w)) (hg : ∀ w ∈ regions isWord text, IsWord isWord (g w)) :
    mapRegions isWord f text = mapRegions isWord g text ↔ ∀ w ∈ regions isWord text, f w = g w := by
  induction text using region_induction isWord with
  | word v hv =>
    rw [mapRegions_of_isWord hv, mapRegions_of_isWord hv, regions_of_isWord hv, List.forall_mem_singleton]
  | apart v s text hv hs ih =>
    rw [regions_append_cons hv hs] at hf hg ⊢
    rw [List.forall_mem_cons] at hf hg ⊢
    rw [← ih hf.2 hg.2, mapRegions_append_cons hv hs, mapRegions_append_cons hv hs]
    constructor
    · intro h
      have hcut := congrArg (cut isWord) h
      rw [cut_append_cons hf.1 hs, cut_append_cons hg.1 hs] at hcut
      have hfirst : f v = g v := congrArg Prod.fst hcut
      rw [hfirst] at h
      exact ⟨hfirst, List.cons.inj (List.append_cancel_left h) |>.2⟩
    · rintro ⟨hfirst, hrest⟩
      rw [hfirst, hrest]

theorem mapRegions_congr {f g : List α → List α} {text : List α}
    (h : ∀ w ∈ regions isWord text, f w = g w) : mapRegions isWord f text = mapRegions isWord g text := by
  induction text using region_induction isWord with
  | word v hv =>
    rw [mapRegions_of_isWord hv, mapRegions_of_isWord hv]
    exact h v (by rw [regions_of_isWord hv]; exact List.mem_singleton_self v)
  | apart v s text hv hs ih =>
    rw [regions_append_cons hv hs, List.forall_mem_cons] at h
    rw [mapRegions_append_cons hv hs, mapRegions_append_cons hv hs, h.1, ih h.2]

theorem mapRegions_mapRegions (f : List α → List α) {g : List α → List α} {text : List α}
    (hg : ∀ w ∈ regions isWord text, IsWord isWord (g w)) :
    mapRegions isWord f (mapRegions isWord g text) = mapRegions isWord (fun w => f (g w)) text := by
  induction text using region_induction isWord with
  | word v hv =>
    rw [regions_of_isWord hv, List.forall_mem_singleton] at hg
    rw [mapRegions_of_isWord hv, mapRegions_of_isWord hv, mapRegions_of_isWord hg]
  | apart v s text hv hs ih =>
    rw [regions_append_cons hv hs, List.forall_mem_cons] at hg
    rw [mapRegions_append_cons hv hs, mapRegions_append_cons hv hs, mapRegions_append_cons hg.1 hs, ih hg.2]

theorem mapRegions_id (isWord : α → Bool) (text : List α) : mapRegions isWord (fun w => w) text = text := by
  induction text using region_induction isWord with
  | word v hv => exact mapRegions_of_isWord hv _
  | apart v s text hv hs ih => rw [mapRegions_append_cons hv hs, ih]

theorem countP_of_isWord {w : List α} (hw : IsWord isWord w) : w.countP (fun c => !isWord c) = 0 := by
  refine List.countP_eq_zero.2 fun c hc => ?_
  rw [hw c hc]
  decide

/-- The letters between the regions stay. -/
theorem countP_mapRegions {f : List α → List α} {text : List α}
    (hf : ∀ w ∈ regions isWord text, IsWord isWord (f w)) :
    (mapRegions isWord f text).countP (fun c => !isWord c) = text.countP fun c => !isWord c := by
  induction text using region_induction isWord with
  | word v hv =>
    rw [regions_of_isWord hv, List.forall_mem_singleton] at hf
    rw [mapRegions_of_isWord hv, countP_of_isWord hf, countP_of_isWord hv]
  | apart v s text hv hs ih =>
    rw [regions_append_cons hv hs, List.forall_mem_cons] at hf
    rw [mapRegions_append_cons hv hs, List.countP_append, List.countP_append, List.countP_cons,
      List.countP_cons, ih hf.2, countP_of_isWord hf.1, countP_of_isWord hv]

end TgCryptFs.Library

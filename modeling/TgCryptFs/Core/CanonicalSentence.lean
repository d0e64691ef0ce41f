import TgCryptFs.Core.Sentence

set_option autoImplicit false

/-!
# Which sentences are encodings

Of the index of a word `decode_ref` writes the twelve low bits, and of what the last word
carries it keeps the four bits above the padding byte.
-/
namespace TgCryptFs.Sentence
open Library

/-- The sentence is the encoding of what it decodes to: every word stands in the first
    4096 places of its list, and the padding bits of the last one are zero. -/
def Canonical (lookups : Lookups) (words : List String) : Prop :=
  (∀ i < wordsPerRef, (indexAt lookups words i).toNat < 4096) ∧
    (indexAt lookups words 21).toNat % 256 = 0

theorem testBit_of_mod_eq_zero {n j : ℕ} (h : n % 256 = 0) (hj : j < 8) : n.testBit j = false := by
  have hmod : (n % 2 ^ 8).testBit j = n.testBit j := by
    rw [Nat.testBit_mod_two_pow, decide_eq_true hj, Bool.true_and]
  rw [← hmod, show n % 2 ^ 8 = 0 from h, Nat.zero_testBit]

/-- The bits that encoding a decoded sentence gives back. -/
theorem testBit_reencoded {lookups : Lookups} {words : List String} {x : Key256}
    (hx : ∀ k < 256, BitBuffer.bit x.val k =
      (indexAt lookups words (k / 12)).toNat.testBit (11 - k % 12))
    {i j : ℕ} (hj : j < 12) :
    (encodedIndex x i).toNat.testBit j =
      (decide (12 * i + (11 - j) < 256) && (indexAt lookups words i).toNat.testBit j) := by
  rw [testBit_encodedIndex _ _ _ hj]
  by_cases h : 12 * i + (11 - j) < 256
  · have hdiv : (12 * i + (11 - j)) / 12 = i := by omega
    have hmod : 11 - (12 * i + (11 - j)) % 12 = j := by omega
    rw [hx _ h, hdiv, hmod]
  · rw [decide_eq_false h, Bool.false_and, Bool.false_and]

theorem encodedIndex_eq_iff {lookups : Lookups} {words : List String} {x : Key256}
    (hx : ∀ k < 256, BitBuffer.bit x.val k =
      (indexAt lookups words (k / 12)).toNat.testBit (11 - k % 12)) :
    (∀ i < wordsPerRef, encodedIndex x i = indexAt lookups words i) ↔ Canonical lookups words := by
  constructor
  · intro h
    refine ⟨fun i hi => h i hi ▸ extractBits_lt _ _, ?_⟩
    have hlast : encodedIndex x 21 = indexAt lookups words 21 := h 21 (by decide)
    -- The padding byte of an encoded value is zero.
    refine Nat.eq_of_testBit_eq fun j => ?_
    rw [Nat.zero_testBit, show 256 = 2 ^ 8 from rfl, Nat.testBit_mod_two_pow]
    by_cases hj : j < 8
    · have hbit : (indexAt lookups words 21).toNat.testBit j = false := by
        rw [← hlast, testBit_reencoded hx (by omega), decide_eq_false (by omega), Bool.false_and]
      rw [hbit, Bool.and_false]
    · rw [decide_eq_false hj, Bool.false_and]
  · rintro ⟨hlt, hpad⟩ i hi
    change i < 22 at hi
    refine UInt16.toNat_inj.1 (Nat.eq_of_testBit_eq fun j => ?_)
    by_cases hj : j < 12
    · rw [testBit_reencoded hx hj]
      by_cases h : 12 * i + (11 - j) < 256
      · rw [decide_eq_true h, Bool.true_and]
      · obtain rfl : i = 21 := by omega
        rw [decide_eq_false h, Bool.false_and, testBit_of_mod_eq_zero hpad (by omega)]
    · have hpow : 2 ^ 12 ≤ 2 ^ j := Nat.pow_le_pow_right (by omega) (by omega)
      have hleft : (encodedIndex x i).toNat < 4096 := extractBits_lt _ _
      rw [Nat.testBit_lt_two_pow (by omega), Nat.testBit_lt_two_pow (by have := hlt i hi; omega)]

theorem encodeRef_decoded_iff (w : Wordlists) {words : List String}
    (h : validateSentence words w.lookups = .ok ()) {x : Key256}
    (hx : decodeRef words w.lookups = .ok x.val) :
    encodeRef x w.lists = .ok words ↔ Canonical w.lookups words := by
  obtain ⟨y, hy, hbits⟩ := decodeRef_of_valid h
  obtain rfl : x = y := Subtype.ext (Except.ok.inj (hx.symm.trans hy))
  rw [← encodedIndex_eq_iff hbits, encodeRef_ok_iff]
  constructor
  · rintro ⟨-, hlookup⟩ i hi
    exact Option.some.inj ((hlookup i hi).symm.trans (lookup_indexAt h hi))
  · intro he
    refine ⟨(validateSentence_ok.1 h).1, fun i hi => ?_⟩
    rw [he i hi, lookup_indexAt h hi]

theorem validateSentence_of_decodeRef {lookups : Lookups} {words : List String} {out : Bytes}
    (h : decodeRef words lookups = .ok out) : validateSentence words lookups = .ok () := by
  unfold decodeRef at h
  unfold validateSentence
  split at h
  · cases h
  · rename_i hlen
    rw [if_neg hlen]
    split at h
    · cases h
    · rename_i hdecoded
      exact validateWords_of_decodeWords hdecoded

theorem decodeRef_iff_encodeRef_iff (w : Wordlists) (words : List String) :
    (∀ x : Key256, decodeRef words w.lookups = .ok x.val ↔
      validateSentence words w.lookups = .ok () ∧ encodeRef x w.lists = .ok words) ↔
    (validateSentence words w.lookups = .ok () → Canonical w.lookups words) := by
  constructor
  · intro h hvalid
    obtain ⟨x, hx, -⟩ := decodeRef_of_valid hvalid
    exact (encodeRef_decoded_iff w hvalid hx).1 ((h x).1 hx).2
  · intro h x
    constructor
    · intro hx
      have hvalid := validateSentence_of_decodeRef hx
      exact ⟨hvalid, (encodeRef_decoded_iff w hvalid hx).2 (h hvalid)⟩
    · rintro ⟨-, hx⟩
      exact decodeRef_of_encodeRef hx

/-- `placeholder_wordlist`: `w{list}_{i:04}`. -/
def placeholderWord (l i : ℕ) : String :=
  String.ofList ('w' :: Nat.toDigits 10 l ++ '_' :: (Nat.toDigits 10 i).leftpad 4 '0')

def placeholderWordlist (l : ℕ) : List String := (List.range wordlistSize).map (placeholderWord l)

theorem placeholderWord_injective (l : ℕ) : Function.Injective (placeholderWord l) := by
  intro i j h
  have hchars := String.ofList_injective h
  have hpad : (Nat.toDigits 10 i).leftpad 4 '0' = (Nat.toDigits 10 j).leftpad 4 '0' := by
    simpa using hchars
  have hnum := congrArg (fun cs => Nat.ofDigitChars 10 cs 0) hpad
  simpa [List.leftpad, Nat.ofDigitChars_append] using hnum

theorem isWhitespace_of_isDigit {c : Char} (h : c.isDigit = true) : isWhitespace c = false := by
  have hrange : 48 ≤ c.toNat ∧ c.toNat ≤ 57 := by
    simpa [Char.isDigit, Char.le_def, UInt32.le_iff_toNat_le] using h
  simp [isWhitespace]
  omega

theorem isWhitespace_of_mem_toDigits {n : ℕ} {c : Char} (h : c ∈ Nat.toDigits 10 n) :
    isWhitespace c = false :=
  isWhitespace_of_isDigit (Nat.isDigit_of_mem_toDigits (by decide) (by decide) h)

def placeholders : Wordlists where
  lists l := placeholderWordlist l
  size_ge l := by rw [placeholderWordlist, List.length_map, List.length_range]; decide
  size_le l := by rw [placeholderWordlist, List.length_map, List.length_range]; decide
  nodup l := List.nodup_range.map (placeholderWord_injective l)
  ne_empty l word h := by
    obtain ⟨i, -, rfl⟩ := List.mem_map.1 h
    simp [placeholderWord]
  no_space l word h c hc := by
    obtain ⟨i, -, rfl⟩ := List.mem_map.1 h
    simp only [placeholderWord, String.toList_ofList, List.cons_append, List.mem_cons,
      List.mem_append, List.leftpad, List.mem_replicate] at hc
    rcases hc with rfl | hc | rfl | ⟨-, rfl⟩ | hc
    · decide
    · exact isWhitespace_of_mem_toDigits hc
    · decide
    · decide
    · exact isWhitespace_of_mem_toDigits hc

theorem placeholders_lists (l : Fin 4) : placeholders.lists l = placeholderWordlist l := by
  simp only [placeholders]

/-- The sentence of the all-zero key, with the second word of its list as the last word. -/
def mistyped : List String :=
  (List.range wordsPerRef).map fun i => placeholderWord (listIdx i) (if i = 21 then 1 else 0)

theorem lookup_mistyped {i : ℕ} (hi : i < wordsPerRef) :
    (placeholders.lookups (listIdx i))[mistyped.getD i ""]? =
      some (UInt16.ofNat (if i = 21 then 1 else 0)) := by
  have hword : mistyped.getD i "" = placeholderWord (listIdx i) (if i = 21 then 1 else 0) := by
    rw [mistyped, List.getD_eq_getElem _ _ (by rwa [List.length_map, List.length_range]),
      List.getElem_map, List.getElem_range]
  have hn : (if i = 21 then 1 else 0) < wordlistSize := by split <;> decide
  rw [hword, Wordlists.lookup_eq_some,
    UInt16.toNat_ofNat_of_lt' (Nat.lt_trans hn (by decide))]
  rw [placeholders_lists, placeholderWordlist, List.getElem?_map, List.getElem?_range hn,
    Option.map_some]

theorem mistyped_valid : validateSentence mistyped placeholders.lookups = .ok () := by
  refine validateSentence_ok.2 ⟨by rw [mistyped, List.length_map, List.length_range], fun j word hj => ?_⟩
  have hj' : j < wordsPerRef := by
    have := (List.getElem?_eq_some_iff.1 hj).1
    rwa [mistyped, List.length_map, List.length_range] at this
  have hword : mistyped.getD j "" = word := by rw [List.getD_eq_getElem?_getD, hj, Option.getD_some]
  rw [← hword]
  exact Std.HashMap.mem_iff_isSome_getElem?.2 (by rw [lookup_mistyped hj']; rfl)

theorem mistyped_last_word_accepted :
    ¬ ∀ x : Key256, decodeRef mistyped placeholders.lookups = .ok x.val ↔
      validateSentence mistyped placeholders.lookups = .ok () ∧
        encodeRef x placeholders.lists = .ok mistyped := by
  intro h
  obtain ⟨x, hx, -⟩ := decodeRef_of_valid mistyped_valid
  obtain ⟨-, hpad⟩ := (encodeRef_decoded_iff placeholders mistyped_valid hx).1 ((h x).1 hx).2
  have hlast : indexAt placeholders.lookups mistyped 21 = 1 := by
    rw [indexAt, lookup_mistyped (by decide), if_pos rfl, Option.getD_some]
    rfl
  rw [hlast] at hpad
  exact absurd hpad (by decide)

end TgCryptFs.Sentence

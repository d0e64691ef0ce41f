import Mathlib.Data.List.Nodup
import TgCryptFs.Core.Crypto
import TgCryptFs.Library.BitBuffer

set_option autoImplicit false

/-!
# Sentence references

A 256-bit value as 22 words of 12 bits each, taken from four lists in turn. The last
word carries four bits of the value and the eight bits of a padding byte.
-/
namespace TgCryptFs.Sentence
open Library

def wordlistSize : ℕ := 4096
def bitsPerWord : ℕ := 12
def wordsPerRef : ℕ := 22

inductive EncodingError where
  | sentenceEncoding (message : String)
deriving DecidableEq, Repr

/-- A `[u8; 32]`. -/
abbrev Key256 := {b : Bytes // b.length = 32}

def extractBits (data : Bytes) (bitOffset count : ℕ) : UInt16 :=
  (List.range count).foldl (fun value i =>
    let byteIdx := (bitOffset + i) / 8
    let bitIdx := 7 - (bitOffset + i) % 8
    if byteIdx < data.length && BitBuffer.testBit (data.getD byteIdx 0) bitIdx then
      value ||| (1 <<< UInt16.ofNat (count - 1 - i))
    else value) 0

/-- Bits past the end of the buffer are dropped. -/
def setBits (data : Bytes) (bitOffset count : ℕ) (value : UInt16) : Bytes :=
  (List.range count).foldl (fun data i =>
    BitBuffer.writeBit data (bitOffset + i) ((value >>> UInt16.ofNat (count - 1 - i)) &&& 1 == 1))
    data

/-- The word at position `i` is from list `i % 4`. -/
def listIdx (i : ℕ) : Fin 4 := Fin.ofNat 4 i

def encodeRef (data : Key256) (wordlists : Fin 4 → List String) :
    Except EncodingError (List String) :=
  if ∃ l, (wordlists l).length < wordlistSize then
    .error (.sentenceEncoding "wordlist too small")
  else
    let padded := data.val ++ [0]
    .ok ((List.range wordsPerRef).map fun i =>
      (wordlists (listIdx i)).getD
        (extractBits padded (i * bitsPerWord) bitsPerWord).toNat "")

def encodeRefString (data : Key256) (wordlists : Fin 4 → List String) :
    Except EncodingError String :=
  match encodeRef data wordlists with
  | .error e => .error e
  | .ok words => .ok (" ".intercalate words)

/-- The last of equal words counts, and its position is cut to sixteen bits. -/
def buildReverseLookup (wordlist : List String) : Std.HashMap String UInt16 :=
  Std.HashMap.ofList (wordlist.zipIdx.map fun wi => (wi.1, UInt16.ofNat wi.2))

abbrev Lookups := Fin 4 → Std.HashMap String UInt16

/-- The loop of `decode_ref` over the words from position `i` on. -/
def decodeWords (lookups : Lookups) : ℕ → List String → Bytes → Except EncodingError Bytes
  | _, [], padded => .ok padded
  | i, word :: words, padded =>
    match (lookups (listIdx i))[word]? with
    | none => .error (.sentenceEncoding
        ("word '" ++ word ++ "' not found in wordlist " ++ toString (i % 4)))
    | some index =>
      decodeWords lookups (i + 1) words (setBits padded (i * bitsPerWord) bitsPerWord index)

def wordCountMessage (n : ℕ) : String :=
  "expected " ++ toString wordsPerRef ++ " words, got " ++ toString n

def decodeRef (words : List String) (lookups : Lookups) : Except EncodingError Bytes :=
  if words.length ≠ wordsPerRef then
    .error (.sentenceEncoding (wordCountMessage words.length))
  else
    match decodeWords lookups 0 words (List.replicate 33 0) with
    | .error e => .error e
    | .ok padded => .ok (padded.take 32)

/-- `char::is_whitespace`: the Unicode property White_Space. -/
def isWhitespace (c : Char) : Bool :=
  (9 ≤ c.toNat && c.toNat ≤ 13) || (0x2000 ≤ c.toNat && c.toNat ≤ 0x200A) ||
    [0x20, 0x85, 0xA0, 0x1680, 0x2028, 0x2029, 0x202F, 0x205F, 0x3000].contains c.toNat

/-- `str::split_whitespace`: the non-empty pieces between white space. -/
def splitWhitespace (s : String) : List String :=
  ((s.toList.splitOnP isWhitespace).filter (· ≠ [])).map String.ofList

def decodeRefString (sentence : String) (lookups : Lookups) : Except EncodingError Bytes :=
  decodeRef (splitWhitespace sentence) lookups

/-- The loop of `validate_sentence` over the words from position `i` on. -/
def validateWords (lookups : Lookups) : ℕ → List String → Except String Unit
  | _, [] => .ok ()
  | i, word :: words =>
    if word ∈ lookups (listIdx i) then validateWords lookups (i + 1) words
    else .error ("word '" ++ word ++ "' at position " ++ toString i ++ " not found in wordlist " ++
      toString (i % 4))

def validateSentence (words : List String) (lookups : Lookups) : Except String Unit :=
  if words.length ≠ wordsPerRef then .error (wordCountMessage words.length)
  else validateWords lookups 0 words

/-- Four lists of distinct words that a sentence can be split into again, long enough
    to encode with and short enough for 16-bit positions. -/
structure Wordlists where
  lists : Fin 4 → List String
  size_ge : ∀ l, 4096 ≤ (lists l).length
  size_le : ∀ l, (lists l).length ≤ 65536
  nodup : ∀ l, (lists l).Nodup
  ne_empty : ∀ l, ∀ word ∈ lists l, word ≠ ""
  no_space : ∀ l, ∀ word ∈ lists l, ∀ c ∈ word.toList, isWhitespace c = false

def Wordlists.lookups (w : Wordlists) : Lookups := fun l => buildReverseLookup (w.lists l)

theorem getElem?_buildReverseLookup {wordlist : List String} (hn : wordlist.Nodup)
    (hlen : wordlist.length ≤ 65536) {word : String} {index : UInt16} :
    (buildReverseLookup wordlist)[word]? = some index ↔ wordlist[index.toNat]? = some word := by
  have hdistinct : (wordlist.zipIdx.map fun wi => (wi.1, UInt16.ofNat wi.2)).Pairwise
      fun a b => (a.1 == b.1) = false := by
    rw [List.pairwise_map]
    have hfst : (wordlist.zipIdx.map Prod.fst).Pairwise (· ≠ ·) := by
      rwa [List.zipIdx_map_fst]
    exact (List.pairwise_map.1 hfst).imp fun h => by simpa using h
  -- The position a word is listed at is what the map answers.
  have hget : ∀ i, wordlist[i]? = some word →
      (buildReverseLookup wordlist)[word]? = some (UInt16.ofNat i) := by
    intro i hi
    refine Std.HashMap.getElem?_ofList_of_mem (beq_self_eq_true word) hdistinct ?_
    exact List.mem_map.2 ⟨(word, i), List.mem_zipIdx_iff_getElem?.2 hi, rfl⟩
  constructor
  · intro h
    have hmem : word ∈ wordlist := by
      by_contra habs
      rw [buildReverseLookup, Std.HashMap.getElem?_ofList_of_contains_eq_false] at h
      · cases h
      · simpa [List.map_map, Function.comp_def] using habs
    obtain ⟨i, hi⟩ := List.mem_iff_getElem?.1 hmem
    have hi' : i < wordlist.length := (List.getElem?_eq_some_iff.1 hi).1
    have hindex : index = UInt16.ofNat i := Option.some.inj (h.symm.trans (hget i hi))
    rwa [hindex, UInt16.toNat_ofNat_of_lt' (Nat.lt_of_lt_of_le hi' hlen)]
  · intro h
    rw [hget _ h, UInt16.ofNat_toNat]

namespace Wordlists

variable (w : Wordlists)

theorem lookup_eq_some {l : Fin 4} {word : String} {index : UInt16} :
    (w.lookups l)[word]? = some index ↔ (w.lists l)[index.toNat]? = some word :=
  getElem?_buildReverseLookup (w.nodup l) (w.size_le l)

theorem getElem?_index (l : Fin 4) {index : UInt16} (h : index.toNat < 4096) :
    (w.lists l)[index.toNat]? = some ((w.lists l).getD index.toNat "") := by
  have hlt : index.toNat < (w.lists l).length := Nat.lt_of_lt_of_le h (w.size_ge l)
  rw [List.getElem?_eq_getElem hlt, List.getD_eq_getElem _ _ hlt]

end Wordlists

theorem testBit_extractBits (data : Bytes) (bitOffset : ℕ) {count : ℕ} (hc : count ≤ 16) (j : ℕ) :
    (extractBits data bitOffset count).toNat.testBit j =
      (decide (j < count) && BitBuffer.bit data (bitOffset + (count - 1 - j))) := by
  have hbit : ∀ k, (decide (k / 8 < data.length) &&
      BitBuffer.testBit (data.getD (k / 8) 0) (7 - k % 8)) = BitBuffer.bit data k := by
    intro k
    rw [BitBuffer.testBit_eq _ (by omega)]
    by_cases hk : k / 8 < data.length
    · rw [decide_eq_true hk, Bool.true_and, BitBuffer.bit]
    · rw [decide_eq_false hk, Bool.false_and, BitBuffer.bit_of_le (by omega)]
  unfold extractBits
  simp only [hbit]
  rw [BitBuffer.testBit_foldl_or (fun i => BitBuffer.bit data (bitOffset + i)) hc (Nat.le_refl _)]
  simp

theorem extractBits_lt (data : Bytes) (bitOffset : ℕ) :
    (extractBits data bitOffset bitsPerWord).toNat < 4096 := by
  refine Nat.lt_pow_two_of_testBit (n := 12) _ fun j hj => ?_
  rw [testBit_extractBits _ _ (by decide), decide_eq_false (by simp only [bitsPerWord]; omega),
    Bool.false_and]

theorem bit_setBits (data : Bytes) (bitOffset count : ℕ) (value : UInt16) (hc : count ≤ 16)
    (h : bitOffset + count ≤ 8 * data.length) :
    (setBits data bitOffset count value).length = data.length ∧
      ∀ j, BitBuffer.bit (setBits data bitOffset count value) j =
        if bitOffset ≤ j ∧ j < bitOffset + count then
          value.toNat.testBit (count - 1 - (j - bitOffset))
        else BitBuffer.bit data j := by
  obtain ⟨hlen, hbit⟩ := BitBuffer.bit_foldl_writeBit
    (fun i => (value >>> UInt16.ofNat (count - 1 - i)) &&& 1 == 1) bitOffset count data h
  refine ⟨hlen, fun j => (hbit j).trans ?_⟩
  split
  · exact BitBuffer.testBit16_eq value (by omega)
  · rfl

theorem bit_setWord (data : Bytes) (i : ℕ) (index : UInt16) (h : 12 * (i + 1) ≤ 8 * data.length) :
    (setBits data (i * bitsPerWord) bitsPerWord index).length = data.length ∧
      ∀ k, BitBuffer.bit (setBits data (i * bitsPerWord) bitsPerWord index) k =
        if k / 12 = i then index.toNat.testBit (11 - k % 12) else BitBuffer.bit data k := by
  obtain ⟨hlen, hbit⟩ := bit_setBits data (i * 12) 12 index (by decide) (by omega)
  refine ⟨hlen, fun k => (hbit k).trans ?_⟩
  by_cases hk : k / 12 = i
  · have hpos : 12 - 1 - (k - i * 12) = 11 - k % 12 := by omega
    rw [if_pos (by omega), if_pos hk, hpos]
  · rw [if_neg (by omega), if_neg hk]

/-- The looked-up position of the word at place `i`, which `decode_ref` writes. -/
def indexAt (lookups : Lookups) (words : List String) (i : ℕ) : UInt16 :=
  ((lookups (listIdx i))[words.getD i ""]?).getD 0

theorem validateWords_ok {lookups : Lookups} {i : ℕ} {words : List String} :
    validateWords lookups i words = .ok () ↔
      ∀ j word, words[j]? = some word → word ∈ lookups (listIdx (i + j)) := by
  induction words generalizing i with
  | nil => simp [validateWords]
  | cons first words ih =>
    rw [validateWords]
    constructor
    · intro h j word hj
      split at h
      · rename_i hfirst
        cases j with
        | zero =>
          cases hj
          exact hfirst
        | succ j =>
          have := ih.1 h j word hj
          rwa [Nat.add_right_comm] at this
      · cases h
    · intro h
      have hfirst : first ∈ lookups (listIdx i) := h 0 first rfl
      rw [if_pos hfirst]
      refine ih.2 fun j word hj => ?_
      have := h (j + 1) word hj
      rwa [← Nat.add_assoc, Nat.add_right_comm] at this

theorem validateSentence_ok {lookups : Lookups} {words : List String} :
    validateSentence words lookups = .ok () ↔
      words.length = wordsPerRef ∧
        ∀ j word, words[j]? = some word → word ∈ lookups (listIdx j) := by
  unfold validateSentence
  split
  · rename_i h
    exact ⟨fun e => (by cases e), fun e => absurd e.1 h⟩
  · rename_i h
    rw [validateWords_ok, not_not.1 h]
    simp

/-- `decode_ref` refuses a word exactly where `validate_sentence` does. -/
theorem validateWords_of_decodeWords {lookups : Lookups} {i : ℕ} {words : List String}
    {padded out : Bytes} (h : decodeWords lookups i words padded = .ok out) :
    validateWords lookups i words = .ok () := by
  induction words generalizing i padded with
  | nil => rfl
  | cons word words ih =>
    rw [decodeWords] at h
    split at h
    · cases h
    · rename_i index hindex
      rw [validateWords, if_pos (Std.HashMap.mem_iff_isSome_getElem?.2 (by rw [hindex]; rfl))]
      exact ih h

/-- The bits of the buffer after the loop: those of the indices where there are words,
    and the old ones elsewhere. -/
theorem decodeWords_spec {lookups : Lookups} (index : ℕ → UInt16) {i : ℕ} {words : List String}
    {padded : Bytes}
    (hl : ∀ j word, words[j]? = some word →
      (lookups (listIdx (i + j)))[word]? = some (index (i + j)))
    (hlen : 12 * (i + words.length) ≤ 8 * padded.length) :
    ∃ out, decodeWords lookups i words padded = .ok out ∧ out.length = padded.length ∧
      ∀ k, BitBuffer.bit out k =
        if 12 * i ≤ k ∧ k < 12 * (i + words.length) then
          (index (k / 12)).toNat.testBit (11 - k % 12)
        else BitBuffer.bit padded k := by
  induction words generalizing i padded with
  | nil =>
    refine ⟨padded, rfl, rfl, fun k => ?_⟩
    rw [if_neg (by simp only [List.length_nil]; omega)]
  | cons word words ih =>
    rw [List.length_cons] at hlen
    have hword : (lookups (listIdx i))[word]? = some (index i) := hl 0 word rfl
    obtain ⟨hset, hbits⟩ := bit_setWord padded i (index i) (by omega)
    have hbound : 12 * (i + 1 + words.length) ≤
        8 * (setBits padded (i * bitsPerWord) bitsPerWord (index i)).length := by
      rw [hset]
      omega
    have hrest : ∀ j w, words[j]? = some w →
        (lookups (listIdx (i + 1 + j)))[w]? = some (index (i + 1 + j)) := by
      intro j w hj
      have := hl (j + 1) w hj
      rwa [← Nat.add_assoc, Nat.add_right_comm] at this
    obtain ⟨out, hout, houtlen, hk⟩ := ih hrest hbound
    refine ⟨out, ?_, houtlen.trans hset, fun k => ?_⟩
    · rw [decodeWords, hword]
      exact hout
    · rw [hk, hbits, List.length_cons]
      by_cases hhead : k / 12 = i
      · rw [if_neg (by omega), if_pos hhead, if_pos (by omega), hhead]
      · rw [if_neg hhead]
        by_cases htail : 12 * (i + 1) ≤ k ∧ k < 12 * (i + 1 + words.length)
        · rw [if_pos htail, if_pos (by omega)]
        · rw [if_neg htail, if_neg (by omega)]

theorem lookup_indexAt {lookups : Lookups} {words : List String}
    (h : validateSentence words lookups = .ok ()) {i : ℕ} (hi : i < wordsPerRef) :
    (lookups (listIdx i))[words.getD i ""]? = some (indexAt lookups words i) := by
  obtain ⟨hlen, hmem⟩ := validateSentence_ok.1 h
  have hi' : i < words.length := hlen ▸ hi
  have hword : words.getD i "" ∈ lookups (listIdx i) := by
    rw [List.getD_eq_getElem _ _ hi']
    exact hmem i _ (List.getElem?_eq_getElem hi')
  have hsome := Std.HashMap.mem_iff_isSome_getElem?.1 hword
  exact (Option.getD_of_ne_none (Option.isSome_iff_ne_none.1 hsome) 0).symm

theorem decodeRef_of_valid {lookups : Lookups} {words : List String}
    (h : validateSentence words lookups = .ok ()) :
    ∃ x : Key256, decodeRef words lookups = .ok x.val ∧
      ∀ k < 256, BitBuffer.bit x.val k =
        (indexAt lookups words (k / 12)).toNat.testBit (11 - k % 12) := by
  have hlen : words.length = 22 := (validateSentence_ok.1 h).1
  have hlookup : ∀ j word, words[j]? = some word →
      (lookups (listIdx (0 + j)))[word]? = some (indexAt lookups words (0 + j)) := by
    intro j word hj
    have hj' : j < words.length := (List.getElem?_eq_some_iff.1 hj).1
    have hword : words.getD j "" = word := by rw [List.getD_eq_getElem?_getD, hj, Option.getD_some]
    have := lookup_indexAt h (hlen ▸ hj')
    rwa [hword, ← Nat.zero_add j] at this
  have hspace : 12 * (0 + words.length) ≤ 8 * (List.replicate 33 (0 : UInt8)).length := by
    rw [hlen]
    decide
  obtain ⟨padded, hpadded, hplen, hbits⟩ := decodeWords_spec _ hlookup hspace
  rw [List.length_replicate] at hplen
  refine ⟨⟨padded.take 32, by rw [List.length_take, hplen]; rfl⟩, ?_, fun k hk => ?_⟩
  · rw [decodeRef, if_neg fun e => e hlen, hpadded]
  · rw [BitBuffer.bit_take (by omega), hbits, if_pos (by omega)]

/-- The index of the word at place `i` of an encoded value. -/
def encodedIndex (x : Key256) (i : ℕ) : UInt16 :=
  extractBits (x.val ++ [0]) (i * bitsPerWord) bitsPerWord

/-- Bit 263 is the last one that is read; from bit 256 on there is the padding byte. -/
theorem testBit_encodedIndex (x : Key256) (i j : ℕ) (hj : j < 12) :
    (encodedIndex x i).toNat.testBit j =
      (decide (12 * i + (11 - j) < 256) && BitBuffer.bit x.val (12 * i + (11 - j))) := by
  have hpos : i * bitsPerWord + (bitsPerWord - 1 - j) = 12 * i + (11 - j) := by
    rw [Nat.mul_comm]
    rfl
  rw [encodedIndex, testBit_extractBits _ _ (by decide), decide_eq_true (show j < bitsPerWord from hj),
    Bool.true_and, hpos]
  by_cases h : 12 * i + (11 - j) < 256
  · rw [decide_eq_true h, Bool.true_and, BitBuffer.bit_append_left (by rw [x.property]; omega)]
  · rw [decide_eq_false h, Bool.false_and, BitBuffer.bit_append_zero (by rw [x.property]; omega)]

theorem encodeRef_eq (w : Wordlists) (x : Key256) :
    encodeRef x w.lists = .ok ((List.range wordsPerRef).map fun i =>
      (w.lists (listIdx i)).getD (encodedIndex x i).toNat "") := by
  have hsize : ¬ ∃ l, (w.lists l).length < wordlistSize := by
    rintro ⟨l, hl⟩
    exact absurd (w.size_ge l) (Nat.not_le.2 hl)
  rw [encodeRef, if_neg hsize]
  rfl

theorem encodeRef_ok_iff (w : Wordlists) (x : Key256) (words : List String) :
    encodeRef x w.lists = .ok words ↔
      words.length = wordsPerRef ∧
        ∀ i < wordsPerRef, (w.lookups (listIdx i))[words.getD i ""]? = some (encodedIndex x i) := by
  have hword : ∀ i word, (w.lookups (listIdx i))[word]? = some (encodedIndex x i) ↔
      word = (w.lists (listIdx i)).getD (encodedIndex x i).toNat "" := by
    intro i word
    have hlt : (encodedIndex x i).toNat < 4096 := extractBits_lt _ _
    rw [w.lookup_eq_some, w.getElem?_index _ hlt, Option.some.injEq, eq_comm]
  rw [encodeRef_eq, Except.ok.injEq]
  constructor
  · rintro rfl
    refine ⟨by rw [List.length_map, List.length_range], fun i hi => (hword _ _).2 ?_⟩
    rw [List.getD_eq_getElem _ _ (by rwa [List.length_map, List.length_range]), List.getElem_map,
      List.getElem_range]
  · rintro ⟨hlen, h⟩
    refine List.ext_getElem (by rw [List.length_map, List.length_range, hlen]) fun i hi hi' => ?_
    have := (hword _ _).1 (h i (hlen ▸ hi'))
    rw [List.getElem_map, List.getElem_range, ← this, List.getD_eq_getElem _ _ hi']

theorem validateSentence_of_encodeRef {w : Wordlists} {x : Key256} {words : List String}
    (h : encodeRef x w.lists = .ok words) : validateSentence words w.lookups = .ok () := by
  obtain ⟨hlen, hlookup⟩ := (encodeRef_ok_iff w x words).1 h
  refine validateSentence_ok.2 ⟨hlen, fun j word hj => ?_⟩
  have hj' : j < words.length := (List.getElem?_eq_some_iff.1 hj).1
  have hword : words.getD j "" = word := by rw [List.getD_eq_getElem?_getD, hj, Option.getD_some]
  have := hlookup j (hlen ▸ hj')
  rw [hword] at this
  exact Std.HashMap.mem_iff_isSome_getElem?.2 (by rw [this]; rfl)

theorem indexAt_of_encodeRef {w : Wordlists} {x : Key256} {words : List String}
    (h : encodeRef x w.lists = .ok words) {i : ℕ} (hi : i < wordsPerRef) :
    indexAt w.lookups words i = encodedIndex x i := by
  rw [indexAt, ((encodeRef_ok_iff w x words).1 h).2 i hi, Option.getD_some]

theorem decodeRef_of_encodeRef {w : Wordlists} {x : Key256} {words : List String}
    (h : encodeRef x w.lists = .ok words) : decodeRef words w.lookups = .ok x.val := by
  obtain ⟨y, hy, hbits⟩ := decodeRef_of_valid (validateSentence_of_encodeRef h)
  have hyx : y.val = x.val := by
    refine BitBuffer.ext_bit (y.property.trans x.property.symm) fun k hk => ?_
    rw [y.property] at hk
    have hi : k / 12 < wordsPerRef := by
      change k / 12 < 22
      omega
    have hpos : 12 * (k / 12) + (11 - (11 - k % 12)) = k := by omega
    rw [hbits k (by omega), indexAt_of_encodeRef h hi, testBit_encodedIndex _ _ _ (by omega), hpos,
      decide_eq_true (by omega), Bool.true_and]
  rw [hy, hyx]

theorem isWhitespace_space : isWhitespace ' ' = true := by decide

theorem splitWhitespace_intercalate {words : List String} (hne : ∀ word ∈ words, word ≠ "")
    (hsp : ∀ word ∈ words, ∀ c ∈ word.toList, isWhitespace c = false) :
    splitWhitespace (" ".intercalate words) = words := by
  have hpieces : words ≠ [] → (" ".intercalate words).toList.splitOnP isWhitespace =
      words.map String.toList := by
    intro hwords
    rw [String.toList_intercalate]
    induction words with
    | nil => exact absurd rfl hwords
    | cons word rest ih =>
      cases rest with
      | nil =>
        rw [List.map_singleton, List.intercalate_singleton]
        exact List.splitOnP_eq_singleton (hsp word List.mem_cons_self)
      | cons next rest =>
        have hrest := ih (fun v hv => hne v (List.mem_cons_of_mem _ hv))
          (fun v hv => hsp v (List.mem_cons_of_mem _ hv)) (List.cons_ne_nil _ _)
        rw [List.map_cons, List.map_cons, List.intercalate_cons_cons, ← List.map_cons]
        change (word.toList ++ [' '] ++ _).splitOnP isWhitespace = _
        rw [List.append_assoc, List.singleton_append,
          List.splitOnP_append_cons_of_forall_mem (hsp word List.mem_cons_self) ' '
            isWhitespace_space]
        exact congrArg (word.toList :: ·) hrest
  cases hwords : words with
  | nil => rfl
  | cons word rest =>
    rw [← hwords, splitWhitespace, hpieces (by rw [hwords]; exact List.cons_ne_nil _ _),
      List.filter_eq_self.2, List.map_map]
    · simp
    · intro cs hcs
      obtain ⟨v, hv, rfl⟩ := List.mem_map.1 hcs
      simpa using hne v hv

theorem mem_of_encodeRef {w : Wordlists} {x : Key256} {words : List String}
    (h : encodeRef x w.lists = .ok words) {i : ℕ} {word : String} (hi : words[i]? = some word) :
    word ∈ w.lists (listIdx i) := by
  obtain ⟨hlen, hlookup⟩ := (encodeRef_ok_iff w x words).1 h
  have hi' : i < words.length := (List.getElem?_eq_some_iff.1 hi).1
  have := hlookup i (hlen ▸ hi')
  rw [List.getD_eq_getElem?_getD, hi, Option.getD_some, w.lookup_eq_some] at this
  exact List.mem_of_getElem? this

theorem sentence_round_trip (w : Wordlists) (x : Key256) :
    ∃ words, encodeRef x w.lists = .ok words ∧
      words.length = 22 ∧
      (∀ i word, words[i]? = some word → word ∈ w.lists (listIdx i)) ∧
      validateSentence words w.lookups = .ok () ∧
      decodeRef words w.lookups = .ok x.val ∧
      ∃ sentence, encodeRefString x w.lists = .ok sentence ∧
        decodeRefString sentence w.lookups = .ok x.val := by
  have h := encodeRef_eq w x
  generalize ((List.range wordsPerRef).map fun i =>
    (w.lists (listIdx i)).getD (encodedIndex x i).toNat "") = words at h
  have hmem : ∀ word ∈ words, ∃ l, word ∈ w.lists l := by
    intro word hword
    obtain ⟨i, hi⟩ := List.mem_iff_getElem?.1 hword
    exact ⟨_, mem_of_encodeRef h hi⟩
  have hsplit : splitWhitespace (" ".intercalate words) = words := by
    refine splitWhitespace_intercalate (fun word hword => ?_) fun word hword => ?_
    · obtain ⟨l, hl⟩ := hmem word hword
      exact w.ne_empty l word hl
    · obtain ⟨l, hl⟩ := hmem word hword
      exact w.no_space l word hl
  refine ⟨words, h, ((encodeRef_ok_iff w x words).1 h).1, fun i word hi => mem_of_encodeRef h hi,
    validateSentence_of_encodeRef h, decodeRef_of_encodeRef h, " ".intercalate words, ?_, ?_⟩
  · rw [encodeRefString, h]
  · rw [decodeRefString, hsplit, decodeRef_of_encodeRef h]

end TgCryptFs.Sentence

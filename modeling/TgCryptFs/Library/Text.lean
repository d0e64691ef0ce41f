import Mathlib.Algebra.GroupWithZero.Nat
import Mathlib.Algebra.Ring.Int.Defs
import Mathlib.Data.List.DropRight
import Mathlib.Data.List.TakeWhile
import Mathlib.Data.List.Infix
import Mathlib.Tactic.Common

set_option autoImplicit false

/-!
# Texts with byte offsets

A `str` is the list of its characters. Offsets count the bytes of their UTF-8 encoding, and a
slice that begins or ends within a character panics.
-/
namespace TgCryptFs.Library

abbrev Text := List Char

namespace Text

def byteLength (t : Text) : ℕ := (t.map Char.utf8Size).sum

/-- `&t[n..]`. -/
def sliceFrom : ℕ → Text → Option Text
  | 0, t => some t
  | _ + 1, [] => none
  | n + 1, c :: t => if c.utf8Size ≤ n + 1 then sliceFrom (n + 1 - c.utf8Size) t else none

/-- `&t[..n]`. -/
def sliceTo : ℕ → Text → Option Text
  | 0, _ => some []
  | _ + 1, [] => none
  | n + 1, c :: t =>
    if c.utf8Size ≤ n + 1 then (sliceTo (n + 1 - c.utf8Size) t).map (c :: ·) else none

/-- `&t[a..b]`. -/
def slice (a b : ℕ) (t : Text) : Option Text :=
  if a ≤ b then (sliceFrom a t).bind (sliceTo (b - a)) else none

/-- `t.find(c)`. -/
def find (c : Char) : Text → Option ℕ
  | [] => none
  | x :: t => if x = c then some 0 else (find c t).map (x.utf8Size + ·)

theorem byteLength_cons (c : Char) (t : Text) : byteLength (c :: t) = c.utf8Size + byteLength t := rfl

theorem byteLength_append (t t' : Text) : byteLength (t ++ t') = byteLength t + byteLength t' := by
  rw [byteLength, List.map_append, List.sum_append]
  rfl

theorem sliceFrom_append (t r : Text) : sliceFrom (byteLength t) (t ++ r) = some r := by
  induction t with
  | nil =>
    rw [byteLength, List.map_nil, List.sum_nil, List.nil_append, sliceFrom]
  | cons c t ih =>
    have hpos := c.utf8Size_pos
    obtain ⟨n, hn⟩ : ∃ n, byteLength (c :: t) = n + 1 :=
      ⟨byteLength (c :: t) - 1, by rw [byteLength_cons]; omega⟩
    rw [hn, List.cons_append, sliceFrom, ← hn, byteLength_cons, if_pos (Nat.le_add_right _ _),
      Nat.add_sub_cancel_left]
    exact ih

theorem sliceTo_append (t r : Text) : sliceTo (byteLength t) (t ++ r) = some t := by
  induction t with
  | nil =>
    rw [byteLength, List.map_nil, List.sum_nil, sliceTo]
  | cons c t ih =>
    have hpos := c.utf8Size_pos
    obtain ⟨n, hn⟩ : ∃ n, byteLength (c :: t) = n + 1 :=
      ⟨byteLength (c :: t) - 1, by rw [byteLength_cons]; omega⟩
    rw [hn, List.cons_append, sliceTo, ← hn, byteLength_cons, if_pos (Nat.le_add_right _ _),
      Nat.add_sub_cancel_left, ih]
    rfl

theorem slice_append (t u r : Text) :
    slice (byteLength t) (byteLength t + byteLength u) (t ++ u ++ r) = some u := by
  rw [slice, if_pos (Nat.le_add_right _ _), List.append_assoc, sliceFrom_append, Option.bind_some,
    Nat.add_sub_cancel_left, sliceTo_append]

/-- The first `n` bytes are whole characters. -/
def Boundary (n : ℕ) (t : Text) : Prop := ∃ pre post, t = pre ++ post ∧ byteLength pre = n

theorem isSome_sliceTo {n : ℕ} {t : Text} : (sliceTo n t).isSome = true ↔ Boundary n t := by
  constructor
  · intro h
    induction t generalizing n with
    | nil =>
      cases n with
      | zero => exact ⟨[], [], rfl, rfl⟩
      | succ n => cases h
    | cons c t ih =>
      cases n with
      | zero => exact ⟨[], c :: t, rfl, rfl⟩
      | succ n =>
        rw [sliceTo] at h
        split at h
        · rename_i hle
          rw [Option.isSome_map] at h
          obtain ⟨pre, post, rfl, hlen⟩ := ih h
          refine ⟨c :: pre, post, rfl, ?_⟩
          rw [byteLength_cons, hlen]
          omega
        · cases h
  · rintro ⟨pre, post, rfl, rfl⟩
    rw [sliceTo_append]
    rfl

theorem find_append {c : Char} {t : Text} (h : c ∉ t) (r : Text) :
    find c (t ++ c :: r) = some (byteLength t) := by
  induction t with
  | nil => exact if_pos rfl
  | cons x t ih =>
    rw [List.mem_cons, not_or] at h
    rw [List.cons_append, find, if_neg (Ne.symm h.1), ih h.2]
    rfl

theorem find_eq_none {c : Char} {t : Text} (h : c ∉ t) : find c t = none := by
  induction t with
  | nil => rfl
  | cons x t ih =>
    rw [List.mem_cons, not_or] at h
    rw [find, if_neg (Ne.symm h.1), ih h.2]
    rfl

/-- A text splits at the first `c`. -/
theorem exists_first {c : Char} {t : Text} (h : c ∈ t) : ∃ pre post, t = pre ++ c :: post ∧ c ∉ pre := by
  induction t with
  | nil => cases h
  | cons x t ih =>
    by_cases hx : x = c
    · exact ⟨[], t, by rw [hx]; rfl, List.not_mem_nil⟩
    · obtain ⟨pre, post, rfl, hno⟩ := ih ((List.mem_cons.1 h).resolve_left (Ne.symm hx))
      exact ⟨x :: pre, post, rfl, by simp [Ne.symm hx, hno]⟩

/-- There is one way to split a text at the first `c`. -/
theorem first_unique {c : Char} {pre pre' post post' : Text} (h : pre ++ c :: post = pre' ++ c :: post')
    (hno : c ∉ pre) (hno' : c ∉ pre') : pre = pre' ∧ post = post' := by
  induction pre generalizing pre' with
  | nil =>
    cases pre' with
    | nil => exact ⟨rfl, (List.cons.inj h).2⟩
    | cons x pre' => exact absurd ((List.cons.inj h).1 ▸ List.mem_cons_self) hno'
  | cons x pre ih =>
    cases pre' with
    | nil => exact absurd ((List.cons.inj h).1 ▸ List.mem_cons_self) hno
    | cons y pre' =>
      obtain ⟨rfl, htail⟩ := List.cons.inj h
      obtain ⟨rfl, rfl⟩ := ih htail (fun hm => hno (List.mem_cons_of_mem _ hm))
        fun hm => hno' (List.mem_cons_of_mem _ hm)
      exact ⟨rfl, rfl⟩

/-! ## Blanks -/

/-- The characters of the property `White_Space`. -/
def isWhitespace (c : Char) : Bool :=
  let v := c.val
  (0x09 ≤ v && v ≤ 0x0D) || v = 0x20 || v = 0x85 || v = 0xA0 || v = 0x1680 ||
    (0x2000 ≤ v && v ≤ 0x200A) || v = 0x2028 || v = 0x2029 || v = 0x202F || v = 0x205F || v = 0x3000

/-- `t.trim()`. -/
def trim (t : Text) : Text := (t.dropWhile isWhitespace).rdropWhile isWhitespace

def Blank (t : Text) : Prop := ∀ c ∈ t, isWhitespace c = true

instance : DecidablePred Blank := fun t => List.decidableBAll (fun c => isWhitespace c = true) t

/-- The text does not begin with a blank. -/
def SolidStart (t : Text) : Prop := ∀ c, t.head? = some c → isWhitespace c = false

/-- The text does not end with a blank. -/
def SolidEnd (t : Text) : Prop := ∀ c, t.getLast? = some c → isWhitespace c = false

theorem Blank.append {a b : Text} (ha : Blank a) (hb : Blank b) : Blank (a ++ b) := fun c hc =>
  (List.mem_append.1 hc).elim (ha c) (hb c)

theorem blank_nil : Blank [] := fun _ h => absurd h List.not_mem_nil

theorem rdropWhile_append_blank {b : Text} (hb : Blank b) (t : Text) :
    (t ++ b).rdropWhile isWhitespace = t.rdropWhile isWhitespace := by
  rw [List.rdropWhile, List.reverse_append, List.dropWhile_append_of_pos]
  · rfl
  · exact fun c hc => hb c (List.mem_reverse.1 hc)

theorem trim_of_solid {t : Text} (hs : SolidStart t) (he : SolidEnd t) : trim t = t := by
  have hstart : t.dropWhile isWhitespace = t := by
    cases t with
    | nil => rfl
    | cons c t => exact List.dropWhile_cons_of_neg (by simp [hs c rfl])
  rw [trim, hstart, List.rdropWhile_eq_self_iff]
  intro hne
  simp [he _ (List.getLast?_eq_some_getLast hne)]

theorem trim_surround {a b : Text} (ha : Blank a) (hb : Blank b) (t : Text) :
    trim (a ++ t ++ b) = trim t := by
  rw [trim, List.append_assoc, List.dropWhile_append_of_pos ha, List.dropWhile_append]
  split
  · rename_i h
    -- nothing but blanks
    have hnil : t.dropWhile isWhitespace = [] := List.isEmpty_iff.1 h
    rw [trim, hnil, List.dropWhile_eq_nil_iff.2 hb]
  · exact rdropWhile_append_blank hb _

theorem trim_eq {a t b : Text} (ha : Blank a) (hb : Blank b) (hs : SolidStart t) (he : SolidEnd t) :
    trim (a ++ t ++ b) = t := (trim_surround ha hb t).trans (trim_of_solid hs he)

theorem solidStart_trim (t : Text) : SolidStart (trim t) := by
  intro c hc
  have hpre : trim t <+: t.dropWhile isWhitespace := List.rdropWhile_prefix _ _
  obtain ⟨cs, hcs⟩ := List.head?_eq_some_iff.1 hc
  rw [hcs] at hpre
  obtain ⟨r, hr⟩ := hpre
  have hlen : 0 < (t.dropWhile isWhitespace).length := by
    rw [← hr]
    exact Nat.succ_pos _
  have := List.dropWhile_get_zero_not _ t hlen
  simpa [← hr] using this

theorem solidEnd_trim (t : Text) : SolidEnd (trim t) := by
  intro c hc
  have hne : trim t ≠ [] := by
    rintro h
    rw [h] at hc
    cases hc
  have := List.rdropWhile_last_not isWhitespace (t.dropWhile isWhitespace) hne
  rw [List.getLast?_eq_some_getLast hne] at hc
  obtain rfl := Option.some.inj hc
  exact Bool.eq_false_iff.2 this

/-- What trimming takes away. -/
theorem exists_trim (t : Text) : ∃ a b, Blank a ∧ Blank b ∧ t = a ++ trim t ++ b := by
  refine ⟨t.takeWhile isWhitespace, (t.dropWhile isWhitespace).rtakeWhile isWhitespace,
    fun c hc => List.mem_takeWhile_imp hc, fun c hc => List.mem_rtakeWhile_imp hc, ?_⟩
  rw [trim, List.append_assoc, List.rdropWhile_append_rtakeWhile, List.takeWhile_append_dropWhile]

theorem length_trim_le (t : Text) : (trim t).length ≤ t.length :=
  (List.rdropWhile_prefix _ _).length_le.trans (List.dropWhile_suffix _).length_le

theorem trim_trim (t : Text) : trim (trim t) = trim t :=
  trim_of_solid (solidStart_trim t) (solidEnd_trim t)

theorem trim_eq_nil_iff {t : Text} : trim t = [] ↔ Blank t := by
  constructor
  · intro h
    obtain ⟨a, b, ha, hb, ht⟩ := exists_trim t
    rw [h, List.append_nil] at ht
    rw [ht]
    exact ha.append hb
  · intro h
    have := trim_eq h blank_nil (t := []) (fun c hc => nomatch hc) fun c hc => nomatch hc
    simpa using this

theorem solidEnd_concat {c : Char} (h : isWhitespace c = false) (t : Text) : SolidEnd (t ++ [c]) := by
  intro c' hc
  rw [List.getLast?_concat] at hc
  rwa [← Option.some.inj hc]

theorem SolidEnd.of_append {a t : Text} (h : SolidEnd (a ++ t)) : SolidEnd t := by
  intro c hc
  refine h c ?_
  rw [List.getLast?_append, hc]
  rfl

theorem SolidEnd.of_cons {c : Char} {t : Text} (h : SolidEnd (c :: t)) : SolidEnd t :=
  SolidEnd.of_append (a := [c]) h

theorem SolidEnd.append_left {t : Text} (h : SolidEnd t) (hne : t ≠ []) (a : Text) : SolidEnd (a ++ t) := by
  intro c hc
  rw [List.getLast?_append_of_ne_nil _ hne] at hc
  exact h c hc

theorem SolidEnd.append {a t : Text} (ha : SolidEnd a) (ht : SolidEnd t) : SolidEnd (a ++ t) := by
  cases t using List.reverseRecOn with
  | nil => rwa [List.append_nil]
  | append_singleton t c => exact ht.append_left (List.concat_ne_nil c t) a

theorem SolidStart.of_append {t b : Text} (h : SolidStart (t ++ b)) : SolidStart t := by
  intro c hc
  refine h c ?_
  rw [List.head?_append, hc]
  rfl

/-- Where the text ends solid, trimming takes away what is in front only. -/
theorem exists_trim_of_solidEnd {t : Text} (he : SolidEnd t) : ∃ a, Blank a ∧ t = a ++ trim t := by
  obtain ⟨a, b, ha, hb, ht⟩ := exists_trim t
  cases b using List.reverseRecOn with
  | nil => exact ⟨a, ha, by rwa [List.append_nil] at ht⟩
  | append_singleton b c =>
    have hlast : t.getLast? = some c := by
      rw [ht, ← List.append_assoc, List.getLast?_concat]
    have hsolid := he c hlast
    rw [hb c (List.mem_append_right _ List.mem_cons_self)] at hsolid
    cases hsolid

/-- A text and the blanks at its end. -/
theorem exists_solidEnd (t : Text) : ∃ front b, Blank b ∧ t = front ++ b ∧ SolidEnd front ∧
    trim front = trim t := by
  obtain ⟨a, b, ha, hb, he⟩ := exists_trim t
  by_cases hnil : trim t = []
  · refine ⟨[], t, trim_eq_nil_iff.1 hnil, rfl, ?_, hnil.symm⟩
    intro c hc
    cases hc
  · refine ⟨a ++ trim t, b, hb, he, (solidEnd_trim t).append_left hnil a, ?_⟩
    have hsur := trim_surround ha blank_nil (trim t)
    rw [List.append_nil, trim_trim] at hsur
    exact hsur

theorem trim_of_blank_front {a t : Text} (ha : Blank a) (hs : SolidStart t) (he : SolidEnd t) :
    trim (a ++ t) = t := by
  have := trim_eq ha blank_nil hs he
  rwa [List.append_nil] at this

/-! ## Prefixes and suffixes -/

/-- `t.strip_prefix(p)`. -/
def stripPrefix (p t : Text) : Option Text := if p.isPrefixOf t then some (t.drop p.length) else none

/-- `t.strip_suffix(p)`. -/
def stripSuffix (p t : Text) : Option Text :=
  if p.isSuffixOf t then some (t.take (t.length - p.length)) else none

theorem stripPrefix_eq_some {p t r : Text} : stripPrefix p t = some r ↔ t = p ++ r := by
  unfold stripPrefix
  constructor
  · intro h
    split at h
    · rename_i hp
      obtain ⟨s, rfl⟩ := List.isPrefixOf_iff_prefix.1 hp
      rw [List.drop_left] at h
      rw [Option.some.inj h]
    · cases h
  · rintro rfl
    rw [if_pos (List.isPrefixOf_iff_prefix.2 (List.prefix_append p r)), List.drop_left]

theorem stripPrefix_eq_none {p t : Text} : stripPrefix p t = none ↔ ¬ p <+: t := by
  unfold stripPrefix
  rw [← List.isPrefixOf_iff_prefix]
  split <;> simp_all

theorem stripSuffix_eq_some {p t r : Text} : stripSuffix p t = some r ↔ t = r ++ p := by
  unfold stripSuffix
  constructor
  · intro h
    split at h
    · rename_i hp
      obtain ⟨s, rfl⟩ := List.isSuffixOf_iff_suffix.1 hp
      rw [List.length_append, Nat.add_sub_cancel, List.take_left] at h
      rw [Option.some.inj h]
    · cases h
  · rintro rfl
    rw [if_pos (List.isSuffixOf_iff_suffix.2 (List.suffix_append r p)), List.length_append,
      Nat.add_sub_cancel, List.take_left]

theorem stripSuffix_eq_none {p t : Text} : stripSuffix p t = none ↔ ¬ p <:+ t := by
  unfold stripSuffix
  rw [← List.isSuffixOf_iff_suffix]
  split <;> simp_all

/-- `t.split_once(c)`. -/
def splitOnce (c : Char) : Text → Option (Text × Text)
  | [] => none
  | x :: t => if x = c then some ([], t) else (splitOnce c t).map fun p => (x :: p.1, p.2)

theorem splitOnce_append {c : Char} {t : Text} (h : c ∉ t) (r : Text) :
    splitOnce c (t ++ c :: r) = some (t, r) := by
  induction t with
  | nil => exact if_pos rfl
  | cons x t ih =>
    rw [List.mem_cons, not_or] at h
    rw [List.cons_append, splitOnce, if_neg (Ne.symm h.1), ih h.2]
    rfl

theorem splitOnce_eq_none {c : Char} {t : Text} (h : c ∉ t) : splitOnce c t = none := by
  induction t with
  | nil => rfl
  | cons x t ih =>
    rw [List.mem_cons, not_or] at h
    rw [splitOnce, if_neg (Ne.symm h.1), ih h.2]
    rfl

/-! ## Lines -/

/-- A line ending may be `\r\n`. -/
def stripReturn (line : Text) : Text := (stripSuffix ['\r'] line).getD line

/-- `t.lines()`: the last line is one only if there is something in it. -/
def lines (t : Text) : List Text :=
  let parts := t.splitOn '\n'
  parts.dropLast.map stripReturn ++ parts.getLast?.toList.filter (· ≠ [])

theorem stripReturn_of_solidEnd {line : Text} (h : SolidEnd line) : stripReturn line = line := by
  cases hstrip : stripSuffix ['\r'] line with
  | none => rw [stripReturn, hstrip, Option.getD_none]
  | some r =>
    have hlast : line.getLast? = some '\r' := by simp [stripSuffix_eq_some.1 hstrip]
    exact absurd (h _ hlast) (by decide)

theorem lines_append {line : Text} (hline : '\n' ∉ line) (hsolid : SolidEnd line) (t : Text) :
    lines (line ++ '\n' :: t) = line :: lines t := by
  have hsplit : (line ++ '\n' :: t).splitOn '\n' = line :: t.splitOn '\n' := by
    rw [List.splitOn_append_cons_self, List.splitOn_eq_singleton hline]
    rfl
  obtain ⟨first, rest, hparts⟩ := List.exists_cons_of_ne_nil (List.splitOn_ne_nil '\n' t)
  simp [lines, hsplit, hparts, stripReturn_of_solidEnd hsolid]

/-- Lines as they are written, each with its end. -/
def ofLines (ls : List Text) : Text := ls.flatMap (· ++ ['\n'])

theorem lines_ofLines {ls : List Text} (h : ∀ line ∈ ls, '\n' ∉ line ∧ SolidEnd line) :
    lines (ofLines ls) = ls := by
  induction ls with
  | nil => rfl
  | cons line ls ih =>
    obtain ⟨hline, hsolid⟩ := h line (by simp)
    have htext : ofLines (line :: ls) = line ++ '\n' :: ofLines ls := by simp [ofLines]
    rw [htext, lines_append hline hsolid, ih fun l hl => h l (by simp [hl])]

/-! ## Numbers -/

/-- `t.parse::<u64>()`, which takes a sign. -/
def parseU64 (t : Text) : Option ℕ :=
  let digits := (stripPrefix ['+'] t).getD t
  if digits = [] ∨ ¬ digits.all Char.isDigit then none
  else
    let n := Nat.ofDigitChars 10 digits 0
    if n < 2 ^ 64 then some n else none

def stripSign : Text → Bool × Text
  | '-' :: digits => (true, digits)
  | '+' :: digits => (false, digits)
  | digits => (false, digits)

/-- `t.parse::<i32>()`. -/
def parseI32 (t : Text) : Option ℤ :=
  let digits := (stripSign t).2
  if digits = [] ∨ ¬ digits.all Char.isDigit then none
  else
    let n := Nat.ofDigitChars 10 digits 0
    if (stripSign t).1 then if n ≤ 2 ^ 31 then some (-n) else none
    else if n < 2 ^ 31 then some n else none

theorem parseI32_lt {t : Text} {n : ℤ} (h : parseI32 t = some n) : n < 2 ^ 31 := by
  simp only [parseI32] at h
  split_ifs at h <;> obtain rfl := Option.some.inj h <;> omega

theorem isDigit_of_mem_toDigits {n : ℕ} {c : Char} (h : c ∈ Nat.toDigits 10 n) :
    c.isDigit = true := Nat.isDigit_of_mem_toDigits (by decide) (by decide) h

theorem isWhitespace_of_isDigit {c : Char} (h : c.isDigit = true) : isWhitespace c = false := by
  obtain ⟨hlow, hhigh⟩ : 48 ≤ c.val.toNat ∧ c.val.toNat ≤ 57 := by
    simpa [Char.isDigit, UInt32.le_iff_toNat_le] using h
  have hval : c.toNat = c.val.toNat := rfl
  simp [isWhitespace, UInt32.le_iff_toNat_le, ← UInt32.toNat_inj]
  omega

theorem stripSign_toDigits (n : ℕ) : stripSign (Nat.toDigits 10 n) = (false, Nat.toDigits 10 n) := by
  have hdigit : ∀ c ∈ Nat.toDigits 10 n, c.isDigit = true := fun c => isDigit_of_mem_toDigits
  unfold stripSign
  split
  · rename_i heq
    exact absurd (hdigit '-' (by simp [heq])) (by decide)
  · rename_i heq
    exact absurd (hdigit '+' (by simp [heq])) (by decide)
  · rfl

theorem parseI32_toDigits {n : ℕ} (h : n < 2 ^ 31) : parseI32 (Nat.toDigits 10 n) = some (n : ℤ) := by
  have hdigits : (Nat.toDigits 10 n).all Char.isDigit = true := by
    rw [List.all_eq_true]
    exact fun c => isDigit_of_mem_toDigits
  have hne : Nat.toDigits 10 n ≠ [] := Nat.toDigits_ne_nil
  have hlt : n < 2147483648 := h
  simp [parseI32, stripSign_toDigits, hne, hdigits, Nat.ofDigitChars_ten_toDigits, hlt]

end Text
end TgCryptFs.Library

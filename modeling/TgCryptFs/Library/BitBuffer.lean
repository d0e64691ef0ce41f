import Mathlib.Data.List.GetD
import Mathlib.Data.Nat.Basic

set_option autoImplicit false

/-!
# Bits of a byte buffer

The bits of a buffer are numbered from the most significant bit of its first byte,
and the bits of a number from its least significant one. A buffer is determined by
its length and its bits.
-/
namespace TgCryptFs.Library.BitBuffer

/-- `(byte >> i) & 1 == 1`. -/
def testBit (byte : UInt8) (i : ℕ) : Bool := (byte >>> UInt8.ofNat i) &&& 1 == 1

/-- `byte | (1 << i)`, or `byte & !(1 << i)`. -/
def putBit (byte : UInt8) (i : ℕ) (b : Bool) : UInt8 :=
  if b then byte ||| (1 <<< UInt8.ofNat i) else byte &&& ~~~(1 <<< UInt8.ofNat i)

theorem testBit_eq (byte : UInt8) {i : ℕ} (hi : i < 8) :
    testBit byte i = byte.toNat.testBit i := by
  have hmod : i % 2 ^ 8 % 8 = i := by omega
  have hone : (byte >>> UInt8.ofNat i &&& 1 = 1) ↔ (byte.toNat >>> i) % 2 = 1 := by
    rw [← UInt8.toNat_inj, UInt8.toNat_and, UInt8.toNat_shiftRight, UInt8.toNat_ofNat', hmod]
    exact (Nat.and_one_is_mod (byte.toNat >>> i)).congr_left
  rw [Bool.eq_iff_iff, testBit, beq_iff_eq, hone, Nat.testBit_eq_decide_div_mod_eq,
    Nat.shiftRight_eq_div_pow, decide_eq_true_iff]

theorem testBit_one_shiftLeft {i j : ℕ} (hi : i < 8) (hj : j < 8) :
    ((1 : UInt8) <<< UInt8.ofNat i).toNat.testBit j = decide (j = i) := by
  have hmod : i % 2 ^ 8 % 8 = i := by omega
  rw [UInt8.toNat_shiftLeft, UInt8.toNat_ofNat', hmod, Nat.testBit_mod_two_pow,
    UInt8.toNat_one, Nat.one_shiftLeft, Nat.testBit_two_pow]
  simp [hj, eq_comm]

theorem testBit_not (byte : UInt8) {j : ℕ} (hj : j < 8) :
    (~~~byte).toNat.testBit j = !byte.toNat.testBit j := by
  change (~~~byte.toBitVec).getLsbD j = !byte.toBitVec.getLsbD j
  simp [hj]

theorem testBit_putBit (byte : UInt8) {i j : ℕ} (hi : i < 8) (hj : j < 8) (b : Bool) :
    (putBit byte i b).toNat.testBit j = if j = i then b else byte.toNat.testBit j := by
  cases b with
  | true =>
    rw [putBit, if_pos rfl, UInt8.toNat_or, Nat.testBit_or, testBit_one_shiftLeft hi hj]
    by_cases h : j = i <;> simp [h]
  | false =>
    rw [putBit, if_neg (by simp), UInt8.toNat_and, Nat.testBit_and, testBit_not _ hj,
      testBit_one_shiftLeft hi hj]
    by_cases h : j = i <;> simp [h]

theorem byte_ext {a b : UInt8} (h : ∀ j < 8, a.toNat.testBit j = b.toNat.testBit j) : a = b := by
  refine UInt8.toNat_inj.1 (Nat.eq_of_testBit_eq fun j => ?_)
  by_cases hj : j < 8
  · exact h j hj
  · have hpow : 2 ^ 8 ≤ 2 ^ j := Nat.pow_le_pow_right (by omega) (by omega)
    rw [Nat.testBit_lt_two_pow (lt_of_lt_of_le a.toNat_lt hpow),
      Nat.testBit_lt_two_pow (lt_of_lt_of_le b.toNat_lt hpow)]

/-- Bit `k` of a buffer; past its end there are zeros. -/
def bit (data : List UInt8) (k : ℕ) : Bool := (data.getD (k / 8) 0).toNat.testBit (7 - k % 8)

theorem bit_of_le {data : List UInt8} {k : ℕ} (h : data.length ≤ k / 8) : bit data k = false := by
  rw [bit, List.getD_eq_default _ _ h]
  simp

theorem bit_take {data : List UInt8} {n k : ℕ} (h : k / 8 < n) : bit (data.take n) k = bit data k := by
  simp only [bit, List.getD_eq_getElem?_getD, List.getElem?_take, if_pos h]

theorem bit_append_left {a b : List UInt8} {k : ℕ} (h : k / 8 < a.length) :
    bit (a ++ b) k = bit a k := by
  simp only [bit, List.getD_eq_getElem?_getD, List.getElem?_append_left h]

theorem bit_append_zero {a : List UInt8} {k : ℕ} (h : a.length ≤ k / 8) :
    bit (a ++ [0]) k = false := by
  by_cases hk : (a ++ [0]).length ≤ k / 8
  · exact bit_of_le hk
  · have hlast : k / 8 = a.length := by
      rw [List.length_append, List.length_singleton] at hk
      omega
    rw [bit, hlast, List.getD_eq_getElem?_getD, List.getElem?_append_right (Nat.le_refl _)]
    simp

theorem ext_bit {a b : List UInt8} (hlen : a.length = b.length)
    (h : ∀ k < 8 * a.length, bit a k = bit b k) : a = b := by
  refine List.ext_getElem hlen fun i ha hb => byte_ext fun j hj => ?_
  have hk := h (8 * i + (7 - j)) (by omega)
  have hdiv : (8 * i + (7 - j)) / 8 = i := by omega
  have hmod : 7 - (8 * i + (7 - j)) % 8 = j := by omega
  simpa only [bit, hdiv, hmod, List.getD_eq_getElem _ _ ha, List.getD_eq_getElem _ _ hb] using hk

/-- One bit written; nothing happens past the end of the buffer. -/
def writeBit (data : List UInt8) (k : ℕ) (b : Bool) : List UInt8 :=
  data.modify (k / 8) fun byte => putBit byte (7 - k % 8) b

@[simp] theorem length_writeBit (data : List UInt8) (k : ℕ) (b : Bool) :
    (writeBit data k b).length = data.length := by
  rw [writeBit, List.length_modify]

theorem bit_writeBit {data : List UInt8} {k : ℕ} (hk : k / 8 < data.length) (b : Bool) (j : ℕ) :
    bit (writeBit data k b) j = if j = k then b else bit data j := by
  unfold bit writeBit
  by_cases hbyte : j / 8 = k / 8
  · have hj : j / 8 < data.length := hbyte ▸ hk
    have heq : (7 - j % 8 = 7 - k % 8) ↔ j = k := by omega
    rw [List.getD_eq_getElem _ _ (by rwa [List.length_modify]), List.getD_eq_getElem _ _ hj,
      List.getElem_modify, if_pos hbyte.symm,
      testBit_putBit _ (by omega) (by omega)]
    simp only [heq]
  · have hne : ¬ j = k := fun e => hbyte (e ▸ rfl)
    have hne' : ¬ k / 8 = j / 8 := fun e => hbyte e.symm
    rw [if_neg hne, List.getD_eq_getElem?_getD, List.getD_eq_getElem?_getD, List.getElem?_modify]
    simp only [if_neg hne', id_map']

theorem bit_foldl_writeBit (f : ℕ → Bool) (offset count : ℕ) (data : List UInt8)
    (h : offset + count ≤ 8 * data.length) :
    ((List.range count).foldl (fun d i => writeBit d (offset + i) (f i)) data).length =
        data.length ∧
      ∀ j, bit ((List.range count).foldl (fun d i => writeBit d (offset + i) (f i)) data) j =
        if offset ≤ j ∧ j < offset + count then f (j - offset) else bit data j := by
  induction count with
  | zero =>
    refine ⟨rfl, fun j => ?_⟩
    rw [if_neg (by omega)]
    rfl
  | succ n ih =>
    obtain ⟨hlen, hbit⟩ := ih (by omega)
    rw [List.range_succ, List.foldl_append, List.foldl_cons, List.foldl_nil]
    refine ⟨by rw [length_writeBit, hlen], fun j => ?_⟩
    rw [bit_writeBit (by omega), hbit]
    by_cases hj : j = offset + n
    · subst hj
      rw [if_pos rfl, if_pos (by omega), Nat.add_sub_cancel_left]
    · have hiff : (offset ≤ j ∧ j < offset + n) ↔ (offset ≤ j ∧ j < offset + (n + 1)) := by omega
      rw [if_neg hj]
      simp only [hiff]

/-- `(value >> i) & 1 == 1` of a 16-bit number. -/
theorem testBit16_eq (value : UInt16) {i : ℕ} (hi : i < 16) :
    ((value >>> UInt16.ofNat i) &&& 1 == 1) = value.toNat.testBit i := by
  have hmod : i % 2 ^ 16 % 16 = i := by omega
  have hone : (value >>> UInt16.ofNat i &&& 1 = 1) ↔ (value.toNat >>> i) % 2 = 1 := by
    rw [← UInt16.toNat_inj, UInt16.toNat_and, UInt16.toNat_shiftRight, UInt16.toNat_ofNat', hmod]
    exact (Nat.and_one_is_mod (value.toNat >>> i)).congr_left
  rw [Bool.eq_iff_iff, beq_iff_eq, hone, Nat.testBit_eq_decide_div_mod_eq,
    Nat.shiftRight_eq_div_pow, decide_eq_true_iff]

theorem testBit_one_shiftLeft16 {i j : ℕ} (hi : i < 16) :
    ((1 : UInt16) <<< UInt16.ofNat i).toNat.testBit j = decide (j = i) := by
  have hmod : i % 2 ^ 16 % 16 = i := by omega
  rw [UInt16.toNat_shiftLeft, UInt16.toNat_ofNat', hmod, Nat.testBit_mod_two_pow,
    UInt16.toNat_one, Nat.one_shiftLeft, Nat.testBit_two_pow]
  by_cases h : j = i
  · subst h
    simp [hi]
  · rw [decide_eq_false h, decide_eq_false (show ¬ i = j from fun e => h e.symm), Bool.and_false]

/-- A number put together from its highest bit down. -/
theorem testBit_foldl_or (f : ℕ → Bool) {width count : ℕ} (hw : width ≤ 16) (h : count ≤ width)
    (j : ℕ) :
    ((List.range count).foldl (fun (v : UInt16) i =>
        if f i then v ||| (1 <<< UInt16.ofNat (width - 1 - i)) else v) 0).toNat.testBit j =
      (decide (width - count ≤ j ∧ j < width) && f (width - 1 - j)) := by
  induction count with
  | zero =>
    have hnone : ¬ (width - 0 ≤ j ∧ j < width) := by omega
    rw [decide_eq_false hnone, Bool.false_and]
    exact Nat.zero_testBit j
  | succ n ih =>
    rw [List.range_succ, List.foldl_append, List.foldl_cons, List.foldl_nil]
    have hprev := ih (by omega)
    by_cases hj : j = width - 1 - n
    · have hn : width - 1 - j = n := by omega
      have hin : width - (n + 1) ≤ j ∧ j < width := by omega
      have hout : ¬ (width - n ≤ j ∧ j < width) := by omega
      rw [hn, decide_eq_true hin, Bool.true_and]
      rw [decide_eq_false hout, Bool.false_and] at hprev
      cases hf : f n with
      | true =>
        rw [if_pos rfl, UInt16.toNat_or, Nat.testBit_or, testBit_one_shiftLeft16 (by omega),
          decide_eq_true hj, Bool.or_true]
      | false => rw [if_neg (by simp), hprev]
    · have hiff : (width - n ≤ j ∧ j < width) ↔ (width - (n + 1) ≤ j ∧ j < width) := by omega
      rw [decide_eq_decide.2 hiff] at hprev
      rw [← hprev]
      split
      · rw [UInt16.toNat_or, Nat.testBit_or, testBit_one_shiftLeft16 (by omega),
          decide_eq_false hj, Bool.or_false]
      · rfl

end TgCryptFs.Library.BitBuffer

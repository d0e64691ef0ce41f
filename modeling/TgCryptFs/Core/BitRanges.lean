import TgCryptFs.Core.Sentence

set_option autoImplicit false

/-!
# Ranges of bits

`set_bits` and `extract_bits` go over the same bits, each in a loop of its own. On buffers they are
to each other what a field is to its update.
-/
namespace TgCryptFs.Sentence
open Library

/-- Bit `j` is one of `count` bits from `offset` on. -/
def InRange (offset count j : ℕ) : Prop := offset ≤ j ∧ j < offset + count

section

variable {data : Bytes} {offset count : ℕ}

theorem length_setBits (hc : count ≤ 16) (h : offset + count ≤ 8 * data.length) (value : UInt16) :
    (setBits data offset count value).length = data.length :=
  (bit_setBits data offset count value hc h).1

theorem bit_setBits_inside (hc : count ≤ 16) (h : offset + count ≤ 8 * data.length) (value : UInt16) {j : ℕ}
    (hj : InRange offset count j) :
    BitBuffer.bit (setBits data offset count value) j = value.toNat.testBit (count - 1 - (j - offset)) :=
  ((bit_setBits data offset count value hc h).2 j).trans (if_pos hj)

theorem bit_setBits_outside (hc : count ≤ 16) (h : offset + count ≤ 8 * data.length) (value : UInt16) {j : ℕ}
    (hj : ¬ InRange offset count j) :
    BitBuffer.bit (setBits data offset count value) j = BitBuffer.bit data j :=
  ((bit_setBits data offset count value hc h).2 j).trans (if_neg hj)

theorem extractBits_setBits (hc : count ≤ 16) (h : offset + count ≤ 8 * data.length) {value : UInt16}
    (hvalue : value.toNat < 2 ^ count) :
    extractBits (setBits data offset count value) offset count = value := by
  refine UInt16.toNat_inj.1 (Nat.eq_of_testBit_eq fun j => ?_)
  rw [testBit_extractBits _ _ hc]
  by_cases hj : j < count
  · have hpos : count - 1 - (offset + (count - 1 - j) - offset) = j := by omega
    have hin : InRange offset count (offset + (count - 1 - j)) := ⟨by omega, by omega⟩
    rw [decide_eq_true hj, Bool.true_and, bit_setBits_inside hc h value hin, hpos]
  · -- above the range the value has no bits
    have hpow : 2 ^ count ≤ 2 ^ j := Nat.pow_le_pow_right (by omega) (Nat.not_lt.1 hj)
    rw [decide_eq_false hj, Bool.false_and, Nat.testBit_lt_two_pow (Nat.lt_of_lt_of_le hvalue hpow)]

theorem setBits_extractBits (hc : count ≤ 16) (h : offset + count ≤ 8 * data.length) :
    setBits data offset count (extractBits data offset count) = data := by
  refine BitBuffer.ext_bit (length_setBits hc h _) fun j _ => ?_
  by_cases hj : InRange offset count j
  · have hlt : count - 1 - (j - offset) < count := by
      unfold InRange at hj
      omega
    have hpos : offset + (count - 1 - (count - 1 - (j - offset))) = j := by
      unfold InRange at hj
      omega
    rw [bit_setBits_inside hc h _ hj, testBit_extractBits _ _ hc, decide_eq_true hlt, Bool.true_and, hpos]
  · exact bit_setBits_outside hc h _ hj

theorem setBits_comm (hc : count ≤ 16) (h : offset + count ≤ 8 * data.length) {offset' count' : ℕ}
    (hc' : count' ≤ 16) (h' : offset' + count' ≤ 8 * data.length)
    (hdisjoint : ∀ j, InRange offset count j → ¬ InRange offset' count' j) (value value' : UInt16) :
    setBits (setBits data offset count value) offset' count' value' =
      setBits (setBits data offset' count' value') offset count value := by
  have hlen := length_setBits hc h value
  have hlen' := length_setBits hc' h' value'
  have hset : offset + count ≤ 8 * (setBits data offset' count' value').length := by rwa [hlen']
  have hset' : offset' + count' ≤ 8 * (setBits data offset count value).length := by rwa [hlen]
  refine BitBuffer.ext_bit ?_ fun j _ => ?_
  · rw [length_setBits hc' hset', length_setBits hc hset, hlen, hlen']
  by_cases hj : InRange offset count j
  · rw [bit_setBits_outside hc' hset' _ (hdisjoint j hj), bit_setBits_inside hc h _ hj,
      bit_setBits_inside hc hset _ hj]
  · rw [bit_setBits_outside hc hset _ hj]
    by_cases hj' : InRange offset' count' j
    · rw [bit_setBits_inside hc' hset' _ hj', bit_setBits_inside hc' h' _ hj']
    · rw [bit_setBits_outside hc' hset' _ hj', bit_setBits_outside hc' h' _ hj',
        bit_setBits_outside hc h _ hj]

end

/-- A range holds what was last written to it, and nothing else of the buffer has changed; what is
    read back in changes nothing, and writes to ranges without a common bit commute. -/
theorem bitRange_laws (data : Bytes) (offset count : ℕ) (hc : count ≤ 16)
    (h : offset + count ≤ 8 * data.length) :
    (∀ value : UInt16, value.toNat < 2 ^ count →
      extractBits (setBits data offset count value) offset count = value ∧
      (setBits data offset count value).length = data.length ∧
      ∀ j, ¬ InRange offset count j →
        BitBuffer.bit (setBits data offset count value) j = BitBuffer.bit data j) ∧
    setBits data offset count (extractBits data offset count) = data ∧
    ∀ offset' count', count' ≤ 16 → offset' + count' ≤ 8 * data.length →
      (∀ j, InRange offset count j → ¬ InRange offset' count' j) → ∀ value value' : UInt16,
        setBits (setBits data offset count value) offset' count' value' =
          setBits (setBits data offset' count' value') offset count value := by
  refine ⟨fun value hvalue => ⟨extractBits_setBits hc h hvalue, length_setBits hc h value, fun j hj => ?_⟩,
    setBits_extractBits hc h, fun offset' count' hc' h' hdisjoint value value' => ?_⟩
  · exact bit_setBits_outside hc h value hj
  · exact setBits_comm hc h hc' h' hdisjoint value value'

/-- Twelve bits across a byte boundary. -/
theorem bitRange_laws_sample :
    extractBits (setBits [0xFF, 0x00, 0xFF] 4 12 0xABC) 4 12 = 0xABC ∧
      setBits [0xFF, 0x00, 0xFF] 4 12 (extractBits [0xFF, 0x00, 0xFF] 4 12) = [0xFF, 0x00, 0xFF] :=
  let laws := bitRange_laws [0xFF, 0x00, 0xFF] 4 12 (by decide) (by decide)
  ⟨(laws.1 0xABC (by decide)).1, laws.2.1⟩

end TgCryptFs.Sentence

import Mathlib.Data.Nat.Bitwise
import Mathlib.Data.Nat.ModEq
import TgCryptFs.Core.Cdc

set_option autoImplicit false

/-!
# The window of the rolling fingerprint

Each byte shifts the fingerprint by eight bits, so its low bits forget what is further back. What
the source takes off for the byte that leaves its window of 48 is a multiple of 2^384 and nothing.
-/
namespace TgCryptFs.Cdc
open Library

/-- The fingerprint and one byte, whatever the position of the byte. -/
def absorb (fingerprint : UInt64) (byte : UInt8) : UInt64 := (fingerprint * 256 + byte.toUInt64) ^^^ polynomial

/-- The fingerprint of some bytes alone. -/
def windowFingerprint (window : Bytes) : UInt64 := window.foldl absorb 0

/-- The bytes from position `first` to position `i`. -/
def processed (data : Bytes) (first i : ℕ) : Bytes := (data.take (i + 1)).drop first

/-- The last `k` of them, or all if there are fewer. -/
def recent (k : ℕ) (data : Bytes) (first i : ℕ) : Bytes :=
  (processed data first i).drop ((processed data first i).length - k)

/-- How many bytes the low `b` bits reach back. -/
def reach (b : ℕ) : ℕ := (b + 7) / 8

/-! ## Low bits -/

theorem toNat_absorb (f : UInt64) (byte : UInt8) :
    (absorb f byte).toNat = (f.toNat * 256 + byte.toNat) % 2 ^ 64 ^^^ polynomial.toNat := by
  rw [absorb, UInt64.toNat_xor, UInt64.toNat_add, UInt64.toNat_mul, UInt8.toNat_toUInt64, Nat.mod_add_mod]
  rfl

/-- One byte moves what two fingerprints have in common up by eight bits. -/
theorem absorb_mod {f g : UInt64} {b b' : ℕ} (h : f.toNat % 2 ^ b = g.toNat % 2 ^ b) (hb : b' ≤ b + 8)
    (hb' : b' ≤ 64) (byte : UInt8) : (absorb f byte).toNat % 2 ^ b' = (absorb g byte).toNat % 2 ^ b' := by
  have hshift : ∀ x : UInt64, (x.toNat * 256 + byte.toNat) % 2 ^ 64 % 2 ^ b' =
      (x.toNat % 2 ^ b * 256 + byte.toNat) % 2 ^ b' := by
    intro x
    have hdvd : 2 ^ b' ∣ 2 ^ b * 256 := by
      have hpow : 2 ^ b * 256 = 2 ^ (b + 8) := (pow_add 2 b 8).symm
      rw [hpow]
      exact pow_dvd_pow 2 hb
    rw [Nat.mod_mod_of_dvd _ (pow_dvd_pow 2 hb')]
    refine Nat.ModEq.add_right _ ?_
    have hmul : x.toNat * 256 ≡ x.toNat % 2 ^ b * 256 [MOD 2 ^ b * 256] :=
      (Nat.mod_modEq x.toNat (2 ^ b)).symm.mul_right' 256
    exact hmul.of_dvd hdvd
  rw [toNat_absorb, toNat_absorb, Nat.xor_mod_two_pow, Nat.xor_mod_two_pow, hshift, hshift, h]

theorem foldl_absorb_mod (window : Bytes) {f g : UInt64} {b b' : ℕ} (h : f.toNat % 2 ^ b = g.toNat % 2 ^ b)
    (hb : b' ≤ b + 8 * window.length) (hb' : b' ≤ 64) :
    (window.foldl absorb f).toNat % 2 ^ b' = (window.foldl absorb g).toNat % 2 ^ b' := by
  induction window generalizing f g b with
  | nil =>
    have hle : b' ≤ b := by simpa using hb
    have := congrArg (· % 2 ^ b') h
    simpa only [List.foldl_nil, Nat.mod_mod_of_dvd _ (pow_dvd_pow 2 hle)] using this
  | cons byte window ih =>
    rw [List.length_cons] at hb
    rw [List.foldl_cons, List.foldl_cons]
    by_cases hlong : b + 8 ≤ 64
    · exact ih (absorb_mod h (Nat.le_refl _) hlong byte) (by omega)
    · exact ih (absorb_mod h (Nat.le_of_lt (Nat.not_le.1 hlong)) (Nat.le_refl 64) byte) (by omega)

/-- The low bits of a fingerprint are those of its last bytes. -/
theorem windowFingerprint_drop (bytes : Bytes) {b : ℕ} (hb : b ≤ 64) :
    (windowFingerprint bytes).toNat % 2 ^ b =
      (windowFingerprint (bytes.drop (bytes.length - reach b))).toNat % 2 ^ b := by
  by_cases hlen : reach b ≤ bytes.length
  · have hsplit : bytes.foldl absorb 0 =
        (bytes.drop (bytes.length - reach b)).foldl absorb ((bytes.take (bytes.length - reach b)).foldl absorb 0) := by
      rw [← List.foldl_append, List.take_append_drop]
    have hwindow : (bytes.drop (bytes.length - reach b)).length = reach b := by
      rw [List.length_drop]
      omega
    rw [windowFingerprint, hsplit]
    refine foldl_absorb_mod _ (b := 0) (by simp [Nat.mod_one]) ?_ hb
    rw [hwindow, reach]
    omega
  · have hall : bytes.length - reach b = 0 := by omega
    rw [hall, List.drop_zero]

theorem and_mask_eq_zero_iff {b : ℕ} {mask f g : UInt64} (hmask : mask.toNat < 2 ^ b)
    (h : f.toNat % 2 ^ b = g.toNat % 2 ^ b) : f &&& mask = 0 ↔ g &&& mask = 0 := by
  have hlow : ∀ x : UInt64, (x &&& mask).toNat = x.toNat % 2 ^ b &&& mask.toNat := by
    intro x
    rw [UInt64.toNat_and, ← Nat.mod_eq_of_lt (lt_of_le_of_lt Nat.and_le_right hmask), Nat.and_mod_two_pow,
      Nat.mod_eq_of_lt hmask]
  rw [← UInt64.toNat_inj, ← UInt64.toNat_inj, hlow, hlow, h]

/-! ## The loop -/

/-- What the loop decides on once it has taken position `i` into the fingerprint. -/
def Cuts (mask : UInt64) (config : CdcConfig) (chunkStart i : ℕ) (fingerprint : UInt64) : Prop :=
  fingerprint &&& mask = 0 ∨ config.maxSize ≤ i - chunkStart + 1

/-- The heads of the loop that begins with a chunk at `start`: the start of the current chunk, the
    position to be taken and the fingerprint. -/
inductive Visits (mask : UInt64) (config : CdcConfig) (data : Bytes) (start : ℕ) : ℕ → ℕ → UInt64 → Prop where
  | start : Visits mask config data start start (start + config.minSize) 0
  | cut {chunkStart i : ℕ} {fingerprint : UInt64} (h : Visits mask config data start chunkStart i fingerprint)
      (hi : i < data.length) (hcut : Cuts mask config chunkStart i (roll data i hi fingerprint)) :
      Visits mask config data start (i + 1) (i + 1 + config.minSize) 0
  | next {chunkStart i : ℕ} {fingerprint : UInt64} (h : Visits mask config data start chunkStart i fingerprint)
      (hi : i < data.length) (hcut : ¬ Cuts mask config chunkStart i (roll data i hi fingerprint)) :
      Visits mask config data start chunkStart (i + 1) (roll data i hi fingerprint)

/-- A cut by some bytes and the length of the chunk. -/
def CutsAt (mask : UInt64) (config : CdcConfig) (window : Bytes) (chunkLen : ℕ) : Prop :=
  windowFingerprint window &&& mask = 0 ∨ config.maxSize ≤ chunkLen

instance (mask : UInt64) (config : CdcConfig) (window : Bytes) (chunkLen : ℕ) :
    Decidable (CutsAt mask config window chunkLen) := inferInstanceAs (Decidable (_ ∨ _))

/-- The loop without a fingerprint: each cut is decided anew from the bytes that `b` bits reach. -/
def windowScan (b : ℕ) (mask : UInt64) (config : CdcConfig) (data : Bytes) (chunkStart i : ℕ) : List Chunk :=
  if i < data.length then
    let chunkLen := i - chunkStart + 1
    if CutsAt mask config (recent (reach b) data (chunkStart + config.minSize) i) chunkLen then
      ⟨chunkStart, chunkLen⟩ :: windowScan b mask config data (i + 1) (i + 1 + config.minSize)
    else windowScan b mask config data chunkStart (i + 1)
  else if chunkStart < data.length then [⟨chunkStart, data.length - chunkStart⟩]
  else []
termination_by data.length - i

section

variable {mask : UInt64} {config : CdcConfig} {data : Bytes} {start chunkStart i first : ℕ} {fingerprint : UInt64}

theorem roll_windowFingerprint (hi : i < data.length) (hfirst : first ≤ i) :
    roll data i hi (windowFingerprint ((data.take i).drop first)) = windowFingerprint (processed data first i) := by
  have hlen : first ≤ (data.take i).length := by
    rw [List.length_take]
    omega
  rw [processed, List.take_succ_eq_append_getElem hi, List.drop_append_of_le_length hlen, windowFingerprint,
    windowFingerprint, List.foldl_append, roll_eq]
  rfl

theorem windowFingerprint_reset (data : Bytes) (n : ℕ) : windowFingerprint ((data.take n).drop n) = 0 := by
  rw [List.drop_eq_nil_of_le (by rw [List.length_take]; omega)]
  rfl

theorem Visits.eq_window (h : Visits mask config data start chunkStart i fingerprint) :
    chunkStart + config.minSize ≤ i ∧
      fingerprint = windowFingerprint ((data.take i).drop (chunkStart + config.minSize)) := by
  induction h with
  | start => exact ⟨Nat.le_refl _, (windowFingerprint_reset data _).symm⟩
  | cut => exact ⟨Nat.le_refl _, (windowFingerprint_reset data _).symm⟩
  | next h hi hcut ih =>
    obtain ⟨hle, hfp⟩ := ih
    refine ⟨Nat.le_succ_of_le hle, ?_⟩
    rw [hfp, roll_windowFingerprint hi hle]
    rfl

theorem scan_of_visits (h : Visits mask config data start chunkStart i fingerprint) :
    ∃ before, scan mask config data start (start + config.minSize) 0 =
      before ++ scan mask config data chunkStart i fingerprint := by
  induction h with
  | start => exact ⟨[], rfl⟩
  | @cut chunkStart i fingerprint h hi hcut ih =>
    obtain ⟨before, hbefore⟩ := ih
    refine ⟨before ++ [⟨chunkStart, i - chunkStart + 1⟩], ?_⟩
    rw [hbefore, scan, dif_pos hi]
    dsimp only
    rw [if_pos (show _ ∨ _ from hcut), List.append_assoc]
    rfl
  | @next chunkStart i fingerprint h hi hcut ih =>
    obtain ⟨before, hbefore⟩ := ih
    refine ⟨before, ?_⟩
    rw [hbefore, scan, dif_pos hi]
    dsimp only
    rw [if_neg (show ¬ (_ ∨ _) from hcut)]

theorem roll_mod {b : ℕ} (hb : b ≤ 64) (hi : i < data.length) (hfirst : first ≤ i) :
    (roll data i hi (windowFingerprint ((data.take i).drop first))).toNat % 2 ^ b =
      (windowFingerprint (recent (reach b) data first i)).toNat % 2 ^ b := by
  rw [roll_windowFingerprint hi hfirst]
  exact windowFingerprint_drop _ hb

theorem cuts_iff {b : ℕ} (hb : b ≤ 64) (hmask : mask.toNat < 2 ^ b) (hi : i < data.length) (hfirst : first ≤ i) :
    Cuts mask config chunkStart i (roll data i hi (windowFingerprint ((data.take i).drop first))) ↔
      CutsAt mask config (recent (reach b) data first i) (i - chunkStart + 1) :=
  or_congr_left (and_mask_eq_zero_iff hmask (roll_mod hb hi hfirst))

theorem scan_eq_windowScan {b : ℕ} (hb : b ≤ 64) (hmask : mask.toNat < 2 ^ b)
    (hfirst : chunkStart + config.minSize ≤ i)
    (hfp : fingerprint = windowFingerprint ((data.take i).drop (chunkStart + config.minSize))) :
    scan mask config data chunkStart i fingerprint = windowScan b mask config data chunkStart i := by
  fun_induction scan mask config data chunkStart i fingerprint with
  | case1 chunkStart i fingerprint h fingerprint' chunkLen hcut ih =>
    have hcut' : Cuts mask config chunkStart i (roll data i h fingerprint) := hcut
    rw [hfp, cuts_iff hb hmask h hfirst] at hcut'
    rw [windowScan, if_pos h]
    dsimp only
    rw [if_pos hcut', ih (Nat.le_refl _) (windowFingerprint_reset data _).symm]
  | case2 chunkStart i fingerprint h fingerprint' chunkLen hcut ih =>
    have hcut' : ¬ Cuts mask config chunkStart i (roll data i h fingerprint) := hcut
    rw [hfp, cuts_iff hb hmask h hfirst] at hcut'
    have hnext : fingerprint' = windowFingerprint (processed data (chunkStart + config.minSize) i) := by
      rw [← roll_windowFingerprint h hfirst, ← hfp]
    rw [windowScan, if_pos h]
    dsimp only
    rw [if_neg hcut']
    exact ih (Nat.le_succ_of_le hfirst) hnext
  | case3 chunkStart i fingerprint h hrest => rw [windowScan, if_neg h, if_pos hrest]
  | case4 chunkStart i fingerprint h hrest => rw [windowScan, if_neg h, if_neg hrest]

end

/-- Wherever the loop begins a chunk and whatever comes, the low `b` bits of the fingerprint are those
    of the last bytes that `b` bits reach. So with a mask of `b` bits these bytes and the length of
    the chunk decide a cut, and the chunks are those of a loop without a fingerprint. -/
theorem fingerprint_bounded_window (mask : UInt64) (config : CdcConfig) (data : Bytes) (start : ℕ) {b : ℕ}
    (hb : b ≤ 64) :
    (∀ chunkStart i fingerprint, Visits mask config data start chunkStart i fingerprint →
      (∃ before, scan mask config data start (start + config.minSize) 0 =
        before ++ scan mask config data chunkStart i fingerprint) ∧
      ∀ hi : i < data.length,
        (roll data i hi fingerprint).toNat % 2 ^ b =
          (windowFingerprint (recent (reach b) data (chunkStart + config.minSize) i)).toNat % 2 ^ b ∧
        (mask.toNat < 2 ^ b → (Cuts mask config chunkStart i (roll data i hi fingerprint) ↔
          CutsAt mask config (recent (reach b) data (chunkStart + config.minSize) i) (i - chunkStart + 1)))) ∧
    (mask.toNat < 2 ^ b → scan mask config data start (start + config.minSize) 0 =
      windowScan b mask config data start (start + config.minSize)) := by
  constructor
  · intro chunkStart i fingerprint h
    refine ⟨scan_of_visits h, fun hi => ?_⟩
    obtain ⟨hfirst, rfl⟩ := h.eq_window
    exact ⟨roll_mod hb hi hfirst, fun hmask => cuts_iff hb hmask hi hfirst⟩
  · intro hmask
    exact scan_eq_windowScan hb hmask (Nat.le_refl _) (windowFingerprint_reset data _).symm

/-- Ten bits reach back two bytes. -/
theorem fingerprint_bounded_window_sample :
    scan 1023 ⟨1, 4, 2⟩ [1, 2, 3, 4, 5] 0 1 0 = windowScan 10 1023 ⟨1, 4, 2⟩ [1, 2, 3, 4, 5] 0 1 ∧ reach 10 = 2 :=
  ⟨(fingerprint_bounded_window 1023 ⟨1, 4, 2⟩ [1, 2, 3, 4, 5] 0 (b := 10) (by decide)).2 (by decide), by decide⟩

end TgCryptFs.Cdc

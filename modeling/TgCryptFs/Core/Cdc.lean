import TgCryptFs.Core.Crypto
import TgCryptFs.Library.Consecutive

set_option autoImplicit false

/-!
# Content-defined chunking

The rolling fingerprint runs over 64-bit words. The mask is a parameter: the source takes it
from the target size through a floating-point logarithm. Sizes are unbounded, since no sum
of the loop passes `usize::MAX`: data longer than the minimum has it below the length of a
slice.
-/
namespace TgCryptFs
open Library

/-- The defaults are 4 KB, 50 MB and 1 MB. -/
structure CdcConfig where
  minSize : ℕ := 4 * 1024
  maxSize : ℕ := 50 * 1024 * 1024
  targetSize : ℕ := 1024 * 1024
deriving DecidableEq, Repr

structure Chunk where
  offset : ℕ
  length : ℕ
deriving DecidableEq, Repr

def Chunk.shift (n : ℕ) (c : Chunk) : Chunk := ⟨n + c.offset, c.length⟩

/-- `CoreError::Chunking`. -/
structure ChunkingError where
  message : String
deriving DecidableEq, Repr

namespace Cdc

def polynomial : UInt64 := 0x3DA3358B4DC173
def windowSize : ℕ := 48

def powMod (base : UInt64) : ℕ → UInt64
  | 0 => 1
  | exp + 1 => powMod base exp * base

/-- The byte that enters the window and the byte that leaves it. -/
def roll (data : Bytes) (i : ℕ) (h : i < data.length) (fingerprint : UInt64) : UInt64 :=
  let fingerprint := fingerprint * 256 + data[i].toUInt64
  let fingerprint :=
    if windowSize ≤ i then
      have : i - windowSize < data.length := by omega
      fingerprint - data[i - windowSize].toUInt64 * powMod 256 windowSize
    else fingerprint
  fingerprint ^^^ polynomial

/-- The loop from position `i` on, and what it leaves as the last chunk. -/
def scan (mask : UInt64) (config : CdcConfig) (data : Bytes) (chunkStart i : ℕ)
    (fingerprint : UInt64) : List Chunk :=
  if h : i < data.length then
    let fingerprint := roll data i h fingerprint
    let chunkLen := i - chunkStart + 1
    if fingerprint &&& mask = 0 ∨ config.maxSize ≤ chunkLen then
      ⟨chunkStart, chunkLen⟩ :: scan mask config data (i + 1) (i + 1 + config.minSize) 0
    else scan mask config data chunkStart (i + 1) fingerprint
  else if chunkStart < data.length then [⟨chunkStart, data.length - chunkStart⟩]
  else []
termination_by data.length - i

def chunk (maskFromTarget : ℕ → UInt64) (data : Bytes) (config : CdcConfig) :
    Except ChunkingError (List Chunk) :=
  if config.minSize = 0 ∨ config.maxSize = 0 ∨ config.targetSize = 0 then
    .error ⟨"invalid config: sizes must be > 0"⟩
  else if config.minSize > config.maxSize then .error ⟨"min_size > max_size"⟩
  else if config.targetSize < config.minSize ∨ config.targetSize > config.maxSize then
    .error ⟨"target_size out of [min, max] range"⟩
  else if data = [] then .ok []
  else if data.length ≤ config.minSize then .ok [⟨0, data.length⟩]
  else .ok (scan (maskFromTarget config.targetSize) config data 0 config.minSize 0)

/-- The configurations that are not refused. -/
def Accepted (config : CdcConfig) : Prop :=
  0 < config.minSize ∧ config.minSize ≤ config.targetSize ∧ config.targetSize ≤ config.maxSize

instance (config : CdcConfig) : Decidable (Accepted config) := inferInstanceAs (Decidable (_ ∧ _))

section

variable {mask : UInt64} {config : CdcConfig} {data : Bytes} {maskFromTarget : ℕ → UInt64}

theorem scan_of_le {chunkStart i : ℕ} {fingerprint : UInt64} (h : data.length ≤ i) :
    scan mask config data chunkStart i fingerprint =
      if chunkStart < data.length then [⟨chunkStart, data.length - chunkStart⟩] else [] := by
  rw [scan, dif_neg (Nat.not_lt.2 h)]

/-- What is returned early is what the loop would return. -/
theorem chunk_eq (maskFromTarget : ℕ → UInt64) (data : Bytes) (h : Accepted config) :
    chunk maskFromTarget data config =
      .ok (scan (maskFromTarget config.targetSize) config data 0 config.minSize 0) := by
  obtain ⟨hmin, htarget, hmax⟩ := h
  rw [chunk, if_neg (by omega), if_neg (by omega), if_neg (by omega)]
  split
  · rename_i hdata
    subst hdata
    rw [scan_of_le (Nat.zero_le _)]
    rfl
  · rename_i hdata
    split
    · rename_i hshort
      rw [scan_of_le hshort, if_pos (List.length_pos_iff.2 hdata)]
      rfl
    · rfl

theorem chunk_eq_ok_iff {chunks : List Chunk} :
    chunk maskFromTarget data config = .ok chunks ↔ Accepted config ∧
      chunks = scan (maskFromTarget config.targetSize) config data 0 config.minSize 0 := by
  constructor
  · intro h
    have haccepted : Accepted config := by
      unfold chunk at h
      split at h
      · cases h
      · split at h
        · cases h
        · split at h
          · cases h
          · unfold Accepted
            omega
    rw [chunk_eq maskFromTarget data haccepted] at h
    exact ⟨haccepted, (Except.ok.inj h).symm⟩
  · rintro ⟨haccepted, rfl⟩
    exact chunk_eq maskFromTarget data haccepted

/-- The chunks of the loop are not empty and cover the data from the start of the current chunk. -/
theorem scan_consecutive (chunkStart i : ℕ) (fingerprint : UInt64) (hi : chunkStart ≤ i)
    (hstart : chunkStart ≤ data.length) :
    Consecutive Chunk.offset Chunk.length chunkStart (scan mask config data chunkStart i fingerprint)
        data.length ∧
      ∀ c ∈ scan mask config data chunkStart i fingerprint, 0 < c.length := by
  fun_induction scan mask config data chunkStart i fingerprint with
  | case1 chunkStart i fingerprint h fingerprint' chunkLen hcut ih =>
    obtain ⟨hrow, hpos⟩ := ih (by omega) (by omega)
    have hnext : chunkStart + chunkLen = i + 1 := by omega
    refine ⟨⟨rfl, ?_⟩, fun c hc => ?_⟩
    · dsimp only
      rw [hnext]
      exact hrow
    rcases List.mem_cons.1 hc with rfl | hc
    · exact Nat.succ_pos _
    · exact hpos c hc
  | case2 chunkStart i fingerprint h fingerprint' chunkLen hcut ih => exact ih (by omega) hstart
  | case3 chunkStart i fingerprint h hrest =>
    refine ⟨⟨rfl, ?_⟩, fun c hc => ?_⟩
    · exact Nat.add_sub_of_le hstart
    · rw [List.mem_singleton.1 hc]
      exact Nat.sub_pos_of_lt hrest
  | case4 chunkStart i fingerprint h hrest =>
    refine ⟨?_, fun c hc => by cases hc⟩
    exact Nat.le_antisymm hstart (Nat.not_lt.1 hrest)

/-- The bytes of a chunk. -/
def content (data : Bytes) (c : Chunk) : Bytes := slice data c.offset c.length

/-- The chunks partition the data. -/
theorem chunk_partitions {chunks : List Chunk} (h : chunk maskFromTarget data config = .ok chunks) :
    (∀ c ∈ chunks, 0 < c.length) ∧ Consecutive Chunk.offset Chunk.length 0 chunks data.length ∧
      (chunks.map (content data)).flatten = data ∧ (data = [] → chunks = []) := by
  obtain ⟨-, rfl⟩ := chunk_eq_ok_iff.1 h
  obtain ⟨hrow, hpos⟩ : Consecutive Chunk.offset Chunk.length 0
      (scan (maskFromTarget config.targetSize) config data 0 config.minSize 0) data.length ∧
      ∀ c ∈ scan (maskFromTarget config.targetSize) config data 0 config.minSize 0, 0 < c.length :=
    scan_consecutive 0 config.minSize 0 (Nat.zero_le _) (Nat.zero_le _)
  refine ⟨hpos, hrow, ?_, ?_⟩
  · calc
      _ = slice data 0 (data.length - 0) := hrow.flatten_slices data
      _ = data := List.take_length
  · rintro rfl
    rw [scan_of_le (Nat.zero_le _)]
    rfl

/-! ## Cuts depend on what follows them -/

theorem roll_eq (data : Bytes) (i : ℕ) (h : i < data.length) (fingerprint : UInt64) :
    roll data i h fingerprint = (fingerprint * 256 + data[i].toUInt64) ^^^ polynomial := by
  have hwindow : powMod 256 windowSize = 0 := by decide
  unfold roll
  split
  · rw [hwindow]
    simp
  · rfl

theorem roll_append (p s : Bytes) {i : ℕ} (h : i < s.length) (h' : p.length + i < (p ++ s).length)
    (fingerprint : UInt64) : roll (p ++ s) (p.length + i) h' fingerprint = roll s i h fingerprint := by
  rw [roll_eq, roll_eq, List.getElem_append_right (Nat.le_add_right _ _)]
  simp only [Nat.add_sub_cancel_left]

/-- What stands before the chunk does not count. -/
theorem scan_append (p s : Bytes) (chunkStart i : ℕ) (fingerprint : UInt64) (hi : chunkStart ≤ i) :
    scan mask config (p ++ s) (p.length + chunkStart) (p.length + i) fingerprint =
      (scan mask config s chunkStart i fingerprint).map (Chunk.shift p.length) := by
  have hlength : (p ++ s).length = p.length + s.length := List.length_append
  fun_induction scan mask config s chunkStart i fingerprint with
  | case1 chunkStart i fingerprint h fingerprint' chunkLen hcut ih =>
    have hlen : p.length + i - (p.length + chunkStart) + 1 = chunkLen := by omega
    have hrest := ih (by omega)
    rw [scan, dif_pos (by omega)]
    dsimp only
    rw [hlen, roll_append p s h, if_pos hcut, List.map_cons, ← hrest, Nat.add_assoc p.length i 1,
      Nat.add_assoc p.length]
    rfl
  | case2 chunkStart i fingerprint h fingerprint' chunkLen hcut ih =>
    have hlen : p.length + i - (p.length + chunkStart) + 1 = chunkLen := by omega
    rw [scan, dif_pos (by omega)]
    dsimp only
    rw [hlen, roll_append p s h, if_neg hcut]
    exact ih (by omega)
  | case3 chunkStart i fingerprint h hrest =>
    have hlen : p.length + s.length - (p.length + chunkStart) = s.length - chunkStart := by omega
    rw [scan_of_le (by omega), if_pos (by omega), hlength, hlen]
    rfl
  | case4 chunkStart i fingerprint h hrest =>
    rw [scan_of_le (by omega), if_neg (by omega)]
    rfl

/-- After a chunk the loop starts anew. -/
theorem scan_split (chunkStart i : ℕ) (fingerprint : UInt64) (hi : chunkStart ≤ i) {c : Chunk}
    (hc : c ∈ scan mask config data chunkStart i fingerprint) :
    ∃ before, scan mask config data chunkStart i fingerprint =
        before ++ scan mask config data (c.offset + c.length)
          (c.offset + c.length + config.minSize) 0 ∧
      ∀ b ∈ before, b.offset < c.offset + c.length := by
  fun_induction scan mask config data chunkStart i fingerprint with
  | case1 chunkStart i fingerprint h fingerprint' chunkLen hcut ih =>
    rcases List.mem_cons.1 hc with rfl | hc
    · refine ⟨[⟨chunkStart, chunkLen⟩], ?_, fun b hb => ?_⟩
      · have hnext : chunkStart + chunkLen = i + 1 := by omega
        dsimp only
        rw [hnext]
        rfl
      · rw [List.mem_singleton.1 hb]
        exact Nat.lt_add_of_pos_right (Nat.succ_pos _)
    · obtain ⟨before, hbefore, hlt⟩ := ih (by omega) hc
      refine ⟨⟨chunkStart, chunkLen⟩ :: before, by rw [hbefore]; rfl, fun b hb => ?_⟩
      rcases List.mem_cons.1 hb with rfl | hb
      · have hlater := ((scan_consecutive (i + 1) (i + 1 + config.minSize) 0 (by omega) h).1.bounds hc).1
        dsimp only
        omega
      · exact hlt b hb
  | case2 chunkStart i fingerprint h fingerprint' chunkLen hcut ih => exact ih (by omega) hc
  | case3 chunkStart i fingerprint h hrest =>
    rw [List.mem_singleton.1 hc]
    refine ⟨[⟨chunkStart, data.length - chunkStart⟩], ?_, fun b hb => ?_⟩
    · rw [scan_of_le (by dsimp only; omega), if_neg (by dsimp only; omega), List.append_nil]
    · rw [List.mem_singleton.1 hb]
      dsimp only
      omega
  | case4 chunkStart i fingerprint h hrest => cases hc

/-- A chunk ends there, or the data begin. -/
def Boundary (chunks : List Chunk) (n : ℕ) : Prop := n = 0 ∨ ∃ c ∈ chunks, c.offset + c.length = n

def after (n : ℕ) (chunks : List Chunk) : List Chunk := chunks.filter fun c => n ≤ c.offset

theorem after_scan {n : ℕ} (h : Boundary (scan mask config data 0 config.minSize 0) n)
    (hn : n ≤ data.length) :
    after n (scan mask config data 0 config.minSize 0) =
      scan mask config data n (n + config.minSize) 0 := by
  have hrest : ∀ c ∈ scan mask config data n (n + config.minSize) 0, n ≤ c.offset :=
    fun c hc => ((scan_consecutive n _ 0 (by omega) hn).1.bounds hc).1
  have hall : after n (scan mask config data n (n + config.minSize) 0) =
      scan mask config data n (n + config.minSize) 0 :=
    List.filter_eq_self.2 fun c hc => decide_eq_true (hrest c hc)
  rcases h with rfl | ⟨c, hc, rfl⟩
  · rwa [Nat.zero_add] at hall ⊢
  · obtain ⟨before, hbefore, hlt⟩ := scan_split 0 config.minSize 0 (Nat.zero_le _) hc
    have hnone : after (c.offset + c.length) before = [] := by
      refine List.filter_eq_nil_iff.2 fun b hb => ?_
      have hearlier := hlt b hb
      rw [decide_eq_true_eq]
      omega
    rw [hbefore]
    unfold after at hnone hall ⊢
    rw [List.filter_append, hnone, hall, List.nil_append]

theorem chunk_after {p s : Bytes} {chunks : List Chunk}
    (h : chunk maskFromTarget (p ++ s) config = .ok chunks) (hp : Boundary chunks p.length) :
    ∃ chunks', chunk maskFromTarget s config = .ok chunks' ∧
      after p.length chunks = chunks'.map (Chunk.shift p.length) := by
  obtain ⟨haccepted, rfl⟩ := chunk_eq_ok_iff.1 h
  refine ⟨_, chunk_eq maskFromTarget s haccepted, ?_⟩
  rw [after_scan hp (by rw [List.length_append]; omega)]
  exact scan_append p s 0 config.minSize 0 (Nat.zero_le _)

theorem content_shift (p s : Bytes) (c : Chunk) :
    content (p ++ s) (c.shift p.length) = content s c := by
  unfold content slice Chunk.shift
  dsimp only
  rw [List.drop_append, List.drop_eq_nil_of_le (by omega), List.nil_append, Nat.add_sub_cancel_left]

/-- The chunks after a boundary are those of the rest, and so the same after every other text
    that ends in a boundary. -/
theorem chunks_content_defined {p s : Bytes} {chunks : List Chunk}
    (h : chunk maskFromTarget (p ++ s) config = .ok chunks) (hp : Boundary chunks p.length) :
    (∃ chunks', chunk maskFromTarget s config = .ok chunks' ∧
      after p.length chunks = chunks'.map (Chunk.shift p.length)) ∧
    ∀ (p' : Bytes) (others : List Chunk), chunk maskFromTarget (p' ++ s) config = .ok others →
      Boundary others p'.length →
      (after p'.length others).map (content (p' ++ s)) =
        (after p.length chunks).map (content (p ++ s)) := by
  obtain ⟨chunks', hs, hafter⟩ := chunk_after h hp
  refine ⟨⟨chunks', hs, hafter⟩, fun p' others h' hp' => ?_⟩
  obtain ⟨chunks'', hs', hafter'⟩ := chunk_after h' hp'
  obtain rfl : chunks' = chunks'' := Except.ok.inj (hs.symm.trans hs')
  rw [hafter, hafter', List.map_map, List.map_map]
  refine List.map_congr_left fun c _ => ?_
  rw [Function.comp_apply, Function.comp_apply, content_shift, content_shift]

end

theorem chunk_sample : chunk (fun _ => 0) [1, 2, 3, 4, 5] ⟨1, 2, 1⟩ = .ok [⟨0, 2⟩, ⟨2, 2⟩, ⟨4, 1⟩] := by
  rw [chunk_eq _ _ (by decide : Accepted ⟨1, 2, 1⟩)]
  simp [scan]

theorem chunk_partitions_sample :
    (∀ c ∈ [(⟨0, 2⟩ : Chunk), ⟨2, 2⟩, ⟨4, 1⟩], 0 < c.length) ∧
      ([(⟨0, 2⟩ : Chunk), ⟨2, 2⟩, ⟨4, 1⟩].map (content [1, 2, 3, 4, 5])).flatten = [1, 2, 3, 4, 5] :=
  let h := chunk_partitions chunk_sample
  ⟨h.1, h.2.2.1⟩

theorem chunks_content_defined_sample :
    after 2 [⟨0, 2⟩, ⟨2, 2⟩, ⟨4, 1⟩] = [(⟨0, 2⟩ : Chunk).shift 2, (⟨2, 1⟩ : Chunk).shift 2] ∧
      ∃ chunks, chunk (fun _ => 0) [3, 4, 5] ⟨1, 2, 1⟩ = .ok chunks ∧
        after 2 [⟨0, 2⟩, ⟨2, 2⟩, ⟨4, 1⟩] = chunks.map (Chunk.shift 2) :=
  ⟨by decide, (chunks_content_defined (p := [1, 2]) (s := [3, 4, 5]) chunk_sample
    (.inr ⟨⟨0, 2⟩, by decide, rfl⟩)).1⟩

end Cdc
end TgCryptFs

import TgCryptFs.Core.Cdc

set_option autoImplicit false

/-!
# The sizes of the chunks

The first test for a cut counts the byte after the minimum. Where the two bounds are equal
that is one byte too many.
-/
namespace TgCryptFs.Cdc
open Library

variable {mask : UInt64} {config : CdcConfig} {data : Bytes} {maskFromTarget : ℕ → UInt64}

/-- No chunk is longer than the maximum, and none but the last shorter than the minimum. -/
def SizesKept (config : CdcConfig) (chunks : List Chunk) : Prop :=
  (∀ c ∈ chunks, c.length ≤ config.maxSize) ∧ ∀ c ∈ chunks.dropLast, config.minSize ≤ c.length

theorem sizesKept_cons {c : Chunk} {chunks : List Chunk} (hmin : config.minSize ≤ c.length)
    (hmax : c.length ≤ config.maxSize) (h : SizesKept config chunks) :
    SizesKept config (c :: chunks) := by
  constructor
  · intro x hx
    rcases List.mem_cons.1 hx with rfl | hx
    · exact hmax
    · exact h.1 x hx
  · intro x hx
    cases chunks with
    | nil => cases hx
    | cons y ys =>
      rw [List.dropLast_cons_of_ne_nil (List.cons_ne_nil y ys)] at hx
      rcases List.mem_cons.1 hx with rfl | hx
      · exact hmin
      · exact h.2 x hx

theorem sizesKept_nil : SizesKept config [] := ⟨nofun, nofun⟩

theorem sizesKept_last {c : Chunk} (hmax : c.length ≤ config.maxSize) : SizesKept config [c] :=
  ⟨fun x hx => by rw [List.mem_singleton.1 hx]; exact hmax, fun _ hx => by cases hx⟩

/-- Between the two bounds, every position is tested before it is out of reach. -/
theorem scan_sizesKept (chunkStart i : ℕ) (fingerprint : UInt64) (hi : chunkStart + config.minSize ≤ i)
    (hreach : i < chunkStart + config.maxSize) (hbounds : config.minSize < config.maxSize) :
    SizesKept config (scan mask config data chunkStart i fingerprint) := by
  fun_induction scan mask config data chunkStart i fingerprint with
  | case1 chunkStart i fingerprint h fingerprint' chunkLen hcut ih =>
    apply sizesKept_cons
    · dsimp only
      omega
    · dsimp only
      omega
    · exact ih (by omega) (by omega)
  | case2 chunkStart i fingerprint h fingerprint' chunkLen hcut ih =>
    have hshort : ¬ config.maxSize ≤ chunkLen := fun hlong => hcut (.inr hlong)
    exact ih (by omega) (by omega)
  | case3 chunkStart i fingerprint h hrest =>
    apply sizesKept_last
    dsimp only
    omega
  | case4 chunkStart i fingerprint h hrest => exact sizesKept_nil

theorem scan_of_maxSize_le {i : ℕ} {fingerprint : UInt64} (hi : i < data.length)
    (hmax : config.maxSize ≤ i + 1) :
    scan mask config data 0 i fingerprint =
      ⟨0, i + 1⟩ :: scan mask config data (i + 1) (i + 1 + config.minSize) 0 := by
  rw [scan, dif_pos hi, Nat.sub_zero]
  exact if_pos (.inr hmax)

/-- The sizes are kept where the bounds differ, and otherwise only for data of a single chunk. -/
theorem sizesKept_iff {chunks : List Chunk} (h : chunk maskFromTarget data config = .ok chunks) :
    SizesKept config chunks ↔
      config.minSize < config.maxSize ∨ data.length ≤ config.minSize := by
  obtain ⟨⟨hmin, htarget, hmax⟩, rfl⟩ := chunk_eq_ok_iff.1 h
  constructor
  · intro hkept
    by_contra hneither
    have hpos : config.minSize < data.length := by omega
    rw [scan_of_maxSize_le hpos (by omega)] at hkept
    have hlong := hkept.1 _ List.mem_cons_self
    dsimp only at hlong
    omega
  · rintro (hbounds | hshort)
    · exact scan_sizesKept 0 config.minSize 0 (by omega) (by omega) hbounds
    · rw [scan_of_le hshort]
      split
      · apply sizesKept_last
        dsimp only
        omega
      · exact sizesKept_nil

theorem sizesKept_sample : SizesKept ⟨1, 2, 1⟩ [⟨0, 2⟩, ⟨2, 2⟩, ⟨4, 1⟩] :=
  (sizesKept_iff chunk_sample).2 (.inl (by decide))

/-- Two bytes, with one byte as every size: one chunk of two. -/
theorem not_sizesKept_sample :
    chunk (fun _ => 0) [1, 2] ⟨1, 1, 1⟩ = .ok [⟨0, 2⟩] ∧ Accepted ⟨1, 1, 1⟩ ∧
      ¬ SizesKept ⟨1, 1, 1⟩ [⟨0, 2⟩] := by
  refine ⟨?_, by decide, fun hkept => ?_⟩
  · rw [chunk_eq _ _ (by decide : Accepted ⟨1, 1, 1⟩)]
    simp [scan]
  · exact absurd (hkept.1 _ List.mem_cons_self) (by decide)

end TgCryptFs.Cdc

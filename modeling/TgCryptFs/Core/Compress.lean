import TgCryptFs.Core.Srb1

set_option autoImplicit false

/-!
# Compression, and the way of a block's data out and back

The compressors are outside the repository. LZ4 puts the length of its input in a 32-bit
prefix; zstd is told how much it may put out.
-/
namespace TgCryptFs

inductive CompressionAlgorithm where
  | none
  | lz4
  | zstd (level : ℤ)
deriving DecidableEq, Repr

class Compressors where
  /-- `lz4_flex::compress_prepend_size` and `decompress_size_prepended`. -/
  lz4Compress : Bytes → Bytes
  lz4Decompress : Bytes → Option Bytes
  /-- `zstd::bulk::compress` at a level, `zstd::bulk::decompress` with a capacity. -/
  zstdCompress : Bytes → ℤ → Option Bytes
  zstdDecompress : Bytes → ℕ → Option Bytes
  lz4_inverse : ∀ data, data.length < 2 ^ 32 → lz4Decompress (lz4Compress data) = some data
  lz4_length : ∀ compressed data, lz4Decompress compressed = some data → data.length < 2 ^ 32
  zstd_inverse : ∀ data level compressed capacity, zstdCompress data level = some compressed →
    zstdDecompress compressed capacity = if data.length ≤ capacity then some data else Option.none

namespace Compress

inductive CompressError where
  | compression | decompression
deriving DecidableEq, Repr

def zstdCapacity : ℕ := 64 * 1024 * 1024

def toResult (error : CompressError) : Option Bytes → Except CompressError Bytes
  | some out => .ok out
  | Option.none => .error error

variable [Compressors]

def compress (data : Bytes) : CompressionAlgorithm → Except CompressError Bytes
  | .none => .ok data
  | .lz4 => .ok (Compressors.lz4Compress data)
  | .zstd level => toResult .compression (Compressors.zstdCompress data level)

def decompress (data : Bytes) : CompressionAlgorithm → Except CompressError Bytes
  | .none => .ok data
  | .lz4 => toResult .decompression (Compressors.lz4Decompress data)
  | .zstd _ => toResult .decompression (Compressors.zstdDecompress data zstdCapacity)

omit [Compressors] in
theorem toResult_eq_ok {error : CompressError} {o : Option Bytes} {out : Bytes} :
    toResult error o = .ok out ↔ o = some out := by
  cases o <;> simp [toResult]

/-- The length of the data that each algorithm gives back. -/
def Restorable (data : Bytes) : CompressionAlgorithm → Prop
  | .none => True
  | .lz4 => data.length < 2 ^ 32
  | .zstd _ => data.length ≤ zstdCapacity

theorem decompress_compress_iff {data compressed : Bytes} {algorithm : CompressionAlgorithm}
    (h : compress data algorithm = .ok compressed) :
    decompress compressed algorithm = .ok data ↔ Restorable data algorithm := by
  cases algorithm with
  | none =>
    cases h
    exact iff_of_true rfl trivial
  | lz4 =>
    cases h
    rw [decompress, toResult_eq_ok]
    exact ⟨Compressors.lz4_length _ _, Compressors.lz4_inverse data⟩
  | zstd level =>
    rw [decompress, toResult_eq_ok, Compressors.zstd_inverse _ _ _ _ (toResult_eq_ok.1 h)]
    simp [Restorable]

/-- Data that went through both stages comes back exactly when the compressed form has
    a 32-bit length and the decompressor puts out as much as went in. -/
theorem pipeline_round_trips_iff [Primitives] (data : Bytes) (algorithm : CompressionAlgorithm)
    (key : Bytes) (e : Srb1.Encoding) (block : Bytes)
    (hcompress : compress data algorithm = .ok e.plaintext) (hencode : e.block key = some block) :
    (∃ r, Srb1.decode key block e.aad = .ok r ∧ decompress r.plaintext algorithm = .ok data ∧
      r.epoch = e.epoch.toNat ∧ r.compressed = e.compressed ∧ r.contentHash = e.contentHash.val) ↔
    e.plaintext.length < 2 ^ 32 ∧ Restorable data algorithm := by
  constructor
  · rintro ⟨r, hr, hdata, -⟩
    obtain ⟨hlen, rfl⟩ := (Srb1.decode_block hencode).1 hr
    exact ⟨hlen, (decompress_compress_iff hcompress).1 hdata⟩
  · rintro ⟨hlen, hrest⟩
    refine ⟨e.decoded, (Srb1.decode_block hencode).2 ⟨hlen, rfl⟩, ?_, rfl, rfl, rfl⟩
    exact (decompress_compress_iff hcompress).2 hrest

end Compress

namespace Sample
open Srb1

theorem fromLeBytes32_lt (b : Bytes) : fromLeBytes32 b < 2 ^ 32 := by
  have h0 := (b.getD 0 0).toNat_lt
  have h1 := (b.getD 1 0).toNat_lt
  have h2 := (b.getD 2 0).toNat_lt
  have h3 := (b.getD 3 0).toNat_lt
  unfold fromLeBytes32
  omega

/-- Stand-ins that store the data as it is. -/
scoped instance compressors : Compressors where
  lz4Compress data := leBytes32 data.length ++ data
  lz4Decompress c := if (c.drop 4).length = fromLeBytes32 c then some (c.drop 4) else none
  zstdCompress data _ := some data
  zstdDecompress c capacity := if c.length ≤ capacity then some c else none
  lz4_inverse data h := by
    have hcover : fromLeBytes32 (leBytes32 data.length ++ data) = data.length :=
      (fromLeBytes32_leBytes32 data.length).trans (Nat.mod_eq_of_lt h)
    have hdrop : (leBytes32 data.length ++ data).drop 4 = data := rfl
    rw [hcover, hdrop, if_pos rfl]
  lz4_length c data h := by
    split at h
    · rename_i hlen
      cases h
      exact hlen ▸ fromLeBytes32_lt c
    · cases h
  zstd_inverse data _ c capacity h := by
    cases h
    rfl

theorem exists_block (key : Bytes) (e : Encoding) (h : e.plaintext.length < 256 ^ 16) :
    ∃ block, e.block key = some block := by
  have hseal : sealBox e.plaintext = some (lowBytes 16 e.plaintext.length ++ e.plaintext) := if_pos h
  have houtput : e.sealing.output key =
      some (e.nonce.val ++ (lowBytes 16 e.plaintext.length ++ e.plaintext)) :=
    congrArg (Option.map _) hseal
  exact ⟨_, Encoding.block_eq_some.2 ⟨_, houtput, rfl⟩⟩

end Sample

namespace Compress

section
open scoped Sample

/-- One byte more than zstd may put out. -/
def oversized : Bytes := List.replicate (zstdCapacity + 1) 0

def oversizedEncoding : Srb1.Encoding :=
  { Srb1.greeting with plaintext := oversized, aad := [] }

theorem oversized_encodes : ∃ block, oversizedEncoding.block [] = some block := by
  refine Sample.exists_block [] oversizedEncoding ?_
  change oversized.length < _
  rw [oversized, List.length_replicate]
  decide

theorem oversized_accepted_and_lost :
    ¬ ∀ block, compress oversized (.zstd 3) = .ok oversizedEncoding.plaintext →
      oversizedEncoding.block [] = some block →
      ∃ r, Srb1.decode [] block [] = .ok r ∧ decompress r.plaintext (.zstd 3) = .ok oversized := by
  intro h
  obtain ⟨block, hblock⟩ := oversized_encodes
  obtain ⟨r, hr, hdata⟩ := h block rfl hblock
  obtain ⟨-, rfl⟩ := (Srb1.decode_block hblock).1 hr
  have hrest : Restorable oversized (.zstd 3) :=
    (@decompress_compress_iff _ oversized _ (.zstd 3) rfl).1 hdata
  have : oversized.length ≤ zstdCapacity := hrest
  rw [oversized, List.length_replicate] at this
  omega

theorem greeting_round_trips :
    ∃ r, Srb1.decode [] Srb1.greetingBlock [97] = .ok r ∧
      decompress r.plaintext (.zstd 3) = .ok [104, 105] ∧
      r.epoch = 3 ∧ r.compressed = true ∧ r.contentHash = List.replicate 32 9 :=
  (pipeline_round_trips_iff [104, 105] (.zstd 3) [] Srb1.greeting Srb1.greetingBlock rfl
    Srb1.greetingBlock_eq).2 ⟨by decide, show 2 ≤ zstdCapacity by decide⟩

end

end Compress
end TgCryptFs

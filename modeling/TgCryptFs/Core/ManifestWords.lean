import TgCryptFs.Core.Manifest
import TgCryptFs.Library.Words

set_option autoImplicit false

/-!
# Manifests of 64-bit fields

`validate` and `blocks_in_range` with the sums as the machine makes them. A block may claim
any offset and any length, so that the sum for its end, or for that of the range, overflows.
-/
namespace TgCryptFs
open Library

namespace FileManifest.U64

variable (build : Overflow)

/-- The loop from block `i` on, after a block that ends at `prevEnd`: where the last block ends. -/
def validateFrom (prevEnd : ℕ) (i : ℕ) : List BlockPointer → Option (Except String ℕ)
  | [] => some (.ok prevEnd)
  | bp :: rest =>
    let currStart := bp.fileOffset
    if currStart < prevEnd then
      some (.error s!"overlap at block {i}: prev ends at {prevEnd}, this starts at {currStart}")
    else if currStart > prevEnd then
      some (.error s!"gap at block {i}: prev ends at {prevEnd}, this starts at {currStart}")
    else
      match build.addU64 bp.fileOffset bp.length with
      | none => none
      | some blockEnd => validateFrom blockEnd (i + 1) rest

def validate (m : FileManifest) : Option (Except String Unit) :=
  let totalSize := m.totalSize
  match m.blocks with
  | [] => some (if totalSize ≠ 0 then .error "empty manifest with non-zero total_size" else .ok ())
  | first :: rest =>
    let start := first.fileOffset
    if start ≠ 0 then some (.error s!"first block starts at {start} instead of 0")
    else
      match build.addU64 first.fileOffset first.length with
      | none => none
      | some blockEnd =>
        match validateFrom build blockEnd 1 rest with
        | none => none
        | some (.error e) => some (.error e)
        | some (.ok stop) =>
          some (if stop ≠ totalSize then
            .error s!"blocks end at {stop} but total_size is {totalSize}" else .ok ())

/-- The filter of `blocks_in_range`. -/
def overlapping (offset rangeEnd : ℕ) : List BlockPointer → Option (List BlockPointer)
  | [] => some []
  | bp :: rest =>
    match build.addU64 bp.fileOffset bp.length with
    | none => none
    | some blockEnd =>
      (overlapping offset rangeEnd rest).map fun bps =>
        if bp.fileOffset < rangeEnd && blockEnd > offset then bp :: bps else bps

def blocksInRange (m : FileManifest) (offset length : ℕ) : Option (List BlockPointer) :=
  match build.addU64 offset length with
  | none => none
  | some rangeEnd => overlapping build offset rangeEnd m.blocks

end FileManifest.U64

/-- The block has a byte of the range. -/
def BlockPointer.Meets (offset length : ℕ) (bp : BlockPointer) : Prop :=
  ∃ p, (offset ≤ p ∧ p < offset + length) ∧ bp.fileOffset ≤ p ∧ p < bp.fileOffset + bp.length

theorem BlockPointer.meets_iff {offset length : ℕ} {bp : BlockPointer} (hlength : 0 < length)
    (hblock : 0 < bp.length) :
    bp.Meets offset length ↔
      bp.fileOffset < offset + length ∧ offset < bp.fileOffset + bp.length := by
  constructor
  · rintro ⟨p, hrange, hbyte⟩
    omega
  · intro h
    exact ⟨max bp.fileOffset offset, by omega, by omega⟩

instance (offset length : ℕ) (bp : BlockPointer) : Decidable (bp.Meets offset length) :=
  decidable_of_iff
    (max bp.fileOffset offset < min (bp.fileOffset + bp.length) (offset + length))
    ⟨fun h => ⟨max bp.fileOffset offset, by omega, by omega⟩, fun ⟨p, _, _⟩ => by omega⟩

namespace FileManifest

/-- The blocks that follow one another from 0, as many as are looked at, end below `2 ^ 64`. -/
def EndsFit (start : ℕ) (bps : List BlockPointer) : Prop :=
  ∀ pre post stop, bps = pre ++ post →
    Consecutive BlockPointer.fileOffset BlockPointer.length start pre stop → stop < 2 ^ 64

namespace U64

variable {build : Overflow}

theorem validateFrom_eq {prevEnd i : ℕ} {bps : List BlockPointer} (h : EndsFit prevEnd bps) :
    validateFrom build prevEnd i bps = some (FileManifest.validateFrom prevEnd i bps) := by
  induction bps generalizing prevEnd i with
  | nil => rfl
  | cons bp rest ih =>
    rw [validateFrom, FileManifest.validateFrom]
    split
    · rfl
    · split
      · rfl
      · have hstart : bp.fileOffset = prevEnd := by omega
        have hfit : bp.fileOffset + bp.length < 2 ^ 64 := h [bp] rest _ rfl ⟨hstart, by rw [hstart]; rfl⟩
        rw [Overflow.addU64_of_lt hfit]
        refine ih fun pre post stop hsplit hrow => ?_
        exact h (bp :: pre) post stop (congrArg _ hsplit) ⟨hstart, by rwa [hstart] at hrow⟩

theorem validate_eq {m : FileManifest} (h : EndsFit 0 m.blocks) :
    validate build m = some m.validate := by
  unfold validate FileManifest.validate
  cases hm : m.blocks with
  | nil => rfl
  | cons first rest =>
    rw [hm] at h
    dsimp only
    split
    · rfl
    · rename_i hzero
      have hstart : first.fileOffset = 0 := not_not.1 hzero
      have hfit : first.fileOffset + first.length < 2 ^ 64 :=
        h [first] rest _ rfl ⟨hstart, by rw [hstart]; rfl⟩
      have hrest : EndsFit (first.fileOffset + first.length) rest := fun pre post stop hsplit hrow =>
        h (first :: pre) post stop (congrArg _ hsplit) ⟨hstart, by rwa [hstart] at hrow⟩
      rw [Overflow.addU64_of_lt hfit]
      dsimp only
      rw [validateFrom_eq hrest]
      cases FileManifest.validateFrom (first.fileOffset + first.length) 1 rest <;> rfl

/-- The build that panics has come past every sum it had to make. -/
theorem endsFit_of_validateFrom {prevEnd i : ℕ} {bps : List BlockPointer} {r : Except String ℕ}
    (hprev : prevEnd < 2 ^ 64) (h : validateFrom .panics prevEnd i bps = some r) :
    EndsFit prevEnd bps := by
  induction bps generalizing prevEnd i with
  | nil =>
    intro pre post stop hsplit hrow
    obtain rfl : pre = [] := (List.append_eq_nil_iff.1 hsplit.symm).1
    exact (show prevEnd = stop from hrow) ▸ hprev
  | cons bp rest ih =>
    intro pre post stop hsplit hrow
    cases pre with
    | nil => exact (show prevEnd = stop from hrow) ▸ hprev
    | cons x pre =>
      obtain ⟨rfl, hrest⟩ : bp = x ∧ rest = pre ++ post := by simpa using hsplit
      obtain ⟨hstart, hrow⟩ := hrow
      rw [validateFrom, if_neg (by omega), if_neg (by omega)] at h
      cases hadd : Overflow.panics.addU64 bp.fileOffset bp.length with
      | none =>
        rw [hadd] at h
        cases h
      | some blockEnd =>
        obtain ⟨rfl, hfit⟩ := Overflow.addU64_panics hadd
        rw [hadd] at h
        refine ih hfit h pre post stop hrest ?_
        rwa [hstart]

theorem endsFit_of_validate {m : FileManifest} {r : Except String Unit}
    (h : validate .panics m = some r) : EndsFit 0 m.blocks := by
  unfold validate at h
  cases hm : m.blocks with
  | nil =>
    intro pre post stop hsplit hrow
    obtain rfl : pre = [] := (List.append_eq_nil_iff.1 hsplit.symm).1
    exact (show 0 = stop from hrow) ▸ (by decide)
  | cons first rest =>
    intro pre post stop hsplit hrow
    cases pre with
    | nil => exact (show 0 = stop from hrow) ▸ (by decide)
    | cons x pre =>
      obtain ⟨rfl, hrest⟩ : first = x ∧ rest = pre ++ post := by simpa using hsplit
      obtain ⟨hstart, hrow⟩ := hrow
      rw [hm] at h
      dsimp only at h
      rw [if_neg (by omega)] at h
      cases hadd : Overflow.panics.addU64 first.fileOffset first.length with
      | none =>
        rw [hadd] at h
        cases h
      | some blockEnd =>
        obtain ⟨rfl, hfit⟩ := Overflow.addU64_panics hadd
        rw [hadd] at h
        dsimp only at h
        cases hfrom : validateFrom .panics (first.fileOffset + first.length) 1 rest with
        | none =>
          rw [hfrom] at h
          cases h
        | some r' =>
          refine endsFit_of_validateFrom hfit hfrom pre post stop hrest ?_
          rwa [hstart]

theorem overlapping_eq {offset rangeEnd : ℕ} {bps : List BlockPointer}
    (h : ∀ bp ∈ bps, bp.fileOffset + bp.length < 2 ^ 64) :
    overlapping build offset rangeEnd bps = some (bps.filter fun bp =>
      bp.fileOffset < rangeEnd && bp.fileOffset + bp.length > offset) := by
  induction bps with
  | nil => rfl
  | cons bp rest ih =>
    rw [overlapping, Overflow.addU64_of_lt (h bp List.mem_cons_self)]
    dsimp only
    rw [ih fun x hx => h x (List.mem_cons_of_mem bp hx), List.filter_cons]
    split <;> simp_all

theorem blocksInRange_eq {m : FileManifest} {offset length : ℕ} (hrange : offset + length < 2 ^ 64)
    (hblocks : ∀ bp ∈ m.blocks, bp.fileOffset + bp.length < 2 ^ 64) :
    blocksInRange build m offset length = some (m.blocksInRange offset length) := by
  unfold blocksInRange
  rw [Overflow.addU64_of_lt hrange]
  exact overlapping_eq hblocks

end U64

theorem Covered.end_lt {m : FileManifest} (h : m.Covered) (hfit : EndsFit 0 m.blocks)
    {bp : BlockPointer} (hbp : bp ∈ m.blocks) : bp.fileOffset + bp.length < 2 ^ 64 := by
  have hend := (Consecutive.bounds h hbp).2
  have htotal : m.totalSize < 2 ^ 64 := hfit m.blocks [] _ (List.append_nil _).symm h
  omega

theorem blocksInRange_eq_filter {m : FileManifest} {offset length : ℕ} (hlength : 0 < length)
    (hpos : ∀ bp ∈ m.blocks, 0 < bp.length) :
    m.blocksInRange offset length = m.blocks.filter (·.Meets offset length) := by
  refine List.filter_congr fun bp hbp => ?_
  rw [Bool.eq_iff_iff, decide_eq_true_iff, BlockPointer.meets_iff hlength (hpos bp hbp),
    Bool.and_eq_true, decide_eq_true_iff, decide_eq_true_iff]

/-- Under this build `validate` decides whether the blocks cover the file, and where it accepts
    blocks none of which is empty, the range gets exactly those that meet it. -/
def ExactOn (build : Overflow) (m : FileManifest) (offset length : ℕ) : Prop :=
  (∃ r, U64.validate build m = some r ∧ (r = .ok () ↔ m.Covered)) ∧
    (U64.validate build m = some (.ok ()) → (∀ bp ∈ m.blocks, 0 < bp.length) →
      U64.blocksInRange build m offset length =
        some (m.blocks.filter (·.Meets offset length)))

/-- Exact, without an overflow in either build, where the ends of the blocks and of the range
    are words. -/
theorem exactOn_iff {m : FileManifest} {offset length : ℕ} (hlength : 0 < length) :
    (∀ build, ExactOn build m offset length) ↔ EndsFit 0 m.blocks ∧
      (m.Covered → (∀ bp ∈ m.blocks, 0 < bp.length) → offset + length < 2 ^ 64) := by
  constructor
  · intro h
    obtain ⟨⟨r, hr, hiff⟩, hselect⟩ := h .panics
    refine ⟨U64.endsFit_of_validate hr, fun hcovered hpos => ?_⟩
    rw [hiff.2 hcovered] at hr
    have hblocks := hselect hr hpos
    unfold U64.blocksInRange at hblocks
    cases hadd : Overflow.panics.addU64 offset length with
    | none =>
      rw [hadd] at hblocks
      cases hblocks
    | some rangeEnd => exact (Overflow.addU64_panics hadd).2
  · rintro ⟨hfit, hrange⟩ build
    refine ⟨⟨m.validate, U64.validate_eq hfit, validate_eq_ok⟩, fun hok hpos => ?_⟩
    rw [U64.validate_eq hfit] at hok
    have hcovered := validate_eq_ok.1 (Option.some.inj hok)
    rw [U64.blocksInRange_eq (hrange hcovered hpos) fun bp hbp => hcovered.end_lt hfit hbp,
      blocksInRange_eq_filter hlength hpos]

end FileManifest

namespace Sample

def spanning (fileOffset length : ℕ) : BlockPointer where
  rid := []
  messageId := 1
  fileOffset := fileOffset
  length := length
  blockDataOffset := 0
  encryptedSize := 0
  compressed := false
  contentHash := []
  epoch := 0

def spanningManifest (totalSize : ℕ) (blocks : List BlockPointer) : FileManifest :=
  { FileManifest.new 1 with totalSize, blocks }

end Sample

theorem spanningManifest_exactOn :
    FileManifest.ExactOn .wraps
      (Sample.spanningManifest 30 [Sample.spanning 0 10, Sample.spanning 10 20]) 5 7 ∧
    FileManifest.ExactOn .panics
      (Sample.spanningManifest 30 [Sample.spanning 0 10, Sample.spanning 10 20]) 5 7 := by
  have hfit : FileManifest.EndsFit 0
      (Sample.spanningManifest 30 [Sample.spanning 0 10, Sample.spanning 10 20]).blocks :=
    FileManifest.U64.endsFit_of_validate (r := .ok ()) rfl
  have hexact : ∀ build, FileManifest.ExactOn build
      (Sample.spanningManifest 30 [Sample.spanning 0 10, Sample.spanning 10 20]) 5 7 :=
    (FileManifest.exactOn_iff (by decide)).2 ⟨hfit, fun _ _ => by decide⟩
  exact ⟨hexact .wraps, hexact .panics⟩

/-- The second block ends behind the last offset: at 1, or nowhere. -/
theorem overflow_not_exact :
    FileManifest.U64.validate .wraps (Sample.spanningManifest 1
      [Sample.spanning 0 (2 ^ 64 - 1), Sample.spanning (2 ^ 64 - 1) 2]) = some (.ok ()) ∧
    FileManifest.U64.validate .panics (Sample.spanningManifest 1
      [Sample.spanning 0 (2 ^ 64 - 1), Sample.spanning (2 ^ 64 - 1) 2]) = none ∧
    ¬ (Sample.spanningManifest 1
      [Sample.spanning 0 (2 ^ 64 - 1), Sample.spanning (2 ^ 64 - 1) 2]).Covered := by
  refine ⟨rfl, rfl, ?_⟩
  rintro ⟨-, -, hend⟩
  exact absurd (show 0 + (2 ^ 64 - 1) + 2 = 1 from hend) (by decide)

end TgCryptFs

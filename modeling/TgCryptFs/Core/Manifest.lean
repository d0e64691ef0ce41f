import TgCryptFs.Core.Metadata
import TgCryptFs.Library.Consecutive

set_option autoImplicit false

/-!
# Manifests

What `validate` accepts, and which blocks a range of the file needs.
-/
namespace TgCryptFs.FileManifest
open Library

/-- The loop from block `i` on, after a block that ends at `prevEnd`: where the last block ends. -/
def validateFrom (prevEnd : ℕ) (i : ℕ) : List BlockPointer → Except String ℕ
  | [] => .ok prevEnd
  | bp :: rest =>
    let currStart := bp.fileOffset
    if currStart < prevEnd then
      .error s!"overlap at block {i}: prev ends at {prevEnd}, this starts at {currStart}"
    else if currStart > prevEnd then
      .error s!"gap at block {i}: prev ends at {prevEnd}, this starts at {currStart}"
    else validateFrom (bp.fileOffset + bp.length) (i + 1) rest

def validate (m : FileManifest) : Except String Unit :=
  let totalSize := m.totalSize
  match m.blocks with
  | [] => if totalSize ≠ 0 then .error "empty manifest with non-zero total_size" else .ok ()
  | first :: rest =>
    let start := first.fileOffset
    if start ≠ 0 then .error s!"first block starts at {start} instead of 0"
    else
      match validateFrom (first.fileOffset + first.length) 1 rest with
      | .error e => .error e
      | .ok stop =>
        if stop ≠ totalSize then .error s!"blocks end at {stop} but total_size is {totalSize}"
        else .ok ()

/-- The blocks follow one another from 0 to the total size. -/
def Covered (m : FileManifest) : Prop :=
  Consecutive BlockPointer.fileOffset BlockPointer.length 0 m.blocks m.totalSize

theorem validateFrom_eq_ok {prevEnd i stop : ℕ} {bps : List BlockPointer} :
    validateFrom prevEnd i bps = .ok stop ↔
      Consecutive BlockPointer.fileOffset BlockPointer.length prevEnd bps stop := by
  induction bps generalizing prevEnd i with
  | nil => exact Except.ok.injEq prevEnd stop ▸ Iff.rfl
  | cons bp rest ih =>
    rw [validateFrom]
    split
    · rename_i hlt
      refine ⟨nofun, fun h => ?_⟩
      obtain ⟨he, -⟩ := h
      omega
    · split
      · refine ⟨nofun, fun h => ?_⟩
        obtain ⟨he, -⟩ := h
        omega
      · have he : bp.fileOffset = prevEnd := by omega
        rw [ih, he]
        exact ⟨fun h => ⟨he, h⟩, fun h => h.2⟩

theorem validate_eq_ok {m : FileManifest} : m.validate = .ok () ↔ m.Covered := by
  unfold validate Covered
  cases m.blocks with
  | nil =>
    dsimp only
    split
    · rename_i hne
      exact ⟨nofun, fun h => absurd h.symm hne⟩
    · rename_i he
      exact ⟨fun _ => (not_not.1 he).symm, fun _ => rfl⟩
  | cons first rest =>
    dsimp only
    split
    · rename_i hne
      exact ⟨nofun, fun h => absurd h.1 hne⟩
    · rename_i he
      have hzero : first.fileOffset = 0 := not_not.1 he
      have hrest : validateFrom (first.fileOffset + first.length) 1 rest = .ok m.totalSize ↔
          Consecutive BlockPointer.fileOffset BlockPointer.length (0 + first.length) rest
            m.totalSize := by
        rw [validateFrom_eq_ok, hzero]
      rw [Consecutive, ← hrest]
      cases validateFrom (first.fileOffset + first.length) 1 rest with
      | error e => exact ⟨nofun, fun h => by cases h.2⟩
      | ok stop =>
        dsimp only
        split
        · rename_i hne
          exact ⟨nofun, fun h => absurd (Except.ok.inj h.2) hne⟩
        · rename_i hstop
          exact ⟨fun _ => ⟨hzero, congrArg Except.ok (not_not.1 hstop)⟩, fun _ => rfl⟩

theorem blocksInRange_sublist (m : FileManifest) (offset length : ℕ) :
    (m.blocksInRange offset length).Sublist m.blocks := List.filter_sublist

theorem Covered.count_blocksInRange {m : FileManifest} (h : m.Covered) {offset length : ℕ}
    {bp : BlockPointer} (hbp : bp ∈ m.blocks) {p : ℕ} (hp : offset ≤ p ∧ p < offset + length)
    (hbyte : bp.fileOffset ≤ p ∧ p < bp.fileOffset + bp.length) :
    (m.blocksInRange offset length).count bp = 1 := by
  unfold blocksInRange
  rw [List.count_filter]
  · exact Consecutive.count_eq_one h hbp (by omega)
  · simp only [Bool.and_eq_true, decide_eq_true_eq]
    omega

end TgCryptFs.FileManifest

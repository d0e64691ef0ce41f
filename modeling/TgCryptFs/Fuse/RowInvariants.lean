import TgCryptFs.Fuse.Namespace

set_option autoImplicit false

/-!
# What holds of every row

A property of the rows of the inode table is kept by a request when the rows it makes and
rewrites have it. The statements that fail leave the table, so nothing is asked of them.
-/
namespace TgCryptFs
open Library

variable [Primitives]

def AllRows (P : Inode → Prop) (t : Inodes) : Prop := ∀ n i, t.find n = some i → P i

section

variable {P : Inode → Prop} {env : Env}

theorem allRows_update {t t' : Inodes} {i : Inode} (h : InodeStore.update t i = .ok t')
    (ht : AllRows P t) (hi : P i) : AllRows P t' := by
  intro n x hx
  rw [find_of_update h, Function.update_apply] at hx
  split at hx
  · obtain ⟨y, -, rfl⟩ := Option.map_eq_some_iff.1 hx
    exact hi
  · exact ht n x hx

theorem allRows_insert {t t' : Inodes} {i : Inode} (h : InodeStore.insert t i = .ok t')
    (ht : AllRows P t) (hi : P i) : AllRows P t' := by
  intro n x hx
  rw [(find_of_insert h).1, Function.update_apply] at hx
  split at hx
  · cases hx
    exact hi
  · exact ht n x hx

theorem allRows_delete {t : Inodes} (ht : AllRows P t) (ino : ℕ) :
    AllRows P (InodeStore.delete t ino) := by
  intro n x hx
  rw [InodeStore.delete, Table.find_erase, Function.update_apply] at hx
  split at hx
  · cases hx
  · exact ht n x hx

theorem allRows_tryUpdate {t : Inodes} {i : Inode} {site : Site} (ht : AllRows P t) (hi : P i) :
    AllRows P (env.tryUpdate site t i) := by
  unfold Env.tryUpdate
  split
  · rename_i h
    exact allRows_update (Env.read_eq_ok h).2 ht hi
  · exact ht

theorem allRows_tryEdit {t : Inodes} {ino : ℕ} {f : Inode → Inode} {getSite updateSite : Site}
    (ht : AllRows P t) (hf : ∀ i, P i → P (f i)) :
    AllRows P (env.tryEdit getSite updateSite t ino f) := by
  unfold Env.tryEdit
  split
  · rename_i p h
    exact allRows_tryUpdate ht (hf p (ht ino p (Env.read_ok_eq_ok h).2))
  · exact ht

theorem allRows_committed {s : System} {t : Inodes} (hs : AllRows P s.inodes) (ht : AllRows P t) :
    AllRows P (env.committed (s.begun.writeInodes t)).inodes := by
  rw [inodes_committed]
  split
  · exact hs
  · exact ht

variable (hadd : ∀ i ino dir, P i → P (i.addChild ino dir))
  (hdrop : ∀ i ino dir, P i → P (i.dropChild ino dir))
include hdrop

theorem allRows_cleared {t : Inodes} {newparent : ℕ} {newname : String} (ht : AllRows P t) :
    AllRows P (env.cleared newparent newname t) := by
  unfold Env.cleared
  split
  · refine allRows_tryEdit ?_ fun i => hdrop i _ _
    unfold Env.tryDelete
    split
    · exact allRows_delete ht _
    · exact ht
  · exact ht

include hadd

theorem allRows_moved {t : Inodes} {parent newparent : ℕ} {newname : String} {inode : Inode}
    (ht : AllRows P t) (hi : ∀ now, P (inode.renamed newparent newname now)) :
    AllRows P (env.moved parent newparent newname inode t) := by
  have h₁ : AllRows P (env.tryEdit .parentGet .parentUpdate t parent
      (·.dropChild inode.ino inode.isDir)) := allRows_tryEdit ht fun i => hdrop i _ _
  exact allRows_tryEdit (allRows_tryUpdate h₁ (hi _)) fun i => hadd i _ _

/-- A request keeps what holds of the rows it makes, rewrites and renames. -/
theorem allRows_exec {req : Request} {s : System} (hs : AllRows P s.inodes)
    (hroot : ∀ now, P (mountRoot s.mount now))
    (hmade : ∀ ino now i p, req.newInode ino now = some i → InodeStore.nextIno s.inodes = .ok ino →
      s.inodes.find i.parent = some p → P i)
    (hedited : ∀ i i', i.SameEntry i' → (req.replacesData = false → i'.manifest = i.manifest) →
      P i → P i')
    (hrenamed : ∀ parent name newparent newname i, req = .rename parent (.utf8 name) newparent newname →
      InodeStore.lookup s.inodes parent name = some i → P i →
      ∀ newname now, P (i.renamed newparent newname now)) :
    AllRows P (exec env req s).2.inodes := by
  have heff := exec_effect env req s
  generalize (exec env req s).1 = r at heff
  generalize (exec env req s).2 = s' at heff
  cases heff with
  | same hs' => rwa [hs'.inodes]
  | rooted _ ht =>
    rw [System.inodes_writeInodes]
    exact allRows_insert ht hs (hroot _)
  | edited _ hi he ht hs' hm =>
    rw [hs'.inodes, System.inodes_writeInodes]
    exact allRows_update ht hs (hedited _ _ he hm (hs _ _ hi))
  | linked hnew hino hp _ h₁ h₂ _ hs' =>
    rw [hs'.inodes]
    exact allRows_committed hs (allRows_update h₂ (allRows_insert h₁ hs (hmade _ _ _ _ hnew hino hp))
      (hadd _ _ _ (hs _ _ hp)))
  | inserted hnew hino hp _ h₁ =>
    rw [System.inodes_writeInodes]
    exact allRows_tryUpdate (allRows_insert h₁ hs (hmade _ _ _ _ hnew hino hp))
      (hadd _ _ _ (hs _ _ hp))
  | removed =>
    exact allRows_committed hs (allRows_delete (allRows_tryEdit hs fun i => hdrop i _ _) _)
  | renamed hl =>
    refine allRows_committed hs (allRows_moved hadd hdrop (allRows_cleared hdrop hs) fun now => ?_)
    exact hrenamed _ _ _ _ _ rfl hl (hs _ _ (lookup_eq_some hl).1) _ now
  | leaked => exact hs

end

end TgCryptFs

import TgCryptFs.Library.Tally
import TgCryptFs.Fuse.Namespace

set_option autoImplicit false

/-!
# What is observed of the rows

A statement leaves what is observed of the row under a number, unless it writes that row
and the new row looks different.
-/
namespace TgCryptFs
open Library

variable [Primitives] {β : Type} {g : Inode → β} {env : Env} {t t' : Inodes} {n : ℕ}

/-- The row, if it is the one observed, looks like the one that is there. -/
def LooksAs (g : Inode → β) (t : Inodes) (n : ℕ) (i : Inode) : Prop :=
  i.ino = n → ∀ b, t.observe g n = some b → g i = b

theorem looksAs_of_ne {i : Inode} (h : i.ino ≠ n) : LooksAs g t n i := fun e => (h e).elim

theorem looksAs_of_find {i : Inode} {m : ℕ} (h : t.find m = some i) {f : Inode → Inode}
    (hf : ∀ i, (f i).ino = i.ino ∧ g (f i) = g i) : LooksAs g t n (f i) := by
  intro e b hb
  have hm : n = m := by rw [← e, (hf i).1, Table.key_of_find h]
  rw [hm, Table.observe_of_find h] at hb
  rw [(hf i).2]
  exact Option.some.inj hb

theorem observe_update {i : Inode} (h : InodeStore.update t i = .ok t') (hi : LooksAs g t n i) :
    t'.observe g n = t.observe g n := by
  rw [Table.observe_of_update (find_of_update h), Function.update_apply]
  split
  · rename_i e
    subst e
    cases hx : t.find i.ino with
    | none => exact (Table.observe_eq_none.2 hx).symm
    | some x =>
      have hlook := hi rfl (g x) (Table.observe_of_find hx)
      rw [Table.observe_of_find hx, ← hlook]
      rfl
  · rfl

theorem observe_tryUpdate {site : Site} {i : Inode} (hi : LooksAs g t n i) :
    (env.tryUpdate site t i).observe g n = t.observe g n := by
  unfold Env.tryUpdate
  split
  · rename_i h
    exact observe_update (Env.read_eq_ok h).2 hi
  · rfl

theorem observe_tryEdit {getSite updateSite : Site} {ino : ℕ} {f : Inode → Inode}
    (hf : ∀ i, (f i).ino = i.ino ∧ g (f i) = g i) :
    (env.tryEdit getSite updateSite t ino f).observe g n = t.observe g n := by
  unfold Env.tryEdit
  split
  · rename_i p h
    exact observe_tryUpdate (looksAs_of_find (Env.read_ok_eq_ok h).2 hf)
  · rfl

theorem observe_delete (t : Inodes) (ino : ℕ) :
    (InodeStore.delete t ino).observe g = Function.update (t.observe g) ino none :=
  Table.observe_of_update (Table.find_erase t ino)

theorem observe_insert {i : Inode} (h : InodeStore.insert t i = .ok t') :
    t'.observe g = Function.update (t.observe g) i.ino (some (g i)) :=
  Table.observe_of_update (find_of_insert h).1

/-- A row that is inserted is not one that was there. -/
theorem ne_of_insert {i : Inode} (h : InodeStore.insert t i = .ok t') (hn : t.find n ≠ none) :
    n ≠ i.ino := by
  rintro rfl
  exact hn (find_of_insert h).2

/-- The parent's row is as it was before the insertion. -/
theorem looksAs_parent {i p : Inode} {parent : ℕ} (h : InodeStore.insert t i = .ok t')
    (hp : t.find parent = some p) {f : Inode → Inode} (hf : ∀ i, (f i).ino = i.ino ∧ g (f i) = g i) :
    LooksAs g t' n (f p) := by
  have hne : parent ≠ i.ino := ne_of_insert h (by rw [hp]; exact Option.some_ne_none p)
  have hp' : t'.find parent = some p := by rw [(find_of_insert h).1, Function.update_of_ne hne, hp]
  exact looksAs_of_find hp' hf

theorem observe_committed {s : System} (h : t.observe g n = s.inodes.observe g n) :
    (env.committed (s.begun.writeInodes t)).inodes.observe g n = s.inodes.observe g n := by
  rw [inodes_committed]
  split
  · rfl
  · exact h

section

variable (hadd : ∀ c dir i, (Inode.addChild c dir i).ino = i.ino ∧ g (Inode.addChild c dir i) = g i)
  (hdrop : ∀ c dir i, (Inode.dropChild c dir i).ino = i.ino ∧ g (Inode.dropChild c dir i) = g i)
include hdrop

theorem observe_cleared {newparent : ℕ} {newname : String}
    (h : ∀ i, InodeStore.lookup t newparent newname = some i → i.ino ≠ n) :
    (env.cleared newparent newname t).observe g n = t.observe g n := by
  unfold Env.cleared
  split
  · rename_i d hd
    rw [observe_tryEdit (hdrop _ _), Env.tryDelete]
    split
    · rw [observe_delete, Function.update_of_ne (h d (Env.read_ok_eq_ok hd).2).symm]
    · rfl
  · rfl

include hadd

theorem observe_moved {parent newparent : ℕ} {newname : String} {inode : Inode}
    (h : LooksAs g t n (inode.renamed newparent newname (systemTimeToNs (env.now 0)))) :
    (env.moved parent newparent newname inode t).observe g n = t.observe g n := by
  have hfirst : (env.tryEdit .parentGet .parentUpdate t parent
      (·.dropChild inode.ino inode.isDir)).observe g n = t.observe g n := observe_tryEdit (hdrop _ _)
  unfold Env.moved
  rw [observe_tryEdit (hadd _ _), observe_tryUpdate, hfirst]
  intro e b hb
  rw [hfirst] at hb
  exact h e b hb

end

end TgCryptFs

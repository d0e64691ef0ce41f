import TgCryptFs.Store.Tree
import TgCryptFs.Fuse.Service

set_option autoImplicit false

/-!
# The handlers' tables as trees

Where the statements go through, the tables the handlers build are the trees that
linking, unlinking and renaming give, and those stay one well-formed tree under the
root.
-/
namespace TgCryptFs
open Library

variable [Primitives]

theorem update_eq_ok {t : Inodes} {i : Inode}
    (h : ∀ x, t.findUniq i.nameKey = some x → x.ino = i.ino) :
    ∃ t', InodeStore.update t i = .ok t' ∧
      t'.find = Function.update t.find i.ino ((t.find i.ino).map fun _ => i) := by
  obtain ⟨t', ht'⟩ := Table.update_eq_some h
  refine ⟨t', by rw [InodeStore.update, ht'], Table.find_update ht'⟩

theorem find_of_update {t t' : Inodes} {i : Inode} (h : InodeStore.update t i = .ok t') :
    t'.find = Function.update t.find i.ino ((t.find i.ino).map fun _ => i) := by
  unfold InodeStore.update at h
  cases hu : t.update i with
  | none => rw [hu] at h; cases h
  | some u =>
    rw [hu] at h
    cases h
    exact Table.find_update hu

theorem find_of_insert {t t' : Inodes} {i : Inode} (h : InodeStore.insert t i = .ok t') :
    t'.find = Function.update t.find i.ino (some i) ∧ t.find i.ino = none := by
  unfold InodeStore.insert at h
  cases hu : t.insert i with
  | none => rw [hu] at h; cases h
  | some u =>
    rw [hu] at h
    cases h
    exact ⟨Table.find_insert hu, (Table.rows_insert hu).2.1⟩

/-- A row rewritten under its own name meets no constraint. -/
theorem findUniq_of_find {t : Inodes} {i i' : Inode} (hi : t.find i.ino = some i)
    (hk : i'.nameKey = i.nameKey) : t.findUniq i'.nameKey = some i := by
  rw [hk]
  exact Table.findUniq_eq_some_iff_find.2 ⟨hi, rfl⟩

theorem update_sameEntry {t : Inodes} {ino : ℕ} {i i' : Inode} (hi : t.find ino = some i)
    (he : i.SameEntry i') :
    ∃ t', InodeStore.update t i' = .ok t' ∧ t'.find = Function.update t.find ino (some i') := by
  have hk : i.ino = ino := Table.key_of_find hi
  have hkey : i'.nameKey = i.nameKey := by rw [Inode.nameKey, Inode.nameKey, he.parent, he.name]
  have hu : t.findUniq i'.nameKey = some i := findUniq_of_find (by rw [hk]; exact hi) hkey
  obtain ⟨t', ht', hf⟩ := update_eq_ok (t := t) (i := i') fun x hx => by
    rw [hu] at hx
    cases hx
    exact he.ino.symm
  refine ⟨t', ht', ?_⟩
  rw [hf, he.ino, hk, hi]
  rfl

theorem tryUpdate_of_ok {env : Env} {site : Site} (hs : env.sql site = true) {t t' : Inodes}
    {i : Inode} (h : InodeStore.update t i = .ok t') : env.tryUpdate site t i = t' := by
  simp [Env.tryUpdate, Env.read, hs, h]

/-- An edit that leaves the keys of a row. -/
def KeepsKey (f : Inode → Inode) : Prop := ∀ i, (f i).ino = i.ino ∧ (f i).nameKey = i.nameKey

theorem keepsKey_addChild (ino : ℕ) (dir : Bool) : KeepsKey (·.addChild ino dir) :=
  fun _ => ⟨rfl, rfl⟩

theorem keepsKey_dropChild (ino : ℕ) (dir : Bool) : KeepsKey (·.dropChild ino dir) :=
  fun _ => ⟨rfl, rfl⟩

/-- `editRow` on a table whose statements go through, for an edit of the list. -/
theorem find_tryEdit {env : Env} {getSite updateSite : Site} (hg : env.sql getSite = true)
    (hu : env.sql updateSite = true) (t : Inodes) (ino : ℕ) {f : Inode → Inode} (hf : KeepsKey f) :
    (env.tryEdit getSite updateSite t ino f).find = Tree.edit t.find ino f := by
  simp only [Env.tryEdit, Env.read, hg, if_true, InodeStore.get]
  cases hi : t.find ino with
  | none =>
    change t.find = _
    rw [Tree.edit, hi]
    exact (Function.update_eq_self_iff.2 hi.symm).symm
  | some i =>
    have hino : i.ino = ino := Table.key_of_find hi
    subst hino
    obtain ⟨t', ht', hfind⟩ := update_eq_ok (t := t) (i := f i) fun x hx => by
      rw [findUniq_of_find hi (hf i).2] at hx
      cases hx
      exact (hf i).1.symm
    change (env.tryUpdate updateSite t (f i)).find = _
    rw [tryUpdate_of_ok hu ht', hfind, (hf i).1, Tree.edit, hi]
    rfl

theorem find_removed {env : Env} (hg : env.sql .parentGet = true) (hu : env.sql .parentUpdate = true)
    (t : Inodes) (inode : Inode) (dir : Bool) :
    (env.removed inode.parent inode dir t).find = Tree.unlink t.find inode dir := by
  rw [Env.removed, InodeStore.delete, Table.find_erase, find_tryEdit hg hu _ _ (keepsKey_dropChild _ _),
    Tree.unlink]

theorem cleared_of_none {env : Env} {t : Inodes} {newparent : ℕ} {newname : String}
    (h : InodeStore.lookup t newparent newname = none) : env.cleared newparent newname t = t := by
  simp only [Env.cleared, h, Env.read]
  cases env.sql .probe <;> rfl

theorem find_cleared {env : Env} (hok : env.ClearsOk) {t : Inodes} {newparent : ℕ} {newname : String}
    {e : Inode} (h : InodeStore.lookup t newparent newname = some e) (hne : e.ino ≠ newparent) :
    (env.cleared newparent newname t).find = Tree.unlink t.find e false := by
  have hp : e.parent = newparent := (lookup_eq_some h).2.1
  simp only [Env.cleared, Env.read, hok.probe, if_true, h]
  rw [find_tryEdit hok.destParentGet hok.destParentUpdate _ _ (keepsKey_dropChild _ _), Env.tryDelete,
    if_pos hok.destDelete, InodeStore.delete, Table.find_erase, Tree.edit, Tree.unlink, Tree.edit, hp,
    Function.update_of_ne hne.symm, Function.update_comm hne]

theorem findUniq_edit {t t' : Inodes} {n : ℕ} {f : Inode → Inode} (hf : KeepsKey f)
    (h : t'.find = Tree.edit t.find n f) {k : ℕ × Bytes} {x : Inode}
    (hx : t'.findUniq k = some x) : ∃ y, t.findUniq k = some y ∧ y.ino = x.ino := by
  obtain ⟨hf', hk⟩ := Table.findUniq_eq_some_iff_find.1 hx
  clear hx
  subst hk
  rw [h, Tree.edit] at hf'
  by_cases hn : x.ino = n
  · rw [← hn, Function.update_self] at hf'
    obtain ⟨y, hy, rfl⟩ := Option.map_eq_some_iff.1 hf'
    refine ⟨y, Table.findUniq_eq_some_iff_find.2 ⟨?_, (hf y).2.symm⟩, (hf y).1.symm⟩
    rw [← Table.key_of_find hy] at hy
    exact hy
  · rw [Function.update_of_ne hn] at hf'
    exact ⟨x, Table.findUniq_eq_some_iff_find.2 ⟨hf', rfl⟩, rfl⟩

theorem find_moved {env : Env} (hok : env.MovesOk) {t : Inodes} {newparent : ℕ} {newname : String}
    {inode : Inode} (hi : t.find inode.ino = some inode) (hself : inode.ino ≠ inode.parent)
    (hfree : ∀ x, t.findUniq (newparent, nameHash newname) = some x → x.ino = inode.ino) :
    (env.moved inode.parent newparent newname inode t).find =
      Tree.rename t.find inode newparent newname (systemTimeToNs (env.now 0)) := by
  have h₁ := find_tryEdit hok.parentGet hok.parentUpdate t inode.parent
    (keepsKey_dropChild inode.ino inode.isDir)
  simp only [Env.moved]
  generalize env.tryEdit .parentGet .parentUpdate t inode.parent
    (·.dropChild inode.ino inode.isDir) = t₁ at h₁ ⊢
  have hi₁ : t₁.find inode.ino = some inode := by rw [h₁, Tree.edit_of_ne _ _ hself, hi]
  obtain ⟨t₂, ht₂, h₂⟩ := update_eq_ok (t := t₁)
    (i := inode.renamed newparent newname (systemTimeToNs (env.now 0))) fun x hx => by
    obtain ⟨y, hy, e⟩ := findUniq_edit (keepsKey_dropChild _ _) h₁ hx
    exact e.symm.trans (hfree y hy)
  rw [tryUpdate_of_ok hok.update ht₂,
    find_tryEdit hok.newParentGet hok.newParentUpdate _ _ (keepsKey_addChild _ _), h₂, h₁, Tree.rename]
  rw [h₁] at hi₁
  rw [Inode.renamed_ino, hi₁]
  rfl

/-- The parent links of a table. -/
def parentOf (t : Inodes) (ino : ℕ) : Option ℕ := (t.find ino).map Inode.parent

/-- What the kernel guarantees of a request: parents exist, a rename has two different
    entries and does not move a directory below itself. -/
def Request.Valid (t : Inodes) : Request → Prop
  | .mkdir _ parent _ _ | .create _ parent _ _ _ | .unlink parent _ | .rmdir parent _
  | .symlink _ parent _ _ => (t.find parent).isSome = true
  | .rename parent name newparent newname =>
    (t.find parent).isSome = true ∧ (parent, name) ≠ (newparent, newname) ∧
    (∃ np, t.find newparent = some np ∧ np.isDir = true) ∧
    ∀ n i, name.toStr = some n → InodeStore.lookup t parent n = some i →
      ¬ Reaches (parentOf t) newparent i.ino
  | _ => True

/-- What is left of it where a rename may have one entry twice and close a loop: parents
    exist, and an entry moves into a directory other than itself. -/
def Request.Resolves (t : Inodes) : Request → Prop
  | .mkdir _ parent _ _ | .create _ parent _ _ _ | .unlink parent _ | .rmdir parent _
  | .symlink _ parent _ _ => (t.find parent).isSome = true
  | .rename parent name newparent _ =>
    (t.find parent).isSome = true ∧ (∃ np, t.find newparent = some np ∧ np.isDir = true) ∧
    ∀ n i, name.toStr = some n → InodeStore.lookup t parent n = some i → newparent ≠ i.ino
  | _ => True

theorem up_shape (t : Inodes) : Shape.up (Tree.shape t.find) = parentOf t := by
  funext n
  simp only [Shape.up, Tree.shape, parentOf, Option.map_map]
  rfl

theorem lookup_ne_root {t : Inodes} (h : Tree.WellFormed t.find) {parent : ℕ} {name : String}
    {i : Inode} (hp : (t.find parent).isSome = true) (hl : InodeStore.lookup t parent name = some i) :
    i.ino ≠ 1 := by
  intro e
  obtain ⟨hi, rfl, -⟩ := lookup_eq_some hl
  rw [e] at hi
  rw [h.root_parent i hi, h.zero] at hp
  cases hp

theorem lookup_eq_none {t : Inodes} {parent : ℕ} {name : String}
    (h : InodeStore.lookup t parent name = none) (x : Inode) :
    t.findUniq (parent, nameHash name) ≠ some x := by
  rw [InodeStore.lookup] at h
  rw [h]
  exact nofun

theorem findUniq_unlink {t t' : Inodes} {e : Inode} {dir : Bool}
    (h : t'.find = Tree.unlink t.find e dir) (he : t.find e.ino = some e) (x : Inode) :
    t'.findUniq e.nameKey ≠ some x := by
  intro hx
  obtain ⟨hx, hk⟩ := Table.findUniq_eq_some_iff_find.1 hx
  have hxe : x.ino ≠ e.ino := by
    intro e'
    rw [h, Tree.unlink, e', Function.update_self] at hx
    cases hx
  rw [h, Tree.unlink, Function.update_of_ne hxe, Tree.edit, Function.update_apply] at hx
  have hy : ∃ y, t.find x.ino = some y ∧ y.nameKey = e.nameKey := by
    split at hx
    · rename_i hp
      obtain ⟨y, hy, rfl⟩ := Option.map_eq_some_iff.1 hx
      exact ⟨y, hp ▸ hy, hk⟩
    · exact ⟨x, hx, hk⟩
  obtain ⟨y, hy, hyk⟩ := hy
  have hye : t.findUniq e.nameKey = some y :=
    Table.findUniq_eq_some_iff_find.2 ⟨Table.key_of_find hy ▸ hy, hyk⟩
  rw [Table.findUniq_eq_some_iff_find.2 ⟨he, rfl⟩] at hye
  cases hye
  exact hxe (Table.key_of_find hy).symm

theorem find_renamed (hb : Function.Injective blake3) {env : Env} {t : Inodes}
    (h : Tree.WellFormed t.find) {parent newparent : ℕ} {name newname : String}
    (hc : InodeStore.lookup t newparent newname ≠ none → env.ClearsOk) (hm : env.MovesOk)
    (hv : (Request.rename parent (.utf8 name) newparent (.utf8 newname)).Valid t)
    {inode : Inode} (hl : InodeStore.lookup t parent name = some inode)
    (hd : ∀ e, InodeStore.lookup t newparent newname = some e → e.isDir = true → e.children = []) :
    (env.moved parent newparent newname inode (env.cleared newparent newname t)).find =
      ((Tree.replacing t.find (InodeStore.lookup t newparent newname)).rename inode newparent newname
        (systemTimeToNs (env.now 0))) ∧
    Tree.WellFormed ((Tree.replacing t.find (InodeStore.lookup t newparent newname)).rename inode
      newparent newname (systemTimeToNs (env.now 0))) := by
  obtain ⟨hpe, hne, ⟨np, hnp, hnpd⟩, hav⟩ := hv
  obtain ⟨hi, rfl, hname⟩ := lookup_eq_some hl
  have hi1 := lookup_ne_root h hpe hl
  have hself := Tree.ino_ne_parent h hi hi1
  have hav : ¬ Reaches (parentOf t) newparent inode.ino := hav name inode rfl hl
  rw [← up_shape] at hav
  cases he : InodeStore.lookup t newparent newname with
  | none =>
    rw [cleared_of_none he]
    refine ⟨find_moved hm hi hself fun x hx => (lookup_eq_none he x hx).elim, ?_⟩
    exact Tree.wellFormed_rename h hi hi1 hnp hnpd hav newname _
  | some e =>
    replace hc : env.ClearsOk := hc (by rw [he]; exact Option.some_ne_none _)
    obtain ⟨hei, hep, hename⟩ := lookup_eq_some he
    have he1 := lookup_ne_root h (by rw [hnp]; rfl) he
    have henp : e.ino ≠ newparent := hep ▸ Tree.ino_ne_parent h hei he1
    have hie : inode.ino ≠ e.ino := by
      intro e'
      rw [e', hei] at hi
      cases hi
      rw [hep] at hne
      have : name = newname := nameHash_injective hb (hname.symm.trans hename)
      exact hne (by rw [this])
    have hinp : inode.ino ≠ newparent := by
      rintro rfl
      exact hav (Reaches.refl _ _)
    have hfind := find_cleared hc he henp
    have hwf : Tree.WellFormed (Tree.unlink t.find e false) :=
      Tree.wellFormed_unlink h hei he1 (hd e he) false
    have hi' : (env.cleared newparent newname t).find inode.ino = some inode := by
      rw [hfind, Tree.unlink, Function.update_of_ne hie, hep, Tree.edit_of_ne _ _ hinp, hi]
    have hnp' : Tree.unlink t.find e false newparent = some (np.dropChild e.ino false) := by
      rw [Tree.unlink, Function.update_of_ne henp.symm, hep, Tree.edit, Function.update_self, hnp]
      rfl
    refine ⟨?_, ?_⟩
    · rw [find_moved hm hi' hself, hfind]
      · rfl
      intro x hx
      have hk : e.nameKey = (newparent, nameHash newname) := by rw [Inode.nameKey, hep, hename]
      exact (findUniq_unlink hfind hei x (hk ▸ hx)).elim
    · refine Tree.wellFormed_rename hwf (hfind ▸ hi') hi1 hnp' hnpd (fun hr => hav ?_) newname _
      exact Tree.reaches_unlink hr

/-- The new inode and its parent's list, as `linkEntry` and `symlink` write them. -/
theorem find_linked {t t₁ t₂ : Inodes} {i p : Inode} (hp : t.find i.parent = some p)
    (h₁ : InodeStore.insert t i = .ok t₁)
    (h₂ : InodeStore.update t₁ (p.addChild i.ino i.isDir) = .ok t₂) :
    t₂.find = Tree.link t.find i := by
  obtain ⟨hf₁, hnew⟩ := find_of_insert h₁
  have hpi : i.parent ≠ i.ino := by
    intro e
    rw [e, hnew] at hp
    cases hp
  have hpk : p.ino = i.parent := Table.key_of_find hp
  rw [find_of_update h₂, hf₁, Tree.link, Tree.edit, Inode.addChild_ino, hpk,
    Function.update_of_ne hpi, hp]
  rfl

/-- The parent's row is still there after the INSERT, so its UPDATE meets no constraint. -/
theorem update_linked {t t₁ : Inodes} {i p : Inode} (hp : t.find i.parent = some p)
    (h₁ : InodeStore.insert t i = .ok t₁) :
    ∃ t₂, InodeStore.update t₁ (p.addChild i.ino i.isDir) = .ok t₂ := by
  obtain ⟨hf₁, hnew⟩ := find_of_insert h₁
  have hpk : p.ino = i.parent := Table.key_of_find hp
  have hp₁ : t₁.find p.ino = some p := by
    rw [hf₁, Function.update_of_ne, hpk, hp]
    intro e
    rw [← hpk, e, hnew] at hp
    cases hp
  have hkey := findUniq_of_find hp₁ (keepsKey_addChild i.ino i.isDir p).2
  obtain ⟨t₂, h₂, -⟩ := update_eq_ok (t := t₁) (i := p.addChild i.ino i.isDir) fun x hx => by
    rw [hkey] at hx
    cases hx
    rfl
  exact ⟨t₂, h₂⟩

theorem wellFormed_linked {t t₁ t₂ : Inodes} (h : Tree.WellFormed t.find) {req : Request} {ino : ℕ}
    {now : ℤ} {i p : Inode} (hreq : req.newInode ino now = some i)
    (hino : InodeStore.nextIno t = .ok ino) (hp : t.find i.parent = some p) (hd : p.isDir = true)
    (h₁ : InodeStore.insert t i = .ok t₁)
    (h₂ : InodeStore.update t₁ (p.addChild i.ino i.isDir) = .ok t₂) : Tree.WellFormed t₂.find := by
  rw [find_linked hp h₁ h₂]
  have hi : i.ino = ino ∧ i.children = [] := by
    unfold Request.newInode at hreq
    split at hreq <;> cases hreq <;> exact ⟨rfl, rfl⟩
  refine Tree.wellFormed_link h hp hd (find_of_insert h₁).2 ?_ hi.2
  rw [hi.1]
  exact (find_nextIno hino).2

theorem shape_edited {t t' : Inodes} {i i' : Inode} (hi : t.find i.ino = some i)
    (he : i.SameEntry i') (h : InodeStore.update t i' = .ok t') :
    Tree.shape t'.find = Tree.shape t.find := by
  rw [find_of_update h, he.ino, hi]
  funext n
  by_cases hn : n = i.ino
  · subst hn
    simp only [Tree.shape, Function.update_self, hi, Option.map_some, Option.some.injEq]
    rw [Inode.links, Inode.links, he.parent, he.children, Inode.isDir, Inode.isDir, he.fileType]
  · simp only [Tree.shape, Function.update_of_ne hn]

end TgCryptFs

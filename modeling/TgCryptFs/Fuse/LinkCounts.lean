import TgCryptFs.Fuse.TreeInvariant
import TgCryptFs.Library.Tally

set_option autoImplicit false

/-!
# Link counts of directories

A directory's link count is kept by increments and decrements in `mkdir`, `rmdir` and
`rename`. It stays exact until a rename replaces a directory: there the list of the new
parent loses a directory and its count does not.
-/
namespace TgCryptFs
open Library

/-- Whose link count the `..` of an inode goes to. -/
def Inode.dirParent (i : Inode) : Option ℕ := if i.isDir then some i.parent else none

/-- The child directories of `n`. -/
def childDirs [Primitives] (t : Inodes) (n : ℕ) : ℕ :=
  (t.rows.filter fun c => c.isDir && c.parent == n).length

/-- Every directory's link count is 2 plus the number of its child directories. -/
def NlinksExact [Primitives] (t : Inodes) : Prop :=
  ∀ n d, t.find n = some d → d.isDir = true → d.nlink = 2 + childDirs t n

section

variable [Primitives]

/-- One link of `n`, for an inode whose `..` is `o`. -/
def linkTo (n : ℕ) (o : Option ℕ) : ℕ := if o = some n then 1 else 0

omit [Primitives] in
theorem linkTo_dirParent (n : ℕ) (i : Inode) :
    linkTo n i.dirParent = if i.isDir = true ∧ i.parent = n then 1 else 0 := by
  unfold linkTo Inode.dirParent
  cases i.isDir <;> simp

theorem childDirs_eq_tally (t : Inodes) (n : ℕ) :
    childDirs t n = t.tally fun i => linkTo n i.dirParent := by
  rw [childDirs, Table.tally]
  induction t.rows with
  | nil => rfl
  | cons c rest ih =>
    rw [List.map_cons, List.sum_cons, ← ih, linkTo_dirParent, List.filter_cons]
    by_cases hc : c.isDir = true ∧ c.parent = n
    · simp [hc]
      omega
    · have hf : (c.isDir && c.parent == n) = false := by simpa using hc
      simp [hc, hf]

/-- The `..` of every row. -/
def Tree.dirUp (t : Tree) : ℕ → Option (Option ℕ) := fun n => (t n).map Inode.dirParent

omit [Primitives] in
theorem dirUp_update (t : Tree) (n : ℕ) (o : Option Inode) :
    Tree.dirUp (Function.update t n o) = Function.update t.dirUp n (o.map Inode.dirParent) := by
  funext k
  by_cases h : k = n
  · subst h
    simp [Tree.dirUp]
  · simp [Tree.dirUp, h]

omit [Primitives] in
theorem dirUp_edit (t : Tree) (n : ℕ) {f : Inode → Inode}
    (hf : ∀ i, (f i).dirParent = i.dirParent) : Tree.dirUp (Tree.edit t n f) = t.dirUp := by
  rw [Tree.edit, dirUp_update, Function.update_eq_self_iff, Option.map_map]
  exact congrArg (fun g => (t n).map g) (funext hf)

omit [Primitives] in
@[simp] theorem dirUp_addChild (t : Tree) (n c : ℕ) (dir : Bool) :
    Tree.dirUp (Tree.edit t n (·.addChild c dir)) = t.dirUp :=
  dirUp_edit t n fun _ => rfl

omit [Primitives] in
@[simp] theorem dirUp_dropChild (t : Tree) (n c : ℕ) (dir : Bool) :
    Tree.dirUp (Tree.edit t n (·.dropChild c dir)) = t.dirUp :=
  dirUp_edit t n fun _ => rfl

omit [Primitives] in
theorem dirUp_link (t : Tree) (i : Inode) :
    Tree.dirUp (Tree.link t i) = Function.update t.dirUp i.ino (some i.dirParent) := by
  rw [Tree.link, dirUp_addChild, dirUp_update]
  rfl

omit [Primitives] in
theorem dirUp_unlink (t : Tree) (i : Inode) (dir : Bool) :
    Tree.dirUp (Tree.unlink t i dir) = Function.update t.dirUp i.ino none := by
  rw [Tree.unlink, dirUp_update, dirUp_dropChild]
  rfl

omit [Primitives] in
theorem dirUp_rename (t : Tree) (i : Inode) (newparent : ℕ) (newname : String) (now : ℤ) :
    Tree.dirUp (Tree.rename t i newparent newname now) =
      Function.update t.dirUp i.ino (some (i.renamed newparent newname now).dirParent) := by
  rw [Tree.rename, dirUp_addChild, dirUp_update, dirUp_dropChild]
  rfl

theorem childDirs_update {t t' : Inodes} {k : ℕ} {x : Option (Option ℕ)}
    (h : Tree.dirUp t'.find = Function.update (Tree.dirUp t.find) k x) (n : ℕ) :
    childDirs t' n + (Tree.dirUp t.find k).elim 0 (linkTo n) = childDirs t n + x.elim 0 (linkTo n) := by
  rw [childDirs_eq_tally, childDirs_eq_tally]
  exact Table.tally_update Inode.dirParent (linkTo n) h

theorem childDirs_congr {t t' : Inodes} (h : Tree.dirUp t'.find = Tree.dirUp t.find) (n : ℕ) :
    childDirs t' n = childDirs t n := by
  rw [childDirs_eq_tally, childDirs_eq_tally]
  exact Table.tally_congr Inode.dirParent (linkTo n) h

theorem childDirs_eq_zero {t : Inodes} {n : ℕ} (h : ∀ m c, t.find m = some c → c.parent ≠ n) :
    childDirs t n = 0 := by
  rw [childDirs, List.length_eq_zero_iff, List.filter_eq_nil_iff]
  intro c hc hcond
  have hp := h c.ino c (Table.find_of_mem hc)
  simp_all

theorem childDirs_link {t t' : Inodes} {i : Inode} (h : t'.find = Tree.link t.find i)
    (hnew : t.find i.ino = none) (n : ℕ) :
    childDirs t' n = childDirs t n + linkTo n i.dirParent := by
  have hup : Tree.dirUp t'.find = Function.update (Tree.dirUp t.find) i.ino (some i.dirParent) := by
    rw [h, dirUp_link]
  have hn := childDirs_update hup n
  rw [Tree.dirUp, hnew] at hn
  exact hn

theorem childDirs_unlink {t t' : Inodes} {i : Inode} {dir : Bool}
    (h : t'.find = Tree.unlink t.find i dir) (hi : t.find i.ino = some i) (n : ℕ) :
    childDirs t' n + linkTo n i.dirParent = childDirs t n := by
  have hup : Tree.dirUp t'.find = Function.update (Tree.dirUp t.find) i.ino none := by
    rw [h, dirUp_unlink]
  have hn := childDirs_update hup n
  rw [Tree.dirUp, hi] at hn
  exact hn

theorem childDirs_rename {t t' : Inodes} {i : Inode} {newparent : ℕ} {newname : String} {now : ℤ}
    (h : t'.find = Tree.rename t.find i newparent newname now) (hi : t.find i.ino = some i) (n : ℕ) :
    childDirs t' n + linkTo n i.dirParent =
      childDirs t n + linkTo n (i.renamed newparent newname now).dirParent := by
  have hup : Tree.dirUp t'.find = Function.update (Tree.dirUp t.find) i.ino
      (some (i.renamed newparent newname now).dirParent) := by
    rw [h, dirUp_rename]
  have hn := childDirs_update hup n
  rw [Tree.dirUp, hi] at hn
  exact hn

/-- Exact but for `k` links too many at `p`. -/
def NlinksExcept (p k : ℕ) (t : Inodes) : Prop :=
  ∀ n d, t.find n = some d → d.isDir = true → d.nlink = 2 + childDirs t n + if n = p then k else 0

theorem nlinksExcept_zero {p : ℕ} {t : Inodes} : NlinksExcept p 0 t ↔ NlinksExact t := by
  simp [NlinksExcept, NlinksExact]

theorem NlinksExcept.exact_iff {p k : ℕ} {t : Inodes} (h : NlinksExcept p k t) {d : Inode}
    (hd : t.find p = some d) (hdir : d.isDir = true) : NlinksExact t ↔ k = 0 := by
  constructor
  · intro hx
    have h₁ := h p d hd hdir
    have h₂ := hx p d hd hdir
    rw [if_pos rfl] at h₁
    omega
  · rintro rfl
    exact nlinksExcept_zero.1 h

theorem nlinksExact_link {t t' : Inodes} {i p : Inode} (hx : NlinksExact t)
    (h : t'.find = Tree.link t.find i) (hnew : t.find i.ino = none) (hp : t.find i.parent = some p)
    (hlink : i.isDir = true → i.nlink = 2) (hzero : childDirs t i.ino = 0) : NlinksExact t' := by
  intro n d hd hdir
  have hpi : i.parent ≠ i.ino := fun e => by rw [e, hnew] at hp; cases hp
  rw [childDirs_link h hnew, linkTo_dirParent]
  rw [h, Tree.link, Tree.edit, Function.update_of_ne hpi, hp, Function.update_apply] at hd
  split at hd
  · rename_i hn
    cases hd
    have hold := hx i.parent p hp hdir
    subst hn
    cases hi : i.isDir with
    | true =>
      simp only [Inode.addChild, if_true, and_self]
      omega
    | false =>
      simp only [Inode.addChild, Bool.false_eq_true, if_false, false_and]
      omega
  · rename_i hn
    rw [if_neg fun hc => hn hc.2.symm]
    rw [Function.update_apply] at hd
    split at hd
    · rename_i hni
      cases hd
      rw [hni, hzero, hlink hdir]
    · exact hx n d hd hdir

theorem nlinksExcept_unlink {t t' : Inodes} {i : Inode} {dir : Bool} (hx : NlinksExact t)
    (h : t'.find = Tree.unlink t.find i dir) (hi : t.find i.ino = some i)
    (hdir : dir = true → i.isDir = true) :
    NlinksExcept i.parent (if i.isDir && !dir then 1 else 0) t' := by
  intro n d hd hdd
  have hcount := childDirs_unlink h hi n
  rw [linkTo_dirParent] at hcount
  rw [h, Tree.unlink, Function.update_apply] at hd
  split at hd
  · cases hd
  rw [Tree.edit, Function.update_apply] at hd
  split at hd
  · rename_i hn
    obtain ⟨p, hp, rfl⟩ := Option.map_eq_some_iff.1 hd
    have hold := hx i.parent p hp hdd
    subst hn
    cases hid : i.isDir <;> cases dir <;> simp_all [Inode.dropChild]
    all_goals omega
  · rename_i hn
    have hold := hx n d hd hdd
    rw [if_neg fun hc => hn hc.2.symm] at hcount
    rw [if_neg hn]
    omega

omit [Primitives] in
theorem linkTo_le_one (n : ℕ) (o : Option ℕ) : linkTo n o ≤ 1 := by
  unfold linkTo
  split
  · exact le_refl 1
  · exact Nat.zero_le 1

omit [Primitives] in
theorem linkTo_renamed (n : ℕ) (i : Inode) (newparent : ℕ) (newname : String) (now : ℤ) :
    linkTo n (i.renamed newparent newname now).dirParent =
      if i.isDir = true ∧ newparent = n then 1 else 0 :=
  linkTo_dirParent n (i.renamed newparent newname now)

omit [Primitives] in
/-- The count of a directory after a rename: less for what leaves its list, more for what
    comes. -/
theorem nlink_renamed {t : Tree} {i d : Inode} {newparent : ℕ} {newname : String} {now : ℤ} {n : ℕ}
    (hself : i.parent ≠ i.ino) (hav : newparent ≠ i.ino) (hi : t i.ino = some i)
    (hd : Tree.rename t i newparent newname now n = some d) :
    ∃ x, t n = some x ∧ d.isDir = x.isDir ∧
      d.nlink = (x.nlink - linkTo n i.dirParent) +
        linkTo n (i.renamed newparent newname now).dirParent := by
  rw [linkTo_dirParent, linkTo_renamed]
  rw [Tree.rename, Tree.edit, Function.update_of_ne hav, Function.update_apply] at hd
  by_cases hnp : n = newparent
  · rw [if_pos hnp, Tree.edit, Function.update_apply] at hd
    subst hnp
    split at hd
    · rename_i hp
      rw [Option.map_map] at hd
      obtain ⟨x, hx, rfl⟩ := Option.map_eq_some_iff.1 hd
      refine ⟨x, hp ▸ hx, rfl, ?_⟩
      cases hdir : i.isDir <;> simp [Inode.addChild, Inode.dropChild, hp]
    · rename_i hp
      obtain ⟨x, hx, rfl⟩ := Option.map_eq_some_iff.1 hd
      refine ⟨x, hx, rfl, ?_⟩
      cases hdir : i.isDir <;> simp [Inode.addChild, Ne.symm hp]
  rw [if_neg hnp, Function.update_apply] at hd
  split at hd
  · rename_i hn
    cases hd
    refine ⟨i, hn ▸ hi, rfl, ?_⟩
    simp [hn, hself, hav, Inode.renamed]
  rw [Tree.edit, Function.update_apply] at hd
  split at hd
  · rename_i hp
    obtain ⟨x, hx, rfl⟩ := Option.map_eq_some_iff.1 hd
    refine ⟨x, hp ▸ hx, rfl, ?_⟩
    cases hdir : i.isDir <;> simp [Inode.dropChild, hp, Ne.symm (hp ▸ hnp)]
  · rename_i hp
    exact ⟨d, hd, rfl, by simp [Ne.symm hp, Ne.symm hnp]⟩

theorem nlinksExcept_rename {t t' : Inodes} {i : Inode} {newparent : ℕ} {newname : String} {now : ℤ}
    {p k : ℕ} (hx : NlinksExcept p k t)
    (h : t'.find = Tree.rename t.find i newparent newname now) (hi : t.find i.ino = some i)
    (hself : i.parent ≠ i.ino) (hav : newparent ≠ i.ino) : NlinksExcept p k t' := by
  intro n d hd hdd
  have hcount := childDirs_rename h hi n
  rw [h] at hd
  obtain ⟨x, hxn, hdir, hlink⟩ := nlink_renamed hself hav hi hd
  have hold := hx n x hxn (hdir ▸ hdd)
  have hone := linkTo_le_one n i.dirParent
  rw [hlink]
  omega

/-- A directory loses a link and gets it back. -/
theorem nlinksExcept_relist {t t' : Inodes} {n c p k : ℕ} {dir : Bool} (hx : NlinksExcept p k t)
    (h : t'.find = Tree.edit t.find n fun q => (q.dropChild c dir).addChild c dir) :
    NlinksExcept p k t' := by
  intro m d hd hdd
  rw [childDirs_congr (t := t) (by rw [h]; exact dirUp_edit _ _ fun _ => rfl)]
  rw [h, Tree.edit, Function.update_apply] at hd
  split at hd
  · rename_i hm
    obtain ⟨q, hq, rfl⟩ := Option.map_eq_some_iff.1 hd
    have hold := hx m q (hm ▸ hq) hdd
    cases dir <;> simp only [Inode.addChild, Inode.dropChild, if_true, Bool.false_eq_true, if_false]
    all_goals omega
  · exact hx m d hd hdd

theorem find_tryUpdate_of_none (env : Env) (site : Site) {t : Inodes} {i : Inode}
    (h : t.find i.ino = none) : (env.tryUpdate site t i).find = t.find := by
  unfold Env.tryUpdate
  cases hr : env.read site (InodeStore.update t i) with
  | error e => rfl
  | ok t' =>
    dsimp only
    rw [find_of_update (Env.read_eq_ok hr).2, h]
    exact Function.update_eq_self_iff.2 h.symm

omit [Primitives] in
theorem rename_newparent {t : Tree} {i np : Inode} {newparent : ℕ} (hnp : t newparent = some np)
    (hav : newparent ≠ i.ino) (newname : String) (now : ℤ) :
    ∃ d, Tree.rename t i newparent newname now newparent = some d ∧ d.isDir = np.isDir := by
  rw [Tree.rename, Tree.edit, Function.update_self, Function.update_of_ne hav, Tree.edit,
    Function.update_apply]
  split
  · rename_i hp
    rw [← hp, hnp]
    exact ⟨_, rfl, rfl⟩
  · rw [hnp]
    exact ⟨_, rfl, rfl⟩

/-- Where the source's row is gone, its parent loses its number and gets it back. -/
theorem find_moved_of_gone {env : Env} (hok : env.MovesOk) {t : Inodes} {inode : Inode}
    (hgone : t.find inode.ino = none) (newname : String) :
    (env.moved inode.parent inode.parent newname inode t).find =
      Tree.edit t.find inode.parent fun p =>
        (p.dropChild inode.ino inode.isDir).addChild inode.ino inode.isDir := by
  have h₁ := find_tryEdit hok.parentGet hok.parentUpdate t inode.parent
    (keepsKey_dropChild inode.ino inode.isDir)
  have hgone₁ : (env.tryEdit .parentGet .parentUpdate t inode.parent
      (·.dropChild inode.ino inode.isDir)).find inode.ino = none := by
    rw [h₁, Tree.edit, Function.update_apply]
    split
    · rename_i e
      rw [← e, hgone]
      rfl
    · exact hgone
  have h₂ := find_tryUpdate_of_none env .update
    (i := inode.renamed inode.parent newname (systemTimeToNs (env.now 0))) hgone₁
  rw [Env.moved, find_tryEdit hok.newParentGet hok.newParentUpdate _ _ (keepsKey_addChild _ _), h₂,
    h₁, Tree.edit_edit]
  rfl

/-- The entry that a rename finds under the name of its destination. -/
def Replaces (t : Inodes) (newparent : ℕ) (newname : String) : Prop :=
  ∃ d, InodeStore.lookup t newparent newname = some d ∧ d.isDir = true

theorem listed_renamed {env : Env} (henv : env.AllOk) {t : Inodes} (hl : Tree.Listed t.find)
    {parent newparent : ℕ} {name newname : String} {inode : Inode}
    (hv : (Request.rename parent (.utf8 name) newparent (.utf8 newname)).Resolves t)
    (hi : InodeStore.lookup t parent name = some inode)
    (hd : ∀ e, InodeStore.lookup t newparent newname = some e → e.isDir = true → e.children = []) :
    Tree.Listed (env.moved parent newparent newname inode (env.cleared newparent newname t)).find ∧
    (NlinksExact t →
      (NlinksExact (env.moved parent newparent newname inode (env.cleared newparent newname t)) ↔
        ¬ Replaces t newparent newname)) := by
  obtain ⟨hpe, ⟨np, hnp, hnpd⟩, hav⟩ := hv
  replace hav : newparent ≠ inode.ino := hav name inode rfl hi
  obtain ⟨hrow, rfl, -⟩ := lookup_eq_some hi
  have hself : inode.parent ≠ inode.ino := hl.parent_ne hrow
  have hi1 : inode.ino ≠ 1 := hl.ino_ne_root hpe hrow
  cases he : InodeStore.lookup t newparent newname with
  | none =>
    rw [cleared_of_none he]
    have hfind := find_moved henv.movesOk hrow hself.symm fun x hx => (lookup_eq_none he x hx).elim
    refine ⟨hfind ▸ Tree.listed_rename hl hrow hi1 hnp hnpd hav newname _, fun hx => ?_⟩
    have hexact := nlinksExcept_rename (nlinksExcept_zero (p := newparent).2 hx) hfind hrow hself hav
    refine ⟨fun _ ⟨d, hd', _⟩ => ?_, fun _ => nlinksExcept_zero.1 hexact⟩
    rw [he] at hd'
    cases hd'
  | some e =>
    obtain ⟨hei, hep, -⟩ := lookup_eq_some he
    have he1 : e.ino ≠ 1 := hl.ino_ne_root (by rw [hep, hnp]; rfl) hei
    have henp : e.ino ≠ newparent := hep ▸ (hl.parent_ne hei).symm
    have hcl := find_cleared henv.clearsOk he henp
    have hlc : Tree.Listed (Tree.unlink t.find e false) :=
      Tree.listed_unlink hl hei he1 (hd e he) false
    have hreplaces : ∀ {k : Prop}, (k ↔ (if e.isDir && !false then 1 else 0) = 0) →
        (k ↔ ¬ Replaces t newparent newname) := by
      intro k hk
      rw [hk, Replaces, he]
      cases hdir : e.isDir <;> simp [hdir]
    generalize env.cleared newparent newname t = t₁ at hcl ⊢
    have hexcept : NlinksExact t → NlinksExcept newparent (if e.isDir && !false then 1 else 0) t₁ :=
      fun hx => hep ▸ nlinksExcept_unlink hx hcl hei nofun
    have hnp₁ : t₁.find newparent = some (np.dropChild e.ino false) := by
      rw [hcl, Tree.unlink, Function.update_of_ne henp.symm, hep, Tree.edit, Function.update_self, hnp]
      rfl
    by_cases hie : inode.ino = e.ino
    · -- The entry is its own destination: its row is gone, and only its number comes back.
      rw [← hie, hrow] at hei
      cases hei
      subst hep
      have hgone : t₁.find inode.ino = none := by rw [hcl, Tree.unlink, Function.update_self]
      have hfind := find_moved_of_gone henv.movesOk hgone newname
      refine ⟨?_, fun hx => hreplaces ?_⟩
      · rw [hfind]
        exact Tree.listed_relist (hcl ▸ hlc) hgone _
      · have hdest := congrFun hfind inode.parent
        rw [Tree.edit, Function.update_self, hnp₁] at hdest
        exact (nlinksExcept_relist (hexcept hx) hfind).exact_iff hdest hnpd
    · have hrow₁ : t₁.find inode.ino = some inode := by
        rw [hcl, Tree.unlink, Function.update_of_ne hie, hep, Tree.edit_of_ne _ _ hav.symm, hrow]
      have hfind := find_moved henv.movesOk hrow₁ hself.symm fun x hx => by
        have hk : e.nameKey = (newparent, nameHash newname) := (Table.findUniq_eq_some_iff_find.1 he).2
        exact (findUniq_unlink hcl hei x (hk ▸ hx)).elim
      refine ⟨?_, fun hx => hreplaces ?_⟩
      · rw [hfind]
        exact Tree.listed_rename (hcl ▸ hlc) hrow₁ hi1 hnp₁ hnpd hav newname _
      · have hexact := nlinksExcept_rename (hexcept hx) hfind hrow₁ hself hav
        obtain ⟨d, hd', hdir⟩ := rename_newparent hnp₁ hav newname (systemTimeToNs (env.now 0))
        exact hexact.exact_iff (by rw [hfind]; exact hd') (hdir.trans hnpd)

/-- The rename finds an empty directory under the name of its destination, and replaces it. -/
def Event.ReplacesDir (e : Event) (s : System) : Prop :=
  ∃ parent name newparent newname, e.req = .rename parent (.utf8 name) newparent (.utf8 newname) ∧
    s.conn.IsAutocommit ∧ InodeStore.lookup s.inodes parent name ≠ none ∧
    ∃ d, InodeStore.lookup s.inodes newparent newname = some d ∧ d.isDir = true ∧ d.children = []

omit [Primitives] in
theorem nlink_newInode {req : Request} {ino : ℕ} {now : ℤ} {i : Inode}
    (h : req.newInode ino now = some i) :
    i.ino = ino ∧ i.children = [] ∧ (i.isDir = true → i.nlink = 2) := by
  unfold Request.newInode at h
  split at h <;> cases h
  · exact ⟨rfl, rfl, fun _ => rfl⟩
  · exact ⟨rfl, rfl, nofun⟩
  · exact ⟨rfl, rfl, nofun⟩

theorem listed_linked {t t₁ t₂ : Inodes} (hl : Tree.Listed t.find) {req : Request} {ino : ℕ}
    {now : ℤ} {i p : Inode} (hreq : req.newInode ino now = some i)
    (hino : InodeStore.nextIno t = .ok ino) (hp : t.find i.parent = some p) (hd : p.isDir = true)
    (h₁ : InodeStore.insert t i = .ok t₁)
    (h₂ : InodeStore.update t₁ (p.addChild i.ino i.isDir) = .ok t₂) :
    Tree.Listed t₂.find ∧ (NlinksExact t → NlinksExact t₂) := by
  obtain ⟨hi, hc, hlink⟩ := nlink_newInode hreq
  have hnew := (find_of_insert h₁).2
  have hpos : 0 < i.ino := by rw [hi]; exact (find_nextIno hino).2
  have hfind := find_linked hp h₁ h₂
  refine ⟨?_, fun hx => ?_⟩
  · rw [hfind]
    exact Tree.listed_link hl hp hd hnew hpos hc
  · exact nlinksExact_link hx hfind hnew hp hlink
      (childDirs_eq_zero fun m c hc => hl.parent_ne_of_none hnew hpos hc)

theorem nlinksExact_edited {t t' : Inodes} {i i' : Inode} (hi : t.find i.ino = some i)
    (he : i.SameEntry i') (h : InodeStore.update t i' = .ok t') (hx : NlinksExact t) :
    NlinksExact t' := by
  have hf : t'.find = Function.update t.find i.ino (some i') := by
    rw [find_of_update h, he.ino, hi]
    rfl
  have hdir : i'.isDir = i.isDir := by rw [Inode.isDir, Inode.isDir, he.fileType]
  have hup : Tree.dirUp t'.find = Tree.dirUp t.find := by
    rw [hf, dirUp_update, Function.update_eq_self_iff, Tree.dirUp, hi]
    simp [Inode.dirParent, hdir, he.parent]
  intro n d hd hdd
  rw [childDirs_congr hup]
  rw [hf, Function.update_apply] at hd
  split at hd
  · rename_i hn
    cases hd
    rw [he.nlink]
    exact hx n i (hn ▸ hi) (hdir ▸ hdd)
  · exact hx n d hd hdd

theorem inodes_committed_of_allOk {env : Env} (henv : env.AllOk) (s : System) (t : Inodes) :
    (env.committed (s.begun.writeInodes t)).inodes = t := by
  rw [inodes_committed, henv.commit]
  rfl

theorem Event.ReplacesDir.reply {e : Event} {s : System} (hok : e.env.AllOk) (h : e.ReplacesDir s) :
    (exec e.env e.req s).1 = .ok := by
  obtain ⟨parent, name, newparent, newname, hreq, hauto, hl, d, hd, -, hempty⟩ := h
  obtain ⟨i, hi⟩ := Option.ne_none_iff_exists'.1 hl
  have hdest : ∀ e', e.env.sql .probe = true →
      InodeStore.lookup s.inodes newparent newname = some e' → e'.isDir = true → e'.children = [] := by
    intro e' _ he _
    rw [hd] at he
    cases he
    exact hempty
  have hrun := run_rename hi hdest hauto (hok.sql _) (hok.sql _)
  rw [hreq, exec, handler, hrun]

/-- A request keeps the lists, and the counts unless it replaces a directory. -/
theorem listed_step {e : Event} {s : System} (hok : e.env.AllOk) (hv : e.req.Resolves s.inodes)
    (hl : Tree.Listed s.inodes.find) :
    Tree.Listed (e.step s).inodes.find ∧
    (NlinksExact s.inodes → (NlinksExact (e.step s).inodes ↔ ¬ e.ReplacesDir s)) := by
  obtain ⟨env, req⟩ := e
  have heff := exec_effect env req s
  have hreply : Event.ReplacesDir ⟨env, req⟩ s → (exec env req s).1 = .ok :=
    Event.ReplacesDir.reply (e := ⟨env, req⟩) hok
  change Tree.Listed (exec env req s).2.inodes.find ∧
    (NlinksExact s.inodes → (NlinksExact (exec env req s).2.inodes ↔ _))
  generalize (exec env req s).1 = r at heff hreply
  generalize (exec env req s).2 = s' at heff
  dsimp only at hok hv
  -- All but `renamed` replace nothing.
  have hkept : Tree.Listed s'.inodes.find ∧ (NlinksExact s.inodes → NlinksExact s'.inodes) →
      (∀ parent name newparent newname, req = .rename parent name newparent newname → r ≠ .ok) →
      Tree.Listed s'.inodes.find ∧ (NlinksExact s.inodes →
        (NlinksExact s'.inodes ↔ ¬ Event.ReplacesDir ⟨env, req⟩ s)) := by
    rintro ⟨hlisted, hexact⟩ hno
    refine ⟨hlisted, fun hx => iff_of_true (hexact hx) fun hrep => ?_⟩
    have hr := hreply hrep
    obtain ⟨parent, name, newparent, newname, hreq, -⟩ := hrep
    exact hno _ _ _ _ hreq hr
  cases heff with
  | same hs' hr =>
    refine hkept ?_ fun parent name newparent newname hreq hok => ?_
    · rw [hs'.inodes]
      exact ⟨hl, id⟩
    · have herr := hr (by rw [hreq]; rfl)
      rw [hok] at herr
      cases herr
  | rooted hnone =>
    obtain ⟨r, hr⟩ := hl.root
    rw [hnone] at hr
    cases hr
  | edited hreq hi he ht hs' =>
    refine hkept ?_ fun parent name newparent newname hreq' => ?_
    · rw [hs'.inodes, System.inodes_writeInodes]
      exact ⟨Tree.listed_congr hl (shape_edited hi he ht), nlinksExact_edited hi he ht⟩
    · rw [hreq'] at hreq
      cases hreq
  | linked hreq hino hp hdir h₁ h₂ _ hs' =>
    refine hkept ?_ fun parent name newparent newname hreq' => ?_
    · rw [hs'.inodes, inodes_committed_of_allOk hok]
      exact listed_linked hl hreq hino hp hdir h₁ h₂
    · rw [hreq'] at hreq
      cases hreq
  | inserted hreq hino hp hdir h₁ =>
    refine hkept ?_ fun _ _ _ _ hreq' => nomatch hreq'
    obtain ⟨t₂, h₂⟩ := update_linked hp h₁
    rw [System.inodes_writeInodes, tryUpdate_of_ok (hok.sql _) h₂]
    exact listed_linked hl hreq hino hp hdir h₁ h₂
  | @removed _ parent name inode hreq hi hempty =>
    refine hkept ?_ fun parent name newparent newname hreq' => ?_
    · obtain ⟨hrow, rfl, -⟩ := lookup_eq_some hi
      have hp : (s.inodes.find inode.parent).isSome = true := by
        rcases removal_eq_some hreq with rfl | rfl
        · exact hv
        · exact hv
      have hi1 := hl.ino_ne_root hp hrow
      have hfind := find_removed (hok.sql .parentGet) (hok.sql .parentUpdate) s.inodes inode
        inode.isDir
      rw [inodes_committed_of_allOk hok]
      refine ⟨?_, fun hx => ?_⟩
      · rw [hfind]
        exact Tree.listed_unlink hl hrow hi1 hempty _
      · have hexcept := nlinksExcept_unlink hx hfind hrow id
        rw [Bool.and_not_self] at hexcept
        exact nlinksExcept_zero.1 hexcept
    · rw [hreq'] at hreq
      cases hreq
  | @renamed parent newparent name newname inode hi hdest hauto hfind hbegin =>
    have hdest' := fun d => hdest d (hok.sql _)
    obtain ⟨hlisted, hexact⟩ := listed_renamed hok hl hv hi hdest'
    rw [inodes_committed_of_allOk hok]
    refine ⟨hlisted, fun hx => (hexact hx).trans (not_congr ⟨?_, ?_⟩)⟩
    · rintro ⟨d, hd, hdir⟩
      exact ⟨_, _, _, _, rfl, hauto, by rw [hi]; exact Option.some_ne_none _, d, hd, hdir,
        hdest' d hd hdir⟩
    · rintro ⟨_, _, _, _, hreq, -, -, d, hd, hdir, -⟩
      cases hreq
      exact ⟨d, hd, hdir⟩
  | leaked =>
    refine hkept ⟨hl, id⟩ fun _ _ _ _ _ hok => ?_
    cases hok

theorem listed_init {env : Env} (henv : env.AllOk) (m : Mount) (cache : Option BlockCache) :
    Tree.Listed (exec env .init (.fresh m cache)).2.inodes.find ∧
      NlinksExact (exec env .init (.fresh m cache)).2.inodes := by
  refine ⟨(treeOk_init henv m cache).1.toListed, fun n d hd _ => ?_⟩
  obtain ⟨t, hs, ht⟩ := init_fresh henv m cache
  rw [hs, System.inodes_writeInodes] at hd ⊢
  have hmem := Table.mem_of_find hd
  have hn := Table.key_of_find hd
  rw [ht, List.mem_singleton] at hmem
  subst hmem
  subst hn
  rw [childDirs, ht]
  rfl

/-- Along every run from `init` whose statements succeed, the link counts of all directories
    are exact in every state reached if and only if no rename of the run replaces a
    directory. -/
theorem nlinks_exact_iff {env₀ : Env} (h₀ : env₀.AllOk) (m : Mount) (cache : Option BlockCache)
    (es : List Event)
    (hes : Runs.Admits Event.step (fun e s => e.env.AllOk ∧ e.req.Resolves s.inodes) es
      (exec env₀ .init (.fresh m cache)).2) :
    Runs.Throughout Event.step (fun s => NlinksExact s.inodes) es
        (exec env₀ .init (.fresh m cache)).2 ↔
      Runs.Admits Event.step (fun e s => ¬ e.ReplacesDir s) es
        (exec env₀ .init (.fresh m cache)).2 := by
  obtain ⟨hlisted, hexact⟩ := listed_init h₀ m cache
  refine Runs.throughout_iff_admits_of (I := fun s : System => NlinksExact s.inodes)
    (J := fun s : System => Tree.Listed s.inodes.find) ?_ ?_ es hes hlisted hexact
  · exact fun e s hl he => (listed_step he.1 he.2 hl).1
  · exact fun e s hl he hx => (listed_step he.1 he.2 hl).2 hx

end

section

open scoped Sample

def makeTwoDirs : List Event :=
  [.mkdir Sample.caller 1 (.utf8 "a") 0o755, .mkdir Sample.caller 1 (.utf8 "b") 0o755].map
    Sample.event

/-- Two directories in the root, 2 and 3. -/
def twoDirs : System := Runs.runAll Event.step makeTwoDirs Sample.rooted

/-- The first of them renamed. -/
def renameFirst (newparent : ℕ) (newname : String) : Event :=
  Sample.event (.rename 1 (.utf8 "a") newparent (.utf8 newname))

theorem admits_renameFirst {newparent : ℕ} {newname : String} {np : Inode}
    (hnp : twoDirs.inodes.find newparent = some np) (hdir : np.isDir = true) (hne : newparent ≠ 2) :
    Runs.Admits Event.step (fun e s => e.env.AllOk ∧ e.req.Resolves s.inodes)
      (makeTwoDirs ++ [renameFirst newparent newname]) Sample.rooted := by
  have hok := Sample.allOk_env none []
  refine Runs.admits_append.2 ⟨⟨⟨hok, ?_⟩, ⟨hok, ?_⟩, trivial⟩, ⟨hok, ?_, ⟨np, hnp, hdir⟩, ?_⟩, trivial⟩
  · change Option.isSome (Table.find Sample.rooted.inodes 1) = true
    decide +kernel
  · change Option.isSome (Table.find (Event.step _ Sample.rooted).inodes 1) = true
    decide +kernel
  · change Option.isSome (Table.find twoDirs.inodes 1) = true
    decide +kernel
  · intro n i hn hi e
    cases hn
    have hino : (InodeStore.lookup twoDirs.inodes 1 "a").map Inode.ino = some 2 := by decide +kernel
    change InodeStore.lookup twoDirs.inodes 1 "a" = some i at hi
    rw [hi, Option.map_some, ← e, Option.some.injEq] at hino
    exact hne hino

theorem find_twoDirs {n : ℕ} (h : (twoDirs.inodes.find n).any Inode.isDir = true) :
    ∃ np, twoDirs.inodes.find n = some np ∧ np.isDir = true := by
  cases hn : twoDirs.inodes.find n with
  | none => rw [hn] at h; cases h
  | some np => exact ⟨np, rfl, by rw [hn] at h; exact h⟩

/-- The first directory moves below the second one. -/
theorem nlinks_exact_of_nested : Runs.Throughout Event.step (fun s => NlinksExact s.inodes)
    (makeTwoDirs ++ [renameFirst 3 "ab"]) Sample.rooted := by
  obtain ⟨np, hnp, hdir⟩ := find_twoDirs (n := 3) (by decide +kernel)
  refine (nlinks_exact_iff (Sample.allOk_env none []) Sample.mount none _
    (admits_renameFirst hnp hdir (by decide))).2
    (Runs.admits_append.2 ⟨⟨?_, ?_, trivial⟩, ?_, trivial⟩)
  · rintro ⟨_, _, _, _, hreq, -⟩
    cases hreq
  · rintro ⟨_, _, _, _, hreq, -⟩
    cases hreq
  · rintro ⟨_, _, _, _, hreq, -, -, d, hd, -⟩
    cases hreq
    have hnone : (InodeStore.lookup twoDirs.inodes 3 "ab").isNone = true := by decide +kernel
    change InodeStore.lookup twoDirs.inodes 3 "ab" = some d at hd
    rw [hd] at hnone
    cases hnone

/-- The first directory replaces the second one, and the root counts a link too many. -/
theorem nlink_left_by_replaced :
    Runs.Admits Event.step (fun e s => e.env.AllOk ∧ e.req.Resolves s.inodes)
      (makeTwoDirs ++ [renameFirst 1 "b"]) Sample.rooted ∧
    ((renameFirst 1 "b").step twoDirs).inodes.find 2 ≠ none ∧
    (((renameFirst 1 "b").step twoDirs).inodes.find 1).map Inode.nlink = some 4 ∧
    childDirs ((renameFirst 1 "b").step twoDirs).inodes 1 = 1 ∧
    ¬ NlinksExact ((renameFirst 1 "b").step twoDirs).inodes := by
  obtain ⟨np, hnp, hdir⟩ := find_twoDirs (n := 1) (by decide +kernel)
  have hcount : childDirs ((renameFirst 1 "b").step twoDirs).inodes 1 = 1 := by decide +kernel
  have hlink : (((renameFirst 1 "b").step twoDirs).inodes.find 1).map
      (fun d => (d.isDir, d.nlink)) = some (true, 4) := by decide +kernel
  refine ⟨admits_renameFirst hnp hdir (by decide), by decide +kernel, by decide +kernel, hcount,
    fun h => ?_⟩
  obtain ⟨d, hd, e⟩ := Option.map_eq_some_iff.1 hlink
  have hexact := h 1 d hd (congrArg Prod.fst e)
  have hfour : d.nlink = 4 := congrArg Prod.snd e
  rw [hcount, hfour] at hexact
  cases hexact

end

end TgCryptFs

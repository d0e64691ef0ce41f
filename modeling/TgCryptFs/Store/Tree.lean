import TgCryptFs.Library.LinkedTree
import TgCryptFs.Store.Database

set_option autoImplicit false

/-!
# The directory tree

A table of inodes read as a map from numbers to inodes, and what linking,
unlinking and renaming mean there: each is one change of the map, with the child
lists of the directories involved.
-/
namespace TgCryptFs
open Library

abbrev Tree := ℕ → Option Inode

/-- The links an inode carries. -/
def Inode.links (i : Inode) : Links ℕ := ⟨i.parent, i.isDir, i.children⟩

namespace Tree

def edit (t : Tree) (ino : ℕ) (f : Inode → Inode) : Tree := Function.update t ino ((t ino).map f)

/-- A new inode `i`, and its number in the parent's list. -/
def link (t : Tree) (i : Inode) : Tree :=
  edit (Function.update t i.ino (some i)) i.parent (·.addChild i.ino i.isDir)

/-- `i` goes, with its number in the parent's list; `dir` tells whether the parent also
    loses the link for `..`. -/
def unlink (t : Tree) (i : Inode) (dir : Bool) : Tree :=
  Function.update (edit t i.parent (·.dropChild i.ino dir)) i.ino none

/-- `i` gets the name `newname` in `newparent`. -/
def rename (t : Tree) (i : Inode) (newparent : ℕ) (newname : String) (now : ℤ) : Tree :=
  edit
    (Function.update (edit t i.parent (·.dropChild i.ino i.isDir)) i.ino
      (some (i.renamed newparent newname now)))
    newparent (·.addChild i.ino i.isDir)

def shape (t : Tree) : Shape ℕ := fun n => (t n).map Inode.links

/-- One tree under inode 1, whose parent is the number no inode has. -/
structure WellFormed (t : Tree) : Prop where
  shape : Shape.WellFormed 1 t.shape
  zero : t 0 = none
  root_parent : ∀ r, t 1 = some r → r.parent = 0

theorem shape_update (t : Tree) (n : ℕ) (o : Option Inode) :
    shape (Function.update t n o) = Function.update t.shape n (o.map Inode.links) := by
  funext k
  by_cases h : k = n
  · subst h
    simp [shape]
  · simp [shape, h]

theorem shape_edit (t : Tree) (n : ℕ) (f : Inode → Inode) (g : List ℕ → List ℕ)
    (h : ∀ i, (f i).links = { i.links with kids := g i.links.kids }) :
    shape (edit t n f) = Shape.editKids t.shape n g := by
  rw [edit, shape_update, Shape.editKids]
  congr 1
  cases ht : t n with
  | none => simp [shape, ht]
  | some i => simp [shape, ht, h i]

theorem shape_link (t : Tree) (i : Inode) (h : i.children = []) :
    shape (link t i) = Shape.attach t.shape i.ino i.parent i.isDir := by
  rw [link, shape_edit _ _ _ (· ++ [i.ino]) fun _ => rfl, shape_update, Shape.attach]
  simp [Inode.links, h]

theorem shape_unlink (t : Tree) (i : Inode) (dir : Bool) :
    shape (unlink t i dir) = Shape.detach t.shape i.ino i.parent := by
  rw [unlink, shape_update, shape_edit _ _ _ (·.filter (· ≠ i.ino)) fun _ => rfl, Shape.detach]
  rfl

theorem shape_rename (t : Tree) (i : Inode) (newparent : ℕ) (newname : String) (now : ℤ) :
    shape (rename t i newparent newname now) = Shape.move t.shape i.ino i.links newparent := by
  rw [rename, shape_edit _ _ _ (· ++ [i.ino]) fun _ => rfl, shape_update,
    shape_edit _ _ _ (·.filter (· ≠ i.ino)) fun _ => rfl, Shape.move]
  rfl

theorem shape_eq_some {t : Tree} {n : ℕ} {i : Inode} (h : t n = some i) :
    t.shape n = some i.links := by
  rw [shape, h]
  rfl

theorem WellFormed.root {t : Tree} (h : WellFormed t) :
    ∃ r, t 1 = some r ∧ r.isDir = true := by
  obtain ⟨l, hl, hd, -⟩ := h.shape.root_dir
  obtain ⟨r, hr, rfl⟩ := Option.map_eq_some_iff.1 hl
  exact ⟨r, hr, hd⟩

theorem WellFormed.parent {t : Tree} (h : WellFormed t) {n : ℕ} {i : Inode} (hi : t n = some i)
    (hn : n ≠ 1) : ∃ p, t i.parent = some p ∧ p.isDir = true := by
  obtain ⟨l, hl, hd⟩ := h.shape.parent_dir n i.links (shape_eq_some hi) hn
  obtain ⟨p, hp, rfl⟩ := Option.map_eq_some_iff.1 hl
  exact ⟨p, hp, hd⟩

theorem edit_of_ne (t : Tree) {n k : ℕ} (f : Inode → Inode) (h : k ≠ n) : edit t n f k = t k :=
  Function.update_of_ne h _ _

theorem shape_parent {t t' : Tree} {n : ℕ} (h : t'.shape n = t.shape n) {i' : Inode}
    (hi' : t' n = some i') : ∃ i, t n = some i ∧ i'.parent = i.parent := by
  rw [shape_eq_some hi'] at h
  obtain ⟨i, hi, e⟩ := Option.map_eq_some_iff.1 h.symm
  exact ⟨i, hi, (congrArg Links.parent e).symm⟩

theorem wellFormed_congr {t t' : Tree} (h : WellFormed t) (hs : t'.shape = t.shape) :
    WellFormed t' := by
  refine ⟨hs ▸ h.shape, ?_, fun r hr => ?_⟩
  · have h0 : t'.shape 0 = t.shape 0 := by rw [hs]
    simpa [Tree.shape, h.zero] using h0
  · obtain ⟨r₀, hr₀, e⟩ := shape_parent (congrFun hs 1) hr
    rw [e, h.root_parent r₀ hr₀]

theorem edit_id (t : Tree) (n : ℕ) : edit t n id = t :=
  Function.update_eq_self_iff.2 Option.map_id_apply

theorem parent_edit {t : Tree} {n k : ℕ} {f : Inode → Inode} {i' : Inode}
    (h : edit t n f k = some i') (hf : ∀ i, (f i).parent = i.parent) :
    ∃ i, t k = some i ∧ i'.parent = i.parent := by
  by_cases hk : k = n
  · subst hk
    rw [edit, Function.update_self] at h
    obtain ⟨i, hi, rfl⟩ := Option.map_eq_some_iff.1 h
    exact ⟨i, hi, hf i⟩
  · rw [edit_of_ne t f hk] at h
    exact ⟨i', h, rfl⟩

theorem wellFormed_link {t : Tree} (h : WellFormed t) {i p : Inode} (hp : t i.parent = some p)
    (hd : p.isDir = true) (hnew : t i.ino = none) (hpos : 0 < i.ino) (hc : i.children = []) :
    WellFormed (link t i) := by
  obtain ⟨r, hr, -⟩ := h.root
  have h1 : 1 ≠ i.ino := fun e => by rw [← e, hr] at hnew; cases hnew
  refine ⟨?_, ?_, fun r' hr' => ?_⟩
  · rw [shape_link t i hc]
    refine Shape.wellFormed_attach h.shape (shape_eq_some hp) hd (by rw [Tree.shape, hnew]; rfl)
      (shape_eq_some hr) ?_
    change i.ino ≠ r.parent
    rw [h.root_parent r hr]
    omega
  · have h0 : 0 ≠ i.parent := fun e => by rw [← e, h.zero] at hp; cases hp
    rw [link, edit_of_ne _ _ h0, Function.update_of_ne (by omega), h.zero]
  · obtain ⟨r₀, hr₀, e⟩ := parent_edit hr' fun _ => rfl
    rw [Function.update_of_ne h1] at hr₀
    rw [e, h.root_parent r₀ hr₀]

theorem wellFormed_unlink {t : Tree} (h : WellFormed t) {i : Inode} (hi : t i.ino = some i)
    (hne : i.ino ≠ 1) (hc : i.isDir = true → i.children = []) (dir : Bool) :
    WellFormed (unlink t i dir) := by
  obtain ⟨p, hp, -⟩ := h.parent hi hne
  refine ⟨?_, ?_, fun r' hr' => ?_⟩
  · rw [shape_unlink]
    refine Shape.wellFormed_detach h.shape (shape_eq_some hi) hne ?_
    cases hd : i.isDir with
    | true => exact hc hd
    | false => exact h.shape.kids_of_not_dir (shape_eq_some hi) hd
  · have h0 : 0 ≠ i.ino := fun e => by rw [← e, h.zero] at hi; cases hi
    have h1 : 0 ≠ i.parent := fun e => by rw [← e, h.zero] at hp; cases hp
    rw [unlink, Function.update_of_ne h0, edit_of_ne _ _ h1, h.zero]
  · rw [unlink, Function.update_of_ne hne.symm] at hr'
    obtain ⟨r₀, hr₀, e⟩ := parent_edit hr' fun _ => rfl
    rw [e, h.root_parent r₀ hr₀]

theorem wellFormed_rename {t : Tree} (h : WellFormed t) {i np : Inode} {newparent : ℕ}
    (hi : t i.ino = some i) (hne : i.ino ≠ 1) (hnp : t newparent = some np) (hd : np.isDir = true)
    (hav : ¬ Reaches t.shape.up newparent i.ino) (newname : String) (now : ℤ) :
    WellFormed (rename t i newparent newname now) := by
  obtain ⟨p, hp, -⟩ := h.parent hi hne
  refine ⟨?_, ?_, fun r' hr' => ?_⟩
  · rw [shape_rename]
    exact Shape.wellFormed_move h.shape (shape_eq_some hi) hne (shape_eq_some hnp) hd hav
  · have h1 : 0 ≠ newparent := fun e => by rw [← e, h.zero] at hnp; cases hnp
    have h2 : 0 ≠ i.ino := fun e => by rw [← e, h.zero] at hi; cases hi
    have h3 : 0 ≠ i.parent := fun e => by rw [← e, h.zero] at hp; cases hp
    rw [rename, edit_of_ne _ _ h1, Function.update_of_ne h2, edit_of_ne _ _ h3, h.zero]
  · obtain ⟨r₁, hr₁, e₁⟩ := parent_edit hr' fun _ => rfl
    rw [Function.update_of_ne hne.symm] at hr₁
    obtain ⟨r₀, hr₀, e₀⟩ := parent_edit hr₁ fun _ => rfl
    rw [e₁, e₀, h.root_parent r₀ hr₀]

theorem ino_ne_parent {t : Tree} (h : WellFormed t) {i : Inode} (hi : t i.ino = some i)
    (hne : i.ino ≠ 1) : i.ino ≠ i.parent := by
  intro e
  have hup : t.shape.up i.ino = some i.ino := Shape.up_eq_some.2 ⟨_, shape_eq_some hi, e.symm⟩
  exact hne (Reaches.of_loop hup (h.shape.reaches _ _ (shape_eq_some hi))).symm

/-- The tree without the entry that is in the way, if there is one. -/
def replacing (t : Tree) (e : Option Inode) : Tree :=
  match e with
  | some e => t.unlink e false
  | none => t

/-- Without an entry there are only fewer ways up. -/
theorem reaches_unlink {t : Tree} {e : Inode} {dir : Bool} {a b : ℕ}
    (h : Reaches (unlink t e dir).shape.up a b) : Reaches t.shape.up a b := by
  refine Relation.ReflTransGen.mono (fun x y hxy => ?_) a b h
  obtain ⟨l, hl, rfl⟩ := Shape.up_eq_some.1 hxy
  obtain ⟨i, hi, rfl⟩ := Option.map_eq_some_iff.1 hl
  by_cases hx : x = e.ino
  · rw [unlink, hx, Function.update_self] at hi
    cases hi
  · rw [unlink, Function.update_of_ne hx] at hi
    obtain ⟨i₀, hi₀, he⟩ := parent_edit hi fun _ => rfl
    exact Shape.up_eq_some.2 ⟨i₀.links, shape_eq_some hi₀, he.symm⟩

/-- Everyone is in the list of its parent, below inode 1. -/
structure Listed (t : Tree) : Prop where
  shape : Shape.Listed 1 t.shape
  root_parent : ∀ r, t 1 = some r → r.parent = 0

theorem WellFormed.toListed {t : Tree} (h : WellFormed t) : Listed t :=
  ⟨h.shape.toListed, h.root_parent⟩

theorem Listed.root {t : Tree} (h : Listed t) : ∃ r, t 1 = some r := by
  obtain ⟨l, hl, -⟩ := h.shape.root_dir
  obtain ⟨r, hr, -⟩ := Option.map_eq_some_iff.1 hl
  exact ⟨r, hr⟩

theorem Listed.zero {t : Tree} (h : Listed t) : t 0 = none := by
  obtain ⟨l, hl, -, hnone⟩ := h.shape.root_dir
  obtain ⟨r, hr, rfl⟩ := Option.map_eq_some_iff.1 hl
  change t.shape r.parent = none at hnone
  rw [h.root_parent r hr] at hnone
  exact Option.map_eq_none_iff.1 hnone

theorem Listed.parent {t : Tree} (h : Listed t) {n : ℕ} {i : Inode} (hi : t n = some i)
    (hn : n ≠ 1) : ∃ p, t i.parent = some p ∧ p.isDir = true := by
  obtain ⟨l, hl, hd, -⟩ := h.shape.listed n i.links (shape_eq_some hi) hn
  obtain ⟨p, hp, rfl⟩ := Option.map_eq_some_iff.1 hl
  exact ⟨p, hp, hd⟩

theorem Listed.parent_ne {t : Tree} (h : Listed t) {n : ℕ} {i : Inode} (hi : t n = some i) :
    i.parent ≠ n :=
  h.shape.parent_ne n i.links (shape_eq_some hi)

theorem Listed.parent_ne_of_leaf {t : Tree} (h : Listed t) {n m : ℕ} {i j : Inode}
    (hi : t n = some i) (hc : i.isDir = true → i.children = []) (hj : t m = some j) :
    j.parent ≠ n :=
  h.shape.parent_ne_of_leaf (shape_eq_some hi) hc (shape_eq_some hj)

theorem Listed.parent_ne_of_none {t : Tree} (h : Listed t) {n m : ℕ} {j : Inode} (hn : t n = none)
    (hpos : 0 < n) (hj : t m = some j) : j.parent ≠ n := by
  obtain ⟨r, hr⟩ := h.root
  refine h.shape.parent_ne_of_none (by rw [Tree.shape, hn]; rfl) (shape_eq_some hr) ?_
    (shape_eq_some hj)
  change n ≠ r.parent
  rw [h.root_parent r hr]
  omega

theorem Listed.ino_ne_root {t : Tree} (h : Listed t) {i : Inode} (hp : (t i.parent).isSome = true)
    (hi : t i.ino = some i) : i.ino ≠ 1 := by
  intro e
  rw [e] at hi
  rw [h.root_parent i hi, h.zero] at hp
  cases hp

/-- The root stays where it is under an edit of a list. -/
theorem Listed.root_parent_edit {t t' : Tree} (h : Listed t) {n : ℕ} {f : Inode → Inode}
    (hf : ∀ i, (f i).parent = i.parent) (ht : t' 1 = t 1) (r : Inode)
    (hr : edit t' n f 1 = some r) : r.parent = 0 := by
  obtain ⟨r₀, hr₀, e⟩ := parent_edit hr hf
  rw [ht] at hr₀
  rw [e, h.root_parent r₀ hr₀]

theorem listed_congr {t t' : Tree} (h : Listed t) (hs : t'.shape = t.shape) : Listed t' := by
  refine ⟨hs ▸ h.shape, fun r hr => ?_⟩
  obtain ⟨r₀, hr₀, e⟩ := shape_parent (congrFun hs 1) hr
  rw [e, h.root_parent r₀ hr₀]

theorem listed_link {t : Tree} (h : Listed t) {i p : Inode} (hp : t i.parent = some p)
    (hd : p.isDir = true) (hnew : t i.ino = none) (hpos : 0 < i.ino) (hc : i.children = []) :
    Listed (link t i) := by
  obtain ⟨r, hr⟩ := h.root
  have h1 : 1 ≠ i.ino := fun e => by rw [← e, hr] at hnew; cases hnew
  refine ⟨?_, h.root_parent_edit (fun _ => rfl) (Function.update_of_ne h1 _ _)⟩
  rw [shape_link t i hc]
  refine Shape.listed_attach h.shape (shape_eq_some hp) hd (by rw [Tree.shape, hnew]; rfl)
    (shape_eq_some hr) ?_
  change i.ino ≠ r.parent
  rw [h.root_parent r hr]
  omega

theorem listed_unlink {t : Tree} (h : Listed t) {i : Inode} (hi : t i.ino = some i)
    (hne : i.ino ≠ 1) (hc : i.isDir = true → i.children = []) (dir : Bool) :
    Listed (unlink t i dir) := by
  refine ⟨?_, fun r hr => ?_⟩
  · rw [shape_unlink]
    exact Shape.listed_detach h.shape (shape_eq_some hi) hne hc
  · rw [unlink, Function.update_of_ne hne.symm] at hr
    exact h.root_parent_edit (f := (·.dropChild i.ino dir)) (fun _ => rfl) rfl r hr

theorem listed_rename {t : Tree} (h : Listed t) {i np : Inode} {newparent : ℕ}
    (hi : t i.ino = some i) (hne : i.ino ≠ 1) (hnp : t newparent = some np) (hd : np.isDir = true)
    (hav : newparent ≠ i.ino) (newname : String) (now : ℤ) :
    Listed (rename t i newparent newname now) := by
  refine ⟨?_, fun r hr => ?_⟩
  · rw [shape_rename]
    exact Shape.listed_move h.shape (shape_eq_some hi) hne (shape_eq_some hnp) hd hav
  · obtain ⟨r₁, hr₁, e₁⟩ := parent_edit hr fun _ => rfl
    rw [Function.update_of_ne hne.symm] at hr₁
    rw [e₁]
    exact h.root_parent_edit (f := (·.dropChild i.ino i.isDir)) (fun _ => rfl) rfl r₁ hr₁

theorem listed_relist {t : Tree} (h : Listed t) {n c : ℕ} (hc : t c = none) (dir : Bool) :
    Listed (edit t n fun p => (p.dropChild c dir).addChild c dir) := by
  refine ⟨?_, h.root_parent_edit (fun _ => rfl) rfl⟩
  rw [shape_edit t n _ (fun l => l.filter (· ≠ c) ++ [c]) fun _ => rfl]
  refine Shape.listed_editKids h.shape fun l _ x hx hne => ?_
  refine List.mem_append_left _ (List.mem_filter.2 ⟨hx, ?_⟩)
  have hxc : x ≠ c := by
    rintro rfl
    rw [Tree.shape, hc] at hne
    exact hne rfl
  simpa using hxc

theorem edit_edit (t : Tree) (n : ℕ) (f g : Inode → Inode) :
    edit (edit t n f) n g = edit t n (g ∘ f) := by
  rw [edit, edit, Function.update_self, Function.update_idem, Option.map_map, edit]

end Tree
end TgCryptFs

import Mathlib.Data.List.Nodup
import Mathlib.Logic.Function.Basic
import TgCryptFs.Library.ParentLinks

set_option autoImplicit false

/-!
# Trees whose links are stored twice

A node names its parent, and a directory also lists its children. `WellFormed`
says that the two agree and that every way up ends at the root; hanging in a new
leaf, taking out a leaf and moving a node keep it.
-/
namespace TgCryptFs.Library

structure Links (N : Type) where
  parent : N
  dir : Bool
  kids : List N

abbrev Shape (N : Type) := N → Option (Links N)

namespace Shape

variable {N : Type}

def up (t : Shape N) (n : N) : Option N := (t n).map Links.parent

structure WellFormed (root : N) (t : Shape N) : Prop where
  root_dir : ∃ l, t root = some l ∧ l.dir = true ∧ t l.parent = none
  parent_dir : ∀ n l, t n = some l → n ≠ root → ∃ p, t l.parent = some p ∧ p.dir = true
  kids_nodup : ∀ n l, t n = some l → l.kids.Nodup
  mem_kids : ∀ n l, t n = some l → ∀ c, c ∈ l.kids ↔ ∃ m, t c = some m ∧ m.parent = n
  reaches : ∀ n l, t n = some l → Reaches t.up n root

variable {root : N} {t : Shape N}

theorem WellFormed.kids_of_not_dir (h : WellFormed root t) {n : N} {l : Links N}
    (hn : t n = some l) (hd : l.dir = false) : l.kids = [] := by
  refine List.eq_nil_iff_forall_not_mem.2 fun c hc => ?_
  obtain ⟨m, hm, rfl⟩ := (h.mem_kids n l hn c).1 hc
  by_cases hr : c = root
  · subst hr
    obtain ⟨r, hr, -, hp⟩ := h.root_dir
    rw [hm] at hr
    cases hr
    rw [hn] at hp
    cases hp
  · obtain ⟨p, hp, hpd⟩ := h.parent_dir c m hm hr
    rw [hn] at hp
    cases hp
    rw [hd] at hpd
    cases hpd

/-- Nobody hangs below a node that is not there, the root apart. -/
theorem WellFormed.parent_ne (h : WellFormed root t) {c : N} {lr : Links N} (hc : t c = none)
    (hr : t root = some lr) (hcr : c ≠ lr.parent) {n : N} {l : Links N} (hn : t n = some l) :
    l.parent ≠ c := by
  rintro rfl
  by_cases hnr : n = root
  · subst hnr
    rw [hn] at hr
    cases hr
    exact hcr rfl
  · obtain ⟨p, hp, -⟩ := h.parent_dir n l hn hnr
    rw [hp] at hc
    cases hc

theorem WellFormed.parent_ne_leaf (h : WellFormed root t) {c : N} {lc : Links N}
    (hc : t c = some lc) (hk : lc.kids = []) {n : N} {l : Links N} (hn : t n = some l) :
    l.parent ≠ c := by
  rintro rfl
  have := (h.mem_kids _ lc hc n).2 ⟨l, hn, rfl⟩
  rw [hk] at this
  cases this

theorem up_eq_some {n p : N} : t.up n = some p ↔ ∃ l, t n = some l ∧ l.parent = p := by
  simp [up]

variable [DecidableEq N]

def editKids (t : Shape N) (n : N) (f : List N → List N) : Shape N :=
  Function.update t n ((t n).map fun l => { l with kids := f l.kids })

/-- Hang in a new node without children. -/
def attach (t : Shape N) (c p : N) (dir : Bool) : Shape N :=
  editKids (Function.update t c (some ⟨p, dir, []⟩)) p (· ++ [c])

/-- Take out `c`, listed at `p`. -/
def detach (t : Shape N) (c p : N) : Shape N :=
  Function.update (editKids t p (·.filter (· ≠ c))) c none

/-- Move `m`, with links `l`, below `np`. -/
def move (t : Shape N) (m : N) (l : Links N) (np : N) : Shape N :=
  editKids (Function.update (editKids t l.parent (·.filter (· ≠ m))) m (some { l with parent := np }))
    np (· ++ [m])

theorem attach_apply {c p : N} {dir : Bool} {lp : Links N} (hp : t p = some lp) (hc : t c = none)
    (n : N) :
    attach t c p dir n = if n = p then some { lp with kids := lp.kids ++ [c] }
      else if n = c then some ⟨p, dir, []⟩ else t n := by
  have hne : p ≠ c := by
    rintro rfl
    rw [hp] at hc
    cases hc
  unfold attach editKids
  by_cases h : n = p
  · subst h
    simp [Function.update_of_ne hne, hp]
  · by_cases h' : n = c
    · subst h'
      simp [h]
    · simp [h, h']

theorem wellFormed_attach (h : WellFormed root t) {c p : N} {dir : Bool} {lp lr : Links N}
    (hp : t p = some lp) (hd : lp.dir = true) (hc : t c = none) (hr : t root = some lr)
    (hcr : c ≠ lr.parent) : WellFormed root (attach t c p dir) := by
  have happ : ∀ n, attach t c p dir n = _ := attach_apply hp hc
  generalize attach t c p dir = t' at happ
  have hleaf : ∀ n l, t n = some l → l.parent ≠ c := fun n l hn => h.parent_ne hc hr hcr hn
  have hup : ∀ n, n ≠ c → t'.up n = t.up n := by
    intro n hn
    grind [up]
  refine ⟨?_, ?_, ?_, ?_, ?_⟩
  · obtain ⟨r, h1, h2, h3⟩ := h.root_dir
    grind
  · intro n l hn hnr
    have := h.parent_dir n
    grind
  · intro n l hn
    have := h.kids_nodup n
    have := h.mem_kids n
    grind
  · intro n l hn x
    have := h.mem_kids n
    grind
  · have hold : ∀ n l, t n = some l → Reaches t'.up n root := by
      intro n l hn
      have hnc : n ≠ c := by
        rintro rfl
        rw [hn] at hc
        cases hc
      refine Reaches.of_leaf (fun x hx => ?_) hup hnc (h.reaches n l hn)
      obtain ⟨lx, hx, e⟩ := up_eq_some.1 hx
      exact hleaf x lx hx e
    intro n l hn
    by_cases hnc : n = c
    · refine Reaches.head (b := p) ?_ (hold p lp hp)
      grind [up]
    · cases ht : t n with
      | some l₀ => exact hold n l₀ ht
      | none => grind

theorem detach_apply {c p : N} {lp : Links N} (hp : t p = some lp) (n : N) :
    detach t c p n = if n = c then none
      else if n = p then some { lp with kids := lp.kids.filter (· ≠ c) } else t n := by
  unfold detach editKids
  by_cases h : n = c
  · simp [h]
  · by_cases h' : n = p
    · subst h'
      simp [h, hp]
    · simp [h, h']

theorem wellFormed_detach (h : WellFormed root t) {c : N} {l : Links N} (hc : t c = some l)
    (hcr : c ≠ root) (hk : l.kids = []) : WellFormed root (detach t c l.parent) := by
  obtain ⟨lp, hp, hpd⟩ := h.parent_dir c l hc hcr
  have happ : ∀ n, detach t c l.parent n = _ := detach_apply hp
  generalize detach t c l.parent = t' at happ
  have hleaf : ∀ n m, t n = some m → m.parent ≠ c := fun n m hn => h.parent_ne_leaf hc hk hn
  have hup : ∀ n, n ≠ c → t'.up n = t.up n := by
    intro n hn
    grind [up]
  refine ⟨?_, ?_, ?_, ?_, ?_⟩
  · obtain ⟨r, h1, h2, h3⟩ := h.root_dir
    grind
  · intro n m hn hnr
    have := h.parent_dir n
    grind
  · intro n m hn
    have := h.kids_nodup n
    grind
  · intro n m hn x
    have := h.mem_kids n
    grind
  · intro n m hn
    have hnc : n ≠ c := by
      rintro rfl
      grind
    obtain ⟨m₀, hm₀⟩ : ∃ m₀, t n = some m₀ := by grind
    refine Reaches.of_leaf (fun x hx => ?_) hup hnc (h.reaches n m₀ hm₀)
    obtain ⟨lx, hx, e⟩ := up_eq_some.1 hx
    exact hleaf x lx hx e

theorem move_apply {m np : N} {l lp lnp : Links N} (hp : t l.parent = some lp)
    (hnp : t np = some lnp) (hmp : m ≠ l.parent) (hmn : m ≠ np) (n : N) :
    move t m l np n = if n = m then some { l with parent := np }
      else if n = np then some { lnp with
        kids := (if np = l.parent then lp.kids.filter (· ≠ m) else lnp.kids) ++ [m] }
      else if n = l.parent then some { lp with kids := lp.kids.filter (· ≠ m) } else t n := by
  unfold move editKids
  by_cases h : n = m
  · subst h
    simp [hmn]
  by_cases h' : n = np
  · subst h'
    by_cases hpar : n = l.parent
    · subst hpar
      simp [h, hp]
      grind
    · simp [h, hpar, hnp]
  · by_cases hpar : n = l.parent
    · subst hpar
      simp [h, h', hp]
    · simp [h, h', hpar]

theorem wellFormed_move (h : WellFormed root t) {m np : N} {l lnp : Links N} (hm : t m = some l)
    (hmr : m ≠ root) (hnp : t np = some lnp) (hd : lnp.dir = true) (hav : ¬ Reaches t.up np m) :
    WellFormed root (move t m l np) := by
  obtain ⟨lp, hp, hpd⟩ := h.parent_dir m l hm hmr
  have hmn : m ≠ np := by
    rintro rfl
    exact hav (Reaches.refl _ _)
  have hmp : m ≠ l.parent := by
    intro e
    have hloop : t.up m = some m := up_eq_some.2 ⟨l, hm, e.symm⟩
    exact hmr (Reaches.of_loop hloop (h.reaches m l hm)).symm
  have happ : ∀ n, move t m l np n = _ := move_apply hp hnp hmp hmn
  generalize move t m l np = t' at happ
  have hup : ∀ n, n ≠ m → t'.up n = t.up n := by
    intro n hn
    grind [up]
  have hupm : t'.up m = some np := by grind [up]
  refine ⟨?_, ?_, ?_, ?_, ?_⟩
  · obtain ⟨r, h1, h2, h3⟩ := h.root_dir
    grind
  · intro n k hn hnr
    have := h.parent_dir n
    grind
  · intro n k hn
    have := h.kids_nodup n
    have := h.mem_kids n
    grind
  · intro n k hn x
    have := h.mem_kids n
    have := h.mem_kids np
    grind
  · intro n k hn
    obtain ⟨k₀, hk₀⟩ : ∃ k₀, t n = some k₀ := by grind
    exact Reaches.of_move hupm hup hav (h.reaches np lnp hnp) (h.reaches n k₀ hk₀)

/-- Half of the agreement: whoever names a parent stands in its list. The list may name
    more, and the ways up may close. -/
structure Listed (root : N) (t : Shape N) : Prop where
  root_dir : ∃ l, t root = some l ∧ l.dir = true ∧ t l.parent = none
  listed : ∀ n l, t n = some l → n ≠ root → ∃ p, t l.parent = some p ∧ p.dir = true ∧ n ∈ p.kids
  parent_ne : ∀ n l, t n = some l → l.parent ≠ n

omit [DecidableEq N] in
theorem WellFormed.toListed (h : WellFormed root t) : Listed root t := by
  refine ⟨h.root_dir, fun n l hn hr => ?_, fun n l hn e => ?_⟩
  · obtain ⟨p, hp, hd⟩ := h.parent_dir n l hn hr
    exact ⟨p, hp, hd, (h.mem_kids _ p hp n).2 ⟨l, hn, rfl⟩⟩
  · have hr : n = root := (Reaches.of_loop (up_eq_some.2 ⟨l, hn, e⟩) (h.reaches n l hn)).symm
    obtain ⟨r, hroot, -, hnone⟩ := h.root_dir
    rw [hr, hroot] at hn
    cases hn
    rw [e, hr, hroot] at hnone
    cases hnone

omit [DecidableEq N] in
/-- Nobody names a number that nobody has, the root apart. -/
theorem Listed.parent_ne_of_none (h : Listed root t) {c : N} (hc : t c = none) {lr : Links N}
    (hr : t root = some lr) (hcr : c ≠ lr.parent) {n : N} {l : Links N} (hn : t n = some l) :
    l.parent ≠ c := by
  rintro rfl
  by_cases hnr : n = root
  · subst hnr
    rw [hn] at hr
    cases hr
    exact hcr rfl
  · obtain ⟨p, hp, -⟩ := h.listed n l hn hnr
    rw [hp] at hc
    cases hc

omit [DecidableEq N] in
theorem Listed.parent_ne_of_leaf (h : Listed root t) {c : N} {lc : Links N} (hc : t c = some lc)
    (hk : lc.dir = true → lc.kids = []) {n : N} {l : Links N} (hn : t n = some l) :
    l.parent ≠ c := by
  rintro rfl
  by_cases hnr : n = root
  · subst hnr
    obtain ⟨r, hr, -, hp⟩ := h.root_dir
    rw [hn] at hr
    cases hr
    rw [hp] at hc
    cases hc
  · obtain ⟨p, hp, hd, hmem⟩ := h.listed n l hn hnr
    rw [hc] at hp
    cases hp
    rw [hk hd] at hmem
    cases hmem

theorem listed_attach (h : Listed root t) {c p : N} {dir : Bool} {lp lr : Links N}
    (hp : t p = some lp) (hd : lp.dir = true) (hc : t c = none) (hr : t root = some lr)
    (hcr : c ≠ lr.parent) : Listed root (attach t c p dir) := by
  have happ : ∀ n, attach t c p dir n = _ := attach_apply hp hc
  generalize attach t c p dir = t' at happ
  refine ⟨?_, ?_, ?_⟩
  · obtain ⟨r, h1, h2, h3⟩ := h.root_dir
    grind
  · intro n l hn hnr
    have := h.listed n
    grind
  · intro n l hn
    have := h.parent_ne n
    grind

theorem listed_detach (h : Listed root t) {c : N} {l : Links N} (hc : t c = some l)
    (hcr : c ≠ root) (hk : l.dir = true → l.kids = []) : Listed root (detach t c l.parent) := by
  obtain ⟨lp, hp, -⟩ := h.listed c l hc hcr
  have happ : ∀ n, detach t c l.parent n = _ := detach_apply hp
  generalize detach t c l.parent = t' at happ
  have hleaf : ∀ n m, t n = some m → m.parent ≠ c := fun n m hn => h.parent_ne_of_leaf hc hk hn
  refine ⟨?_, ?_, ?_⟩
  · obtain ⟨r, h1, h2, h3⟩ := h.root_dir
    grind
  · intro n m hn hnr
    have := h.listed n
    grind
  · intro n m hn
    have := h.parent_ne n
    grind

theorem listed_move (h : Listed root t) {m np : N} {l lnp : Links N} (hm : t m = some l)
    (hmr : m ≠ root) (hnp : t np = some lnp) (hd : lnp.dir = true) (hmn : np ≠ m) :
    Listed root (move t m l np) := by
  obtain ⟨lp, hp, -⟩ := h.listed m l hm hmr
  have hmp : m ≠ l.parent := (h.parent_ne m l hm).symm
  have happ : ∀ n, move t m l np n = _ := move_apply hp hnp hmp hmn.symm
  generalize move t m l np = t' at happ
  refine ⟨?_, ?_, ?_⟩
  · obtain ⟨r, h1, h2, h3⟩ := h.root_dir
    grind
  · intro n k hn hnr
    have := h.listed n
    grind
  · intro n k hn
    have := h.parent_ne n
    grind

theorem listed_editKids (h : Listed root t) {n : N} {f : List N → List N}
    (hf : ∀ l, t n = some l → ∀ c ∈ l.kids, t c ≠ none → c ∈ f l.kids) :
    Listed root (editKids t n f) := by
  have happ : ∀ k l, editKids t n f k = some l ↔ ∃ l₀, t k = some l₀ ∧
      l = if k = n then { l₀ with kids := f l₀.kids } else l₀ := by
    intro k l
    rw [editKids, Function.update_apply]
    split
    · rename_i e
      rw [Option.map_eq_some_iff, e]
      exact exists_congr fun _ => and_congr_right fun _ => eq_comm
    · simp
  have hnone : ∀ k, t k = none → editKids t n f k = none := by
    intro k hk
    refine Option.eq_none_iff_forall_ne_some.2 fun l hl => ?_
    obtain ⟨l₀, hl₀, -⟩ := (happ k l).1 hl
    rw [hk] at hl₀
    cases hl₀
  generalize editKids t n f = t' at happ hnone
  refine ⟨?_, fun k l hk hkr => ?_, fun k l hk => ?_⟩
  · obtain ⟨r, h1, h2, h3⟩ := h.root_dir
    refine ⟨_, (happ root _).2 ⟨r, h1, rfl⟩, ?_, hnone _ ?_⟩
    · split
      · exact h2
      · exact h2
    · split
      · exact h3
      · exact h3
  · obtain ⟨l₀, hl₀, rfl⟩ := (happ k l).1 hk
    obtain ⟨p, hp, hd, hmem⟩ := h.listed k l₀ hl₀ hkr
    have hpar : (if k = n then { l₀ with kids := f l₀.kids } else l₀).parent = l₀.parent := by
      split <;> rfl
    rw [hpar]
    refine ⟨_, (happ _ _).2 ⟨p, hp, rfl⟩, ?_, ?_⟩
    · split
      · exact hd
      · exact hd
    · split
      · rename_i e
        exact hf p (e ▸ hp) k hmem (by rw [hl₀]; exact Option.some_ne_none _)
      · exact hmem
  · obtain ⟨l₀, hl₀, rfl⟩ := (happ k l).1 hk
    have := h.parent_ne k l₀ hl₀
    split
    · exact this
    · exact this

end Shape
end TgCryptFs.Library

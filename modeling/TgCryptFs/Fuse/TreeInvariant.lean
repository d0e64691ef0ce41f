import TgCryptFs.Fuse.Namespace

set_option autoImplicit false

/-!
# One tree in every reachable state

Both tables of a state, the one its connection sees and the one a crash would
leave, are well-formed trees along every run in which the discarded statements go
through.
-/
namespace TgCryptFs
open Library

section

variable [Primitives]

def System.TreeOk (s : System) : Prop :=
  Tree.WellFormed s.inodes.find ∧ Tree.WellFormed s.durable.find

theorem System.SameInodes.treeOk {s s' : System} (h : s.SameInodes s') (hs : s.TreeOk) : s'.TreeOk := by
  rw [TreeOk, h.inodes, h.durable]
  exact hs

theorem treeOk_committed {env : Env} {s : System} {t : Inodes} (hs : s.TreeOk)
    (ht : Tree.WellFormed t.find) : (env.committed (s.begun.writeInodes t)).TreeOk := by
  rw [System.TreeOk, durable_committed, inodes_committed]
  refine ⟨?_, ?_⟩
  · split
    · exact hs.1
    · exact ht
  · split
    · exact ht
    · exact hs.1

theorem treeOk_writeInodes {s : System} {t : Inodes} (hs : s.TreeOk) (ht : Tree.WellFormed t.find) :
    (s.writeInodes t).TreeOk := by
  rw [System.TreeOk, System.inodes_writeInodes, System.durable_writeInodes]
  refine ⟨ht, ?_⟩
  split
  · exact ht
  · exact hs.2

theorem wellFormed_removed {env : Env} (hg : env.sql .parentGet = true)
    (hu : env.sql .parentUpdate = true) {t : Inodes} (h : Tree.WellFormed t.find) {req : Request}
    {parent : ℕ} {name : String} {inode : Inode}
    (hreq : req.removal = some (parent, name, inode.isDir)) (hv : req.Valid t)
    (hl : InodeStore.lookup t parent name = some inode)
    (hempty : inode.isDir = true → inode.children = []) :
    (env.removed parent inode inode.isDir t).find = Tree.unlink t.find inode inode.isDir ∧
    Tree.WellFormed (Tree.unlink t.find inode inode.isDir) := by
  have hp : (t.find parent).isSome = true := by
    rcases removal_eq_some hreq with rfl | rfl
    · exact hv
    · exact hv
  obtain ⟨hi, rfl, -⟩ := lookup_eq_some hl
  exact ⟨find_removed hg hu t inode inode.isDir,
    Tree.wellFormed_unlink h hi (lookup_ne_root h hp hl) hempty inode.isDir⟩

theorem treeOk_step (hb : Function.Injective blake3) {e : Event} {s : System}
    (hk : e.KeepsTree s) (hv : e.req.Valid s.inodes) (hs : s.TreeOk) :
    (e.step s).TreeOk := by
  obtain ⟨env, req⟩ := e
  have heff := exec_effect env req s
  change (exec env req s).2.TreeOk
  generalize (exec env req s).1 = r at heff
  generalize (exec env req s).2 = s' at heff
  dsimp only at hv
  cases heff with
  | same hs' => exact hs'.treeOk hs
  | rooted hnone =>
    obtain ⟨r, hr, -⟩ := hs.1.root
    rw [hnone] at hr
    cases hr
  | edited _ hi he ht hs' =>
    exact hs'.treeOk (treeOk_writeInodes hs (Tree.wellFormed_congr hs.1 (shape_edited hi he ht)))
  | linked hreq hino hp hdir h₁ h₂ _ hs' =>
    exact hs'.treeOk (treeOk_committed hs (wellFormed_linked hs.1 hreq hino hp hdir h₁ h₂))
  | inserted hreq hino hp hdir h₁ hfind halloc hinsert =>
    obtain ⟨t₂, h₂⟩ := update_linked hp h₁
    have hins : Event.Inserts ⟨env, _⟩ s :=
      ⟨hfind, halloc, hinsert, _, _, _, _, _, _, _, _, rfl, hino, hreq, hp, hdir, h₁⟩
    rw [tryUpdate_of_ok (hk.inserts hins) h₂]
    exact treeOk_writeInodes hs (wellFormed_linked hs.1 hreq hino hp hdir h₁ h₂)
  | removed hreq hl hempty hauto hfind hbegin hdelete =>
    obtain ⟨hg, hu⟩ := hk.removes _ ⟨hfind, hbegin, hdelete, hauto, ⟨_, _, hreq, hl⟩, hempty⟩
    obtain ⟨hf, hwf⟩ := wellFormed_removed hg hu hs.1 hreq hv hl hempty
    exact treeOk_committed hs (hf ▸ hwf)
  | renamed hl hdest hauto hfind hbegin =>
    obtain ⟨-, rfl, -⟩ := lookup_eq_some hl
    have hmv : Event.Moves ⟨env, _⟩ s _ _ _ := ⟨hfind, hbegin, hauto, ⟨_, rfl, hl⟩, hdest⟩
    obtain ⟨hf, hwf⟩ := find_renamed hb hs.1 (hk.clears _ _ _ hmv) (hk.moves _ _ _ hmv) hv hl
      fun d hd => hdest d (hk.clears _ _ _ hmv (by rw [hd]; exact Option.some_ne_none _)).probe hd
    exact treeOk_committed hs (hf ▸ hwf)
  | leaked => exact ⟨hs.1, hs.1⟩

theorem init_fresh {env : Env} (henv : env.AllOk) (m : Mount) (cache : Option BlockCache) :
    ∃ t : Inodes, (exec env .init (.fresh m cache)).2 = (System.fresh m cache).writeInodes t ∧
      t.rows = [mountRoot m (systemTimeToNs (env.now 0))] := by
  obtain ⟨t, ht⟩ := Table.insert_eq_some (t := (System.fresh m cache).inodes)
    (r := mountRoot m (systemTimeToNs (env.now 0))) rfl rfl
  have hget : env.read .find (.ok (InodeStore.get (System.fresh m cache).inodes 1)) = .ok none := by
    rw [Env.read, henv.sql]
    rfl
  have hins : env.read .insert (InodeStore.insert (System.fresh m cache).inodes
      (mountRoot m (systemTimeToNs (env.serve (.now 0) (.fresh m cache)).1))) = .ok t := by
    change env.read .insert (InodeStore.insert _ (mountRoot m (systemTimeToNs (env.now 0)))) = _
    rw [Env.read, henv.sql, InodeStore.insert, ht]
    rfl
  refine ⟨t, ?_, (Table.rows_insert ht).1⟩
  rw [exec, handler, init, CallTree.run_call, Env.fst_serve_get, Env.snd_serve_get, hget]
  simp only [CallTree.run_call, Env.snd_serve_now, Env.serve_insert]
  rw [show (System.fresh m cache).mount = m from rfl, hins]
  rfl

theorem wellFormed_singleton {t : Inodes} {r : Inode} (h : t.rows = [r]) (hino : r.ino = 1)
    (hp : r.parent = 0) (hd : r.isDir = true) (hc : r.children = []) : Tree.WellFormed t.find := by
  have hfind : ∀ n, t.find n = if n = 1 then some r else none := by
    intro n
    by_cases hn : n = 1
    · rw [if_pos hn, hn, ← hino]
      exact Table.find_of_mem (by simp [h])
    · rw [if_neg hn]
      refine Table.find_eq_none.2 fun x hx => ?_
      rw [h, List.mem_singleton] at hx
      rw [hx, hino]
      exact Ne.symm hn
  have hshape : ∀ n, Tree.shape t.find n = if n = 1 then some ⟨0, true, []⟩ else none := by
    intro n
    rw [Tree.shape, hfind]
    split
    · rw [Option.map_some, Inode.links, hp, hd, hc]
    · rfl
  refine ⟨⟨⟨⟨0, true, []⟩, by simp [hshape], rfl, by simp [hshape]⟩, ?_, ?_, ?_, ?_⟩, by simp [hfind], ?_⟩
  · intro n l hn hne
    simp [hshape, hne] at hn
  · intro n l hn
    simp only [hshape] at hn
    split at hn
    · cases hn
      exact List.nodup_nil
    · cases hn
  · intro n l hn c
    simp only [hshape] at hn ⊢
    split at hn
    · cases hn
      simp_all
    · cases hn
  · intro n l hn
    simp only [hshape] at hn
    split at hn
    · rename_i e
      subst e
      exact Reaches.refl _ _
    · cases hn
  · intro r' hr'
    rw [hfind, if_pos rfl] at hr'
    cases hr'
    exact hp

theorem treeOk_init {env : Env} (henv : env.AllOk) (m : Mount) (cache : Option BlockCache) :
    (exec env .init (.fresh m cache)).2.TreeOk := by
  obtain ⟨t, hs, ht⟩ := init_fresh henv m cache
  have hwf : Tree.WellFormed t.find := wellFormed_singleton ht rfl rfl rfl rfl
  rw [hs, System.TreeOk, System.inodes_writeInodes, System.durable_writeInodes,
    if_pos (isAutocommit_fresh m cache)]
  exact ⟨hwf, hwf⟩

/-- A table of inodes that is one tree under the directory 1. -/
structure IsTree (t : Inodes) : Prop where
  root : ∃ r, t.find 1 = some r ∧ r.isDir = true
  unique : ∀ a ∈ t.rows, ∀ b ∈ t.rows, a.parent = b.parent → a.name = b.name → a = b
  parent : ∀ i ∈ t.rows, i.ino ≠ 1 → ∃ p, t.find i.parent = some p ∧ p.isDir = true
  nodup : ∀ d ∈ t.rows, d.isDir = true → d.children.Nodup
  children : ∀ d ∈ t.rows, d.isDir = true →
    ∀ c, c ∈ d.children ↔ ∃ i ∈ t.rows, i.ino = c ∧ i.parent = d.ino
  leaf : ∀ i ∈ t.rows, i.isDir = false → i.children = []
  reaches : ∀ i ∈ t.rows, Reaches (parentOf t) i.ino 1

theorem isTree_of_wellFormed {t : Inodes} (h : Tree.WellFormed t.find) : IsTree t := by
  have hshape : ∀ i ∈ t.rows, Tree.shape t.find i.ino = some i.links := fun i hi =>
    Tree.shape_eq_some (Table.find_of_mem hi)
  refine ⟨h.root, fun a ha b hb hp hn => ?_, fun i hi hne => h.parent (Table.find_of_mem hi) hne,
    fun d hd _ => h.shape.kids_nodup _ _ (hshape d hd), fun d hd _ c => ?_,
    fun i hi hd => h.shape.kids_of_not_dir (hshape i hi) hd, fun i hi => ?_⟩
  · refine List.inj_on_of_nodup_map t.uniq_nodup ha hb ?_
    rw [Inode.nameKey, Inode.nameKey, hp, hn]
  · refine (h.shape.mem_kids _ _ (hshape d hd) c).trans ⟨?_, ?_⟩
    · rintro ⟨l, hl, e⟩
      obtain ⟨i, hi, rfl⟩ := Option.map_eq_some_iff.1 hl
      exact ⟨i, Table.mem_of_find hi, Table.key_of_find hi, e⟩
    · rintro ⟨i, hi, rfl, e⟩
      exact ⟨i.links, hshape i hi, e⟩
  · rw [← up_shape]
    exact h.shape.reaches _ _ (hshape i hi)

/-- Along every run from `init` whose statements succeed and whose requests the kernel may
    send, the table is one tree, and so is the one a crash would leave. -/
theorem isTree_of_runs (hb : Function.Injective blake3) {env₀ : Env} (h₀ : env₀.AllOk) (m : Mount)
    (cache : Option BlockCache) {s : System}
    (h : Runs Event.step (fun e s => e.env.AllOk ∧ e.req.Valid s.inodes)
      (exec env₀ .init (.fresh m cache)).2 s) : IsTree s.inodes ∧ IsTree s.durable := by
  have hs : s.TreeOk := h.invariant System.TreeOk (treeOk_init h₀ m cache) fun _ _ hi he =>
    treeOk_step hb (he.1.keepsTree _) he.2 hi
  exact ⟨isTree_of_wellFormed hs.1, isTree_of_wellFormed hs.2⟩

end

section

open scoped Sample

/-- A directory, a file in it, and the file moved up to the root. -/
def movingRun : List Event :=
  [.mkdir Sample.caller 1 (.utf8 "a") 0o755, .create Sample.caller 2 (.utf8 "b") 0o644 0,
    .rename 2 (.utf8 "b") 1 (.utf8 "ab")].map Sample.event

theorem movingRun_admitted :
    Runs.Admits Event.step (fun e s => e.env.AllOk ∧ e.req.Valid s.inodes) movingRun Sample.rooted := by
  have hok := Sample.allOk_env none []
  refine ⟨⟨hok, ?_⟩, ⟨hok, ?_⟩, ⟨hok, ?_, ?_, ?_, ?_⟩, trivial⟩
  · change Option.isSome (Table.find Sample.rooted.inodes 1) = true
    decide +kernel
  · change Option.isSome (Table.find (Event.step _ Sample.rooted).inodes 2) = true
    decide +kernel
  · decide +kernel
  · decide
  · exact ⟨_, Option.some_get (by decide +kernel) |>.symm, by decide +kernel⟩
  · intro n i hn hi hr
    cases hn
    -- The volume the rename meets.
    let t := (Runs.runAll Event.step (movingRun.take 2) Sample.rooted).inodes
    have hino : (InodeStore.lookup t 2 "b").map Inode.ino = some 3 := by decide +kernel
    have h1 : parentOf t 1 = some 0 := by decide +kernel
    have h0 : parentOf t 0 = none := by decide +kernel
    change InodeStore.lookup t 2 "b" = some i at hi
    rw [hi, Option.map_some, Option.some.injEq] at hino
    rw [hino] at hr
    rcases Reaches.of_top h1 h0 hr with h | h
    · cases h
    · cases h

theorem isTree_after_rename : IsTree (Runs.runAll Event.step movingRun Sample.rooted).inodes :=
  (isTree_of_runs Sample.hash_injective (Sample.allOk_env none []) Sample.mount none
    (Runs.of_admits movingRun .start movingRun_admitted)).1

end

end TgCryptFs

import TgCryptFs.Fuse.Atomicity
import TgCryptFs.Fuse.HandleIdentity
import TgCryptFs.Fuse.RowInvariants

set_option autoImplicit false

/-!
# A rename onto itself

Where source and destination are one entry, `rename` takes the row out as its destination
and then rewrites it as its source: the UPDATE of a row that is gone changes nothing. Only
a request that stops before, or whose statements on the destination fail, leaves the entry.
-/
namespace TgCryptFs
open Library

/-- The same row, up to its timestamps. -/
def Inode.SameButTimes (i i' : Inode) : Prop := i = { i' with timestamps := i.timestamps }

section

variable [Primitives]

/-- The same rows, up to timestamps. -/
def SameButTimes (t t' : Inodes) : Prop := ∀ n, Option.Rel Inode.SameButTimes (t.find n) (t'.find n)

/-- `rename(parent, name, parent, name)`, for the entry `i`. -/
def Request.renameOnto (i : Inode) : Request :=
  .rename i.parent (.utf8 i.name) i.parent (.utf8 i.name)

namespace Env

/-- `editRow` at these sites gets through. -/
def edits (env : Env) (getSite updateSite : Site) : Bool := env.sql getSite && env.sql updateSite

/-- The rename passes its checks, and its COMMIT does not take everything back. -/
def Rewrites (env : Env) (s : System) (i : Inode) : Prop :=
  env.sql .find = true ∧ env.sql .begin = true ∧ s.conn.IsAutocommit ∧ env.commit ≠ .rolledBack ∧
  (env.sql .probe = true → i.isDir = true → i.children = [])

/-- The destination's row is looked up and deleted. -/
def clearsDest (env : Env) : Bool := env.sql .probe && env.sql .destDelete

/-- The number of `i` is taken out of its parent's list as the destination's. -/
def unlistsDest (env : Env) : Bool :=
  env.sql .probe && env.edits .destParentGet .destParentUpdate

/-- The statements on the parent's row `p` cancel out: what is listed again was taken off
    the end, and the link of a directory is lost and won. -/
def Relists (env : Env) (i p : Inode) : Prop :=
  if env.edits .newParentGet .newParentUpdate then
    (env.unlistsDest || env.edits .parentGet .parentUpdate) = true ∧
    (∃ l, p.children = l ++ [i.ino] ∧ i.ino ∉ l) ∧
    (i.isDir = true → env.edits .parentGet .parentUpdate = true ∧ 0 < p.nlink)
  else
    ((env.unlistsDest || env.edits .parentGet .parentUpdate) = true → i.ino ∉ p.children) ∧
    (i.isDir = true → env.edits .parentGet .parentUpdate = true → p.nlink = 0)

/-- The parent's row `p` after the three edits. -/
def relisted (env : Env) (i p : Inode) : Inode :=
  let p := if env.unlistsDest then p.dropChild i.ino false else p
  let p := if env.edits .parentGet .parentUpdate then p.dropChild i.ino i.isDir else p
  if env.edits .newParentGet .newParentUpdate then p.addChild i.ino i.isDir else p

end Env

omit [Primitives] in
theorem filter_ne_append_eq_iff {l : List ℕ} {x : ℕ} :
    l.filter (· ≠ x) ++ [x] = l ↔ ∃ l', l = l' ++ [x] ∧ x ∉ l' := by
  constructor
  · intro h
    refine ⟨_, h.symm, fun hx => ?_⟩
    simpa using List.of_mem_filter hx
  · rintro ⟨l', rfl, hx⟩
    have hl : l'.filter (· ≠ x) = l' := List.filter_eq_self.2 fun y hy => by
      simp only [ne_eq, decide_not, Bool.not_eq_true', decide_eq_false_iff_not]
      rintro rfl
      exact hx hy
    rw [List.filter_append, hl]
    simp

omit [Primitives] in
theorem filter_ne_eq_iff {l : List ℕ} {x : ℕ} : l.filter (· ≠ x) = l ↔ x ∉ l := by
  rw [List.filter_eq_self]
  constructor
  · intro h hx
    simpa using h x hx
  · intro h y hy
    simp only [ne_eq, decide_not, Bool.not_eq_true', decide_eq_false_iff_not]
    rintro rfl
    exact h hy

omit [Primitives] in
/-- An edit of a parent's list and link count is invisible where it changes neither. -/
theorem sameButTimes_relist {p : Inode} {children : List ℕ} {nlink : ℕ} :
    p.SameButTimes { p with children := children, nlink := nlink } ↔
      children = p.children ∧ nlink = p.nlink := by
  constructor
  · intro h
    exact ⟨(congrArg Inode.children h).symm, (congrArg Inode.nlink h).symm⟩
  · rintro ⟨rfl, rfl⟩
    rfl

omit [Primitives] in
theorem sameButTimes_relisted {env : Env} {i p : Inode} :
    p.SameButTimes (env.relisted i p) ↔ env.Relists i p := by
  have hp : env.relisted i p = { p with
      children := (env.relisted i p).children, nlink := (env.relisted i p).nlink } := by
    unfold Env.relisted
    split <;> split <;> split <;> rfl
  rw [hp, sameButTimes_relist, Env.Relists, ← filter_ne_append_eq_iff, ← filter_ne_eq_iff]
  unfold Env.relisted Inode.addChild Inode.dropChild
  cases hd : i.isDir
  all_goals
    cases env.unlistsDest <;> cases env.edits .parentGet .parentUpdate <;>
      cases env.edits .newParentGet .newParentUpdate <;>
        simp
  all_goals omega

theorem find_tryEdit_edits (env : Env) (getSite updateSite : Site) (t : Inodes) (ino : ℕ)
    {f : Inode → Inode} (hf : KeepsKey f) :
    (env.tryEdit getSite updateSite t ino f).find =
      Tree.edit t.find ino (if env.edits getSite updateSite then f else id) := by
  cases hg : env.sql getSite with
  | false => simp [Env.edits, Env.tryEdit, Env.read, hg, Tree.edit_id]
  | true =>
    cases hu : env.sql updateSite with
    | true => simp [Env.edits, hg, hu, find_tryEdit hg hu t ino hf]
    | false =>
      simp only [Env.edits, Env.tryEdit, Env.read, Env.tryUpdate, hg, hu, Bool.and_false,
        Bool.false_eq_true, if_false, Tree.edit_id]
      cases InodeStore.get t ino <;> rfl

theorem lookup_self {t : Inodes} {i : Inode} (hi : t.find i.ino = some i) :
    InodeStore.lookup t i.parent i.name = some i :=
  Table.findUniq_eq_some_iff_find.2 ⟨hi, rfl⟩

/-- The destination is taken off the list at most, where its row is not deleted. -/
theorem find_cleared_self {env : Env} {t : Inodes} {i : Inode} (hi : t.find i.ino = some i)
    (hdel : env.clearsDest = false) :
    (env.cleared i.parent i.name t).find =
      Tree.edit t.find i.parent (if env.unlistsDest then (·.dropChild i.ino false) else id) := by
  rw [Env.cleared, lookup_self hi]
  cases hp : env.sql .probe with
  | false =>
    simp only [Env.read, hp, Bool.false_eq_true, if_false, Env.unlistsDest, Bool.false_and,
      Tree.edit_id]
  | true =>
    have hd : env.sql .destDelete = false := by
      rw [Env.clearsDest, hp, Bool.true_and] at hdel
      exact hdel
    simp only [Env.read, hp, if_true, Env.tryDelete, hd, Bool.false_eq_true, if_false,
      Env.unlistsDest, Bool.true_and]
    exact find_tryEdit_edits env _ _ t i.parent (keepsKey_dropChild _ _)

theorem find_renamed_self {env : Env} {t : Inodes} {i : Inode} (hi : t.find i.ino = some i)
    (hne : i.ino ≠ i.parent) (hdel : env.clearsDest = false) (n : ℕ) :
    (env.moved i.parent i.parent i.name i (env.cleared i.parent i.name t)).find n =
      if n = i.parent then (t.find n).map (env.relisted i)
      else if n = i.ino then
        some (if env.sql .update then i.renamed i.parent i.name (systemTimeToNs (env.now 0)) else i)
      else t.find n := by
  have h₁ := find_cleared_self hi hdel
  simp only [Env.moved]
  generalize env.cleared i.parent i.name t = t₁ at h₁ ⊢
  have h₂ := find_tryEdit_edits env .parentGet .parentUpdate t₁ i.parent
    (keepsKey_dropChild i.ino i.isDir)
  generalize env.tryEdit .parentGet .parentUpdate t₁ i.parent (·.dropChild i.ino i.isDir) = t₂
    at h₂ ⊢
  have hi₂ : t₂.find i.ino = some i := by
    rw [h₂, Tree.edit_of_ne _ _ hne, h₁, Tree.edit_of_ne _ _ hne, hi]
  have h₃ : (env.tryUpdate .update t₂
      (i.renamed i.parent i.name (systemTimeToNs (env.now 0)))).find =
      Function.update t₂.find i.ino (some (if env.sql .update then
        i.renamed i.parent i.name (systemTimeToNs (env.now 0)) else i)) := by
    cases hu : env.sql .update with
    | false =>
      simp only [Env.tryUpdate, Env.read, hu, Bool.false_eq_true, if_false]
      exact (Function.update_eq_self_iff.2 hi₂.symm).symm
    | true =>
      obtain ⟨t₃, ht₃, hf⟩ := update_eq_ok (t := t₂)
        (i := i.renamed i.parent i.name (systemTimeToNs (env.now 0))) fun x hx => by
          have hkey : t₂.findUniq (i.renamed i.parent i.name (systemTimeToNs (env.now 0))).nameKey =
              some i := findUniq_of_find hi₂ rfl
          rw [hkey] at hx
          cases hx
          rfl
      rw [tryUpdate_of_ok hu ht₃, hf, Inode.renamed_ino, hi₂]
      rfl
  rw [find_tryEdit_edits env _ _ _ _ (keepsKey_addChild _ _), h₃, h₂, h₁]
  by_cases hp : n = i.parent
  · subst hp
    rw [if_pos rfl, Tree.edit, Function.update_self, Function.update_of_ne hne.symm, Tree.edit,
      Function.update_self, Tree.edit, Function.update_self, Option.map_map, Option.map_map]
    congr 1
    funext p
    unfold Env.relisted
    simp only [Function.comp_apply]
    split <;> split <;> split <;> rfl
  · rw [if_neg hp, Tree.edit_of_ne _ _ hp]
    by_cases hn : n = i.ino
    · rw [if_pos hn, hn, Function.update_self]
    · rw [if_neg hn, Function.update_of_ne hn, Tree.edit_of_ne _ _ hp, Tree.edit_of_ne _ _ hp]

theorem find_renamed_cleared {env : Env} {t : Inodes} {i : Inode} (hi : t.find i.ino = some i)
    (hdel : env.clearsDest = true) :
    (env.moved i.parent i.parent i.name i (env.cleared i.parent i.name t)).find i.ino = none := by
  obtain ⟨hp, hd⟩ := Bool.and_eq_true_iff.1 hdel
  have hcl : (env.cleared i.parent i.name t).find i.ino = none := by
    simp only [Env.cleared, Env.read, hp, if_true, lookup_self hi]
    rw [tryEdit_eq_none, Env.tryDelete, if_pos hd, InodeStore.delete, Table.find_erase,
      Function.update_self]
  exact find_moved_of_none hcl

theorem sameButTimes_refl (t : Inodes) : SameButTimes t t := by
  intro n
  cases t.find n with
  | none => exact .none
  | some i => exact .some rfl

/-- Only the row of `i` and that of its parent are written. -/
theorem sameButTimes_renamed_iff {env : Env} {t : Inodes} {i : Inode}
    (hi : t.find i.ino = some i) (hne : i.ino ≠ i.parent) :
    SameButTimes t (env.moved i.parent i.parent i.name i (env.cleared i.parent i.name t)) ↔
      env.clearsDest = false ∧ ∀ p, t.find i.parent = some p → env.Relists i p := by
  cases hdel : env.clearsDest with
  | true =>
    refine ⟨fun h => ?_, fun h => nomatch h.1⟩
    have hrow := h i.ino
    rw [hi, find_renamed_cleared hi hdel] at hrow
    cases hrow
  | false =>
    have hfind := find_renamed_self hi hne hdel
    constructor
    · intro h
      refine ⟨rfl, fun p hp => ?_⟩
      have hrow := h i.parent
      rw [hfind, if_pos rfl, hp] at hrow
      cases hrow with
      | some hsame => exact sameButTimes_relisted.1 hsame
    · rintro ⟨-, h⟩ n
      rw [hfind]
      split
      · rename_i hn
        cases hp : t.find n with
        | none => exact .none
        | some p => exact .some (sameButTimes_relisted.2 (h p (hn ▸ hp)))
      split
      · rename_i hn
        rw [hn, hi]
        split
        · exact .some rfl
        · exact .some rfl
      · exact sameButTimes_refl t n

theorem sameButTimes_renameOnto_iff {env : Env} {s : System} {i : Inode}
    (hi : s.inodes.find i.ino = some i) (hne : i.ino ≠ i.parent) :
    SameButTimes s.inodes (exec env (.renameOnto i) s).2.inodes ↔
      (env.Rewrites s i → env.clearsDest = false ∧
        ∀ p, s.inodes.find i.parent = some p → env.Relists i p) := by
  have hl := lookup_self hi
  by_cases hrw : env.Rewrites s i
  · obtain ⟨hfind, hbegin, hauto, hcommit, hfull⟩ := hrw
    have hdest : ∀ e, env.sql .probe = true → InodeStore.lookup s.inodes i.parent i.name = some e →
        e.isDir = true → e.children = [] := by
      intro e hprobe he
      rw [hl] at he
      cases he
      exact hfull hprobe
    have hrun := run_rename hl hdest hauto hfind hbegin
    rw [exec, Request.renameOnto, handler, hrun]
    dsimp only
    rw [inodes_committed, if_neg hcommit, sameButTimes_renamed_iff hi hne]
    exact ⟨fun h _ => h, fun h => h ⟨hfind, hbegin, hauto, hcommit, hfull⟩⟩
  · refine ⟨fun _ h => (hrw h).elim, fun _ => ?_⟩
    have heff := exec_effect env (.renameOnto i) s
    generalize (exec env (.renameOnto i) s).1 = r at heff
    generalize (exec env (.renameOnto i) s).2 = s' at heff
    have hsame : s'.inodes = s.inodes := by
      cases heff with
      | same hs => exact hs.inodes
      | edited hreq => cases hreq
      | linked hreq => cases hreq
      | removed hreq => cases hreq
      | renamed _ hdest hauto hfind hbegin =>
        rw [inodes_committed]
        split
        · rfl
        · rename_i hcommit
          exact (hrw ⟨hfind, hbegin, hauto, hcommit, fun hp => hdest i hp hl⟩).elim
      | leaked => rfl
    rw [hsame]
    exact sameButTimes_refl _

/-- A request that makes or moves a row puts it under another one. -/
theorem ino_ne_parent_of_runs {m : Mount} {cache : Option BlockCache} {s : System}
    (h : Runs Event.step (fun e s => e.req.Resolves s.inodes) (.fresh m cache) s) :
    AllRows (fun i => i.ino ≠ i.parent) s.inodes := by
  refine h.invariant (fun s => AllRows (fun i => i.ino ≠ i.parent) s.inodes) ?_ ?_
  · intro n i hi
    cases hi
  · intro e s hs hreq
    refine allRows_exec (fun _ _ _ hi => hi) (fun _ _ _ hi => hi) hs ?_ ?_ ?_ ?_
    · exact fun now => Nat.one_ne_zero
    · intro ino now i p hnew hino hp
      have hi : i.ino = ino := (Request.creates_of_newInode hnew).2
      intro e'
      rw [← e', hi, (find_nextIno hino).1] at hp
      cases hp
    · intro i i' he _ hi
      rw [he.ino, he.parent]
      exact hi
    · intro parent name newparent newname i hreq' hl _ _ _
      rw [hreq'] at hreq
      exact (hreq.2.2 name i rfl hl).symm

/-- In every reachable state, an entry renamed onto itself is left as it is exactly where
    the request stops before it writes, or the destination's row is not deleted and the
    statements on the parent's row cancel out. -/
theorem renameOnto_unchanged_iff {env : Env} {m : Mount} {cache : Option BlockCache} {s : System}
    (h : Runs Event.step (fun e s => e.req.Resolves s.inodes) (.fresh m cache) s) {i : Inode}
    (hi : s.inodes.find i.ino = some i) :
    SameButTimes s.inodes (exec env (.renameOnto i) s).2.inodes ↔
      (env.Rewrites s i → env.clearsDest = false ∧
        ∀ p, s.inodes.find i.parent = some p → env.Relists i p) :=
  sameButTimes_renameOnto_iff hi (ino_ne_parent_of_runs h _ _ hi)

/-- Where all statements go through, only a directory with entries is safe, and an open
    transaction. -/
theorem sameButTimes_renameOnto_iff_of_allOk {env : Env} (henv : env.AllOk) {s : System} {i : Inode}
    (hi : s.inodes.find i.ino = some i) (hne : i.ino ≠ i.parent) :
    SameButTimes s.inodes (exec env (.renameOnto i) s).2.inodes ↔
      ¬ s.conn.IsAutocommit ∨ (i.isDir = true ∧ i.children ≠ []) := by
  have hclears : env.clearsDest = true := by rw [Env.clearsDest, henv.sql, henv.sql]; rfl
  rw [sameButTimes_renameOnto_iff hi hne, hclears]
  constructor
  · intro h
    by_contra hc
    push Not at hc
    have hfull : i.isDir = true → i.children = [] := hc.2
    have hcommit : env.commit ≠ .rolledBack := by rw [henv.commit]; exact nofun
    exact nomatch (h ⟨henv.sql _, henv.sql _, hc.1, hcommit, fun _ => hfull⟩).1
  · rintro (h | ⟨hdir, hfull⟩) ⟨-, -, hauto, -, hempty⟩
    · exact (h hauto).elim
    · exact (hfull (hempty (henv.sql _) hdir)).elim

end

section

open scoped Sample

/-- A directory with a file in it. -/
def fullDirRun : List Event :=
  [.init, .mkdir Sample.caller 1 (.utf8 "a") 0o755, .create Sample.caller 2 (.utf8 "b") 0o644 0].map
    Sample.event

theorem resolves_fullDirRun : Runs.Admits Event.step (fun e s => e.req.Resolves s.inodes) fullDirRun
    (.fresh Sample.mount none) := by
  refine ⟨trivial, ?_, ?_, trivial⟩
  · change Option.isSome (Table.find (Event.step _ _).inodes 1) = true
    decide +kernel
  · change Option.isSome (Table.find (Event.step _ _).inodes 2) = true
    decide +kernel

/-- The full directory stays. -/
theorem fullDir_renamed_onto_itself : ∃ i,
    (Runs.runAll Event.step fullDirRun (.fresh Sample.mount none)).inodes.find i.ino = some i ∧
    SameButTimes (Runs.runAll Event.step fullDirRun (.fresh Sample.mount none)).inodes
      (exec (Sample.env none []) (.renameOnto i)
        (Runs.runAll Event.step fullDirRun (.fresh Sample.mount none))).2.inodes := by
  have hruns := Runs.of_admits fullDirRun .start resolves_fullDirRun
  obtain ⟨i, hi, hdir, hfull⟩ : ∃ i, (Runs.runAll Event.step fullDirRun
      (.fresh Sample.mount none)).inodes.find 2 = some i ∧ i.isDir = true ∧ i.children = [3] :=
    ⟨_, (Option.some_get (by decide +kernel)).symm, by decide +kernel, by decide +kernel⟩
  have hino : i.ino = 2 := Table.key_of_find hi
  rw [← hino] at hi
  refine ⟨i, hi, (renameOnto_unchanged_iff hruns hi).2 fun hrw => ?_⟩
  rw [hrw.2.2.2.2 rfl hdir] at hfull
  cases hfull

/-- A file renamed onto itself is gone, under the reply of a success, and its parent still
    lists its number. -/
theorem file_lost_by_rename_onto_itself : ∃ i,
    Runs Event.step (fun e s => e.req.Resolves s.inodes) (.fresh Sample.mount none) oneFile ∧
    oneFile.inodes.find i.ino = some i ∧
    (exec (Sample.env none []) (.renameOnto i) oneFile).1 = .ok ∧
    (exec (Sample.env none []) (.renameOnto i) oneFile).2.inodes.find i.ino = none ∧
    ((exec (Sample.env none []) (.renameOnto i) oneFile).2.inodes.find i.parent).map Inode.children =
      some [i.ino] ∧
    ¬ SameButTimes oneFile.inodes (exec (Sample.env none []) (.renameOnto i) oneFile).2.inodes := by
  have hruns : Runs Event.step (fun e s => e.req.Resolves s.inodes) (.fresh Sample.mount none)
      oneFile := by
    refine Runs.of_admits [Sample.event .init,
      Sample.event (.create Sample.caller 1 (.utf8 "a") 0o644 0)] .start ⟨trivial, ?_, trivial⟩
    change Option.isSome (Table.find (Event.step _ _).inodes 1) = true
    decide +kernel
  obtain ⟨i, hi, hreq⟩ : ∃ i, oneFile.inodes.find 2 = some i ∧
      Request.renameOnto i = .rename 1 (.utf8 "a") 1 (.utf8 "a") ∧ i.parent = 1 :=
    ⟨_, (Option.some_get (by decide +kernel)).symm, by decide +kernel, by decide +kernel⟩
  have hino : i.ino = 2 := Table.key_of_find hi
  have hgone : (exec (Sample.env none []) (.rename 1 (.utf8 "a") 1 (.utf8 "a")) oneFile).2.inodes.find 2
      = none := Option.not_isSome_iff_eq_none.1 (by decide +kernel)
  refine ⟨i, hruns, by rw [hino]; exact hi, ?_⟩
  rw [hreq.1, hreq.2, hino]
  refine ⟨by decide +kernel, hgone, by decide +kernel, fun h => ?_⟩
  have hrow := h 2
  rw [hi, hgone] at hrow
  cases hrow

end

end TgCryptFs

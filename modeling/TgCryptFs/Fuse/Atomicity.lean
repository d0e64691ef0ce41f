import TgCryptFs.Fuse.TreeInvariant

set_option autoImplicit false

/-!
# All or nothing

`applied` is the committed tree once a structural request has taken full effect.
-/
namespace TgCryptFs
open Library

section

variable [Primitives]

/-- The tree after the whole of a structural request. -/
def Request.applied (now : ℤ) (t : Inodes) : Request → Tree
  | .unlink parent (.utf8 name) | .rmdir parent (.utf8 name) =>
    match InodeStore.lookup t parent name with
    | some i => Tree.unlink t.find i i.isDir
    | none => t.find
  | .rename parent (.utf8 name) newparent (.utf8 newname) =>
    match InodeStore.lookup t parent name with
    | some i =>
      (Tree.replacing t.find (InodeStore.lookup t newparent newname)).rename i newparent newname now
    | none => t.find
  | req =>
    match req.newInode (InodeStore.maxIno t + 1) now with
    | some i => Tree.link t.find i
    | none => t.find

namespace Event

/-- The reply is a success and the committed table has the whole operation, or it is an
    error and the committed table is the one before. -/
def AllOrNothing (e : Event) (s : System) : Prop :=
  ((exec e.env e.req s).1.isError = false ∧
    (e.step s).durable.find = e.req.applied (systemTimeToNs (e.env.now 0)) s.durable) ∨
  ((exec e.env e.req s).1.isError = true ∧ (e.step s).durable = s.durable)

/-- No failure is passed over: not that of a discarded statement, not that of a discarded
    COMMIT, and no link is made inside a transaction left open. -/
structure FailsAloud (e : Event) (s : System) : Prop where
  keeps : e.KeepsTree s
  removed : ∀ i, e.Removes s i → e.env.commit = .done
  moved : ∀ i newparent newname, e.Moves s i newparent newname → e.env.commit = .done
  inserted : e.Inserts s → s.conn.IsAutocommit

end Event

theorem applied_removal {req : Request} {now : ℤ} {t : Inodes} {parent : ℕ} {name : String}
    {dir : Bool} (h : req.removal = some (parent, name, dir)) {i : Inode}
    (hl : InodeStore.lookup t parent name = some i) :
    req.applied now t = Tree.unlink t.find i i.isDir := by
  rcases removal_eq_some h with rfl | rfl
  · simp only [Request.applied, hl]
  · simp only [Request.applied, hl]

theorem applied_newInode {req : Request} {now : ℤ} {t : Inodes} {ino : ℕ} {i : Inode}
    (hino : InodeStore.nextIno t = .ok ino) (h : req.newInode ino now = some i) :
    req.applied now t = Tree.link t.find i := by
  obtain rfl := nextIno_eq hino
  cases req with
  | mkdir | create | symlink => simp only [Request.applied, h]
  | _ => cases h

/-- One request on a tree: it takes full effect or none. -/
theorem allOrNothing_step (hb : Function.Injective blake3) {e : Event} {s : System}
    (hf : e.FailsAloud s) (hv : e.req.Valid s.inodes) (hst : e.req.structural = true)
    (hs : s.TreeOk) : e.AllOrNothing s := by
  obtain ⟨env, req⟩ := e
  have heff := exec_effect env req s
  unfold Event.AllOrNothing Event.step
  dsimp only at hv hst ⊢
  generalize (exec env req s).1 = r at heff ⊢
  generalize (exec env req s).2 = s' at heff ⊢
  cases heff with
  | same hs' hr => exact .inr ⟨hr hst, hs'.durable⟩
  | rooted => cases hst
  | edited hreq => cases req <;> cases hreq <;> cases hst
  | linked hreq hino hp hdir h₁ h₂ hauto hs' hr =>
    rw [hs'.durable, durable_committed, ← System.inodes_eq_durable hauto, applied_newInode hino hreq]
    by_cases hc : env.commit = .done
    · refine .inl ⟨by simpa [hc] using hr, ?_⟩
      rw [if_pos hc, find_linked hp h₁ h₂]
    · exact .inr ⟨hr.2 hc, if_neg hc⟩
  | inserted hreq hino hp hdir h₁ hfind halloc hinsert hr =>
    have hins : Event.Inserts ⟨env, _⟩ s :=
      ⟨hfind, halloc, hinsert, _, _, _, _, _, _, _, _, rfl, hino, hreq, hp, hdir, h₁⟩
    obtain ⟨t₂, h₂⟩ := update_linked hp h₁
    have hauto := hf.inserted hins
    rw [tryUpdate_of_ok (hf.keeps.inserts hins) h₂, System.durable_writeInodes, if_pos hauto,
      ← System.inodes_eq_durable hauto, applied_newInode hino hreq]
    exact .inl ⟨hr, find_linked hp h₁ h₂⟩
  | removed hreq hl hempty hauto hfind hbegin hdelete =>
    have hrm : Event.Removes ⟨env, req⟩ s _ := ⟨hfind, hbegin, hdelete, hauto, ⟨_, _, hreq, hl⟩, hempty⟩
    obtain ⟨hg, hu⟩ := hf.keeps.removes _ hrm
    rw [durable_committed, if_pos (hf.removed _ hrm), ← System.inodes_eq_durable hauto,
      applied_removal hreq hl]
    exact .inl ⟨rfl, (wellFormed_removed hg hu hs.1 hreq hv hl hempty).1⟩
  | renamed hl hdest hauto hfind hbegin =>
    obtain ⟨-, rfl, -⟩ := lookup_eq_some hl
    have hmv : Event.Moves ⟨env, _⟩ s _ _ _ := ⟨hfind, hbegin, hauto, ⟨_, rfl, hl⟩, hdest⟩
    have hk := hf.keeps
    rw [durable_committed, if_pos (hf.moved _ _ _ hmv), ← System.inodes_eq_durable hauto]
    refine .inl ⟨rfl, ?_⟩
    rw [(find_renamed hb hs.1 (hk.clears _ _ _ hmv) (hk.moves _ _ _ hmv) hv hl
      fun d hd => hdest d (hk.clears _ _ _ hmv (by rw [hd]; exact Option.some_ne_none _)).probe hd).1]
    simp only [Request.applied, hl]
  | leaked _ _ _ _ hauto => exact .inr ⟨rfl, System.inodes_eq_durable hauto⟩

/-- Along every run from `init` in which no failure is passed over, and for every request
    after it that passes over none, the committed table changes as a whole or not at all. -/
theorem allOrNothing_of_runs (hb : Function.Injective blake3) {env₀ : Env} (h₀ : env₀.AllOk)
    (m : Mount) (cache : Option BlockCache) {s : System}
    (h : Runs Event.step (fun e s => e.req.Valid s.inodes ∧ e.FailsAloud s)
      (exec env₀ .init (.fresh m cache)).2 s)
    {e : Event} (hv : e.req.Valid s.inodes) (hst : e.req.structural = true) (hf : e.FailsAloud s) :
    e.AllOrNothing s := by
  have hs : s.TreeOk := h.invariant System.TreeOk (treeOk_init h₀ m cache) fun _ _ hi he =>
    treeOk_step hb he.2.keeps he.1 hi
  exact allOrNothing_step hb hf hv hst hs

theorem Env.AllOk.failsAloud {e : Event} (h : e.env.AllOk) {s : System} (hs : s.conn.IsAutocommit) :
    e.FailsAloud s where
  keeps := h.keepsTree s
  removed _ _ := h.commit
  moved _ _ _ _ := h.commit
  inserted _ := hs

end

section

open scoped Sample

/-- The root directory with one file, inode 2, named `a`. -/
def oneFile : System := (Sample.event (.create Sample.caller 1 (.utf8 "a") 0o644 0)).step Sample.rooted

theorem runs_oneFile (admitted : Event → System → Prop)
    (h : admitted (Sample.event (.create Sample.caller 1 (.utf8 "a") 0o644 0)) Sample.rooted) :
    Runs Event.step admitted Sample.rooted oneFile :=
  Runs.start.next h

theorem unlink_takes_full_effect :
    (Sample.event (.unlink 1 (.utf8 "a"))).AllOrNothing oneFile := by
  have hok := Sample.allOk_env none []
  have hvalid : ∀ s : System, (s.inodes.find 1).isSome = true →
      (Request.create Sample.caller 1 (.utf8 "a") 0o644 0).Valid s.inodes ∧
      (Request.unlink 1 (.utf8 "a")).Valid s.inodes := fun _ h => ⟨h, h⟩
  refine allOrNothing_of_runs Sample.hash_injective hok Sample.mount none (runs_oneFile _ ⟨?_, ?_⟩)
    (hvalid _ ?_).2 rfl (Env.AllOk.failsAloud hok ?_)
  · exact (hvalid Sample.rooted (by decide +kernel)).1
  · exact Env.AllOk.failsAloud hok (by decide +kernel)
  · decide +kernel
  · decide +kernel

/-- Surroundings in which the UPDATE of the parent's row fails. -/
def failingParentUpdate : Env :=
  { Sample.env none [] with sql := fun site => decide (site ≠ .parentUpdate) }

/-- `unlink` replies success although the parent still lists the inode it deleted. -/
theorem unlink_passes_over_failure :
    (exec failingParentUpdate (.unlink 1 (.utf8 "a")) oneFile).1 = .ok ∧
    ((exec failingParentUpdate (.unlink 1 (.utf8 "a")) oneFile).2.durable.find 2).isNone = true ∧
    ((exec failingParentUpdate (.unlink 1 (.utf8 "a")) oneFile).2.durable.find 1).map
      Inode.children = some [2] ∧
    ¬ Event.AllOrNothing ⟨failingParentUpdate, .unlink 1 (.utf8 "a")⟩ oneFile := by
  refine ⟨by decide +kernel, by decide +kernel, by decide +kernel, ?_⟩
  rintro (⟨-, h⟩ | ⟨h, -⟩)
  · have h1 := congrFun h 1
    revert h1
    decide +kernel
  · revert h
    decide +kernel

end

end TgCryptFs

import TgCryptFs.Fuse.HandleEffects
import TgCryptFs.Fuse.ObservedRows

set_option autoImplicit false

/-!
# Handles and the files they were opened on

A file is told from a later one with the same number by the event that created it.
`Traced` records that event for each number in the table, and for each handle the one
of the file it was opened on.
-/
namespace TgCryptFs
open Library

namespace Request

def creates : Request → Bool
  | .mkdir .. | .create .. | .symlink .. => true
  | _ => false

/-- The inode and the handle a `write` or `release` is sent with. -/
def throughHandle : Request → Option (ℕ × ℕ)
  | .write ino fh _ _ | .release ino fh => some (ino, fh)
  | _ => none

theorem creates_of_newInode {req : Request} {ino : ℕ} {now : ℤ} {i : Inode}
    (h : req.newInode ino now = some i) : req.creates = true ∧ i.ino = ino := by
  unfold newInode at h
  split at h <;> cases h <;> exact ⟨rfl, rfl⟩

end Request

section

variable [Primitives]

theorem tryUpdate_eq_none {env : Env} {site : Site} {t : Inodes} {i : Inode} {n : ℕ} :
    (env.tryUpdate site t i).find n = none ↔ t.find n = none := by
  rw [← Table.observe_eq_none (g := fun _ => ()), observe_tryUpdate fun _ _ _ => rfl,
    Table.observe_eq_none]

theorem tryEdit_eq_none {env : Env} {getSite updateSite : Site} {t : Inodes} {ino : ℕ}
    {f : Inode → Inode} {n : ℕ} :
    (env.tryEdit getSite updateSite t ino f).find n = none ↔ t.find n = none := by
  unfold Env.tryEdit
  split
  · exact tryUpdate_eq_none
  · rfl

theorem find_delete_of_none {t : Inodes} {ino n : ℕ} (h : t.find n = none) :
    (InodeStore.delete t ino).find n = none := by
  rw [InodeStore.delete, Table.find_erase, Function.update_apply, h, ite_self]

theorem find_cleared_of_none {env : Env} {newparent : ℕ} {newname : String} {t : Inodes} {n : ℕ}
    (h : t.find n = none) : (env.cleared newparent newname t).find n = none := by
  unfold Env.cleared
  split
  · rw [tryEdit_eq_none, Env.tryDelete]
    split
    · exact find_delete_of_none h
    · exact h
  · exact h

theorem find_moved_of_none {env : Env} {parent newparent : ℕ} {newname : String} {inode : Inode}
    {t : Inodes} {n : ℕ} (h : t.find n = none) :
    (env.moved parent newparent newname inode t).find n = none := by
  unfold Env.moved
  rw [tryEdit_eq_none, tryUpdate_eq_none, tryEdit_eq_none]
  exact h

theorem find_committed {env : Env} {s : System} {t : Inodes} {n : ℕ} (hs : s.inodes.find n = none)
    (ht : t.find n = none) : (env.committed (s.begun.writeInodes t)).inodes.find n = none := by
  change Table.find (Db.inodes ((Connection.inTransaction _ _).commit env.commit).2.view) n = none
  cases env.commit with
  | done => exact ht
  | rolledBack => exact hs
  | stillOpen => exact ht

theorem find_linked_of_none {t t₁ : Inodes} {i : Inode} (h₁ : InodeStore.insert t i = .ok t₁) {n : ℕ}
    (h : t.find n = none) (hn : n ≠ i.ino) : t₁.find n = none := by
  rw [(find_of_insert h₁).1, Function.update_of_ne hn, h]

/-- A number comes into the table only as the next one, by a request that creates. -/
theorem find_step_of_none {e : Event} {s : System} {n : ℕ} (hreq : e.req ≠ .init)
    (h : s.inodes.find n = none)
    (hn : ¬ (e.req.creates = true ∧ n = InodeStore.maxIno s.inodes + 1)) :
    (e.step s).inodes.find n = none := by
  obtain ⟨env, req⟩ := e
  have heff := exec_effect env req s
  change (exec env req s).2.inodes.find n = none
  generalize (exec env req s).1 = r at heff
  generalize (exec env req s).2 = s' at heff
  dsimp only at hreq hn
  cases heff with
  | same hs' => rw [hs'.inodes, h]
  | rooted => exact (hreq rfl).elim
  | @edited _ _ _ i i' t _ hi he ht hs' =>
    rw [hs'.inodes, System.inodes_writeInodes, find_of_update ht, Function.update_apply, he.ino, hi]
    split
    · rename_i e
      rw [e, hi] at h
      cases h
    · exact h
  | linked hnew hino hp hdir h₁ h₂ _ hs' =>
    obtain ⟨hc, hi⟩ := Request.creates_of_newInode hnew
    have hne : n ≠ _ := fun e => hn ⟨hc, e.trans (hi.trans (nextIno_eq hino))⟩
    rw [hs'.inodes]
    refine find_committed h ?_
    rw [find_of_update h₂, Function.update_apply]
    split
    · rename_i e
      rw [← e, find_linked_of_none h₁ h hne]
      rfl
    · exact find_linked_of_none h₁ h hne
  | inserted hnew hino hp hdir h₁ =>
    obtain ⟨hc, hi⟩ := Request.creates_of_newInode hnew
    have hne : n ≠ _ := fun e => hn ⟨hc, e.trans (hi.trans (nextIno_eq hino))⟩
    rw [System.inodes_writeInodes, tryUpdate_eq_none]
    exact find_linked_of_none h₁ h hne
  | removed => exact find_committed h (find_delete_of_none (tryEdit_eq_none.2 h))
  | renamed => exact find_committed h (find_moved_of_none (find_cleared_of_none h))
  | leaked => exact h

theorem find_throughHandle {e : Event} {s : System} {ino fh : ℕ}
    (hreq : e.req.throughHandle = some (ino, fh)) {n : ℕ}
    (hn : (e.step s).inodes.find n ≠ s.inodes.find n) : n = ino ∧ s.inodes.find n ≠ none := by
  obtain ⟨env, req⟩ := e
  have heff := exec_effect env req s
  change (exec env req s).2.inodes.find n ≠ s.inodes.find n at hn
  generalize (exec env req s).1 = r at heff
  generalize (exec env req s).2 = s' at heff hn
  dsimp only at hreq
  have hsub : req.subject = some ino := by
    unfold Request.throughHandle at hreq
    split at hreq <;> cases hreq <;> rfl
  have hnew : ∀ k now, req.newInode k now = none := by
    unfold Request.throughHandle at hreq
    split at hreq <;> cases hreq <;> exact fun _ _ => rfl
  have hrem : req.removal = none := by
    unfold Request.throughHandle at hreq
    split at hreq <;> cases hreq <;> rfl
  cases heff with
  | same hs' => exact (hn (by rw [hs'.inodes])).elim
  | edited hs hi he ht hs' =>
    rw [hs'.inodes, System.inodes_writeInodes, find_of_update ht, he.ino, hi] at hn
    rw [hs, Option.some.injEq] at hsub
    by_cases hni : n = ino
    · refine ⟨hni, ?_⟩
      rw [hni, ← hsub, hi]
      exact nofun
    · rw [← hsub] at hni
      exact (hn (Function.update_of_ne hni _ _)).elim
  | linked h => rw [hnew] at h; cases h
  | inserted => cases hreq
  | removed h => rw [hrem] at h; cases h
  | renamed => cases hreq
  | leaked => cases hreq
  | rooted => cases hreq

theorem inodes_of_no_handle {e : Event} {s : System} {ino fh : ℕ}
    (hreq : e.req.throughHandle = some (ino, fh)) (hh : s.handles.get fh = none) :
    (e.step s).inodes = s.inodes := by
  obtain ⟨env, req⟩ := e
  cases req with
  | write i f offset data =>
    cases hreq
    have hfalse : (env.serve (.handleUpdate fh (bufferWrite offset data)) s).1 = false := by
      change (s.handles.get fh).isSome = false
      rw [hh]
      rfl
    change ((write ino fh offset data).run env.serve s).2.inodes = _
    rw [write, CallTree.run_call, hfalse]
    rfl
  | release i f =>
    cases hreq
    change ((release s.mount ino fh).run env.serve s).2.inodes = _
    rw [release, CallTree.run_bind, flushOpen]
    simp only [CallTree.run_call, Env.serve_handleGet, hh]
    rfl
  | _ => cases hreq

structure Traced where
  sys : System
  clock : ℕ
  /-- The event that created the inode under a number. -/
  born : ℕ → ℕ
  /-- The event that created the file a handle was opened on. -/
  owner : ℕ → ℕ

namespace Traced

/-- A mount about to serve its first event; what is there was created before. -/
def start (s : System) : Traced := ⟨s, 1, fun _ => 0, fun _ => 0⟩

def bornAfter (x : Traced) (e : Event) (n : ℕ) : ℕ :=
  if (x.sys.inodes.find n).isNone = true ∧ ((e.step x.sys).inodes.find n).isSome = true then x.clock
  else x.born n

/-- A handle that was not open before is opened on the file now under its number. -/
def ownerAfter (x : Traced) (e : Event) (fh : ℕ) : ℕ :=
  match x.sys.handles.get fh, (e.step x.sys).handles.get fh with
  | none, some h => x.bornAfter e h.ino
  | _, _ => x.owner fh

def step (e : Event) (x : Traced) : Traced where
  sys := e.step x.sys
  clock := x.clock + 1
  born := x.bornAfter e
  owner := x.ownerAfter e

/-- An open handle's file is gone, or it is still the one under its number. -/
def HandlesCurrent (x : Traced) : Prop :=
  ∀ fh h, x.sys.handles.get fh = some h →
    x.sys.inodes.find h.ino = none ∨ x.owner fh = x.born h.ino

end Traced

namespace Event

/-- A request after `init`; `write` and `release` come with the inode of their handle. -/
structure OnOpenFiles (e : Event) (s : System) : Prop where
  not_init : e.req ≠ .init
  own_ino : ∀ ino fh h, e.req.throughHandle = some (ino, fh) → s.handles.get fh = some h → h.ino = ino

/-- A request that creates, when the next number is that of an open handle. -/
def ReusesNumber (e : Event) (s : System) : Prop :=
  e.req.creates = true ∧
  ∃ fh h, s.handles.get fh = some h ∧ h.ino = InodeStore.maxIno s.inodes + 1

end Event

theorem bornAfter_of_some {x : Traced} {e : Event} {n : ℕ} {i : Inode}
    (h : x.sys.inodes.find n = some i) : x.bornAfter e n = x.born n := by
  rw [Traced.bornAfter, h]
  exact if_neg fun hc => by cases hc.1

/-- What was true of a handle stays true while its number is not given out again. -/
theorem handlesCurrent_old {x : Traced} {e : Event} (hx : x.HandlesCurrent)
    (hopen : e.OnOpenFiles x.sys) (hno : ¬ e.ReusesNumber x.sys) {fh : ℕ} {h : FileHandle}
    (hh : x.sys.handles.get fh = some h) :
    (e.step x.sys).inodes.find h.ino = none ∨ x.owner fh = x.bornAfter e h.ino := by
  cases hi : x.sys.inodes.find h.ino with
  | none =>
    refine .inl (find_step_of_none hopen.not_init hi fun hc => hno ⟨hc.1, fh, h, hh, hc.2⟩)
  | some i =>
    rw [bornAfter_of_some hi]
    rcases hx fh h hh with hnone | heq
    · rw [hi] at hnone
      cases hnone
    · exact .inr heq

theorem ino_of_step {e : Event} {s : System} {fh : ℕ} {h h' : FileHandle}
    (hh : s.handles.get fh = some h) (hh' : (e.step s).handles.get fh = some h') : h'.ino = h.ino := by
  obtain ⟨env, req⟩ := e
  have heff := exec_handleEffect env req s
  change (exec env req s).2.handles.get fh = some h' at hh'
  generalize (exec env req s).1 = r at heff
  generalize (exec env req s).2.handles = t at heff hh'
  have hne : fh ≠ s.handles.nextFh := Nat.ne_of_lt (HandleTable.lt_of_get hh)
  cases heff with
  | same =>
    rw [hh] at hh'
    cases hh'
    rfl
  | opened | created =>
    rw [HandleTable.get_openHandle, if_neg hne, hh] at hh'
    cases hh'
    rfl
  | written =>
    rw [HandleTable.get_update, hh] at hh'
    split at hh'
    · cases hh'
      rfl
    · cases hh'
      rfl
  | released =>
    rw [HandleTable.get_close, hh] at hh'
    split at hh'
    · cases hh'
    · cases hh'
      rfl

theorem handlesCurrent_step {x : Traced} {e : Event} (hx : x.HandlesCurrent)
    (hopen : e.OnOpenFiles x.sys) (hno : ¬ e.ReusesNumber x.sys) : (x.step e).HandlesCurrent := by
  intro fh h' hh'
  change (e.step x.sys).handles.get fh = some h' at hh'
  change (e.step x.sys).inodes.find h'.ino = none ∨ x.ownerAfter e fh = x.bornAfter e h'.ino
  cases hh : x.sys.handles.get fh with
  | none =>
    right
    rw [Traced.ownerAfter, hh, hh']
  | some h =>
    have howner : x.ownerAfter e fh = x.owner fh := by rw [Traced.ownerAfter, hh, hh']
    rw [howner, ino_of_step hh hh']
    exact handlesCurrent_old hx hopen hno hh

/-- The size and the manifest of the row under a number. -/
def contentsAt (t : Inodes) (n : ℕ) : Option (ℕ × Option FileManifest) :=
  (t.find n).map fun i => (i.size, i.manifest)

/-- Along every run in which no number is given out again while a handle is open on it, a
    `write` or `release` through a handle changes the size or manifest of no row but that of
    the file the handle was opened on. -/
theorem handle_changes_own_file {s₀ : System} (h₀ : ∀ fh, s₀.handles.get fh = none) {x : Traced}
    (h : Runs Traced.step (fun e x => e.OnOpenFiles x.sys ∧ ¬ e.ReusesNumber x.sys) (.start s₀) x)
    {e : Event} (he : e.OnOpenFiles x.sys) {ino fh : ℕ}
    (hreq : e.req.throughHandle = some (ino, fh)) {n : ℕ}
    (hn : contentsAt (e.step x.sys).inodes n ≠ contentsAt x.sys.inodes n) :
    ∃ f, x.sys.handles.get fh = some f ∧ f.ino = n ∧ x.owner fh = x.born n := by
  have hx : x.HandlesCurrent := by
    refine h.invariant Traced.HandlesCurrent (fun fh f hf => ?_) fun _ _ hi ha =>
      handlesCurrent_step hi ha.1 ha.2
    rw [show (Traced.start s₀).sys = s₀ from rfl, h₀] at hf
    cases hf
  have hn' : (e.step x.sys).inodes.find n ≠ x.sys.inodes.find n := fun heq => hn (by
    rw [contentsAt, contentsAt, heq])
  obtain ⟨rfl, hpresent⟩ := find_throughHandle hreq hn'
  cases hf : x.sys.handles.get fh with
  | none => exact (hn' (by rw [inodes_of_no_handle hreq hf])).elim
  | some f =>
    have hino := he.own_ino _ _ f hreq hf
    refine ⟨f, rfl, hino, ?_⟩
    rcases hx fh f hf with hnone | hown
    · rw [hino] at hnone
      exact (hpresent hnone).elim
    · rw [hown, hino]

end

section

open scoped Sample

/-- A file `a` is created and stays open as handle 1. -/
def openRun : List Event :=
  [.create Sample.caller 1 (.utf8 "a") 0o644 0].map Sample.event

/-- It is unlinked, and a file `b` is created, which gets its number. -/
def reusingRun : List Event :=
  [.create Sample.caller 1 (.utf8 "a") 0o644 0, .unlink 1 (.utf8 "a"),
    .create Sample.caller 1 (.utf8 "b") 0o644 0].map Sample.event

theorem write_changes_own_file :
    ∃ f, (Runs.runAll Traced.step openRun (.start Sample.rooted)).sys.handles.get 1 = some f ∧
      f.ino = 2 ∧
      (Runs.runAll Traced.step openRun (.start Sample.rooted)).owner 1 =
        (Runs.runAll Traced.step openRun (.start Sample.rooted)).born 2 := by
  have hnone : ∀ fh, Sample.rooted.handles.get fh = none := fun fh => rfl
  refine handle_changes_own_file (e := Sample.event (.write 2 1 0 [97])) hnone
    (Runs.of_admits openRun .start ⟨⟨⟨nofun, nofun⟩, ?_⟩, trivial⟩) ⟨nofun, ?_⟩ rfl ?_
  · rintro ⟨-, fh, h, hh, -⟩
    rw [show (Traced.start Sample.rooted).sys = Sample.rooted from rfl, hnone] at hh
    cases hh
  · intro ino fh h hreq hh
    cases hreq
    have hino : ((Runs.runAll Traced.step openRun (.start Sample.rooted)).sys.handles.get 1).map
        FileHandle.ino = some 2 := by decide +kernel
    rw [hh] at hino
    exact Option.some.inj hino
  · decide +kernel

/-- A write through the handle of the unlinked file changes the size of the new one. -/
theorem write_changes_other_file :
    contentsAt ((Sample.event (.write 2 1 0 [97])).step
      (Runs.runAll Traced.step reusingRun (.start Sample.rooted)).sys).inodes 2 ≠
      contentsAt (Runs.runAll Traced.step reusingRun (.start Sample.rooted)).sys.inodes 2 ∧
    (Runs.runAll Traced.step reusingRun (.start Sample.rooted)).owner 1 ≠
      (Runs.runAll Traced.step reusingRun (.start Sample.rooted)).born 2 := by
  constructor <;> decide +kernel

end

end TgCryptFs

import TgCryptFs.Fuse.CrashPoints
import TgCryptFs.Fuse.TreeInvariant

set_option autoImplicit false

/-!
# Crash consistency

A crash may come between any two calls of a handler. The next mount rolls back what was
not committed and starts with no handles and with whatever cache it finds.
-/
namespace TgCryptFs
open Library

inductive CrashEvent where
  | served (e : Event)
  | crashed (e : Event) (calls : ℕ) (cache : Option BlockCache)

namespace CrashEvent

def event : CrashEvent → Event
  | .served e => e
  | .crashed e _ _ => e

end CrashEvent

section

variable [Primitives]

def System.remount (s : System) (cache : Option BlockCache) : System :=
  { s with conn := s.conn.recover, handles := .new, cache }

namespace CrashEvent

def step : CrashEvent → System → System
  | .served e, s => e.step s
  | .crashed e calls cache, s =>
    ((handler s.mount e.req).stateAfter e.env.serve calls s).remount cache

/-- A crash after the INSERT of `symlink`, its fourth call, and before the UPDATE of the
    parent, with no transaction around them. -/
def SplitsSymlink : CrashEvent → System → Prop
  | .served _, _ => False
  | .crashed e calls _, s => calls = 4 ∧ e.Inserts s ∧ s.conn.IsAutocommit

end CrashEvent

/-- The committed tables a crash inside `symlink` can leave. -/
theorem durable_symlink (env : Env) (s : System) (c : Caller) (parent : ℕ) (name target : OsStr)
    (n : ℕ) :
    ((symlink c parent name target).stateAfter env.serve n s).durable = s.durable ∨
    ((symlink c parent name target).stateAfter env.serve n s).durable =
      ((symlink c parent name target).run env.serve s).2.durable ∨
    (n = 4 ∧ Event.Inserts ⟨env, .symlink c parent name target⟩ s ∧ s.conn.IsAutocommit) := by
  rcases name with name | raw
  case invalid => exact .inl (by rw [symlink, OsStr.toStr, CallTree.stateAfter_ret])
  rcases target with target | raw
  case invalid => exact .inl (by rw [symlink, OsStr.toStr, OsStr.toStr, CallTree.stateAfter_ret])
  rw [symlink, OsStr.toStr, OsStr.toStr]
  rcases n with _ | n
  · exact .inl (by rw [CallTree.stateAfter_zero])
  simp only [CallTree.stateAfter_call, CallTree.run_call, Env.snd_serve_get, Env.fst_serve_get]
  rcases hg : env.read .find (.ok (InodeStore.get s.inodes parent)) with e | (_ | p)
  · exact .inl (by simp only [CallTree.stateAfter_ret])
  · exact .inl (by simp only [CallTree.stateAfter_ret])
  by_cases hdir : p.isDir = true
  case neg => exact .inl (by simp only [hdir, Bool.not_false, if_true, CallTree.stateAfter_ret])
  simp only [hdir, Bool.not_true, Bool.false_eq_true, if_false]
  rcases n with _ | n
  · exact .inl (by rw [CallTree.stateAfter_zero])
  simp only [CallTree.stateAfter_call, CallTree.run_call, Env.snd_serve_nextIno,
    Env.fst_serve_nextIno]
  rcases hn : env.read .alloc (InodeStore.nextIno s.inodes) with e | ino
  · exact .inl (by simp only [CallTree.stateAfter_ret])
  rcases n with _ | n
  · exact .inl (by rw [CallTree.stateAfter_zero])
  simp only [CallTree.stateAfter_call, CallTree.run_call, Env.snd_serve_now]
  rcases n with _ | n
  · exact .inl (by rw [CallTree.stateAfter_zero])
  simp only [CallTree.stateAfter_call, Env.serve_insert]
  rcases h₁ : env.read .insert (InodeStore.insert s.inodes
    (Inode.newSymlink ino parent name target c.uid c.gid
      (systemTimeToNs (env.serve (.now 0) s).1))) with e | t₁
  · exact .inl (by simp only [CallTree.stateAfter_ret])
  rcases n with _ | n
  · rw [CallTree.stateAfter_zero]
    dsimp only
    rw [System.durable_writeInodes]
    by_cases hauto : s.conn.IsAutocommit
    · exact .inr (.inr ⟨rfl, ⟨(Env.read_ok_eq_ok hg).1, (Env.read_eq_ok hn).1, (Env.read_eq_ok h₁).1,
        _, _, _, _, _, _, _, _, rfl, (Env.read_eq_ok hn).2, rfl, (Env.read_ok_eq_ok hg).2, hdir,
        (Env.read_eq_ok h₁).2⟩, hauto⟩)
    · exact .inl (if_neg hauto)
  · exact .inr (.inl (by simp only [CallTree.stateAfter_call, CallTree.run_call,
      CallTree.stateAfter_ret, CallTree.run_ret]))

/-- A crash in any other place leaves the table before the request or the one after. -/
theorem durable_stateAfter (e : Event) (s : System) (n : ℕ) :
    ((handler s.mount e.req).stateAfter e.env.serve n s).durable = s.durable ∨
    ((handler s.mount e.req).stateAfter e.env.serve n s).durable = (e.step s).durable ∨
    (n = 4 ∧ e.Inserts s ∧ s.conn.IsAutocommit) := by
  obtain ⟨env, req⟩ := e
  by_cases h : ∀ c parent name target, req ≠ .symlink c parent name target
  · rcases durable_oneChange env _ (oneChange_handler s.mount req h) s n with h | h
    · exact .inl h
    · exact .inr (.inl h)
  · push Not at h
    obtain ⟨c, parent, name, target, rfl⟩ := h
    exact durable_symlink env s c parent name target n

theorem treeOk_crashStep (hb : Function.Injective blake3) {c : CrashEvent} {s : System}
    (hk : c.event.KeepsTree s) (hv : c.event.req.Valid s.inodes) (hc : ¬ c.SplitsSymlink s)
    (hs : s.TreeOk) : (c.step s).TreeOk := by
  cases c with
  | served e => exact treeOk_step hb hk hv hs
  | crashed e n cache =>
    have hd : Tree.WellFormed ((handler s.mount e.req).stateAfter e.env.serve n s).durable.find := by
      rcases durable_stateAfter e s n with h | h | h
      · rw [h]
        exact hs.2
      · rw [h]
        exact (treeOk_step hb hk hv hs).2
      · exact (hc h).elim
    exact ⟨hd, hd⟩

/-- Children lists and parent links agree. -/
structure Agrees (t : Inodes) : Prop where
  parent : ∀ i ∈ t.rows, i.ino ≠ 1 → ∃ p, t.find i.parent = some p ∧ p.isDir = true
  nodup : ∀ d ∈ t.rows, d.isDir = true → d.children.Nodup
  children : ∀ d ∈ t.rows, d.isDir = true →
    ∀ c, c ∈ d.children ↔ ∃ i ∈ t.rows, i.ino = c ∧ i.parent = d.ino

/-- Along every run of requests and crashes from `init` in which no statement that fails is
    passed over and no crash comes between the two statements of a `symlink`, the committed
    table agrees with itself, in particular each one that a mount recovers. -/
theorem agrees_of_crashRuns (hb : Function.Injective blake3) {env₀ : Env} (h₀ : env₀.AllOk) (m : Mount)
    (cache : Option BlockCache) {s : System}
    (h : Runs CrashEvent.step
      (fun c s => c.event.req.Valid s.inodes ∧ c.event.KeepsTree s ∧ ¬ c.SplitsSymlink s)
      (exec env₀ .init (.fresh m cache)).2 s) : Agrees s.durable := by
  have hs : s.TreeOk := h.invariant System.TreeOk (treeOk_init h₀ m cache) fun _ _ hi he =>
    treeOk_crashStep hb he.2.1 he.1 he.2.2 hi
  have ht := isTree_of_wellFormed hs.2
  exact ⟨ht.parent, ht.nodup, ht.children⟩

end

section

open scoped Sample

theorem agrees_after_crash_in_create :
    Agrees ((CrashEvent.crashed
      (Sample.event (.create Sample.caller 1 (.utf8 "a") 0o644 0)) 6 none).step
      Sample.rooted).durable := by
  have hok := Sample.allOk_env none []
  have hv : (Request.create Sample.caller 1 (.utf8 "a") 0o644 0).Valid Sample.rooted.inodes := by
    change Option.isSome (Table.find Sample.rooted.inodes 1) = true
    decide +kernel
  refine agrees_of_crashRuns Sample.hash_injective hok Sample.mount none (Runs.start.next ⟨hv, ?_, ?_⟩)
  · exact Env.AllOk.keepsTree hok Sample.rooted
  · rintro ⟨h, -⟩
    cases h

/-- A link whose row is there and which its directory does not list. -/
theorem symlink_split_by_crash :
    ¬ Agrees ((CrashEvent.crashed
      (Sample.event (.symlink Sample.caller 1 (.utf8 "a") (.utf8 "b"))) 4 none).step
      Sample.rooted).durable := by
  intro h
  have hlisted := fun d hd hdir i hi hp => (h.children d hd hdir i.ino).2 ⟨i, hi, rfl, hp⟩
  revert hlisted
  decide +kernel

end

end TgCryptFs

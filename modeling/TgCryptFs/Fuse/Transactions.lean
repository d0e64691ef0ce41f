import TgCryptFs.Fuse.Service

set_option autoImplicit false

/-!
# Transactions over a run

BEGIN inside a transaction fails, so a request that replies with its transaction
open blocks every later one that needs its own.
-/
namespace TgCryptFs
open Library

section

variable [Primitives]

/-- A rename that finds its source, begins, and then finds a directory with entries
    under the new name. -/
def Event.HitsNonEmptyDir (e : Event) (s : System) : Prop :=
  match e.req with
  | .rename parent (.utf8 name) newparent (.utf8 newname) =>
    (e.env.sql .find = true ∧ e.env.sql .begin = true ∧ e.env.sql .probe = true) ∧
    InodeStore.lookup s.inodes parent name ≠ none ∧
    ∃ d, InodeStore.lookup s.inodes newparent newname = some d ∧ d.isDir = true ∧ d.children ≠ []
  | _ => False

theorem isAutocommit_committed {env : Env} (hc : env.CommitCloses) (s : System) (t : Inodes) :
    (env.committed (s.begun.writeInodes t)).conn.IsAutocommit := by
  change ((Connection.inTransaction _ _).commit env.commit).2.IsAutocommit
  unfold Env.CommitCloses at hc
  cases h : env.commit with
  | done => trivial
  | rolledBack => trivial
  | stillOpen => exact absurd h hc

theorem isAutocommit_step {e : Event} {s : System} (hs : s.conn.IsAutocommit)
    (hc : e.env.CommitCloses) (hn : ¬ e.HitsNonEmptyDir s) : (e.step s).conn.IsAutocommit := by
  obtain ⟨env, req⟩ := e
  have heff := exec_effect env req s
  change (exec env req s).2.conn.IsAutocommit
  revert hn
  generalize (exec env req s).1 = r at heff
  generalize (exec env req s).2 = s' at heff
  intro hn
  cases heff with
  | same hs' => exact hs'.mode.2 hs
  | rooted => exact (Connection.isAutocommit_write _ _).2 hs
  | edited _ _ _ _ hs' => exact hs'.mode.2 ((Connection.isAutocommit_write _ _).2 hs)
  | linked _ _ _ _ _ _ _ hs' => exact hs'.mode.2 (isAutocommit_committed hc s _)
  | inserted => exact (Connection.isAutocommit_write _ _).2 hs
  | removed => exact isAutocommit_committed hc s _
  | renamed => exact isAutocommit_committed hc s _
  | leaked hl hdest hdir hne _ hfind hbegin hprobe =>
    exact (hn ⟨⟨hfind, hbegin, hprobe⟩, by rw [hl]; simp, _, hdest, hdir, hne⟩).elim

/-- The early return of `rename` replies with its transaction open. -/
theorem not_isAutocommit_of_hits {e : Event} {s : System} (hs : s.conn.IsAutocommit)
    (h : e.HitsNonEmptyDir s) : ¬ (e.step s).conn.IsAutocommit := by
  obtain ⟨env, req⟩ := e
  cases req with
  | rename parent name newparent newname =>
    rcases name with name | raw
    case invalid => exact h.elim
    rcases newname with newname | raw
    case invalid => exact h.elim
    obtain ⟨⟨hfind, hbegin, hprobe⟩, hsrc, d, hd, hdir, hne⟩ := h
    dsimp only at hfind hbegin hprobe
    obtain ⟨i, hi⟩ := Option.ne_none_iff_exists'.1 hsrc
    have hstep : exec env (.rename parent (.utf8 name) newparent (.utf8 newname)) s =
        (.error .enotempty, s.begun) := by
      simp only [exec, handler, rename, OsStr.toStr, CallTree.run_call, Env.fst_serve_lookup,
        Env.snd_serve_lookup, Env.read, hfind, hi, if_true, Env.serve_begin, hbegin, hs, and_self,
        System.inodes_begun, hprobe, hd, hdir, Bool.true_and, Bool.not_eq_true',
        List.isEmpty_eq_false_iff, ne_eq, hne, not_false_eq_true, CallTree.run_ret]
    change ¬ (exec env (.rename parent (.utf8 name) newparent (.utf8 newname)) s).2.conn.IsAutocommit
    rw [hstep]
    exact id
  | _ => exact h.elim

/-- Along a run of requests none of which is a rename onto a directory with entries, every
    reply finds the connection in autocommit mode and BEGIN works; and the next reply does
    so exactly when the next request is not such a rename. -/
theorem autocommit_after_every_reply {s₀ s : System} (h₀ : s₀.conn.IsAutocommit)
    (h : Runs Event.step (fun e s => e.env.CommitCloses ∧ ¬ e.HitsNonEmptyDir s) s₀ s) :
    s.conn.IsAutocommit ∧ (∀ env : Env, env.sql .begin = true → (env.serve .begin s).1 = .ok ()) ∧
    ∀ e : Event, e.env.CommitCloses → ((e.step s).conn.IsAutocommit ↔ ¬ e.HitsNonEmptyDir s) := by
  have hs : s.conn.IsAutocommit :=
    h.invariant (fun s => s.conn.IsAutocommit) h₀ fun _ _ hi he => isAutocommit_step hi he.1 he.2
  refine ⟨hs, fun env henv => ?_, fun e he => ⟨fun ha hn => ?_, isAutocommit_step hs he⟩⟩
  · rw [Env.serve_begin, if_pos ⟨henv, hs⟩]
  · exact not_isAutocommit_of_hits hs hn ha

end

section

open scoped Sample

theorem autocommit_after_two_requests :
    (Runs.runAll Event.step
      [Sample.event .init, Sample.event (.mkdir Sample.caller 1 (.utf8 "a") 0o755)]
      (.fresh Sample.mount none)).conn.IsAutocommit := by
  have hrun : Runs Event.step (fun e s => e.env.CommitCloses ∧ ¬ e.HitsNonEmptyDir s)
      (.fresh Sample.mount none) _ :=
    Runs.of_admits
      [Sample.event .init, Sample.event (.mkdir Sample.caller 1 (.utf8 "a") 0o755)] .start
      ⟨⟨nofun, id⟩, ⟨nofun, id⟩, trivial⟩
  exact (autocommit_after_every_reply (isAutocommit_fresh _ _) hrun).1

/-- Directories `a` and `b` and a file in `b`; then `a` is renamed to `b`. -/
def leakingRun : List Event :=
  [.init, .mkdir Sample.caller 1 (.utf8 "a") 0o755, .mkdir Sample.caller 1 (.utf8 "b") 0o755,
    .create Sample.caller 3 (.utf8 "a") 0o644 0, .rename 1 (.utf8 "a") 1 (.utf8 "b")].map
    Sample.event

theorem rename_leaks_transaction :
    (∀ e ∈ leakingRun, e.env.CommitCloses) ∧
    ¬ (Runs.runAll Event.step leakingRun (.fresh Sample.mount none)).conn.IsAutocommit ∧
    (exec (Sample.env none []) (.mkdir Sample.caller 1 (.utf8 "ab") 0o755)
      (Runs.runAll Event.step leakingRun (.fresh Sample.mount none))).1 = .error .eio := by
  refine ⟨fun e he => ?_, by decide +kernel, by decide +kernel⟩
  exact (Sample.works_events _ e he).commitCloses

end

end TgCryptFs

import TgCryptFs.Fuse.FileContent

set_option autoImplicit false

/-!
# Two writers of one file

Each handle has a buffer of its own, and the handle released last decides what the file
is.
-/
namespace TgCryptFs
open Library

namespace FileOp

theorem eq_nil_of_writesBy {a b : ℕ} {ops : List FileOp}
    (h : ∀ op ∈ ops, op.WritesThrough a ∨ op.WritesThrough b) (ha : writesBy a ops = [])
    (hb : writesBy b ops = []) : ops = [] := by
  refine List.eq_nil_iff_forall_not_mem.2 fun op hop => ?_
  rcases h op hop with h | h
  · exact writesBy_ne_nil hop h ha
  · exact writesBy_ne_nil hop h hb

end FileOp

open FileOp

/-- The writes of `a` and `b`, the release of `a`, more writes of `b`, the release of `b`. -/
def sharedOps (a b : ℕ) (before after : List FileOp) : List FileOp :=
  before ++ .release a :: (after ++ [.release b])

section

variable {a b : ℕ} {before after : List FileOp} {x : FileImage}

theorem foldl_sharedOps (hab : a ≠ b) (ha : x.buffers a = some []) (hb : x.buffers b = some [])
    (hbefore : ∀ op ∈ before, op.WritesThrough a ∨ op.WritesThrough b)
    (hafter : ∀ op ∈ after, op.WritesThrough b) :
    ∃ y z : FileImage, y.buffers a = some (pwrites 0 [] (writesBy a before)) ∧
      (before = [] → y = x) ∧ (after = [] → z = y.step (.release a)) ∧
      z.buffers b = some (pwrites 0 [] (writesBy b (before ++ after))) ∧
      (sharedOps a b before after).foldl FileImage.step x = z.step (.release b) := by
  obtain ⟨-, hbuf⟩ := FileImage.foldl_of_no_release before (fun op hop =>
    (hbefore op hop).elim WritesThrough.isRelease WritesThrough.isRelease) x
  generalize hy : before.foldl FileImage.step x = y at hbuf
  obtain ⟨-, hbuf'⟩ := FileImage.foldl_of_no_release after
    (fun op hop => (hafter op hop).isRelease) (y.step (.release a))
  generalize hz : after.foldl FileImage.step (y.step (.release a)) = z at hbuf'
  have hkeep : (y.step (.release a)).buffers b = y.buffers b := by
    rw [FileImage.step]
    split <;> exact Function.update_of_ne hab.symm _ _
  refine ⟨y, z, ?_, ?_, ?_, ?_, ?_⟩
  · rw [hbuf, ha]
    rfl
  · rintro rfl
    exact hy.symm
  · rintro rfl
    exact hz.symm
  · rw [hbuf', hkeep, hbuf, hb, writesBy_append, pwrites_append]
    rfl
  · rw [sharedOps, List.foldl_append, hy, List.foldl_cons, List.foldl_append, hz]
    rfl

/-- The size and the stored bytes once both handles are released. -/
theorem data_sharedOps (hab : a ≠ b) (ha : x.buffers a = some []) (hb : x.buffers b = some [])
    (hbefore : ∀ op ∈ before, op.WritesThrough a ∨ op.WritesThrough b)
    (hafter : ∀ op ∈ after, op.WritesThrough b) (hx : x.size = x.data.length) {y : FileImage}
    (hy : (sharedOps a b before after).foldl FileImage.step x = y) :
    y.size = y.data.length ∧
    (writesBy b (before ++ after) ≠ [] → y.data = pwrites 0 [] (writesBy b (before ++ after))) ∧
    (writesBy b (before ++ after) = [] → writesBy a before ≠ [] →
      y.data = pwrites 0 [] (writesBy a before)) := by
  obtain ⟨y₁, y₂, hba, hsame₁, hsame₂, hbb, hfold⟩ := foldl_sharedOps hab ha hb hbefore hafter
  rw [hfold] at hy
  by_cases hwb : writesBy b (before ++ after) = []
  · have hwb' := hwb
    rw [writesBy_append, List.append_eq_nil_iff] at hwb'
    have hnil : after = [] := eq_nil_of_writesBy (fun op hop => .inl (hafter op hop)) hwb'.2 hwb'.2
    rw [hwb] at hbb
    rw [FileImage.step_release_of_nil hbb, hsame₂ hnil] at hy
    by_cases hwa : writesBy a before = []
    · have hbnil := eq_nil_of_writesBy hbefore hwa hwb'.1
      rw [hwa] at hba
      rw [FileImage.step_release_of_nil hba, hsame₁ hbnil] at hy
      subst hy
      exact ⟨hx, fun h => (h hwb).elim, fun _ h => (h hwa).elim⟩
    · have hne : pwrites 0 [] (writesBy a before) ≠ [] := by
        refine pwrites_ne_nil (fun w hw => ?_) hwa
        rcases hbefore _ (mem_writesBy.1 hw) with ⟨o, d, hd, e⟩ | ⟨o, d, hd, e⟩ <;> cases e <;> exact hd
      rw [FileImage.step_release_of_ne hba hne] at hy
      subst hy
      exact ⟨rfl, fun h => (h hwb).elim, fun _ _ => rfl⟩
  · have hne : pwrites 0 [] (writesBy b (before ++ after)) ≠ [] := by
      refine pwrites_ne_nil (fun w hw => ?_) hwb
      rcases List.mem_append.1 (mem_writesBy.1 hw) with hm | hm
      · rcases hbefore _ hm with ⟨o, d, hd, e⟩ | ⟨o, d, hd, e⟩ <;> cases e <;> exact hd
      · obtain ⟨o, d, hd, e⟩ := hafter _ hm
        cases e
        exact hd
    rw [FileImage.step_release_of_ne hbb hne] at hy
    subst hy
    exact ⟨rfl, fun _ => rfl, fun h => (hwb h).elim⟩

end

section

variable [Primitives]

/-- Two handles are open on a file and nothing is written through them yet. They write to
    disjoint ranges and are released, `a` first, in any order of their steps and with nothing
    failing. The file then has what both wrote exactly when `b` wrote nothing, or `a` wrote
    nothing but zeros into holes that `b` leaves. -/
theorem shared_keeps_iff (hinj : Function.Injective blake3) {s : System} (hr : Reachable s)
    (ht : s.mount.transport = true) (hrt : s.mount.rt = true) {ino : ℕ} {i : Inode} {c : Bytes}
    (hi : s.inodes.find ino = some i) (hfile : i.isFile = true) (hsize : i.size = c.length)
    (hc : s.Holds i.manifest c) {a b : ℕ} (hab : a ≠ b) {fa fb : FileHandle}
    (ha : s.handles.get a = some fa) (hb : s.handles.get b = some fb) (ha' : fa.writeBuffer = [])
    (hb' : fb.writeBuffer = []) {es : List (Env × FileOp)} {before after : List FileOp}
    (hes : es.map Prod.snd = sharedOps a b before after)
    (hbefore : ∀ op ∈ before, op.WritesThrough a ∨ op.WritesThrough b)
    (hafter : ∀ op ∈ after, op.WritesThrough b)
    (hrun : Runs.Admits (fileStep ino) Succeeds es s)
    (hdisj : ∀ w ∈ writesBy a before, ∀ w' ∈ writesBy b (before ++ after), ∀ p,
      ¬ (Covers w p ∧ Covers w' p)) :
    (∃ content, (Runs.runAll (fileStep ino) es s).Content ino content ∧
      Contains content (writesBy a before) ∧ Contains content (writesBy b (before ++ after))) ↔
    writesBy b (before ++ after) = [] ∨
      ∀ p v, lastWrite p (writesBy a before) = some v →
        v = 0 ∧ p < extent (writesBy b (before ++ after)) := by
  have hshow := shows_runAll hinj es (shows_of_reachable hinj hr ht hrt hi hfile hc) hrun
  rw [hes] at hshow
  have hba : (s.handles.get a).map FileHandle.writeBuffer = some [] := by rw [ha, Option.map_some, ha']
  have hbb : (s.handles.get b).map FileHandle.writeBuffer = some [] := by rw [hb, Option.map_some, hb']
  obtain ⟨hlen, hdb, hda⟩ := data_sharedOps
    (x := ⟨i.size, c, fun fh => (s.handles.get fh).map FileHandle.writeBuffer⟩) hab hba hbb hbefore
    hafter hsize rfl
  generalize (sharedOps a b before after).foldl FileImage.step _ = y at hshow hlen hdb hda
  have hcontent : ∀ content, (Runs.runAll (fileStep ino) es s).Content ino content ↔ content = y.data := by
    intro content
    rw [content_iff hshow, hlen]
    exact ⟨fun h => h.2.eq_of_length h.1.symm, fun h => by rw [h]; exact ⟨rfl, List.prefix_refl _⟩⟩
  simp only [hcontent, exists_eq_left]
  by_cases hwb : writesBy b (before ++ after) = []
  · refine ⟨fun _ => .inl hwb, fun _ => ⟨?_, by rw [hwb]; exact nofun⟩⟩
    by_cases hwa : writesBy a before = []
    · rw [hwa]
      exact nofun
    · rw [hda hwb hwa]
      exact contains_pwrites 0 [] _
  · rw [hdb hwb, contains_pwrites_other 0 hdisj]
    exact ⟨fun h => .inr h.1, fun h => ⟨h.resolve_left hwb, contains_pwrites 0 [] _⟩⟩

end

section

open scoped Sample

/-- A new file, open as handles 1 and 2. -/
def twiceOpenRun : List Event :=
  [.init, .create Sample.caller 1 (.utf8 "a") 0o644 0, .openFile 2 0].map Sample.event

def twiceOpen : System := Runs.runAll Life.step (twiceOpenRun.map .serve) (.fresh Sample.mount none)

theorem reachable_twiceOpen : Reachable twiceOpen :=
  reachable_of_works twiceOpenRun (Sample.works_events _) Sample.mount

theorem find_twiceOpen :
    twiceOpen.inodes.find 2 = some (Inode.newFile 2 1 "a" 0o644 0 0 0) := by decide +kernel

theorem handles_twiceOpen : twiceOpen.handles.get 1 = some ⟨1, 2, 0, [], false⟩ ∧
    twiceOpen.handles.get 2 = some ⟨2, 2, 0, [], false⟩ := by decide +kernel

/-- Handle 1 writes `[97]`; both are released. -/
def oneWriter : List (Env × FileOp) :=
  [(Sample.env none [], .write 1 0 [97]), (Sample.env (some 1) [1], .release 1),
    (Sample.env (some 2) [2], .release 2)]

/-- Handle 1 writes `[97]` at 0 and handle 2 writes `[98]` at 1; both are released. -/
def twoWriters : List (Env × FileOp) :=
  [(Sample.env none [], .write 1 0 [97]), (Sample.env none [], .write 2 1 [98]),
    (Sample.env (some 1) [1], .release 1), (Sample.env (some 2) [2], .release 2)]

theorem shared_with_one_writer :
    ∃ content, (Runs.runAll (fileStep 2) oneWriter twiceOpen).Content 2 content ∧
      Contains content [(0, [97])] ∧ Contains content [] := by
  have hw := Sample.works_env
  have hbefore : ∀ op ∈ [FileOp.write 1 0 [97]], op.WritesThrough 1 ∨ op.WritesThrough 2 := by
    intro op hop
    cases List.mem_singleton.1 hop
    exact .inl ⟨0, [97], nofun, rfl⟩
  have hes : oneWriter.map Prod.snd = sharedOps 1 2 [.write 1 0 [97]] [] := rfl
  refine (shared_keeps_iff Sample.hash_injective reachable_twiceOpen rfl rfl find_twiceOpen rfl rfl
    (.empty rfl) (by decide) handles_twiceOpen.1 handles_twiceOpen.2 rfl rfl hes hbefore nofun
    ⟨⟨hw none [], nofun⟩, ⟨hw (some 1) [1], fun _ => ?_⟩, ⟨hw (some 2) [2], fun _ => ?_⟩, trivial⟩
    nofun).2 (.inl rfl)
  · exact ⟨⟨1, rfl, by decide +kernel⟩, rfl, by decide +kernel⟩
  · exact ⟨⟨2, rfl, by decide +kernel⟩, rfl, by decide +kernel⟩

/-- The byte of the handle released first is gone. -/
theorem shared_loses_first :
    (Reachable twiceOpen ∧ twiceOpen.inodes.find 2 = some (Inode.newFile 2 1 "a" 0o644 0 0 0)) ∧
    Runs.Admits (fileStep 2) Succeeds twoWriters twiceOpen ∧
    ¬ ∃ content, (Runs.runAll (fileStep 2) twoWriters twiceOpen).Content 2 content ∧
      Contains content [(0, [97])] ∧ Contains content [(1, [98])] := by
  have hw := Sample.works_env
  refine ⟨⟨reachable_twiceOpen, find_twiceOpen⟩, ?_, ?_⟩
  · refine ⟨⟨hw none [], nofun⟩, ⟨hw none [], nofun⟩, ⟨hw (some 1) [1], fun _ => ?_⟩,
      ⟨hw (some 2) [2], fun _ => ?_⟩, trivial⟩
    · exact ⟨⟨1, rfl, by decide +kernel⟩, rfl, by decide +kernel⟩
    · exact ⟨⟨2, rfl, by decide +kernel⟩, rfl, by decide +kernel⟩
  · rintro ⟨content, hc, h, -⟩
    have hread := hc.2 _ _ 0 0 1 (hw none []) (hw none [])
    have hreply : (Runs.runAll (fileStep 2) twoWriters twiceOpen).readNew (Sample.env none [])
        (Sample.env none []) 0 2 0 1 = .data [0] := by decide +kernel
    rw [hreply] at hread
    have hfirst := h 0 97 rfl
    rw [Reply.data.injEq, slice, List.drop_zero] at hread
    cases content with
    | nil => cases hfirst
    | cons y ys =>
      cases hread
      cases hfirst

end

end TgCryptFs

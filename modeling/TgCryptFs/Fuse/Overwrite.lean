import TgCryptFs.Fuse.FileContent

set_option autoImplicit false

/-!
# Writing to a stored file

A new handle starts with an empty buffer, whatever the file holds, and its release
replaces the file by the buffer.
-/
namespace TgCryptFs
open Library

/-- Every byte of `c` is written over, or is a zero that the writes reach beyond. -/
def Forgettable (c : Bytes) (ws : List (ℕ × Bytes)) : Prop :=
  ∀ p < c.length, (∃ w ∈ ws, Covers w p) ∨ c.getD p 0 = 0 ∧ p < extent ws

section

variable [Primitives]

/-- The requests of one writer, in order. -/
def writeOps (fh : ℕ) (ws : List (Env × ℕ × Bytes)) : List (Env × FileOp) :=
  ws.map fun w => (w.1, .write fh w.2.1 w.2.2)

omit [Primitives] in
theorem writesBy_writeOps (fh : ℕ) (ws : List (Env × ℕ × Bytes)) :
    FileOp.writesBy fh ((writeOps fh ws).map Prod.snd) = ws.map Prod.snd := by
  rw [FileOp.writesBy, writeOps, List.map_map, List.filterMap_map, ← List.filterMap_eq_map]
  exact List.filterMap_congr fun w _ => if_pos rfl

theorem admits_writeOps (ino fh : ℕ) (ws : List (Env × ℕ × Bytes)) (h : ∀ w ∈ ws, w.1.Works)
    (s : System) : Runs.Admits (fileStep ino) Succeeds (writeOps fh ws) s := by
  induction ws generalizing s with
  | nil => trivial
  | cons w ws ih =>
    exact ⟨⟨h w List.mem_cons_self, nofun⟩, ih (fun v hv => h v (List.mem_cons_of_mem _ hv)) _⟩

/-- The image after the writes of a new handle: its buffer holds them and nothing else. -/
theorem shows_writeOps (hinj : Function.Injective blake3) {s : System} {ino fh : ℕ} {x : FileImage}
    (h : Shows s ino x) (hfh : x.buffers fh = some []) {ws : List (Env × ℕ × Bytes)}
    (hws : ∀ w ∈ ws, w.1.Works) :
    ∃ y, Shows (Runs.runAll (fileStep ino) (writeOps fh ws) s) ino y ∧ y.data = x.data ∧
      y.buffers fh = some (pwrites 0 [] (ws.map Prod.snd)) ∧ (ws = [] → y.size = x.size) := by
  have hrel : ∀ op ∈ (writeOps fh ws).map Prod.snd, op.isRelease = false := by
    intro op hop
    obtain ⟨e, he, rfl⟩ := List.mem_map.1 hop
    obtain ⟨w, -, rfl⟩ := List.mem_map.1 he
    rfl
  obtain ⟨hdata, hbuf⟩ := FileImage.foldl_of_no_release _ hrel x
  refine ⟨_, shows_runAll hinj _ h (admits_writeOps ino fh ws hws s), hdata, ?_, ?_⟩
  · rw [hbuf, hfh, writesBy_writeOps]
    rfl
  · rintro rfl
    rfl

/-- A file holding `c` is opened anew, written to and released, with nothing failing. Then
    the handle shows and the file ends up as `c` with the writes applied exactly when there
    were no writes or nothing of `c` had to be kept. -/
theorem overwrite_keeps_iff (hinj : Function.Injective blake3) {s : System} (hr : Reachable s)
    (ht : s.mount.transport = true) (hrt : s.mount.rt = true) {ino : ℕ} {i : Inode} {c : Bytes}
    (hi : s.inodes.find ino = some i) (hfile : i.isFile = true) (hsize : i.size = c.length)
    (hc : s.Holds i.manifest c) {opening : Env} (ho : opening.Works) {flags : ℤ} {fh : ℕ}
    {s₁ : System} (hopen : exec opening (.openFile ino flags) s = (.opened fh, s₁))
    {ws : List (Env × ℕ × Bytes)} (hws : ∀ w ∈ ws, w.1.Works ∧ w.2.2 ≠ []) {s₂ : System}
    (hs₂ : Runs.runAll (fileStep ino) (writeOps fh ws) s₁ = s₂) {releasing : Env}
    (hrel : releasing.Works) (hup : releasing.Uploads s₂) :
    ((∀ reading o n, reading.Works → (exec reading (.read ino fh o n) s₂).1 =
        .data (slice (pwrites 0 c (ws.map Prod.snd)) o n)) ∧
      (exec releasing (.release ino fh) s₂).2.Content ino (pwrites 0 c (ws.map Prod.snd))) ↔
    ws = [] ∨ Forgettable c (ws.map Prod.snd) := by
  obtain ⟨hfh, hshow₁⟩ := shows_openFile hinj (shows_of_reachable hinj hr ht hrt hi hfile hc) ho flags
  rw [hopen] at hfh hshow₁
  cases hfh
  obtain ⟨y, hshow₂, hdata, hbuf, hsz⟩ := shows_writeOps hinj hshow₁ (Function.update_self ..)
    fun w hw => (hws w hw).1
  rw [hs₂] at hshow₂
  have hshow₃ := shows_release hinj hshow₂ hrel hup s.handles.nextFh
  rw [content_iff hshow₃]
  cases hnil : ws with
  | nil =>
    subst hnil
    have hstep := FileImage.step_release_of_nil hbuf
    have hy : y.size = c.length := (hsz rfl).trans hsize
    rw [hstep, hdata, hy]
    refine ⟨fun _ => .inl rfl, fun _ => ⟨fun reading o n hread => ?_, rfl, List.prefix_refl _⟩⟩
    rw [read_shows hshow₂ hbuf hread, hdata, hy]
    exact congrArg Reply.data (fileView_eq_slices.2 (List.prefix_refl c) o n)
  | cons w ws' =>
    rw [← hnil]
    have hne : ws ≠ [] := by rw [hnil]; exact nofun
    have hb : pwrites 0 [] (ws.map Prod.snd) ≠ [] := by
      refine pwrites_ne_nil (fun w hw => ?_) fun e => hne (List.map_eq_nil_iff.1 e)
      obtain ⟨v, hv, rfl⟩ := List.mem_map.1 hw
      exact (hws v hv).2
    rw [FileImage.step_release_of_ne hbuf hb, Forgettable, ← pwrites_eq_iff]
    constructor
    · rintro ⟨-, hlen, hpre⟩
      exact .inr (hpre.eq_of_length hlen.symm)
    · intro h
      rw [h.resolve_left hne]
      refine ⟨fun reading o n hread => ?_, rfl, List.prefix_refl _⟩
      rw [read_shows hshow₂ hbuf hread, if_neg hb]

end

section

open scoped Sample

/-- The stored file, opened as handle 2. -/
def reopened : System := (exec (Sample.env none []) (.openFile 2 0) stored).2

theorem open_stored : exec (Sample.env none []) (.openFile 2 0) stored = (.opened 2, reopened) :=
  Prod.ext (by decide +kernel) rfl

/-- The handle writes `data` at the start of the file. -/
def rewritten (data : Bytes) : System :=
  Runs.runAll (fileStep 2) (writeOps 2 [(Sample.env none [], 0, data)]) reopened

theorem uploads_rewritten (data : Bytes)
    (h : (rewritten data).remote = stored.remote ∧ (rewritten data).blocks = stored.blocks) :
    (Sample.env (some 2) [2]).Uploads (rewritten data) := by
  refine ⟨⟨2, rfl, ?_⟩, rfl, ?_⟩
  · rw [h.1]
    decide +kernel
  · rw [h.2]
    decide +kernel

/-- Both bytes of the stored file are written over. -/
theorem overwrite_of_all :
    (∀ reading o n, reading.Works → (exec reading (.read 2 2 o n) (rewritten [98, 97])).1 =
      .data (slice [98, 97] o n)) ∧
    (exec (Sample.env (some 2) [2]) (.release 2 2) (rewritten [98, 97])).2.Content 2 [98, 97] := by
  have hws : ∀ w ∈ [(Sample.env none [], 0, ([98, 97] : Bytes))], w.1.Works ∧ w.2.2 ≠ [] := by
    intro w hw
    cases List.mem_singleton.1 hw
    exact ⟨Sample.works_env none [], nofun⟩
  refine (overwrite_keeps_iff Sample.hash_injective reachable_stored rfl rfl find_stored rfl rfl
    holds_stored (Sample.works_env none []) open_stored hws rfl (Sample.works_env (some 2) [2])
    (uploads_rewritten [98, 97] ⟨by decide +kernel, by decide +kernel⟩)).2 (.inr fun p hp => ?_)
  exact .inl ⟨(0, [98, 97]), List.mem_cons_self, Nat.zero_le _, by simpa using hp⟩

/-- One byte is written over, and the other is gone: to the handle at once, from the file
    after the release. -/
theorem overwrite_loses_rest :
    (Reachable stored ∧ stored.inodes.find 2 = some storedInode ∧ storedInode.size = 2 ∧
      stored.Holds storedInode.manifest [97, 98]) ∧
    exec (Sample.env none []) (.openFile 2 0) stored = (.opened 2, reopened) ∧
    (Sample.env (some 2) [2]).Uploads (rewritten [98]) ∧
    (exec (Sample.env none []) (.read 2 2 0 2) (rewritten [98])).1 ≠
      .data (slice (pwrites 0 [97, 98] [(0, [98])]) 0 2) ∧
    ¬ (exec (Sample.env (some 2) [2]) (.release 2 2) (rewritten [98])).2.Content 2
      (pwrites 0 [97, 98] [(0, [98])]) := by
  refine ⟨⟨reachable_stored, find_stored, rfl, holds_stored⟩, open_stored,
    uploads_rewritten [98] ⟨by decide +kernel, by decide +kernel⟩, by decide +kernel, fun h => ?_⟩
  have hw := Sample.works_env none []
  exact absurd (h.2 _ _ 0 0 2 hw hw) (by decide +kernel)

end

end TgCryptFs

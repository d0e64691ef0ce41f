import TgCryptFs.Fuse.Durability
import TgCryptFs.Fuse.HandleIdentity

set_option autoImplicit false

/-!
# One file as its users see it

Of a file a mount keeps a size, the stored bytes and the buffers of the open handles.
`FileImage` is that and nothing else; as long as nothing fails, the requests on a file
act on it as `FileImage.step` says.
-/
namespace TgCryptFs
open Library

structure FileImage where
  size : ℕ
  data : Bytes
  /-- The buffers of the open handles. -/
  buffers : ℕ → Option Bytes

/-- The requests that change a file. A truncation may come with other attributes. -/
inductive FileOp where
  | write (fh offset : ℕ) (data : Bytes)
  | truncate (n : ℕ) (c : AttrChange)
  | release (fh : ℕ)

namespace FileOp

def request (ino : ℕ) : FileOp → Request
  | .write fh offset data => .write ino fh offset data
  | .truncate n c => .setattr ino { c with size := some n }
  | .release fh => .release ino fh

def isRelease : FileOp → Bool
  | .release _ => true
  | _ => false

end FileOp

namespace FileImage

/-- The size follows the buffer at a write, the stored bytes follow it at the release. -/
def step (x : FileImage) : FileOp → FileImage
  | .write fh offset data =>
    match x.buffers fh with
    | none => x
    | some b =>
      { x with
        size := (pwrite 0 b offset data).length
        buffers := Function.update x.buffers fh (some (pwrite 0 b offset data)) }
  | .truncate n _ => { x with size := n }
  | .release fh =>
    match x.buffers fh with
    | some (y :: ys) => ⟨(y :: ys).length, y :: ys, Function.update x.buffers fh none⟩
    | _ => { x with buffers := Function.update x.buffers fh none }

end FileImage

variable [Primitives]

/-- What is in a buffer is marked as not yet stored. -/
def System.BuffersDirty (s : System) : Prop :=
  ∀ fh h, s.handles.get fh = some h → h.writeBuffer ≠ [] → h.dirty = true

theorem buffersDirty_step {e : Event} {s : System} (hs : s.BuffersDirty) : (e.step s).BuffersDirty := by
  obtain ⟨env, req⟩ := e
  have heff := exec_handleEffect env req s
  intro fh h hh
  change (exec env req s).2.handles.get fh = some h at hh
  generalize (exec env req s).1 = r at heff
  generalize (exec env req s).2.handles = t at heff hh
  cases heff with
  | same => exact hs fh h hh
  | opened | created =>
    rw [HandleTable.get_openHandle] at hh
    split at hh
    · cases hh
      exact fun hne => (hne rfl).elim
    · exact hs fh h hh
  | written =>
    rw [HandleTable.get_update] at hh
    split at hh
    · obtain ⟨h₀, -, rfl⟩ := Option.map_eq_some_iff.1 hh
      exact fun _ => rfl
    · exact hs fh h hh
  | released =>
    rw [HandleTable.get_close] at hh
    split at hh
    · cases hh
    · exact hs fh h hh

theorem buffersDirty_of_reachable {s : System} (h : Reachable s) : s.BuffersDirty := by
  obtain ⟨m, cache, -, hrun⟩ := h
  refine hrun.invariant System.BuffersDirty ?_ fun l s hs _ => ?_
  · intro fh h hh
    cases hh
  · cases l with
    | serve e => exact buffersDirty_step hs
    | remount m cache =>
      intro fh h hh
      cases hh

/-- The image of a file in a mount that can reach its transport. -/
structure Shows (s : System) (ino : ℕ) (x : FileImage) : Prop where
  sound : s.Sound
  dirty : s.BuffersDirty
  transport : s.mount.transport = true
  rt : s.mount.rt = true
  row : ∃ i, s.inodes.find ino = some i ∧ i.isFile = true ∧ i.size = x.size ∧
    s.Holds i.manifest x.data
  buffers : ∀ fh, x.buffers fh = (s.handles.get fh).map FileHandle.writeBuffer

/-- A request on a file, with its surroundings. -/
def fileStep (ino : ℕ) (e : Env × FileOp) (s : System) : System :=
  (exec e.1 (e.2.request ino) s).2

/-- Nothing fails, and a release finds its upload accepted. -/
def Succeeds (e : Env × FileOp) (s : System) : Prop :=
  e.1.Works ∧ (e.2.isRelease = true → e.1.Uploads s)

theorem exec_write {env : Env} {s : System} {ino fh : ℕ} {h : FileHandle} {i : Inode}
    (henv : env.AllOk) (hh : s.handles.get fh = some h) (hi : s.inodes.find ino = some i) (o : ℕ)
    (d : Bytes) :
    (exec env (.write ino fh o d) s).1 = .written d.length ∧
    (exec env (.write ino fh o d) s).2.inodes.find = Function.update s.inodes.find ino
      (some { i with
        size := (pwrite 0 h.writeBuffer o d).length
        timestamps := { i.timestamps with mtimeNs := systemTimeToNs (env.now 0) } }) := by
  have hsome : (env.serve (.handleUpdate fh (bufferWrite o d)) s).1 = true := by
    change (s.handles.get fh).isSome = true
    rw [hh]
    rfl
  have hget : (env.serve (.handleUpdate fh (bufferWrite o d)) s).2.handles.get fh =
      some (bufferWrite o d h) := by
    change (s.handles.update fh (bufferWrite o d)).2.get fh = _
    rw [HandleTable.get_update, if_pos rfl, hh]
    rfl
  have hin : (env.serve (.handleUpdate fh (bufferWrite o d)) s).2.inodes = s.inodes := rfl
  simp only [exec, handler, write, CallTree.run_call, hsome, if_true, Env.serve_handleGet, hget]
  generalize (env.serve (.handleUpdate fh (bufferWrite o d)) s).2 = s₁ at hin
  simp only [CallTree.run_call, Env.fst_serve_get, Env.snd_serve_get, Env.read, henv.sql, if_true,
    InodeStore.get, hin, hi, Env.fst_serve_now, Env.snd_serve_now, Env.snd_serve_update, CallTree.run_ret,
    System.inodes_writeInodes, true_and]
  obtain ⟨t, ht, hft⟩ := update_sameEntry hi (⟨rfl, rfl, rfl, rfl, rfl, rfl, rfl⟩ : i.SameEntry
    { i with
      size := (bufferWrite o d h).writeBuffer.length
      timestamps := { i.timestamps with mtimeNs := systemTimeToNs (env.now 0) } })
  rw [tryUpdate_of_ok (henv.sql _) ht, hft]
  rfl

theorem exec_setattr {env : Env} {s : System} {ino : ℕ} {i : Inode} (henv : env.AllOk)
    (hi : s.inodes.find ino = some i) (c : AttrChange) :
    (exec env (.setattr ino c) s).2.inodes.find =
      Function.update s.inodes.find ino (some (c.apply (env.now 0) (env.now 1) (env.now 2) i)) := by
  obtain ⟨t, ht, hft⟩ := update_sameEntry hi (⟨rfl, rfl, rfl, rfl, rfl, rfl, rfl⟩ :
    i.SameEntry (c.apply (env.now 0) (env.now 1) (env.now 2) i))
  have hupdate : (env.serve (.update .update (c.apply (env.now 0) (env.now 1) (env.now 2) i)) s) =
      (.ok (), s.writeInodes t) := by
    rw [Env.serve_update, Env.read, if_pos (henv.sql _), ht]
  simp only [exec, handler, setattr, CallTree.run_call, Env.fst_serve_get, Env.snd_serve_get,
    Env.read, henv.sql, if_true, InodeStore.get, hi, Env.fst_serve_now, Env.snd_serve_now, hupdate,
    CallTree.run_ret, System.inodes_writeInodes, hft]

/-- What a request on the file leaves to be shown: the row and the buffers. -/
theorem Shows.of_step (hinj : Function.Injective blake3) {s : System} {ino : ℕ} {x x' : FileImage}
    (h : Shows s ino x) {e : Event} (he : e.env.Faithful s)
    (hrow : ∃ i, (e.step s).inodes.find ino = some i ∧ i.isFile = true ∧ i.size = x'.size ∧
      (e.step s).Holds i.manifest x'.data)
    (hbuf : ∀ fh, x'.buffers fh = ((e.step s).handles.get fh).map FileHandle.writeBuffer) :
    Shows (e.step s) ino x' := by
  have hmount : (e.step s).mount = s.mount := (config_run e.env (handler s.mount e.req) s).1
  exact ⟨sound_step hinj h.sound he, buffersDirty_step h.dirty,
    by rw [hmount]; exact h.transport, by rw [hmount]; exact h.rt, hrow, hbuf⟩

theorem shows_openFile (hinj : Function.Injective blake3) {env : Env} {s : System} {ino : ℕ}
    {x : FileImage} (h : Shows s ino x) (henv : env.Works) (flags : ℤ) :
    (exec env (.openFile ino flags) s).1 = .opened s.handles.nextFh ∧
    Shows (exec env (.openFile ino flags) s).2 ino
      { x with buffers := Function.update x.buffers s.handles.nextFh (some []) } := by
  obtain ⟨i, hi, hfile, hsize, hd⟩ := h.row
  have hexec := exec_openFile (henv.sql .find) hi flags
  refine ⟨by rw [hexec], h.of_step hinj (e := ⟨env, .openFile ino flags⟩) (henv.faithful s) ?_ fun fh => ?_⟩
  · change ∃ i, (exec env (.openFile ino flags) s).2.inodes.find ino = some i ∧ _ ∧ _ ∧
      (exec env (.openFile ino flags) s).2.Holds i.manifest x.data
    exact ⟨i, by rw [hexec]; exact hi, hfile, hsize, hd.mono (sameData_exec env rfl s).grows⟩
  · change _ = ((exec env (.openFile ino flags) s).2.handles.get fh).map _
    rw [hexec]
    dsimp only
    rw [HandleTable.get_openHandle, Function.update_apply]
    split
    · rfl
    · exact h.buffers fh

theorem shows_write (hinj : Function.Injective blake3) {env : Env} {s : System} {ino : ℕ}
    {x : FileImage} (h : Shows s ino x) (henv : env.Works) (fh o : ℕ) (d : Bytes) :
    Shows (exec env (.write ino fh o d) s).2 ino (x.step (.write fh o d)) := by
  obtain ⟨i, hi, hfile, hsize, hd⟩ := h.row
  have hsame : s.SameData (exec env (.write ino fh o d) s).2 := sameData_exec env rfl s
  have hd' := hd.mono hsame.grows
  have hhandles : (exec env (.write ino fh o d) s).2.handles =
      (s.handles.update fh (bufferWrite o d)).2 := handles_write env s ino fh o d
  have hb := h.buffers fh
  refine h.of_step hinj (e := ⟨env, .write ino fh o d⟩) (henv.faithful s) ?_ fun k => ?_
  · cases hh : s.handles.get fh with
    | none =>
      rw [hh, Option.map_none] at hb
      simp only [FileImage.step, hb]
      refine ⟨i, ?_, hfile, hsize, hd'⟩
      rw [inodes_of_no_handle (e := ⟨env, .write ino fh o d⟩) rfl hh]
      exact hi
    | some f =>
      rw [hh, Option.map_some] at hb
      simp only [FileImage.step, hb]
      have hrow := congrFun (exec_write henv.toAllOk hh hi o d).2 ino
      rw [Function.update_self] at hrow
      exact ⟨_, hrow, hfile, rfl, hd'⟩
  · change _ = ((exec env (.write ino fh o d) s).2.handles.get k).map _
    rw [hhandles, HandleTable.get_update]
    cases hh : s.handles.get fh with
    | none =>
      rw [hh, Option.map_none] at hb
      simp only [FileImage.step, hb]
      split
      · rename_i e
        rw [e, hh, hb]
        rfl
      · exact h.buffers k
    | some f =>
      rw [hh, Option.map_some] at hb
      simp only [FileImage.step, hb, Function.update_apply]
      split
      · rename_i e
        rw [e, hh]
        rfl
      · exact h.buffers k

theorem shows_truncate (hinj : Function.Injective blake3) {env : Env} {s : System} {ino : ℕ}
    {x : FileImage} (h : Shows s ino x) (henv : env.Works) (n : ℕ) (c : AttrChange) :
    Shows (exec env (.setattr ino { c with size := some n }) s).2 ino (x.step (.truncate n c)) := by
  obtain ⟨i, hi, hfile, hsize, hd⟩ := h.row
  have hsame : s.SameData (exec env (.setattr ino { c with size := some n }) s).2 :=
    sameData_exec env rfl s
  have hd' := hd.mono hsame.grows
  refine h.of_step hinj (e := ⟨env, .setattr ino { c with size := some n }⟩) (henv.faithful s) ?_ fun k => ?_
  · have hrow := congrFun (exec_setattr henv.toAllOk hi { c with size := some n }) ino
    rw [Function.update_self] at hrow
    exact ⟨_, hrow, hfile, rfl, hd'⟩
  · change _ = ((exec env (.setattr ino { c with size := some n }) s).2.handles.get k).map _
    rw [exec, handler, handles_run env _ ((uses_setattr ino _).mono fun _ h => h.1)]
    exact h.buffers k

/-- A release acts on the image if what is in the buffer is known or its upload accepted. -/
theorem shows_release_of_stores (hinj : Function.Injective blake3) {env : Env} {s : System} {ino : ℕ}
    {x : FileImage} (h : Shows s ino x) (henv : env.Works) {fh : ℕ}
    (hst : ∀ b, x.buffers fh = some b → b ≠ [] → env.Dedups s b ∨ env.Uploads s) :
    Shows (exec env (.release ino fh) s).2 ino (x.step (.release fh)) := by
  obtain ⟨i, hi, hfile, hsize, hd⟩ := h.row
  obtain ⟨-, hhandles, hcase⟩ := exec_release hinj h.sound.backed (henv.faithful s) ino fh
  have hclosed : ∀ k, Function.update x.buffers fh none k =
      ((exec env (.release ino fh) s).2.handles.get k).map FileHandle.writeBuffer := by
    intro k
    rw [hhandles, HandleTable.get_close, Function.update_apply]
    split
    · rfl
    · exact h.buffers k
  rcases hcase with ⟨data, ⟨⟨f, hf, -, rfl⟩, hne, -, -⟩, hout⟩ | ⟨hidle, he⟩
  · have hb := h.buffers fh
    rw [hf, Option.map_some] at hb
    have hfl : env.Flushes s ino f.writeBuffer :=
      ⟨⟨h.transport, h.rt, hst _ hb hne⟩, henv.sql _, henv.sql _,
        by rw [hi]; exact Option.some_ne_none _⟩
    obtain ⟨i', block, hi', hrec, hfind⟩ := hout.flushed hfl
    rw [hi] at hi'
    cases hi'
    have hstep : x.step (.release fh) =
        ⟨f.writeBuffer.length, f.writeBuffer, Function.update x.buffers fh none⟩ := by
      rw [FileImage.step, hb]
      cases hw : f.writeBuffer with
      | nil => exact (hne hw).elim
      | cons y ys => rfl
    rw [hstep]
    refine h.of_step hinj (e := ⟨env, .release ino fh⟩) (henv.faithful s) ?_ hclosed
    refine ⟨i.flushed ino block f.writeBuffer, ?_, hfile, rfl, holds_flushedManifest hrec ino⟩
    change (exec env (.release ino fh) s).2.inodes.find ino = _
    rw [hfind, Function.update_self]
  · have hstep : x.step (.release fh) = { x with buffers := Function.update x.buffers fh none } := by
      rw [FileImage.step, h.buffers fh]
      cases hf : s.handles.get fh with
      | none => rfl
      | some f =>
        cases hw : f.writeBuffer with
        | nil => rw [Option.map_some, hw]
        | cons y ys =>
          have hne : f.writeBuffer ≠ [] := by rw [hw]; exact List.cons_ne_nil _ _
          exact (hidle f.writeBuffer
            ⟨⟨f, hf, h.dirty fh f hf hne, rfl⟩, hne, h.transport, h.rt⟩).elim
    rw [hstep]
    refine h.of_step hinj (e := ⟨env, .release ino fh⟩) (henv.faithful s) ?_ hclosed
    change ∃ i, (exec env (.release ino fh) s).2.inodes.find ino = some i ∧ _ ∧ _ ∧
      (exec env (.release ino fh) s).2.Holds i.manifest x.data
    rw [he]
    have hg : s.SameData { s with handles := (s.handles.close fh).2 } := ⟨rfl, rfl, rfl, rfl⟩
    exact ⟨i, hi, hfile, hsize, hd.mono hg.grows⟩

theorem shows_release (hinj : Function.Injective blake3) {env : Env} {s : System} {ino : ℕ}
    {x : FileImage} (h : Shows s ino x) (henv : env.Works) (hup : env.Uploads s) (fh : ℕ) :
    Shows (exec env (.release ino fh) s).2 ino (x.step (.release fh)) :=
  shows_release_of_stores hinj h henv fun _ _ _ => .inr hup

theorem shows_fileStep (hinj : Function.Injective blake3) {e : Env × FileOp} {s : System} {ino : ℕ}
    {x : FileImage} (h : Shows s ino x) (he : Succeeds e s) :
    Shows (fileStep ino e s) ino (x.step e.2) := by
  obtain ⟨env, op⟩ := e
  cases op with
  | write fh o d => exact shows_write hinj h he.1 fh o d
  | truncate n c => exact shows_truncate hinj h he.1 n c
  | release fh => exact shows_release hinj h he.1 (he.2 rfl) fh

theorem shows_runAll (hinj : Function.Injective blake3) {ino : ℕ} (es : List (Env × FileOp))
    {s : System} {x : FileImage} (h : Shows s ino x) (hes : Runs.Admits (fileStep ino) Succeeds es s) :
    Shows (Runs.runAll (fileStep ino) es s) ino ((es.map Prod.snd).foldl FileImage.step x) := by
  induction es generalizing s x with
  | nil => exact h
  | cons e es ih => exact ih (shows_fileStep hinj h hes.1) hes.2

end TgCryptFs

import TgCryptFs.Fuse.Flushing

set_option autoImplicit false

/-!
# Close-to-open durability

`release` replies ok whether or not the buffer has come to the store.
-/
namespace TgCryptFs
open Library

theorem Env.Works.online {env : Env} (h : env.Works) {m : Mount} (ht : m.transport = true)
    (hrt : m.rt = true) : env.Online m := ⟨ht, hrt, h.served⟩

section

variable [Primitives]

theorem Env.Works.faithful {env : Env} (h : env.Works) (s : System) : env.Faithful s :=
  ⟨fun i data hd => (by rw [h.served] at hd; cases hd), fun _ => h.cached⟩

namespace System

/-- The reply to a read through a handle opened for it. -/
def readNew (s : System) (opening reading : Env) (flags : ℤ) (ino o n : ℕ) : Reply :=
  match exec opening (.openFile ino flags) s with
  | (.opened fh, s') => (exec reading (.read ino fh o n) s').1
  | (r, _) => r

/-- The file has these bytes: the size is theirs, and a read of all of them through a new
    handle returns them. -/
def ReadsBack (s : System) (ino : ℕ) (data : Bytes) : Prop :=
  (∃ i, s.inodes.find ino = some i ∧ i.size = data.length) ∧
  ∀ opening reading flags, opening.Works → reading.Works →
    s.readNew opening reading flags ino 0 data.length = .data data

end System

theorem exec_openFile {env : Env} {s : System} {ino : ℕ} {i : Inode} (hsql : env.sql .find = true)
    (hi : s.inodes.find ino = some i) (flags : ℤ) :
    exec env (.openFile ino flags) s =
      (.opened s.handles.nextFh, { s with handles := (s.handles.openHandle ino flags).2 }) := by
  simp only [exec, handler, openFile, CallTree.run_call, Env.fst_serve_get, Env.snd_serve_get,
    Env.read, hsql, if_true, InodeStore.get, hi]
  rfl

theorem unbuffered_openFile (s : System) (ino : ℕ) (flags : ℤ) :
    ({ s with handles := (s.handles.openHandle ino flags).2 } : System).Unbuffered
      s.handles.nextFh := by
  intro h hh
  change (s.handles.openHandle ino flags).2.get s.handles.nextFh = some h at hh
  rw [HandleTable.get_openHandle, if_pos rfl] at hh
  cases hh
  rfl

/-- A program that ignores the handles does the same whatever they are. -/
theorem run_withHandles {α : Type} (env : Env) (p : Fuse α) (hp : p.Uses Op.dataOnly) (s : System)
    (t : HandleTable) :
    p.run env.serve { s with handles := t } =
      ((p.run env.serve s).1, { (p.run env.serve s).2 with handles := t }) := by
  induction p generalizing s with
  | ret a => rfl
  | call o k ih =>
    have hserve : env.serve o { s with handles := t } =
        ((env.serve o s).1, { (env.serve o s).2 with handles := t }) := by
      obtain ⟨⟨hin, hig⟩, -⟩ := hp
      obtain ⟨mount, conn, handles, cache, remote⟩ := s
      cases o with
      | insert | update | delete | begin | commit | rollback => cases hin
      | handleOpen | handleGet | handleUpdate | handleClose => cases hig
      | incrementRef rid =>
        simp only [Env.serve, Env.modifyBlocks]
        split <;> rfl
      | blockInsert b =>
        simp only [Env.serve, Env.modifyBlocks]
        split <;> rfl
      | cacheGet i rid => cases cache <;> rfl
      | cachePut i rid data => cases cache <;> rfl
      | _ => rfl
    rw [CallTree.run_call, hserve]
    exact ih _ (hp.2 _) _

theorem readNew_eq {s : System} {opening reading : Env} {ino : ℕ} {i : Inode} (ho : opening.AllOk)
    (hr : reading.AllOk) (hi : s.inodes.find ino = some i) (hfile : i.isFile = true) (flags : ℤ)
    (o n : ℕ) :
    s.readNew opening reading flags ino o n =
      ((readManifest s.mount i o n).run reading.serve s).1 := by
  rw [System.readNew, exec_openFile (ho.sql _) hi]
  dsimp only
  rw [exec_read_unbuffered (s := { s with handles := (s.handles.openHandle ino flags).2 })
    (hr.sql _) hi hfile (unbuffered_openFile s ino flags),
    run_withHandles _ _
      ((uses_readManifest _ _ _ _).mono fun _ => Op.dataOnly_of_cacheOnly)]

theorem readNew_online {s : System} (hs : s.Backed) {opening reading : Env} {ino : ℕ} {i : Inode}
    {data : Bytes} (ht : s.mount.transport = true) (hrt : s.mount.rt = true) (ho : opening.Works)
    (hr : reading.Works) (hi : s.inodes.find ino = some i) (hfile : i.isFile = true)
    (hd : s.Holds i.manifest data) (flags : ℤ) (o n : ℕ) :
    s.readNew opening reading flags ino o n = .data (fileView i.size data o n) := by
  rw [readNew_eq ho.toAllOk hr.toAllOk hi hfile]
  exact (run_readManifest hs (hr.faithful s) hd s.mount o n).2.2 (hr.online ht hrt)

/-- What the row shows is what it showed before, unless it was flushed. -/
theorem readsBack_congr {s s' : System} (hs : s.Sound) (hb : s'.Backed) (hg : s.Grows s')
    (hinodes : s'.inodes = s.inodes) (hm : s'.mount = s.mount) (ht : s.mount.transport = true)
    (hrt : s.mount.rt = true) {ino : ℕ} {i : Inode} (hi : s.inodes.find ino = some i)
    (hfile : i.isFile = true) (data : Bytes) : s'.ReadsBack ino data ↔ s.ReadsBack ino data := by
  obtain ⟨d, hd⟩ := hs.manifests ino i hi
  have hread : ∀ opening reading flags n, opening.Works → reading.Works →
      s'.readNew opening reading flags ino 0 n = s.readNew opening reading flags ino 0 n := by
    intro opening reading flags n ho hr
    rw [readNew_online hs.backed ht hrt ho hr hi hfile hd, readNew_online hb (by rw [hm]; exact ht)
      (by rw [hm]; exact hrt) ho hr (by rw [hinodes]; exact hi) hfile (hd.mono hg)]
  unfold System.ReadsBack
  rw [hinodes]
  refine and_congr_right fun _ => ⟨fun h o r f ho hr => ?_, fun h o r f ho hr => ?_⟩
  · rw [← hread o r f _ ho hr]
    exact h o r f ho hr
  · rw [hread o r f _ ho hr]
    exact h o r f ho hr

theorem readsBack_withHandles {s : System} {ino : ℕ} {i : Inode} (hi : s.inodes.find ino = some i)
    (hfile : i.isFile = true) (data : Bytes) (t : HandleTable) :
    ({ s with handles := t } : System).ReadsBack ino data ↔ s.ReadsBack ino data := by
  have hread : ∀ opening reading flags n, opening.Works → reading.Works →
      ({ s with handles := t } : System).readNew opening reading flags ino 0 n =
        s.readNew opening reading flags ino 0 n := by
    intro opening reading flags n ho hr
    rw [readNew_eq (s := { s with handles := t }) ho.toAllOk hr.toAllOk hi hfile,
      readNew_eq ho.toAllOk hr.toAllOk hi hfile, run_withHandles _ _
      ((uses_readManifest _ _ _ _).mono fun _ => Op.dataOnly_of_cacheOnly)]
  refine and_congr_right fun _ => ⟨fun h o r f ho hr => ?_, fun h o r f ho hr => ?_⟩
  · rw [← hread o r f _ ho hr]
    exact h o r f ho hr
  · rw [hread o r f _ ho hr]
    exact h o r f ho hr

theorem readsBack_of_flushes {env : Env} {s s' : System} {ino : ℕ} {i : Inode} {data : Bytes}
    (h : FlushOutcome env s ino data s') (hf : env.Flushes s ino data) (hm : s'.mount = s.mount)
    (hi : s.inodes.find ino = some i) (hfile : i.isFile = true) : s'.ReadsBack ino data := by
  obtain ⟨i', block, hi', hrec, hfind⟩ := h.flushed hf
  rw [hi] at hi'
  cases hi'
  have hrow : s'.inodes.find ino = some (i.flushed ino block data) := by
    rw [hfind, Function.update_self]
  refine ⟨⟨_, hrow, rfl⟩, fun opening reading flags ho hr => ?_⟩
  rw [readNew_online h.backed (by rw [hm]; exact hf.stores.1) (by rw [hm]; exact hf.stores.2.1) ho hr
    hrow hfile (holds_flushedManifest hrec ino)]
  exact congrArg Reply.data (fileView_self data)

/-- In every reachable state and for every failure, `release` on a dirty buffer either
    replies with an error or has made the buffer the file's content, exactly when the buffer
    is flushed or the file had that content already. -/
theorem release_durable_iff (hinj : Function.Injective blake3) {s : System} (hr : Reachable s)
    {env : Env} (hf : env.Faithful s) {ino fh : ℕ} {h : FileHandle} {i : Inode}
    (hh : s.handles.get fh = some h) (hdirty : h.dirty = true) (hne : h.writeBuffer ≠ [])
    (hi : s.inodes.find ino = some i) (hfile : i.isFile = true) :
    ((exec env (.release ino fh) s).1.isError = true ∨
      (exec env (.release ino fh) s).1 = .ok ∧
      (exec env (.release ino fh) s).2.ReadsBack ino h.writeBuffer) ↔
    env.Flushes s ino h.writeBuffer ∨ s.ReadsBack ino h.writeBuffer := by
  have hs := sound_of_reachable hinj hr
  have hmount := (config_run env (handler s.mount (.release ino fh)) s).1
  obtain ⟨hok, -, hcase⟩ := exec_release hinj hs.backed hf ino fh
  rw [hok]
  simp only [Reply.isError, Bool.false_eq_true, false_or, true_and]
  rcases hcase with ⟨data, hflush, hout⟩ | ⟨hidle, he⟩
  · obtain ⟨⟨h', hh', -, rfl⟩, -, ht, hrt⟩ := hflush
    rw [hh] at hh'
    cases hh'
    by_cases hfl : env.Flushes s ino h.writeBuffer
    · exact ⟨fun _ => .inl hfl, fun _ => readsBack_of_flushes hout hfl hmount hi hfile⟩
    · rw [readsBack_congr hs hout.backed hout.grows (hout.kept hfl) hmount ht hrt hi hfile]
      exact ⟨.inr, fun h => h.resolve_left hfl⟩
  · have hfl : ¬ env.Flushes s ino h.writeBuffer := fun hfl =>
      hidle h.writeBuffer ⟨⟨h, hh, hdirty, rfl⟩, hne, hfl.stores.1, hfl.stores.2.1⟩
    rw [he, readsBack_withHandles hi hfile]
    exact ⟨.inr, fun h => h.resolve_left hfl⟩

theorem reachable_of_works (es : List Event) (h : ∀ e ∈ es, e.env.Works) (m : Mount) :
    Reachable (Runs.runAll Life.step (es.map .serve) (.fresh m none)) := by
  refine ⟨m, none, nofun, .of_admits _ .start (Runs.admits_of_forall _ (fun l hl s => ?_) _)⟩
  obtain ⟨e, he, rfl⟩ := List.mem_map.1 hl
  exact (h e he).faithful s

end

section

open scoped Sample

/-- A file is created, and `[97]` is written through its handle. -/
def bufferedRun : List Event :=
  [.init, .create Sample.caller 1 (.utf8 "a") 0o644 0, .write 2 1 0 [97]].map Sample.event

/-- The volume of that run, mounted like this. -/
def buffered (m : Mount) : System := Runs.runAll Life.step (bufferedRun.map .serve) (.fresh m none)

theorem release_stores_buffer :
    (exec (Sample.env (some 1) [1]) (.release 2 1) (buffered Sample.mount)).1.isError = true ∨
    (exec (Sample.env (some 1) [1]) (.release 2 1) (buffered Sample.mount)).1 = .ok ∧
    (exec (Sample.env (some 1) [1]) (.release 2 1) (buffered Sample.mount)).2.ReadsBack 2 [97] := by
  have hh : (buffered Sample.mount).handles.get 1 = some ⟨1, 2, 0, [97], true⟩ := by decide +kernel
  have hfile : ((buffered Sample.mount).inodes.find 2).map Inode.isFile = some true := by
    decide +kernel
  obtain ⟨i, hi, hfile⟩ := Option.map_eq_some_iff.1 hfile
  refine (release_durable_iff Sample.hash_injective
    (reachable_of_works bufferedRun (Sample.works_events _) Sample.mount)
    ((Sample.works_env (some 1) [1]).faithful _) hh rfl nofun hi hfile).2 (.inl ?_)
  exact ⟨⟨rfl, rfl, .inr ⟨⟨1, rfl, by decide +kernel⟩, rfl, by decide +kernel⟩⟩, rfl, rfl,
    by decide +kernel⟩

/-- A dirty buffer is released, the reply is ok and the bytes are gone. -/
def DropsBuffer (m : Mount) : Prop :=
  Reachable (buffered m) ∧
  (buffered m).handles.get 1 = some ⟨1, 2, 0, [97], true⟩ ∧
  ((buffered m).inodes.find 2).map Inode.isFile = some true ∧
  ¬ ((exec (Sample.env none []) (.release 2 1) (buffered m)).1.isError = true ∨
    (exec (Sample.env none []) (.release 2 1) (buffered m)).1 = .ok ∧
    (exec (Sample.env none []) (.release 2 1) (buffered m)).2.ReadsBack 2 [97])

theorem dropsBuffer_of_reply {m : Mount}
    (hh : (buffered m).handles.get 1 = some ⟨1, 2, 0, [97], true⟩)
    (hfile : ((buffered m).inodes.find 2).map Inode.isFile = some true)
    (hok : (exec (Sample.env none []) (.release 2 1) (buffered m)).1 = .ok)
    (hread : (exec (Sample.env none []) (.release 2 1) (buffered m)).2.readNew (Sample.env none [])
      (Sample.env none []) 0 2 0 1 = .data []) : DropsBuffer m := by
  refine ⟨reachable_of_works bufferedRun (Sample.works_events _) m, hh, hfile, ?_⟩
  rintro (herr | ⟨-, -, hback⟩)
  · rw [hok] at herr
    cases herr
  · have h := hback (Sample.env none []) (Sample.env none []) 0 (Sample.works_env _ _)
      (Sample.works_env _ _)
    rw [List.length_singleton, hread] at h
    cases h

/-- The transport refuses the upload, or there is none. -/
theorem release_drops_buffer :
    DropsBuffer Sample.mount ∧ DropsBuffer { Sample.mount with transport := false } := by
  constructor
  · exact dropsBuffer_of_reply (by decide +kernel) (by decide +kernel) (by decide +kernel)
      (by decide +kernel)
  · exact dropsBuffer_of_reply (by decide +kernel) (by decide +kernel) (by decide +kernel)
      (by decide +kernel)

end

end TgCryptFs

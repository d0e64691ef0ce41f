import TgCryptFs.Fuse.FileContent
import TgCryptFs.Fuse.OtherFiles

set_option autoImplicit false

/-!
# A new file with one writer

Until its release, the handle that `create` returns shows its buffer; after it, new handles
show the stored block. Both are the bytes that the handle's writes give, whatever is asked
of other files meanwhile.
-/
namespace TgCryptFs
open Library

namespace Request

/-- What the request writes to the file through the handle. -/
def written (ino fh : ℕ) : Request → Option (ℕ × Bytes)
  | .write n k offset data => if n = ino ∧ k = fh then some (offset, data) else none
  | _ => none

theorem written_eq_some {ino fh o : ℕ} {d : Bytes} {req : Request} :
    req.written ino fh = some (o, d) ↔ req = .write ino fh o d := by
  constructor
  · intro h
    unfold written at h
    split at h
    · split at h
      · rename_i e
        cases h
        rw [e.1, e.2]
      · cases h
    · cases h
  · rintro rfl
    exact if_pos ⟨rfl, rfl⟩

end Request

/-- The writes through the handle, in order. -/
def writesIn (ino fh : ℕ) (es : List Event) : List (ℕ × Bytes) :=
  es.filterMap fun e => e.req.written ino fh

theorem writesIn_cons (ino fh : ℕ) (e : Event) (es : List Event) :
    writesIn ino fh (e :: es) = (e.req.written ino fh).toList ++ writesIn ino fh es := by
  rw [writesIn, List.filterMap_cons]
  cases e.req.written ino fh <;> rfl

theorem fileView_nil (size o n : ℕ) : fileView size [] o n = slice [] o n := by
  rw [fileView, List.length_nil, if_neg (Nat.not_lt_zero o), slice, List.drop_nil, List.take_nil]

example : fileView 3 [97] 0 3 = [97, 0, 0] ∧ fileView 3 [] 0 3 = [] := by decide +kernel

section

variable [Primitives]

theorem Request.Spares.written {ino fh : ℕ} {s : System} {req : Request} (h : req.Spares ino fh s) :
    req.written ino fh = none := by
  cases req with
  | write n k o d => exact if_neg fun e => h.1 e.1
  | _ => rfl

/-- The file is spared, and the transport serves what it accepted. -/
def Sparing (ino fh : ℕ) (e : Event) (s : System) : Prop :=
  e.req.Spares ino fh s ∧ e.env.Faithful s

/-- A write of some bytes through the handle, or a request that spares the file. -/
def InSession (ino fh : ℕ) (e : Event) (s : System) : Prop :=
  (∃ o d, e.req = .write ino fh o d ∧ d ≠ [] ∧ e.env.Works) ∨ Sparing ino fh e s

/-- The row that `linkNew` has committed under a new number. -/
theorem file_linked {env : Env} {s : System} {t₁ t₂ : Inodes} {i p : Inode} {parent : ℕ}
    {dir : Bool} (hp : s.inodes.find parent = some p) (h₁ : InodeStore.insert s.inodes i = .ok t₁)
    (h₂ : InodeStore.update t₁ (p.addChild i.ino dir) = .ok t₂) (hc : env.commit = .done) :
    (env.committed (s.begun.writeInodes t₂)).inodes.observe Inode.file i.ino = some i.file := by
  rw [inodes_committed, hc, if_neg nofun,
    observe_update h₂ (looksAs_parent h₁ hp (file_addChild _ _)), observe_insert h₁,
    Function.update_self]

/-- A new file is empty, and so is the buffer of its handle. -/
theorem exec_create {env : Env} {s s' : System} {caller : Caller} {parent mode : ℕ} {name : OsStr}
    {flags : ℤ} {a : FileAttr} {fh : ℕ}
    (h : exec env (.create caller parent name mode flags) s = (.created a fh, s')) :
    s'.inodes.observe Inode.file a.ino = some (.regularFile, 0, some (FileManifest.new a.ino)) ∧
    s'.OpenOn a.ino fh [] := by
  rw [exec, handler] at h
  cases name with
  | invalid raw => cases h
  | utf8 name =>
    rw [create, OsStr.toStr, CallTree.run_bind] at h
    rcases env.run_linkNew parent name
      (fun ino now => Inode.newFile ino parent name mode caller.uid caller.gid now) false s with
      ⟨e, hrun⟩ | ⟨p, ino, hp, -, -, hrun⟩
    · rw [hrun] at h
      cases h
    rw [hrun] at h
    have hrow : (Inode.newFile ino parent name mode caller.uid caller.gid
        (systemTimeToNs (env.now 0))).file = (.regularFile, 0, some (FileManifest.new ino)) := rfl
    have hino : (Inode.newFile ino parent name mode caller.uid caller.gid
        (systemTimeToNs (env.now 0))).ino = ino := rfl
    generalize Inode.newFile ino parent name mode caller.uid caller.gid
      (systemTimeToNs (env.now 0)) = i at h hrow hino
    rcases env.run_linkEntry p i false s with ⟨e, hrun⟩ | ⟨t₁, t₂, -, h₁, h₂, hrun⟩
    · rw [hrun] at h
      cases h
    rw [hrun] at h
    by_cases hc : env.commit = .done
    case neg =>
      simp only [hc, if_false] at h
      cases h
    simp only [hc, if_true] at h
    cases h
    have hfile := file_linked hp h₁ h₂ hc
    rw [hrow, ← hino] at hfile
    exact ⟨hfile, openOn_openHandle rfl⟩

theorem shows_create (hinj : Function.Injective blake3) {s s' : System} (hr : Reachable s)
    (ht : s.mount.transport = true) (hrt : s.mount.rt = true) {env : Env} (hf : env.Faithful s)
    {caller : Caller} {parent mode : ℕ} {name : OsStr} {flags : ℤ} {a : FileAttr} {fh : ℕ}
    (h : exec env (.create caller parent name mode flags) s = (.created a fh, s')) :
    Shows s' a.ino ⟨0, [], fun k => (s'.handles.get k).map FileHandle.writeBuffer⟩ := by
  have hs' : (⟨env, .create caller parent name mode flags⟩ : Event).step s = s' :=
    congrArg Prod.snd h
  have hmount : s'.mount = s.mount := by
    rw [← hs']
    exact (config_run env (handler s.mount _) s).1
  obtain ⟨i, hi, heq⟩ := Option.map_eq_some_iff.1 (exec_create h).1
  obtain ⟨htype, hsize, hman⟩ : i.fileType = .regularFile ∧ i.size = 0 ∧
      i.manifest = some (FileManifest.new a.ino) := by
    simpa only [Inode.file, Prod.mk.injEq] using heq
  refine ⟨?_, ?_, by rw [hmount]; exact ht, by rw [hmount]; exact hrt, ⟨i, hi, ?_, hsize, ?_⟩,
    fun _ => rfl⟩
  · rw [← hs']
    exact sound_step hinj (sound_of_reachable hinj hr) hf
  · rw [← hs']
    exact buffersDirty_step (buffersDirty_of_reachable hr)
  · rw [Inode.isFile, htype]
    rfl
  · rw [hman]
    exact .empty rfl

/-- A request of the session changes the buffer as it writes, and not the stored bytes. -/
theorem session_step (hinj : Function.Injective blake3) {s : System} {ino fh : ℕ} {x : FileImage}
    {b : Bytes} (h : Shows s ino x) (hb : s.OpenOn ino fh b) {e : Event}
    (he : InSession ino fh e s) :
    (e.step s).OpenOn ino fh (pwrites 0 b (e.req.written ino fh).toList) ∧
    ∃ y, Shows (e.step s) ino y ∧ y.data = x.data := by
  rcases he with ⟨o, d, hreq, -, henv⟩ | ⟨hsp, hf⟩
  · obtain ⟨env, req⟩ := e
    obtain rfl : req = .write ino fh o d := hreq
    rw [Request.written_eq_some.2 rfl]
    refine ⟨?_, _, shows_write hinj h henv fh o d, ?_⟩
    · obtain ⟨f, hget, hino, rfl⟩ := hb
      refine ⟨bufferWrite o d f, ?_, hino, rfl⟩
      change (exec env (.write ino fh o d) s).2.handles.get fh = _
      rw [exec, handler, handles_write, HandleTable.get_update, if_pos rfl, hget]
      rfl
    · rw [FileImage.step]
      split <;> rfl
  · rw [hsp.written]
    exact ⟨openOn_step hb hsp, _, h.spared hinj hsp hf, rfl⟩

theorem session_run (hinj : Function.Injective blake3) {ino fh : ℕ} (es : List Event) {s : System}
    {x : FileImage} {b : Bytes} (h : Shows s ino x) (hb : s.OpenOn ino fh b)
    (hes : Runs.Admits Event.step (InSession ino fh) es s) :
    (Runs.runAll Event.step es s).OpenOn ino fh (pwrites 0 b (writesIn ino fh es)) ∧
    ∃ y, Shows (Runs.runAll Event.step es s) ino y ∧ y.data = x.data := by
  induction es generalizing s x b with
  | nil => exact ⟨hb, x, h, rfl⟩
  | cons e es ih =>
    obtain ⟨hb', y, hy, hdata⟩ := session_step hinj h hb hes.1
    obtain ⟨hrest, z, hz, hdata'⟩ := ih hy hb' hes.2
    rw [writesIn_cons, pwrites_append]
    exact ⟨hrest, z, hz, hdata'.trans hdata⟩

/-- Requests on other files leave the size and the stored bytes, and the handle. -/
theorem sparing_run (hinj : Function.Injective blake3) {ino fh : ℕ} (es : List Event) {s : System}
    {x : FileImage} (h : Shows s ino x) (hes : Runs.Admits Event.step (Sparing ino fh) es s) :
    (∀ b, s.OpenOn ino fh b → (Runs.runAll Event.step es s).OpenOn ino fh b) ∧
    ∃ y, Shows (Runs.runAll Event.step es s) ino y ∧ y.size = x.size ∧ y.data = x.data := by
  induction es generalizing s x with
  | nil => exact ⟨fun _ hb => hb, x, h, rfl, rfl⟩
  | cons e es ih =>
    obtain ⟨hopen, y, hy, hsize, hdata⟩ := ih (h.spared hinj hes.1.1 hes.1.2) hes.2
    exact ⟨fun b hb => hopen b (openOn_step hb hes.1.1), y, hy, hsize, hdata⟩

theorem read_openOn {s : System} {ino fh : ℕ} {x : FileImage} {b : Bytes} (h : Shows s ino x)
    (hb : s.OpenOn ino fh b) {reading : Env} (hr : reading.Works) (o n : ℕ) :
    (exec reading (.read ino fh o n) s).1 =
      .data (if b = [] then fileView x.size x.data o n else slice b o n) := by
  obtain ⟨f, hf, -, rfl⟩ := hb
  exact read_shows h (by rw [h.buffers, hf]; rfl) hr o n

theorem openOn_opened {env : Env} {s s' : System} {ino fh : ℕ} {flags : ℤ}
    (h : exec env (.openFile ino flags) s = (.opened fh, s')) : s'.OpenOn ino fh [] := by
  rw [exec, handler, openFile, CallTree.run_call, Env.snd_serve_get, Env.fst_serve_get] at h
  rcases hg : env.read .find (.ok (InodeStore.get s.inodes ino)) with e | (_ | i)
  · rw [hg] at h
    cases h
  · rw [hg] at h
    cases h
  · rw [hg] at h
    cases h
    exact openOn_openHandle rfl

theorem shows_opened (hinj : Function.Injective blake3) {env : Env} {s s' : System} {ino fh : ℕ}
    {flags : ℤ} {x : FileImage} (h : Shows s ino x) (hf : env.Faithful s)
    (he : exec env (.openFile ino flags) s = (.opened fh, s')) :
    ∃ y, Shows s' ino y ∧ y.size = x.size ∧ y.data = x.data := by
  have hs' : (⟨env, .openFile ino flags⟩ : Event).step s = s' := congrArg Prod.snd he
  have hsp : (Request.openFile ino flags).Spares ino fh s := trivial
  have hstep := h.spared hinj (e := ⟨env, .openFile ino flags⟩) hsp hf
  rw [hs'] at hstep
  exact ⟨_, hstep, rfl, rfl⟩

/-- What new handles show after the release: the bytes of the session's writes. -/
theorem shows_released (hinj : Function.Injective blake3) {s : System} {ino fh : ℕ} {x : FileImage}
    {b : Bytes} (h : Shows s ino x) (hx : x.data = []) (hb : s.OpenOn ino fh b) {env : Env}
    (henv : env.Works) (hst : b ≠ [] → env.Stores s b) :
    ∃ y, Shows (exec env (.release ino fh) s).2 ino y ∧
      ∀ o n, fileView y.size y.data o n = slice b o n := by
  have hbuf : x.buffers fh = some b := by
    obtain ⟨f, hf, -, rfl⟩ := hb
    rw [h.buffers, hf]
    rfl
  have hstores : ∀ c, x.buffers fh = some c → c ≠ [] → env.Dedups s c ∨ env.Uploads s := by
    intro c hc hne
    rw [hbuf] at hc
    cases hc
    exact (hst hne).2.2
  refine ⟨_, shows_release_of_stores hinj h henv hstores, fun o n => ?_⟩
  by_cases hne : b = []
  · subst hne
    rw [FileImage.step_release_of_nil hbuf]
    change fileView x.size x.data o n = _
    rw [hx, fileView_nil]
  · rw [FileImage.step_release_of_ne hbuf hne]
    exact fileView_eq_slices.2 (List.prefix_refl b) o n

/-- A file is created, written and read through its handle and released, with the writes
    and the storing succeeding; then new handles are opened on it. Meanwhile anything may
    be asked of other files, and fail. Then every read through the handle, and after the
    release every read through a new one, returns the part asked for of the bytes that
    the writes before it give. -/
theorem reads_show_writes (hinj : Function.Injective blake3) {s : System} (hr : Reachable s)
    (ht : s.mount.transport = true) (hrt : s.mount.rt = true) {creating : Env}
    (hf : creating.Faithful s) {caller : Caller} {parent mode : ℕ} {name : OsStr} {flags : ℤ}
    {a : FileAttr} {fh : ℕ} {s₁ : System}
    (hcreate : exec creating (.create caller parent name mode flags) s = (.created a fh, s₁))
    {session : List Event} (hses : Runs.Admits Event.step (InSession a.ino fh) session s₁) :
    (∀ before after reading o n, session = before ++ after → reading.Works →
      (exec reading (.read a.ino fh o n) (Runs.runAll Event.step before s₁)).1 =
        .data (slice (pwrites 0 [] (writesIn a.ino fh before)) o n)) ∧
    ∀ releasing s₂, releasing.Works →
      (pwrites 0 [] (writesIn a.ino fh session) ≠ [] →
        releasing.Stores (Runs.runAll Event.step session s₁)
          (pwrites 0 [] (writesIn a.ino fh session))) →
      (exec releasing (.release a.ino fh) (Runs.runAll Event.step session s₁)).2 = s₂ →
      ∀ idle opening oflags k s₃ busy reading o n,
        Runs.Admits Event.step (Sparing a.ino fh) idle s₂ →
        opening.Faithful (Runs.runAll Event.step idle s₂) →
        exec opening (.openFile a.ino oflags) (Runs.runAll Event.step idle s₂) = (.opened k, s₃) →
        Runs.Admits Event.step (Sparing a.ino k) busy s₃ → reading.Works →
        (exec reading (.read a.ino k o n) (Runs.runAll Event.step busy s₃)).1 =
          .data (slice (pwrites 0 [] (writesIn a.ino fh session)) o n) := by
  have h₁ := shows_create hinj hr ht hrt hf hcreate
  have hopen₁ := (exec_create hcreate).2
  constructor
  · rintro before after reading o n rfl hread
    obtain ⟨hopen, x, hx, hdata⟩ := session_run hinj before h₁ hopen₁ (Runs.admits_append.1 hses).1
    rw [read_openOn hx hopen hread, hdata]
    split
    · rename_i hnil
      exact congrArg Reply.data (by rw [hnil]; exact fileView_nil x.size o n)
    · rfl
  · rintro releasing s₂ hrel hst rfl
    intro idle opening oflags k s₃ busy reading o n hidle hof ho hbusy hread
    obtain ⟨hopen, x, hx, hdata⟩ := session_run hinj session h₁ hopen₁ hses
    obtain ⟨y, hy, hview⟩ := shows_released hinj hx hdata hopen hrel hst
    obtain ⟨-, z, hz, hsize, hzdata⟩ := sparing_run hinj idle hy hidle
    obtain ⟨w, hw, hwsize, hwdata⟩ := shows_opened hinj hz hof ho
    obtain ⟨hkept, v, hv, hvsize, hvdata⟩ := sparing_run hinj busy hw hbusy
    rw [read_openOn hv (hkept [] (openOn_opened ho)) hread, if_pos rfl, hvsize, hvdata, hwsize,
      hwdata, hsize, hzdata, hview]

end

section

open scoped Sample

/-- A file `b` is created next to the stored one, with handle 2. -/
def besideStored : System :=
  (exec (Sample.env none []) (.create Sample.caller 1 (.utf8 "b") 0o644 0) stored).2

/-- It gets the bytes of the stored file, which is unlinked in between. -/
def copyRun : List Event :=
  [.write 3 2 1 [98], .unlink 1 (.utf8 "a"), .write 3 2 0 [97]].map Sample.event

def copied : System := Runs.runAll Event.step copyRun besideStored

/-- The release finds the block of the stored file. -/
def copiedAndOpened : System :=
  (exec (Sample.env none []) (.openFile 3 0) (exec (Sample.env none []) (.release 3 2) copied).2).2

theorem create_besideStored :
    exec (Sample.env none []) (.create Sample.caller 1 (.utf8 "b") 0o644 0) stored =
      (.created (inodeToAttr (Inode.newFile 3 1 "b" 0o644 0 0 0)) 2, besideStored) :=
  Prod.ext (by decide +kernel) rfl

theorem admits_copyRun : Runs.Admits Event.step (InSession 3 2) copyRun besideStored := by
  have hw := Sample.works_env none []
  refine ⟨.inl ⟨1, [98], rfl, nofun, hw⟩, .inr ⟨fun i hi => ?_, hw.faithful _⟩,
    .inl ⟨0, [97], rfl, nofun, hw⟩, trivial⟩
  have hne : ((InodeStore.lookup ((Sample.event (.write 3 2 1 [98])).step besideStored).inodes 1
      "a").all fun i => i.ino != 3) = true := by decide +kernel
  change InodeStore.lookup _ 1 "a" = some i at hi
  rw [hi] at hne
  simpa using hne

theorem reads_of_copy :
    (∀ o n, (exec (Sample.env none []) (.read 3 2 o n) copied).1 =
      .data (slice (pwrites 0 [] [(1, [98]), (0, [97])]) o n)) ∧
    ∀ o n, (exec (Sample.env none []) (.read 3 3 o n) copiedAndOpened).1 =
      .data (slice (pwrites 0 [] [(1, [98]), (0, [97])]) o n) := by
  have hw := Sample.works_env none []
  obtain ⟨hbefore, hafter⟩ := reads_show_writes Sample.hash_injective reachable_stored rfl rfl
    (hw.faithful _) create_besideStored admits_copyRun
  constructor
  · exact fun o n => hbefore copyRun [] _ o n (List.append_nil _).symm hw
  · intro o n
    refine hafter (Sample.env none []) _ hw (fun _ => ⟨rfl, rfl, .inl ⟨rfl, ?_⟩⟩) rfl [] _ 0 3
      copiedAndOpened [] _ o n trivial (hw.faithful _) (Prod.ext (by decide +kernel) rfl) trivial hw
    decide +kernel

end

end TgCryptFs

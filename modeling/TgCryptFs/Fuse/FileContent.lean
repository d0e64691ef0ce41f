import TgCryptFs.Fuse.FileImage

set_option autoImplicit false

/-!
# The content of a file

A file reads as a byte string when its size is that of the string and every read through
a new handle returns the part asked for. On the image this is one comparison with the
stored bytes.
-/
namespace TgCryptFs
open Library

/-- Reads show exactly the prefixes of the stored bytes. -/
theorem fileView_eq_slices {a data : Bytes} :
    (∀ o n, fileView a.length data o n = slice a o n) ↔ a <+: data := by
  constructor
  · intro h
    have hle : a.length ≤ data.length := by
      by_contra hlt
      have hpast := congrArg List.length (h data.length 1)
      rw [fileView, if_neg (Nat.lt_irrefl _), length_slice, List.length_nil] at hpast
      omega
    by_cases ha : a = []
    · subst ha
      exact List.nil_prefix
    have hpos : 0 < data.length := by
      have := List.length_pos_iff.2 ha
      omega
    have hall := h 0 a.length
    rw [fileView, if_pos hpos] at hall
    rw [List.prefix_iff_eq_take]
    simpa [slice, resize, Nat.sub_eq_zero_of_le hle, List.take_take] using hall.symm
  · intro h o n
    have hres : resize 0 data a.length = a := by
      rw [resize, Nat.sub_eq_zero_of_le h.length_le, List.replicate_zero, List.append_nil,
        ← List.prefix_iff_eq_take.1 h]
    unfold fileView
    split
    · rw [hres]
    · rename_i ho
      have := h.length_le
      refine (List.eq_nil_of_length_eq_zero ?_).symm
      rw [length_slice]
      omega

namespace FileOp

/-- What a request asks of the content. -/
def edit : FileOp → Option (Edit UInt8)
  | .write _ o d => some (.write o d)
  | .truncate n _ => some (.truncate n)
  | .release _ => none

def written (fh : ℕ) : FileOp → Option (ℕ × Bytes)
  | .write k o d => if k = fh then some (o, d) else none
  | _ => none

/-- The writes through one handle, in order. -/
def writesBy (fh : ℕ) (ops : List FileOp) : List (ℕ × Bytes) := ops.filterMap (written fh)

/-- A write of some bytes through the handle. -/
def WritesThrough (fh : ℕ) (op : FileOp) : Prop := ∃ o d, d ≠ [] ∧ op = .write fh o d

theorem WritesThrough.isRelease {fh : ℕ} {op : FileOp} (h : op.WritesThrough fh) :
    op.isRelease = false := by
  obtain ⟨o, d, -, rfl⟩ := h
  rfl

theorem writesBy_append (fh : ℕ) (ops ops' : List FileOp) :
    writesBy fh (ops ++ ops') = writesBy fh ops ++ writesBy fh ops' := List.filterMap_append

theorem writesBy_write (fh k o : ℕ) (d : Bytes) (ops : List FileOp) :
    writesBy fh (.write k o d :: ops) =
      if k = fh then (o, d) :: writesBy fh ops else writesBy fh ops := by
  by_cases e : k = fh <;> simp [writesBy, written, e]

theorem mem_writesBy {fh : ℕ} {ops : List FileOp} {w : ℕ × Bytes} :
    w ∈ writesBy fh ops ↔ .write fh w.1 w.2 ∈ ops := by
  rw [writesBy, List.mem_filterMap]
  constructor
  · rintro ⟨op, hop, h⟩
    cases op with
    | write k o d =>
      rw [written] at h
      split at h
      · rename_i hk
        cases h
        rw [← hk]
        exact hop
      · cases h
    | truncate n c => cases h
    | release k => cases h
  · intro h
    exact ⟨_, h, if_pos rfl⟩

theorem writesBy_ne_nil {fh : ℕ} {ops : List FileOp} {op : FileOp} (hop : op ∈ ops)
    (h : op.WritesThrough fh) : writesBy fh ops ≠ [] := by
  obtain ⟨o, d, -, rfl⟩ := h
  exact List.ne_nil_of_mem (mem_writesBy (w := (o, d)) |>.2 hop)

end FileOp

namespace FileImage
open FileOp

/-- Until a release, the stored bytes stay and each buffer collects its handle's writes. -/
theorem foldl_of_no_release (ops : List FileOp) (h : ∀ op ∈ ops, op.isRelease = false)
    (x : FileImage) :
    (ops.foldl step x).data = x.data ∧
    ∀ fh, (ops.foldl step x).buffers fh = (x.buffers fh).map fun b => pwrites 0 b (writesBy fh ops) := by
  induction ops generalizing x with
  | nil =>
    refine ⟨rfl, fun fh => ?_⟩
    change x.buffers fh = (x.buffers fh).map fun b => b
    rw [Option.map_id']
  | cons op ops ih =>
    obtain ⟨hd, hb⟩ := ih (fun o ho => h o (List.mem_cons_of_mem _ ho)) (x.step op)
    rw [List.foldl_cons]
    cases op with
    | release fh => cases h _ List.mem_cons_self
    | truncate n c => exact ⟨hd, hb⟩
    | write k o d =>
      refine ⟨hd.trans ?_, fun fh => (hb fh).trans ?_⟩
      · rw [step]
        split <;> rfl
      · rw [step, writesBy_write]
        cases hk : x.buffers k with
        | none =>
          by_cases e : k = fh
          · rw [← e, hk]
            rfl
          · rw [if_neg e]
        | some b =>
          dsimp only
          by_cases e : k = fh
          · rw [if_pos e, ← e, Function.update_self, hk]
            rfl
          · rw [if_neg e, Function.update_of_ne fun e' => e e'.symm]

theorem foldl_of_truncates (ops : List FileOp) (h : ∀ op ∈ ops, ∃ n c, op = .truncate n c)
    (x : FileImage) :
    ops.foldl step x = { x with size := sizeAfter x.size (ops.filterMap edit) } := by
  induction ops generalizing x with
  | nil => rfl
  | cons op ops ih =>
    obtain ⟨n, c, rfl⟩ := h op List.mem_cons_self
    rw [List.foldl_cons, ih fun o ho => h o (List.mem_cons_of_mem _ ho)]
    rfl

theorem step_release_of_ne {x : FileImage} {fh : ℕ} {b : Bytes} (h : x.buffers fh = some b)
    (hb : b ≠ []) : x.step (.release fh) = ⟨b.length, b, Function.update x.buffers fh none⟩ := by
  rw [step, h]
  cases b with
  | nil => exact (hb rfl).elim
  | cons y ys => rfl

theorem step_release_of_nil {x : FileImage} {fh : ℕ} (h : x.buffers fh = some []) :
    x.step (.release fh) = { x with buffers := Function.update x.buffers fh none } := by
  rw [step, h]

end FileImage

theorem pwrites_ne_nil {b : Bytes} {ws : List (ℕ × Bytes)} (hws : ∀ w ∈ ws, w.2 ≠ []) (hne : ws ≠ []) :
    pwrites 0 b ws ≠ [] := by
  cases ws with
  | nil => exact (hne rfl).elim
  | cons w ws =>
    intro h
    have hlen := congrArg List.length h
    rw [length_pwrites, extent, List.length_nil] at hlen
    have := List.length_pos_iff.2 (hws w List.mem_cons_self)
    omega

section

variable [Primitives]

/-- The file reads as `a`. -/
def System.Content (s : System) (ino : ℕ) (a : Bytes) : Prop :=
  (∃ i, s.inodes.find ino = some i ∧ i.size = a.length) ∧
  ∀ opening reading flags o n, opening.Works → reading.Works →
    s.readNew opening reading flags ino o n = .data (slice a o n)

theorem content_iff {s : System} {ino : ℕ} {x : FileImage} (h : Shows s ino x) (a : Bytes) :
    s.Content ino a ↔ x.size = a.length ∧ a <+: x.data := by
  obtain ⟨i, hi, hfile, hsize, hd⟩ := h.row
  have hread : ∀ opening reading flags o n, opening.Works → reading.Works →
      s.readNew opening reading flags ino o n = .data (fileView i.size x.data o n) :=
    fun _ _ _ _ _ ho hr => readNew_online h.sound.backed h.transport h.rt ho hr hi hfile hd _ _ _
  rw [← hsize, ← fileView_eq_slices]
  constructor
  · rintro ⟨⟨i', hi', hlen⟩, hall⟩
    rw [hi] at hi'
    cases hi'
    refine ⟨hlen, fun o n => ?_⟩
    have hw := Sample.works_env none []
    have := hall _ _ 0 o n hw hw
    rw [hread _ _ _ _ _ hw hw, hlen] at this
    exact Reply.data.inj this
  · rintro ⟨hlen, hall⟩
    refine ⟨⟨i, hi, hlen⟩, fun _ _ _ o n ho hr => ?_⟩
    rw [hread _ _ _ _ _ ho hr, hlen, hall]

theorem shows_of_reachable (hinj : Function.Injective blake3) {s : System} (hr : Reachable s)
    (ht : s.mount.transport = true) (hrt : s.mount.rt = true) {ino : ℕ} {i : Inode} {data : Bytes}
    (hi : s.inodes.find ino = some i) (hfile : i.isFile = true) (hd : s.Holds i.manifest data) :
    Shows s ino ⟨i.size, data, fun fh => (s.handles.get fh).map FileHandle.writeBuffer⟩ :=
  ⟨sound_of_reachable hinj hr, buffersDirty_of_reachable hr, ht, hrt, ⟨i, hi, hfile, rfl, hd⟩,
    fun _ => rfl⟩

theorem read_shows {s : System} {ino fh : ℕ} {x : FileImage} (h : Shows s ino x) {b : Bytes}
    (hb : x.buffers fh = some b) {reading : Env} (hr : reading.Works) (o n : ℕ) :
    (exec reading (.read ino fh o n) s).1 =
      .data (if b = [] then fileView x.size x.data o n else slice b o n) := by
  obtain ⟨i, hi, hfile, hsize, hd⟩ := h.row
  rw [h.buffers fh] at hb
  obtain ⟨f, hf, rfl⟩ := Option.map_eq_some_iff.1 hb
  by_cases hne : f.writeBuffer = []
  · have hun : s.Unbuffered fh := by
      intro f' hf'
      rw [hf] at hf'
      cases hf'
      exact hne
    rw [exec_read_unbuffered (hr.sql _) hi hfile hun, if_pos hne, ← hsize]
    exact (run_readManifest h.sound.backed (hr.faithful s) hd s.mount o n).2.2
      (hr.online h.transport h.rt)
  · rw [exec_read_buffered (hr.sql _) hi hfile hf hne, if_neg hne]

end

section

open scoped Sample

/-- A file is created, `[97, 98]` is written through its handle and the handle released. -/
def storedRun : List Event :=
  [.init, .create Sample.caller 1 (.utf8 "a") 0o644 0, .write 2 1 0 [97, 98]].map Sample.event ++
    [⟨Sample.env (some 1) [1], .release 2 1⟩]

/-- The volume of that run. -/
def stored : System := Runs.runAll Life.step (storedRun.map .serve) (.fresh Sample.mount none)

def storedBlock : BlockRecord :=
  { rid := [1], contentHash := blake3 [97, 98], messageId := 1, encryptedSize := 2, epoch := 0,
    refCount := 1, compressed := false }

def storedPointer : BlockPointer :=
  { rid := [1], messageId := 1, fileOffset := 0, length := 2, blockDataOffset := 0,
    encryptedSize := 2, compressed := false, contentHash := blake3 [97, 98], epoch := 0 }

def storedInode : Inode :=
  (Inode.newFile 2 1 "a" 0o644 0 0 0).flushed 2 storedBlock [97, 98]

theorem works_storedRun : ∀ e ∈ storedRun, e.env.Works := by
  intro e he
  simp only [storedRun, List.mem_append, List.mem_singleton] at he
  rcases he with he | rfl
  · exact Sample.works_events _ e he
  · exact Sample.works_env (some 1) [1]

theorem reachable_stored : Reachable stored := reachable_of_works storedRun works_storedRun Sample.mount

theorem find_stored : stored.inodes.find 2 = some storedInode := by decide +kernel

theorem holds_stored : stored.Holds storedInode.manifest [97, 98] :=
  holds_flushedManifest ⟨⟨storedBlock, by decide +kernel, rfl⟩, by decide +kernel⟩ 2

end

end TgCryptFs

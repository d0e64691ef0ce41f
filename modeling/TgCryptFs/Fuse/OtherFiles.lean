import TgCryptFs.Fuse.FileImage
import TgCryptFs.Fuse.ObservedRows

set_option autoImplicit false

/-!
# Requests on other files

A request that is not on a file leaves the type, the size and the manifest of its row, and
the handles that are open on it.
-/
namespace TgCryptFs
open Library

/-- What a row says of its file. -/
def Inode.file (i : Inode) : FileType × ℕ × Option FileManifest := (i.fileType, i.size, i.manifest)

theorem file_addChild (ino : ℕ) (dir : Bool) (i : Inode) :
    (i.addChild ino dir).ino = i.ino ∧ (i.addChild ino dir).file = i.file := ⟨rfl, rfl⟩

theorem file_dropChild (ino : ℕ) (dir : Bool) (i : Inode) :
    (i.dropChild ino dir).ino = i.ino ∧ (i.dropChild ino dir).file = i.file := ⟨rfl, rfl⟩

variable [Primitives]

/-- The request is not on the file `ino`, or does not change it, and does not close `fh`. -/
def Request.Spares (ino fh : ℕ) (s : System) : Request → Prop
  | .setattr n _ => n ≠ ino
  | .write n k _ _ => n ≠ ino ∧ ∀ h, s.handles.get k = some h → h.ino ≠ ino
  | .release n k => k ≠ fh ∧ (n ≠ ino ∨ s.Unbuffered k)
  | .unlink parent (.utf8 name) | .rmdir parent (.utf8 name) =>
    ∀ i, InodeStore.lookup s.inodes parent name = some i → i.ino ≠ ino
  | .rename parent (.utf8 name) newparent (.utf8 newname) =>
    (∀ i, InodeStore.lookup s.inodes parent name = some i → i.ino ≠ ino) ∧
    ∀ i, InodeStore.lookup s.inodes newparent newname = some i → i.ino ≠ ino
  | _ => True

/-- A request on other files leaves what the row says of the file. -/
theorem file_step {e : Event} {s : System} {ino fh : ℕ} (hreq : e.req.Spares ino fh s)
    (hi : s.inodes.find ino ≠ none) :
    (e.step s).inodes.observe Inode.file ino = s.inodes.observe Inode.file ino := by
  obtain ⟨env, req⟩ := e
  change (exec env req s).2.inodes.observe Inode.file ino = _
  by_cases hsub : req.subject = some ino
  · cases req with
    | setattr n c => exact (hreq (Option.some.inj hsub)).elim
    | write n k o d => exact (hreq.1 (Option.some.inj hsub)).elim
    | release n k =>
      have hk : s.Unbuffered k := hreq.2.resolve_left fun h => h (Option.some.inj hsub)
      rw [exec_release_unbuffered hk]
      rfl
    | _ => cases hsub
  have hinsert : ∀ {i t}, InodeStore.insert s.inodes i = .ok t →
      t.observe Inode.file ino = s.inodes.observe Inode.file ino := by
    intro i t h
    rw [observe_insert h, Function.update_of_ne (ne_of_insert h hi)]
  have heff := exec_effect env req s
  generalize (exec env req s).1 = r at heff
  generalize (exec env req s).2 = s' at heff
  cases heff with
  | same hs' => rw [hs'.inodes]
  | rooted _ ht =>
    rw [System.inodes_writeInodes]
    exact hinsert ht
  | @edited _ _ _ i i' t hs _ he ht hs' =>
    have hne : i'.ino ≠ ino := by
      rw [he.ino]
      exact fun e => hsub (by rw [hs, e])
    rw [hs'.inodes, System.inodes_writeInodes]
    exact observe_update ht (looksAs_of_ne hne)
  | linked _ _ hp _ h₁ h₂ _ hs' =>
    rw [hs'.inodes]
    refine observe_committed ?_
    rw [observe_update h₂ (looksAs_parent h₁ hp (file_addChild _ _)), hinsert h₁]
  | inserted _ _ hp _ h₁ =>
    rw [System.inodes_writeInodes, observe_tryUpdate (looksAs_parent h₁ hp (file_addChild _ _)),
      hinsert h₁]
  | @removed _ parent name i hrem hl =>
    have hne : i.ino ≠ ino := by
      rcases removal_eq_some hrem with rfl | rfl <;> exact hreq i hl
    refine observe_committed ?_
    rw [Env.removed, observe_delete, Function.update_of_ne hne.symm,
      observe_tryEdit (file_dropChild _ _)]
  | @renamed _ _ _ _ i hl =>
    have hne : i.ino ≠ ino := hreq.1 i hl
    refine observe_committed ?_
    rw [observe_moved file_addChild file_dropChild, observe_cleared file_dropChild hreq.2]
    exact looksAs_of_ne hne
  | leaked => rfl

/-- The handle is open on the file, with these bytes in its buffer. -/
def System.OpenOn (s : System) (ino fh : ℕ) (b : Bytes) : Prop :=
  ∃ h, s.handles.get fh = some h ∧ h.ino = ino ∧ h.writeBuffer = b

theorem openOn_openHandle {s s' : System} {ino : ℕ} {flags : ℤ}
    (h : s'.handles = (s.handles.openHandle ino flags).2) : s'.OpenOn ino s.handles.nextFh [] := by
  rw [System.OpenOn, h, HandleTable.get_openHandle, if_pos rfl]
  exact ⟨_, rfl, rfl, rfl⟩

theorem openOn_step {e : Event} {s : System} {ino fh : ℕ} {b : Bytes} (h : s.OpenOn ino fh b)
    (hreq : e.req.Spares ino fh s) : (e.step s).OpenOn ino fh b := by
  obtain ⟨f, hf, hino, hb⟩ := h
  obtain ⟨env, req⟩ := e
  have heff := exec_handleEffect env req s
  refine ⟨f, ?_, hino, hb⟩
  change (exec env req s).2.handles.get fh = some f
  generalize (exec env req s).1 = r at heff
  generalize (exec env req s).2.handles = t at heff
  have hne : fh ≠ s.handles.nextFh := Nat.ne_of_lt (HandleTable.lt_of_get hf)
  cases heff with
  | same => exact hf
  | opened | created => rw [HandleTable.get_openHandle, if_neg hne, hf]
  | @written n k =>
    have hk : fh ≠ k := by
      rintro rfl
      exact hreq.2 f hf hino
    rw [HandleTable.get_update, if_neg hk, hf]
  | @released n k => rw [HandleTable.get_close, if_neg hreq.1.symm, hf]

theorem Shows.spared (hinj : Function.Injective blake3) {s : System} {ino fh : ℕ} {x : FileImage}
    (h : Shows s ino x) {e : Event} (hreq : e.req.Spares ino fh s) (hf : e.env.Faithful s) :
    Shows (e.step s) ino
      { x with buffers := fun k => ((e.step s).handles.get k).map FileHandle.writeBuffer } := by
  refine h.of_step hinj hf ?_ fun _ => rfl
  obtain ⟨i, hi, hfile, hsize, hd⟩ := h.row
  have hkept := file_step hreq (by rw [hi]; exact Option.some_ne_none i)
  rw [Table.observe_of_find hi] at hkept
  obtain ⟨i', hi', heq⟩ := Option.map_eq_some_iff.1 hkept
  obtain ⟨htype, hsize', hman⟩ : i'.fileType = i.fileType ∧ i'.size = i.size ∧
      i'.manifest = i.manifest := by
    simpa only [Inode.file, Prod.mk.injEq] using heq
  refine ⟨i', hi', ?_, hsize'.trans hsize, ?_⟩
  · rw [Inode.isFile, htype]
    exact hfile
  · rw [hman]
    exact hd.mono (grows_step hinj h.sound hf)

end TgCryptFs

import TgCryptFs.Fuse.Service

set_option autoImplicit false

/-!
# What the transport is shown

`flushToTransport` hands over the buffer as it is: neither `Aead.encrypt` nor
`Srb1.encode` is on the way of an upload.
-/
namespace TgCryptFs
open Library

theorem seen_upload (r : Remote) (id : Option ℤ) (data : Bytes) (filename : String) :
    (r.upload id data filename).2.seen = (data, filename) :: r.seen := by
  unfold Remote.upload
  cases id with
  | none => rfl
  | some id =>
    dsimp only
    split <;> rfl

section

variable [Primitives]

/-- `payload` is an authenticated encryption of `data`, under some key and nonce. -/
def Sealed (data payload : Bytes) : Prop :=
  (∃ key nonce aad, Aead.encrypt key nonce data aad = some payload) ∨
  ∃ key nonce epoch compressed contentHash aad,
    Srb1.encode key nonce epoch data compressed contentHash aad = some payload

theorem length_of_sealed {data payload : Bytes} (h : Sealed data payload) :
    data.length < payload.length := by
  rcases h with ⟨key, nonce, aad, h⟩ | ⟨key, nonce, epoch, compressed, contentHash, aad, h⟩
  · rw [Aead.length_encrypt h, Aead.nonceSize]
    omega
  · exact Srb1.length_encode h

/-- A call the transport does not see. -/
def Op.hidden : Op → Bool
  | .upload _ _ => false
  | _ => true

theorem seen_serve (env : Env) (o : Op) (s : System) (ho : o.hidden = true) :
    (env.serve o s).2.remote.seen = s.remote.seen := by
  cases o with
  | upload => cases ho
  | begin =>
    rw [Env.serve_begin]
    split <;> rfl
  | insert i =>
    rw [Env.serve_insert]
    split <;> rfl
  | update site i =>
    rw [Env.serve_update]
    split <;> rfl
  | delete site ino =>
    rw [Env.serve_delete]
    split <;> rfl
  | incrementRef | blockInsert =>
    simp only [Env.serve, Env.modifyBlocks]
    split <;> rfl
  | cacheGet | cachePut =>
    simp only [Env.serve]
    split <;> rfl
  | _ => rfl

theorem seen_run {α : Type} (env : Env) (p : Fuse α) (hp : p.Uses fun o => o.hidden = true)
    (s : System) : (p.run env.serve s).2.remote.seen = s.remote.seen :=
  CallTree.always_run env.serve _ p s
    (CallTree.always_of_uses env.serve (fun s' => s'.remote.seen = s.remote.seen) _
      (fun o s' ho h => (seen_serve env o s' ho).trans h) p hp s rfl)

theorem seen_uploadNew (env : Env) (m : Mount) (ino : ℕ) (data : Bytes) (s : System) :
    ((uploadNew m ino data).run env.serve s).2.remote.seen =
      (data, blockFilename ino (blake3 data)) :: s.remote.seen := by
  rw [uploadNew, CallTree.run_call, seen_run]
  · exact seen_upload _ _ _ _
  · cases (env.serve (.upload data (blockFilename ino (blake3 data))) s).1 with
    | none => trivial
    | some messageId =>
      refine ⟨rfl, fun rid => ⟨rfl, fun y => ?_⟩⟩
      cases y with
      | error e => trivial
      | ok _ => exact ⟨rfl, fun _ => trivial⟩

/-- A flush shows the transport nothing, or the buffer. -/
theorem seen_flushToTransport (env : Env) (m : Mount) (ino : ℕ) (data : Bytes) (s : System) :
    ((flushToTransport m ino data).run env.serve s).2.remote.seen = s.remote.seen ∨
    ((flushToTransport m ino data).run env.serve s).2.remote.seen =
      (data, blockFilename ino (blake3 data)) :: s.remote.seen := by
  unfold flushToTransport
  split
  · exact .inl rfl
  split
  · exact .inl rfl
  rw [CallTree.run_call]
  have hs : (env.serve (.findByContentHash (blake3 data)) s).2 = s := rfl
  rw [hs]
  rcases (env.serve (.findByContentHash (blake3 data)) s).1 with e | (_ | r)
  · exact .inr (seen_uploadNew env m ino data s)
  · exact .inr (seen_uploadNew env m ino data s)
  · refine .inl (seen_run env _ ?_ s)
    exact ⟨rfl, fun _ => trivial⟩

/-- The flush of `data` uploads, and `entry` is what the transport is handed. -/
def Uploads (env : Env) (m : Mount) (ino : ℕ) (data : Bytes) (s : System) (entry : Bytes × String) :
    Prop :=
  ((flushToTransport m ino data).run env.serve s).2.remote.seen = entry :: s.remote.seen

theorem eq_of_uploads {env : Env} {m : Mount} {ino : ℕ} {data : Bytes} {s : System}
    {entry : Bytes × String} (h : Uploads env m ino data s entry) :
    entry = (data, blockFilename ino (blake3 data)) := by
  unfold Uploads at h
  rcases seen_flushToTransport env m ino data s with h' | h'
  · rw [h'] at h
    exact absurd (congrArg List.length h) (by simp)
  · rw [h'] at h
    exact (List.cons.inj h).1.symm

/-- No upload is sealed, in whatever state and surroundings: the transport is handed the
    buffer itself, and it tells any two buffers apart. -/
theorem upload_never_sealed {env : Env} {m : Mount} {ino : ℕ} {data : Bytes} {s : System}
    {entry : Bytes × String} (h : Uploads env m ino data s entry) :
    ¬ Sealed data entry.1 ∧
    ∀ (env' : Env) (m' : Mount) (ino' : ℕ) (data' : Bytes) (s' : System) (entry' : Bytes × String),
      data'.length = data.length → data' ≠ data → Uploads env' m' ino' data' s' entry' →
        entry' ≠ entry := by
  refine ⟨fun hs => ?_, fun env' m' ino' data' s' entry' _ hne h' he => hne ?_⟩
  · have hlt := length_of_sealed hs
    rw [eq_of_uploads h] at hlt
    exact absurd hlt (Nat.lt_irrefl _)
  · rw [eq_of_uploads h, eq_of_uploads h'] at he
    exact congrArg Prod.fst he

end

section

open scoped Sample

/-- A file `a`, opened as handle 1, with `ab` written to it. -/
def writtenFile : System :=
  Runs.runAll Event.step
    ([.init, .create Sample.caller 1 (.utf8 "a") 0o644 0, .write 2 1 0 [97, 98]].map Sample.event)
    (.fresh Sample.mount none)

theorem upload_of_written_file_not_sealed :
    Uploads (Sample.env (some 7) [1]) Sample.mount 2 [97, 98] writtenFile
      ([97, 98], blockFilename 2 (blake3 [97, 98])) ∧ ¬ Sealed [97, 98] [97, 98] := by
  have h : Uploads (Sample.env (some 7) [1]) Sample.mount 2 [97, 98] writtenFile
      ([97, 98], blockFilename 2 (blake3 [97, 98])) := by
    unfold Uploads
    decide +kernel
  exact ⟨h, (upload_never_sealed h).1⟩

/-- Releasing the handle shows the transport the two letters; sealed, they would be longer. -/
theorem release_uploads_plaintext :
    ((exec (Sample.env (some 7) [1]) (.release 2 1) writtenFile).2.remote.seen.map Prod.fst =
      [[97, 98]]) ∧
    (∃ key nonce aad out, Aead.encrypt key nonce [97, 98] aad = some out) ∧
    ¬ Sealed [97, 98] [97, 98] := by
  refine ⟨by decide +kernel, ⟨[], ⟨List.replicate 24 0, rfl⟩, [], _, rfl⟩, fun h => ?_⟩
  exact absurd (length_of_sealed h) (Nat.lt_irrefl _)

end

end TgCryptFs

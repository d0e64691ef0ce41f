import TgCryptFs.Fuse.BlockReads

set_option autoImplicit false

/-!
# What a read takes for the file

A read copies what it is given for the blocks in its range; it compares nothing with the content
hashes.
-/
namespace TgCryptFs
open Library

section

variable [Primitives]

/-- The pointers stand for these blocks, laid out from `a` on. -/
inductive Tiles : ℕ → List BlockPointer → List Bytes → Prop where
  | nil (a : ℕ) : Tiles a [] []
  | cons {a : ℕ} {bp : BlockPointer} {bps : List BlockPointer} {d : Bytes} {ds : List Bytes}
      (hoff : bp.fileOffset = a) (hlen : bp.length = d.length) (hhash : bp.contentHash = blake3 d)
      (hrest : Tiles (a + d.length) bps ds) : Tiles a (bp :: bps) (d :: ds)

/-! ## What the cache and the transport answer -/

/-- Each of the blocks is answered with bytes that have its content hash. -/
def Env.Answers (env : Env) (m : Mount) : List BlockPointer → ℕ → System → Prop
  | [], _, _ => True
  | bp :: bps, i, s =>
    (∃ d, env.answer m i bp s = some d ∧ blake3 d = bp.contentHash) ∧
    env.Answers m bps (i + 1) (env.afterAnswer m i bp s)

/-- A block that is answered is handed to the cache, or not at all. -/
theorem cachePut_of_downloadBlock {env : Env} {m : Mount} {i j : ℕ} {messageId : ℤ}
    {rid rid' data : Bytes} {s : System}
    (h : .cachePut j rid' data ∈ (downloadBlock m i messageId rid).calls env.serve s) :
    j = i ∧ rid' = rid ∧ ((downloadBlock m i messageId rid).run env.serve s).1 = some data := by
  rw [downloadBlock] at h ⊢
  rw [CallTree.calls, List.mem_cons] at h
  rcases h with h | h
  · cases h
  rw [CallTree.run_call]
  cases hg : (env.serve (.cacheGet i rid) s).1 with
  | ok d =>
    rw [hg] at h
    cases h
  | error e =>
    rw [hg] at h
    dsimp only at h ⊢
    split at h
    · cases h
    rename_i ht
    split at h
    · cases h
    rename_i hrt
    rw [if_neg ht, if_neg hrt, CallTree.run_call]
    rw [CallTree.calls, List.mem_cons] at h
    rcases h with h | h
    · cases h
    cases hd : (env.serve (.download i messageId) (env.serve (.cacheGet i rid) s).2).1 with
    | none =>
      rw [hd] at h
      cases h
    | some d =>
      rw [hd] at h
      rcases List.mem_cons.1 h with h | h
      · cases h
        exact ⟨rfl, rfl, rfl⟩
      · cases h

theorem Tiles.laid {a : ℕ} {bps : List BlockPointer} {ds : List Bytes} (h : Tiles a bps ds) :
    Laid a bps ds := by
  induction h with
  | nil a => exact .nil a
  | cons hoff hlen _ _ ih => exact .cons hoff hlen ih

/-- Blocks answered with bytes of their hash are delivered; a digest names one byte string. -/
theorem Tiles.delivers (hinj : Function.Injective blake3) {env : Env} {m : Mount} {o n a : ℕ}
    {bps : List BlockPointer} {ds : List Bytes} (h : Tiles a bps ds) {i : ℕ} {s : System}
    (hans : env.Answers m (bps.filter (inRange o n)) i s) :
    env.Delivers m (needed o n bps ds) i s := by
  induction h generalizing i s with
  | nil a => trivial
  | @cons a bp bps d ds hoff hlen hhash _ ih =>
    unfold needed
    rw [List.zip_cons_cons]
    cases hr : inRange o n bp with
    | false =>
      rw [List.filter_cons_of_neg (by simp [hr])] at hans ⊢
      exact ih hans
    | true =>
      rw [List.filter_cons_of_pos (by simpa using hr)] at hans ⊢
      obtain ⟨⟨d', hd', hh⟩, hrest⟩ := hans
      obtain rfl : d' = d := hinj (hh.trans hhash)
      exact ⟨hd', ih hrest⟩

theorem cachePut_of_readBlocks {env : Env} {m : Mount} {o n i : ℕ} {bps : List BlockPointer}
    {s : System} (hans : env.Answers m bps i s) {buf : Bytes} {j : ℕ} {rid data : Bytes}
    (h : .cachePut j rid data ∈ (readBlocks m o n bps i buf).calls env.serve s) :
    ∃ bp ∈ bps, bp.rid = rid ∧ bp.contentHash = blake3 data := by
  induction bps generalizing i s buf with
  | nil => cases h
  | cons bp bps ih =>
    obtain ⟨⟨d, hd, hh⟩, hrest⟩ := hans
    rw [readBlocks, CallTree.calls_bind, List.mem_append, fst_run_downloadBlock, hd] at h
    rcases h with h | h
    · obtain ⟨-, rfl, hdata⟩ := cachePut_of_downloadBlock h
      rw [fst_run_downloadBlock, hd] at hdata
      cases hdata
      exact ⟨bp, List.mem_cons_self, rfl, hh.symm⟩
    · obtain ⟨bp', hmem, hb⟩ := ih hrest h
      exact ⟨bp', List.mem_cons_of_mem bp hmem, hb⟩

/-! ## The reply -/

theorem readManifest_not_error (env : Env) (m : Mount) (inode : Inode) (o n : ℕ) (s : System) :
    ((readManifest m inode o n).run env.serve s).1.isError = false := by
  unfold readManifest
  split
  · rfl
  · split
    · rfl
    · rw [CallTree.run_bind]
      cases ((readBlocks m o n _ 0 (List.replicate n 0)).run env.serve s).1 with
      | none => rfl
      | some buf =>
        dsimp only
        split <;> rfl

theorem readManifest_answered (hinj : Function.Injective blake3) {env : Env} {m : Mount}
    {inode : Inode} {man : FileManifest} {ds : List Bytes} (hman : inode.manifest = some man)
    (ht : Tiles 0 man.blocks ds) {o n : ℕ} {s : System}
    (hans : env.Answers m (man.blocksInRange o n) 0 s) :
    ((readManifest m inode o n).run env.serve s).1 =
      .data (if man.blocksInRange o n = [] then []
        else slice (resize 0 ds.flatten inode.size) o n) :=
  readManifest_delivered hman ht.laid (ht.delivers hinj hans)

/-- A read that is true to the content `c`: what it replies is the part of `c` asked for; if
    the blocks it needs are not answered with their own bytes it fails; and it hands no other
    bytes to the cache. -/
structure TrueRead (env : Env) (s : System) (ino fh o n : ℕ) (c : Bytes)
    (needed : List BlockPointer) : Prop where
  data : ∀ d, (exec env (.read ino fh o n) s).1 = .data d → d = slice c o n
  aloud : ¬ env.Answers s.mount needed 0 s → (exec env (.read ino fh o n) s).1.isError = true
  cached : ∀ i rid d, .cachePut i rid d ∈ (read s.mount ino fh o n).calls env.serve s →
    ∃ bp ∈ needed, bp.rid = rid ∧ bp.contentHash = blake3 d

theorem calls_read_unbuffered {env : Env} {s : System} {ino fh : ℕ} {i : Inode}
    (hsql : env.sql .find = true) (hi : s.inodes.find ino = some i) (hfile : i.isFile = true)
    (hfh : s.Unbuffered fh) (o n : ℕ) :
    (read s.mount ino fh o n).calls env.serve s =
      .get .find ino :: .handleGet fh :: (readManifest s.mount i o n).calls env.serve s := by
  simp only [read, CallTree.calls, Env.fst_serve_get, Env.snd_serve_get, Env.read, hsql, if_true,
    InodeStore.get, hi, hfile, Bool.not_true, Bool.false_eq_true, if_false, Env.serve_handleGet]
  cases hh : s.handles.get fh with
  | none => rfl
  | some h => simp only [hfh h hh, List.isEmpty_nil, Bool.not_true, Bool.false_eq_true, if_false]

theorem cachePut_of_readManifest {env : Env} {m : Mount} {inode : Inode} {man : FileManifest}
    (hman : inode.manifest = some man) {o n : ℕ} {s : System}
    (hans : env.Answers m (man.blocksInRange o n) 0 s) {i : ℕ} {rid d : Bytes}
    (h : .cachePut i rid d ∈ (readManifest m inode o n).calls env.serve s) :
    ∃ bp ∈ man.blocksInRange o n, bp.rid = rid ∧ bp.contentHash = blake3 d := by
  unfold readManifest at h
  rw [hman] at h
  dsimp only at h
  split at h
  · cases h
  · rw [CallTree.calls_bind, List.mem_append] at h
    rcases h with h | h
    · exact cachePut_of_readBlocks hans h
    · revert h
      cases ((readBlocks m o n _ 0 (List.replicate n 0)).run env.serve s).1 with
      | none => exact fun h => by cases h
      | some buf =>
        dsimp only
        split <;> exact fun h => by cases h

/-- A read through a handle without a buffer is true to the content exactly when the row
    cannot be read, or every block in range is answered with its own bytes and the row's
    size ends the content there. -/
theorem read_true_iff (hinj : Function.Injective blake3) {env : Env} {s : System} {ino fh : ℕ}
    {i : Inode} {man : FileManifest} {ds : List Bytes} (hi : s.inodes.find ino = some i)
    (hfile : i.isFile = true) (hman : i.manifest = some man) (ht : Tiles 0 man.blocks ds)
    (hfh : s.Unbuffered fh) (o n : ℕ) :
    TrueRead env s ino fh o n ds.flatten (man.blocksInRange o n) ↔
    env.sql .find = false ∨ env.Answers s.mount (man.blocksInRange o n) 0 s ∧
      (ds.flatten.length ≤ o ∨ min n (i.size - o) = min n (ds.flatten.length - o)) := by
  cases hsql : env.sql .find with
  | false =>
    refine ⟨fun _ => .inl rfl, fun _ => ?_⟩
    have hexec : exec env (.read ino fh o n) s = (.error .eio, s) := by
      simp [exec, handler, read, Env.read, hsql]
    refine ⟨fun d hd => ?_, fun _ => by rw [hexec]; rfl, fun j rid d hd => ?_⟩
    · rw [hexec] at hd
      cases hd
    · simp [read, CallTree.calls, Env.read, hsql] at hd
  | true =>
    have hexec := exec_read_unbuffered hsql hi hfile hfh o n
    have hpast : man.blocksInRange o n = [] → n = 0 ∨ ds.flatten.length ≤ o := by
      intro hnil
      by_cases hn : n = 0
      · exact .inl hn
      · have := ht.laid.outside hnil (Nat.pos_of_ne_zero hn)
        omega
    have hout : man.blocksInRange o n = [] → slice ds.flatten o n = [] := by
      intro hnil
      refine List.eq_nil_of_length_eq_zero ?_
      rw [length_slice]
      have := hpast hnil
      omega
    have hin : man.blocksInRange o n ≠ [] → o < ds.flatten.length := by
      intro hne
      obtain ⟨bp, hbp⟩ := List.exists_mem_of_ne_nil _ hne
      obtain ⟨hmem, hr⟩ := List.mem_filter.1 hbp
      simp only [Bool.and_eq_true, decide_eq_true_eq] at hr
      have := ht.laid.bounds hmem
      omega
    constructor
    · intro h
      refine .inr ?_
      have hans : env.Answers s.mount (man.blocksInRange o n) 0 s := by
        by_contra hno
        have herr := h.aloud hno
        rw [hexec, readManifest_not_error] at herr
        cases herr
      refine ⟨hans, ?_⟩
      have hdata := h.data _ (by rw [hexec]; exact readManifest_answered hinj hman ht hans)
      by_cases hnil : man.blocksInRange o n = []
      · have := hpast hnil
        omega
      · rw [if_neg hnil, slice_resize_eq_iff] at hdata
        exact .inr hdata
    · rintro (h | ⟨hans, hsize⟩)
      · cases h
      refine ⟨fun d hd => ?_, fun hno => (hno hans).elim, fun j rid d hd => ?_⟩
      · rw [hexec, readManifest_answered hinj hman ht hans] at hd
        cases hd
        split
        · rename_i hnil
          exact (hout hnil).symm
        · rename_i hne
          have := hin hne
          exact (slice_resize_eq_iff n i.size).2 (hsize.resolve_left (by omega))
      · rw [calls_read_unbuffered hsql hi hfile hfh, List.mem_cons, List.mem_cons] at hd
        rcases hd with hd | hd | hd
        · cases hd
        · cases hd
        · exact cachePut_of_readManifest hman hans hd

/-- A row that says more than there is shows zeros. -/
example : slice (resize 0 ([97, 98] : Bytes) 3) 1 2 = [98, 0] ∧ slice ([97, 98] : Bytes) 1 2 = [98] := by
  decide +kernel

end

section

open scoped Sample

theorem tiles_stored : Tiles 0 (flushedManifest 2 storedBlock [97, 98]).blocks [[97, 98]] :=
  .cons rfl rfl rfl (.nil _)

theorem read_of_stored_true :
    TrueRead (Sample.env none []) stored 2 1 0 2 [97, 98] [storedPointer] := by
  refine (read_true_iff Sample.hash_injective find_stored rfl rfl tiles_stored (fun h hh => ?_) 0 2).2
    (.inr ⟨⟨⟨[97, 98], by decide +kernel, rfl⟩, trivial⟩, .inr rfl⟩)
  have hnone : stored.handles.get 1 = none := by decide +kernel
  rw [hnone] at hh
  cases hh

/-- The transport answers every download with these bytes. -/
def substituting (data : Bytes) : Env :=
  { Sample.env none [] with download := fun _ => .substituted data }

def refusing : Env := { Sample.env none [] with download := fun _ => .refused }

/-- Other bytes are returned as the file's, missing ones as zeros, and a block that cannot be
    had as the end of the file. -/
theorem read_returns_foreign_bytes :
    (exec (substituting [98, 97]) (.read 2 1 0 2) stored).1 = .data [98, 97] ∧
    (exec (substituting [97]) (.read 2 1 0 2) stored).1 = .data [0, 0] ∧
    (exec refusing (.read 2 1 0 2) stored).1 = .data [] ∧
    ¬ TrueRead (substituting [98, 97]) stored 2 1 0 2 [97, 98] [storedPointer] := by
  have hforeign : (exec (substituting [98, 97]) (.read 2 1 0 2) stored).1 = .data [98, 97] := by
    decide +kernel
  refine ⟨hforeign, by decide +kernel, by decide +kernel, fun h => ?_⟩
  exact absurd (h.data _ hforeign) (by decide)

end

end TgCryptFs

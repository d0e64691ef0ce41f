import TgCryptFs.Fuse.FileContent

set_option autoImplicit false

/-!
# Truncations between writes

`setattr` changes the size of the row and neither the stored bytes nor a buffer.
-/
namespace TgCryptFs
open Library FileOp

/-- A request that sets the size. -/
def FileOp.Truncates (op : FileOp) : Prop := ∃ n c, op = .truncate n c

/-- When the stored bytes agree with the changes asked for: `c` was the content and `data`
    the stored bytes before, `all` are the changes, `post` those after the release, and `ws`
    are the writes among them. -/
structure CarriesChanges (c data : Bytes) (all post : List (Edit UInt8)) (ws : List (ℕ × Bytes)) :
    Prop where
  /-- Without a write the old bytes stay, also where they were cut off. -/
  unwritten : ws = [] → sizeAfter c.length all ≤ data.length ∧
    ∀ p < sizeAfter c.length all, (lastEdit 0 p all).getD (c.getD p 0) = data.getD p 0
  /-- With one, the release leaves the writes, and their extent as the size. -/
  written : ws ≠ [] → sizeAfter c.length all = sizeAfter (extent ws) post ∧
    sizeAfter c.length all ≤ extent ws ∧
    ∀ p < sizeAfter c.length all, (lastEdit 0 p all).getD (c.getD p 0) = (lastWrite p ws).getD 0

section

variable {fh : ℕ} {pre mid post : List FileOp} {x y : FileImage}

/-- The image once the truncations, the session of a new handle and more truncations are
    through. -/
theorem foldl_session (hfh : x.buffers fh = some [])
    (hmid : ∀ op ∈ mid, op.Truncates ∨ op.WritesThrough fh) (hpost : ∀ op ∈ post, op.Truncates)
    (hy : (mid ++ .release fh :: post).foldl FileImage.step x = y) :
    (writesBy fh mid = [] → y.data = x.data ∧
      y.size = sizeAfter x.size (mid.filterMap edit ++ post.filterMap edit)) ∧
    (writesBy fh mid ≠ [] → y.data = pwrites 0 [] (writesBy fh mid) ∧
      y.size = sizeAfter (extent (writesBy fh mid)) (post.filterMap edit)) := by
  have hrel : ∀ op ∈ mid, op.isRelease = false := by
    intro op hop
    rcases hmid op hop with ⟨n, c, rfl⟩ | h
    · rfl
    · exact h.isRelease
  rw [List.foldl_append, List.foldl_cons, FileImage.foldl_of_truncates post hpost] at hy
  subst hy
  obtain ⟨hdata, hbuf⟩ := FileImage.foldl_of_no_release mid hrel x
  have hb := hbuf fh
  rw [hfh, Option.map_some] at hb
  constructor
  · intro hnil
    have htrunc : ∀ op ∈ mid, op.Truncates := fun op hop =>
      (hmid op hop).resolve_right fun h => writesBy_ne_nil hop h hnil
    rw [hnil] at hb
    rw [FileImage.step_release_of_nil hb, sizeAfter_append]
    refine ⟨hdata, ?_⟩
    rw [FileImage.foldl_of_truncates mid htrunc]
  · intro hne
    have hne' : pwrites 0 [] (writesBy fh mid) ≠ [] := by
      refine pwrites_ne_nil (fun w hw => ?_) hne
      rcases hmid _ (mem_writesBy.1 hw) with ⟨n, c, e⟩ | ⟨o, d, hd, e⟩
      · cases e
      · cases e
        exact hd
    rw [FileImage.step_release_of_ne hb hne', length_pwrites, List.length_nil, Nat.zero_max]
    exact ⟨rfl, rfl⟩

theorem carriesChanges_iff {c data : Bytes} (hfh : x.buffers fh = some []) (hdata : x.data = data)
    (hsize : x.size = sizeAfter c.length (pre.filterMap edit))
    (hmid : ∀ op ∈ mid, op.Truncates ∨ op.WritesThrough fh) (hpost : ∀ op ∈ post, op.Truncates)
    (hy : (mid ++ .release fh :: post).foldl FileImage.step x = y) :
    (y.size = (edits 0 c ((pre ++ mid ++ post).filterMap edit)).length ∧
      edits 0 c ((pre ++ mid ++ post).filterMap edit) <+: y.data) ↔
    CarriesChanges c data ((pre ++ mid ++ post).filterMap edit) (post.filterMap edit)
      (writesBy fh mid) := by
  obtain ⟨hun, hwr⟩ := foldl_session hfh hmid hpost hy
  rw [edits_prefix_iff, length_edits]
  by_cases hws : writesBy fh mid = []
  · obtain ⟨hd, hs⟩ := hun hws
    have hall : y.size = sizeAfter c.length ((pre ++ mid ++ post).filterMap edit) := by
      rw [hs, hsize, ← sizeAfter_append, List.append_assoc, List.filterMap_append,
        List.filterMap_append]
    rw [hd, hdata]
    exact ⟨fun h => ⟨fun _ => h.2, fun hne => (hne hws).elim⟩, fun h => ⟨hall, h.unwritten hws⟩⟩
  · obtain ⟨hd, hs⟩ := hwr hws
    rw [hd, hs]
    simp only [length_pwrites, List.length_nil, Nat.zero_max, getD_pwrites, List.getD_nil]
    exact ⟨fun h => ⟨fun hnil => (hws hnil).elim, fun _ => ⟨h.1.symm, h.2⟩⟩,
      fun h => ⟨(h.written hws).1.symm, (h.written hws).2⟩⟩

end

section

variable [Primitives]

/-- A file with content `c` is truncated, opened anew, written to and truncated through one
    session, and truncated again, with nothing failing. Its content is then `c` with all
    changes applied in order exactly when the stored bytes agree with them. -/
theorem truncation_iff (hinj : Function.Injective blake3) {s : System} (hr : Reachable s)
    (ht : s.mount.transport = true) (hrt : s.mount.rt = true) {ino : ℕ} {i : Inode} {c data : Bytes}
    (hi : s.inodes.find ino = some i) (hfile : i.isFile = true) (hd : s.Holds i.manifest data)
    (hc : s.Content ino c) {pre mid post : List (Env × FileOp)}
    (hpre : ∀ e ∈ pre, e.2.Truncates) (hadm : Runs.Admits (fileStep ino) Succeeds pre s)
    {opening : Env} (ho : opening.Works) {flags : ℤ} {fh : ℕ} {s₁ : System}
    (hopen : exec opening (.openFile ino flags) (Runs.runAll (fileStep ino) pre s) = (.opened fh, s₁))
    (hmid : ∀ e ∈ mid, e.2.Truncates ∨ e.2.WritesThrough fh) (hpost : ∀ e ∈ post, e.2.Truncates)
    {releasing : Env}
    (hadm' : Runs.Admits (fileStep ino) Succeeds (mid ++ (releasing, .release fh) :: post) s₁) :
    (Runs.runAll (fileStep ino) (mid ++ (releasing, .release fh) :: post) s₁).Content ino
      (edits 0 c (((pre ++ mid ++ post).map Prod.snd).filterMap edit)) ↔
    CarriesChanges c data (((pre ++ mid ++ post).map Prod.snd).filterMap edit)
      ((post.map Prod.snd).filterMap edit) (writesBy fh (mid.map Prod.snd)) := by
  have hall : ∀ {es : List (Env × FileOp)} {P : FileOp → Prop}, (∀ e ∈ es, P e.2) →
      ∀ op ∈ es.map Prod.snd, P op := by
    intro es P h op hop
    obtain ⟨e, he, rfl⟩ := List.mem_map.1 hop
    exact h e he
  have hshow := shows_of_reachable hinj hr ht hrt hi hfile hd
  have hsize := ((content_iff hshow c).1 hc).1
  have hshow₁ := shows_runAll hinj pre hshow hadm
  rw [FileImage.foldl_of_truncates _ (hall hpre)] at hshow₁
  obtain ⟨hfh, hshow₂⟩ := shows_openFile hinj hshow₁ ho flags
  rw [hopen] at hfh hshow₂
  cases hfh
  have hshow₃ := shows_runAll hinj _ hshow₂ hadm'
  rw [List.map_append, List.map_cons] at hshow₃
  rw [content_iff hshow₃, List.map_append, List.map_append]
  refine carriesChanges_iff (Function.update_self ..) rfl ?_ (hall hmid) (hall hpost) rfl
  exact congrArg (sizeAfter · _) hsize

end

section

open scoped Sample

/-- Both bytes of the stored file are written over, and the second is cut off after the
    release. -/
def cutAfterwards : List (Env × FileOp) :=
  [(Sample.env none [], .write 2 0 [98, 97]), (Sample.env (some 2) [2], .release 2),
    (Sample.env none [], .truncate 1 {})]

theorem content_stored : stored.Content 2 [97, 98] := by
  rw [content_iff (shows_of_reachable Sample.hash_injective reachable_stored rfl rfl find_stored rfl
    holds_stored)]
  exact ⟨rfl, List.prefix_refl _⟩

theorem content_cutAfterwards :
    (Runs.runAll (fileStep 2) cutAfterwards
      (exec (Sample.env none []) (.openFile 2 0) stored).2).Content 2 [98] := by
  have hw := Sample.works_env
  have hopen : exec (Sample.env none []) (.openFile 2 0) (Runs.runAll (fileStep 2) [] stored) =
      (.opened 2, (exec (Sample.env none []) (.openFile 2 0) stored).2) :=
    Prod.ext (by decide +kernel) rfl
  have hmid : ∀ e ∈ [(Sample.env none [], FileOp.write 2 0 [98, 97])],
      e.2.Truncates ∨ e.2.WritesThrough 2 := by
    intro e he
    cases List.mem_singleton.1 he
    exact .inr ⟨0, [98, 97], nofun, rfl⟩
  have hpost : ∀ e ∈ [(Sample.env none [], FileOp.truncate 1 {})], e.2.Truncates := by
    intro e he
    cases List.mem_singleton.1 he
    exact ⟨1, {}, rfl⟩
  have huploads : (Sample.env (some 2) [2]).Uploads (fileStep 2 (Sample.env none [], .write 2 0 [98, 97])
      (exec (Sample.env none []) (.openFile 2 0) stored).2) :=
    ⟨⟨2, rfl, by decide +kernel⟩, rfl, by decide +kernel⟩
  have hpre : ∀ e ∈ ([] : List (Env × FileOp)), e.2.Truncates := fun _ he => absurd he List.not_mem_nil
  have hadm : Runs.Admits (fileStep 2) Succeeds cutAfterwards
      (exec (Sample.env none []) (.openFile 2 0) stored).2 :=
    ⟨⟨hw none [], nofun⟩, ⟨hw (some 2) [2], fun _ => huploads⟩, ⟨hw none [], nofun⟩, trivial⟩
  have hiff := truncation_iff Sample.hash_injective reachable_stored rfl rfl find_stored rfl
    holds_stored content_stored hpre trivial (hw none []) hopen hmid hpost hadm
  exact hiff.2 ⟨nofun, fun _ => by decide +kernel⟩

/-- The file is cut to one byte and extended to two again. -/
def cutAndExtended : System :=
  Runs.runAll (fileStep 2)
    [(Sample.env none [], .truncate 1 {}), (Sample.env none [], .truncate 2 {})] stored

/-- The byte that was cut off is back. -/
theorem truncation_restores_cut :
    (Reachable stored ∧ stored.inodes.find 2 = some storedInode ∧ stored.Content 2 [97, 98]) ∧
    edits 0 [97, 98] [.truncate 1, .truncate 2] = ([97, 0] : Bytes) ∧
    ¬ cutAndExtended.Content 2 [97, 0] ∧ cutAndExtended.Content 2 [97, 98] := by
  have hw := Sample.works_env none []
  refine ⟨⟨reachable_stored, find_stored, content_stored⟩, rfl, fun h => ?_, ?_⟩
  · exact absurd (h.2 _ _ 0 0 2 hw hw) (by decide +kernel)
  · have hadm : Runs.Admits (fileStep 2) Succeeds
        [(Sample.env none [], .truncate 1 {}), (Sample.env none [], .truncate 2 {})] stored :=
      ⟨⟨hw, nofun⟩, ⟨hw, nofun⟩, trivial⟩
    have hshow := shows_runAll Sample.hash_injective _
      (shows_of_reachable Sample.hash_injective reachable_stored rfl rfl find_stored rfl holds_stored)
      hadm
    exact (content_iff hshow _).2 ⟨rfl, List.prefix_refl _⟩

end

end TgCryptFs

import TgCryptFs.Fuse.HandleIdentity
import TgCryptFs.Library.Cursor
import TgCryptFs.Library.Runs

set_option autoImplicit false

/-!
# A directory read in pages

The cookie of an entry is its place in the listing of the moment. An operation between two
pages that takes away an entry already returned, or brings one in before it, moves what follows
across the offset at which the next page resumes.
-/
namespace TgCryptFs
open Library

inductive DirEntry where
  | self
  | parent
  | child (ino : ℕ) (name : String)
deriving DecidableEq, Repr

/-- The first two cookies are those of `.` and `..`. -/
def DirEntry.ofReply : ℕ × ℕ × FileType × String → DirEntry
  | (_, 1, _, _) => .self
  | (_, 2, _, _) => .parent
  | (ino, _, _, name) => .child ino name

section

variable [Primitives]

/-- What stands in a directory, in the order of the rows. -/
def System.entries (s : System) (dir : ℕ) : List DirEntry :=
  match s.inodes.find dir with
  | some inode =>
    if inode.isDir then
      .self :: .parent :: (s.inodes.rows.filter (·.parent = dir)).map fun c => .child c.ino c.name
    else []
  | none => []

structure DirectoryListing where
  system : System
  cursor : Cursor DirEntry

inductive ListingEvent where
  | request (e : Event)
  /-- The next `readdir`, with room for `capacity` entries. -/
  | page (env : Env) (capacity : ℕ)

namespace DirectoryListing

/-- Before the first page. -/
def start (dir : ℕ) (s : System) : DirectoryListing := ⟨s, .start (s.entries dir)⟩

def step (dir : ℕ) : ListingEvent → DirectoryListing → DirectoryListing
  | .request e, s => ⟨e.step s.system, s.cursor.change ((e.step s.system).entries dir)⟩
  | .page env capacity, s =>
    match exec env (.readdir dir s.cursor.offset capacity) s.system with
    | (.directory got, system) =>
      ⟨system, { s.cursor with
        offset := (got.getLast?.map fun e => e.2.1).getD s.cursor.offset
        taken := s.cursor.taken ++ got.map DirEntry.ofReply
        ended := s.cursor.ended || got.isEmpty }⟩
    | (_, system) => ⟨system, s.cursor⟩

/-- Every page has room for an entry, and no operation between two pages carries an entry across
    the offset. -/
def Kept (dir : ℕ) (e : ListingEvent) (s : DirectoryListing) : Prop :=
  match e with
  | .request e => s.cursor.Uncrossed ((e.step s.system).entries dir)
  | .page _ capacity => 0 < capacity

end DirectoryListing

/-! ## What a page is -/

section

omit [Primitives]

theorem ofReply_zipIdx (children : List Inode) {k : ℕ} (hk : 2 ≤ k) :
    ((children.map fun c => (c.ino, c.fileType, c.name)).zipIdx k).map
        (fun e => DirEntry.ofReply (e.1.1, e.2 + 1, e.1.2)) =
      children.map fun c => .child c.ino c.name := by
  induction children generalizing k with
  | nil => rfl
  | cons c children ih =>
    rw [List.map_cons, List.zipIdx_cons, List.map_cons, List.map_cons, ih (by omega)]
    congr 1
    unfold DirEntry.ofReply
    split
    · rename_i heq
      simp only [Prod.mk.injEq] at heq
      omega
    · rename_i heq
      simp only [Prod.mk.injEq] at heq
      omega
    · rename_i heq
      simp only [Prod.mk.injEq] at heq
      obtain ⟨rfl, -, -, rfl⟩ := heq
      rfl

/-- The page of a listing whose entries are numbered from one. -/
def pageOf (entries : List (ℕ × FileType × String)) (offset capacity : ℕ) :
    List (ℕ × ℕ × FileType × String) :=
  ((entries.zipIdx.map fun e => (e.1.1, e.2 + 1, e.1.2)).drop offset).take capacity

theorem cookie_pageOf {entries : List (ℕ × FileType × String)} {offset capacity i : ℕ}
    {e : ℕ × ℕ × FileType × String} (h : (pageOf entries offset capacity)[i]? = some e) :
    e.2.1 = offset + i + 1 := by
  unfold pageOf at h
  rw [List.getElem?_take] at h
  split at h
  · rw [List.getElem?_drop, List.getElem?_map, List.getElem?_zipIdx] at h
    obtain ⟨⟨x, k⟩, hx, rfl⟩ := Option.map_eq_some_iff.1 h
    obtain ⟨y, -, hk⟩ := Option.map_eq_some_iff.1 hx
    cases hk
    change 0 + (offset + i) + 1 = offset + i + 1
    omega
  · cases h

/-- The cookie of the last entry of a page is where the next one resumes. -/
theorem getLast?_cookie_pageOf (entries : List (ℕ × FileType × String)) (offset capacity : ℕ) :
    ((pageOf entries offset capacity).getLast?.map fun e => e.2.1).getD offset =
      offset + (pageOf entries offset capacity).length := by
  cases hlast : (pageOf entries offset capacity).getLast? with
  | none =>
    rw [List.getLast?_eq_none_iff.1 hlast]
    rfl
  | some e =>
    have hpos : 0 < (pageOf entries offset capacity).length := by
      refine List.length_pos_of_ne_nil fun hnil => ?_
      rw [hnil] at hlast
      cases hlast
    rw [List.getLast?_eq_getElem?] at hlast
    have hcookie := cookie_pageOf hlast
    rw [Option.map_some, Option.getD_some, hcookie]
    omega

end

variable {dir : ℕ} {s : System}

/-- All that `readdir` has to tell of a directory. -/
def replyEntries (s : System) (dir : ℕ) (inode : Inode) : List (ℕ × FileType × String) :=
  (dir, .directory, ".") :: (max inode.parent 1, .directory, "..") ::
    (InodeStore.listChildren s.inodes dir).map fun c => (c.ino, c.fileType, c.name)

theorem exec_readdir_directory {env : Env} {inode : Inode} (hfind : env.sql .find = true)
    (hlist : env.sql .list = true) (hinode : s.inodes.find dir = some inode)
    (hdir : inode.isDir = true) (offset capacity : ℕ) :
    exec env (.readdir dir offset capacity) s =
      (.directory (pageOf (replyEntries s dir inode) offset capacity), s) := by
  change (readdir dir offset capacity).run env.serve s = _
  have hget : env.serve (.get .find dir) s = (.ok (some inode), s) := by
    rw [← hinode]
    exact Prod.ext (if_pos hfind) rfl
  have hchildren : env.serve (.listChildren dir) s = (.ok (InodeStore.listChildren s.inodes dir), s) :=
    Prod.ext (if_pos hlist) rfl
  rw [readdir, CallTree.run_call, hget]
  dsimp only
  rw [hdir, Bool.not_true, if_neg Bool.false_ne_true, CallTree.run_call, hchildren]
  rfl

theorem exec_readdir_error {env : Env} (offset capacity : ℕ)
    (h : ¬ (env.sql .find = true ∧ env.sql .list = true ∧
      ∃ inode, s.inodes.find dir = some inode ∧ inode.isDir = true)) :
    ∃ e, exec env (.readdir dir offset capacity) s = (.error e, s) := by
  change ∃ e, (readdir dir offset capacity).run env.serve s = _
  rw [readdir, CallTree.run_call, Env.snd_serve_get, Env.fst_serve_get, InodeStore.get]
  by_cases hfind : env.sql .find = true
  · rw [Env.read, if_pos hfind]
    cases hinode : s.inodes.find dir with
    | none => exact ⟨_, rfl⟩
    | some inode =>
      dsimp only
      by_cases hdir : inode.isDir = true
      · have hlist : env.sql .list ≠ true := fun hlist => h ⟨hfind, hlist, inode, hinode, hdir⟩
        have hchildren : env.serve (.listChildren dir) s = (.error .failed, s) :=
          Prod.ext (if_neg hlist) rfl
        rw [hdir, Bool.not_true, if_neg Bool.false_ne_true, CallTree.run_call, hchildren]
        exact ⟨_, rfl⟩
      · rw [Bool.not_eq_true] at hdir
        rw [hdir, Bool.not_false, if_pos rfl]
        exact ⟨_, rfl⟩
  · rw [Env.read, if_neg hfind]
    exact ⟨_, rfl⟩

theorem entries_of_dir {inode : Inode} (hinode : s.inodes.find dir = some inode)
    (hdir : inode.isDir = true) :
    s.entries dir = .self :: .parent ::
      (InodeStore.listChildren s.inodes dir).map fun c => .child c.ino c.name := by
  rw [System.entries, hinode]
  exact if_pos hdir

/-- A page is a stretch of the directory. -/
theorem ofReply_pageOf {inode : Inode} (hinode : s.inodes.find dir = some inode)
    (hdir : inode.isDir = true) (offset capacity : ℕ) :
    (pageOf (replyEntries s dir inode) offset capacity).map DirEntry.ofReply =
      ((s.entries dir).drop offset).take capacity := by
  rw [entries_of_dir hinode hdir, pageOf, List.map_take, List.map_drop, List.map_map]
  congr 2
  rw [replyEntries, List.zipIdx_cons, List.zipIdx_cons, List.map_cons, List.map_cons]
  exact congrArg (fun l => DirEntry.self :: .parent :: l) (ofReply_zipIdx _ (Nat.le_refl 2))

theorem nodup_entries (s : System) (dir : ℕ) : (s.entries dir).Nodup := by
  unfold System.entries
  split
  · split
    · have hchildren : ((s.inodes.rows.filter (·.parent = dir)).map fun c =>
          DirEntry.child c.ino c.name).Nodup := by
        have hinos : ((s.inodes.rows.filter (·.parent = dir)).map Inode.ino).Nodup :=
          s.inodes.key_nodup.sublist (List.filter_sublist.map _)
        have hkeys : ((s.inodes.rows.filter (·.parent = dir)).map fun c =>
            DirEntry.child c.ino c.name).Pairwise (· ≠ ·) := by
          rw [List.pairwise_map]
          exact (List.pairwise_map.1 hinos).imp fun hne heq => hne (DirEntry.child.inj heq).1
        exact hkeys
      refine List.nodup_cons.2 ⟨?_, List.nodup_cons.2 ⟨?_, hchildren⟩⟩
      · simp
      · simp
    · exact List.nodup_nil
  · exact List.nodup_nil

/-! ## What makes a file or rewrites a row -/

/-- What the listing of a directory reads of a row. -/
structure RowPlace where
  ino : ℕ
  parent : ℕ
  name : String
  isDir : Bool

def RowPlace.of (i : Inode) : RowPlace := ⟨i.ino, i.parent, i.name, i.isDir⟩

def placedEntries (dir : ℕ) (places : List RowPlace) : List DirEntry :=
  match places.find? (·.ino = dir) with
  | some place =>
    if place.isDir then
      .self :: .parent :: (places.filter (·.parent = dir)).map fun c => .child c.ino c.name
    else []
  | none => []

theorem entries_eq (s : System) (dir : ℕ) :
    s.entries dir = placedEntries dir (s.inodes.rows.map RowPlace.of) := by
  have hfind : (s.inodes.rows.map RowPlace.of).find? (·.ino = dir) =
      (s.inodes.find dir).map RowPlace.of := by
    rw [List.find?_map]
    rfl
  have hchildren : ((s.inodes.rows.map RowPlace.of).filter (·.parent = dir)).map
      (fun c => DirEntry.child c.ino c.name) =
      (s.inodes.rows.filter (·.parent = dir)).map fun c => .child c.ino c.name := by
    rw [List.filter_map, List.map_map]
    rfl
  rw [System.entries, placedEntries, hfind, hchildren]
  cases s.inodes.find dir <;> rfl

omit [Primitives] in
/-- A row that is new stands last, if it stands in the directory. -/
theorem placedEntries_append {places : List RowPlace} {place : RowPlace}
    (h : places.find? (·.ino = dir) = some place) (new : RowPlace) :
    placedEntries dir (places ++ [new]) = placedEntries dir places ∨
      placedEntries dir (places ++ [new]) =
        placedEntries dir places ++ [.child new.ino new.name] := by
  have hfind : (places ++ [new]).find? (·.ino = dir) = some place := by
    rw [List.find?_append, h]
    rfl
  rw [placedEntries, placedEntries, hfind, h]
  dsimp only
  by_cases hdir : place.isDir = true
  · rw [if_pos hdir, if_pos hdir, List.filter_append, List.map_append]
    by_cases hparent : new.parent = dir
    · right
      simp [hparent]
    · left
      simp [hparent]
  · left
    rw [if_neg hdir, if_neg hdir]

theorem places_update {t t' : Inodes} {i : Inode} (h : InodeStore.update t i = .ok t')
    (hi : ∀ x, t.find i.ino = some x → RowPlace.of i = RowPlace.of x) :
    t'.rows.map RowPlace.of = t.rows.map RowPlace.of := by
  unfold InodeStore.update at h
  split at h
  · rename_i hu
    cases h
    refine Table.map_rows_update hu fun x hx hk => hi x ?_
    rw [← hk]
    exact Table.find_of_mem hx
  · cases h

theorem rows_insert {t t' : Inodes} {i : Inode} (h : InodeStore.insert t i = .ok t') :
    t'.rows = t.rows ++ [i] ∧ t.find i.ino = none := by
  unfold InodeStore.insert at h
  split at h
  · rename_i hu
    cases h
    exact ⟨(Table.rows_insert hu).1, (Table.rows_insert hu).2.1⟩
  · cases h

theorem places_tryUpdate {env : Env} {site : Site} {t : Inodes} {i : Inode}
    (hi : ∀ x, t.find i.ino = some x → RowPlace.of i = RowPlace.of x) :
    (env.tryUpdate site t i).rows.map RowPlace.of = t.rows.map RowPlace.of := by
  unfold Env.tryUpdate
  split
  · rename_i h
    exact places_update (Env.read_eq_ok h).2 hi
  · rfl

/-- After the new row is in, its parent's row still says where it stands. -/
theorem place_addChild {t t₁ : Inodes} {i p : Inode} (hp : t.find i.parent = some p)
    (h₁ : InodeStore.insert t i = .ok t₁) (x : Inode)
    (hx : t₁.find (p.addChild i.ino i.isDir).ino = some x) :
    RowPlace.of (p.addChild i.ino i.isDir) = RowPlace.of x := by
  have hino : p.ino = i.parent := Table.key_of_find hp
  have hne : p.ino ≠ i.ino := by
    intro heq
    rw [← hino, heq, (rows_insert h₁).2] at hp
    cases hp
  have hpar : t₁.find p.ino = some p := by
    rw [(find_of_insert h₁).1, Function.update_of_ne hne, hino]
    exact hp
  cases hpar.symm.trans hx
  rfl

/-- A request that removes and renames nothing leaves a directory as it is, or puts one entry with
    the next number at its end. -/
theorem entries_step_of_adds {e : Event} {d : Inode} (hd : s.inodes.find dir = some d)
    (hinit : e.req ≠ .init) (hremoval : e.req.removal = none)
    (hrename : ∀ parent name newparent newname, e.req ≠ .rename parent name newparent newname) :
    (e.step s).entries dir = s.entries dir ∨
      ∃ name, (e.step s).entries dir =
        s.entries dir ++ [.child (InodeStore.maxIno s.inodes + 1) name] := by
  obtain ⟨env, req⟩ := e
  have heffect := exec_effect env req s
  change (exec env req s).2.entries dir = _ ∨ ∃ name, (exec env req s).2.entries dir = _
  generalize (exec env req s).1 = r at heffect
  generalize (exec env req s).2 = s' at heffect ⊢
  have hplace : (s.inodes.rows.map RowPlace.of).find? (·.ino = dir) = some (RowPlace.of d) := by
    rw [List.find?_map]
    exact congrArg (Option.map RowPlace.of) hd
  have hlinked : ∀ {i : Inode} {t₁ t₂ : Inodes}, InodeStore.nextIno s.inodes = .ok i.ino →
      InodeStore.insert s.inodes i = .ok t₁ → t₂.rows.map RowPlace.of = t₁.rows.map RowPlace.of →
      s'.inodes = t₂ → s'.entries dir = s.entries dir ∨
        ∃ name, s'.entries dir = s.entries dir ++
          [.child (InodeStore.maxIno s.inodes + 1) name] := by
    intro i t₁ t₂ hino h₁ h₂ hs'
    rw [entries_eq, entries_eq, hs', h₂, (rows_insert h₁).1, List.map_append, ← nextIno_eq hino]
    exact (placedEntries_append hplace (RowPlace.of i)).imp_right fun h => ⟨i.name, h⟩
  have hsame : s'.inodes.rows.map RowPlace.of = s.inodes.rows.map RowPlace.of →
      s'.entries dir = s.entries dir := by
    intro hrows
    rw [entries_eq, entries_eq, hrows]
  cases heffect with
  | same hs hr => exact .inl (hsame (by rw [hs.inodes]))
  | rooted hnone ht => exact absurd rfl hinit
  | edited hreq hi he ht hs hm =>
    left
    apply hsame
    rw [hs.inodes, System.inodes_writeInodes]
    refine places_update ht fun x hx => ?_
    rw [he.ino, hi] at hx
    cases hx
    rw [RowPlace.of, RowPlace.of, he.ino, he.parent, he.name, Inode.isDir, he.fileType]
    rfl
  | linked hreq hino hp hdir h₁ h₂ hauto hs hr =>
    rw [← (Request.creates_of_newInode hreq).2] at hino
    have hinodes := hs.inodes
    rw [inodes_committed] at hinodes
    split at hinodes
    · exact .inl (hsame (by rw [hinodes]))
    · exact hlinked hino h₁ (places_update h₂ (place_addChild hp h₁)) hinodes
  | inserted hreq hino hp hdir h₁ hfind halloc hinsert hr =>
    rw [← (Request.creates_of_newInode hreq).2] at hino
    exact hlinked hino h₁ (places_tryUpdate (place_addChild hp h₁)) (System.inodes_writeInodes s _)
  | removed hreq =>
    rw [hremoval] at hreq
    cases hreq
  | renamed => exact absurd rfl (hrename _ _ _ _)
  | leaked => exact absurd rfl (hrename _ _ _ _)

namespace DirectoryListing

/-- In a directory that stands, with no statement failing, it is the stretch. -/
theorem step_page_of_dir {env : Env} (hfind : env.sql .find = true) (hlist : env.sql .list = true)
    {s : DirectoryListing} {inode : Inode} (hinode : s.system.inodes.find dir = some inode)
    (hdir : inode.isDir = true) (capacity : ℕ) :
    step dir (.page env capacity) s =
      ⟨s.system, s.cursor.page (s.system.entries dir) capacity⟩ := by
  rw [step, exec_readdir_directory hfind hlist hinode hdir]
  dsimp only
  rw [getLast?_cookie_pageOf, ofReply_pageOf hinode hdir, Cursor.page, ← ofReply_pageOf hinode hdir,
    List.length_map, List.isEmpty_map]

/-- A page fails, or it is the next stretch of the directory as it stands. -/
theorem step_page (env : Env) (capacity : ℕ) (s : DirectoryListing) :
    step dir (.page env capacity) s = s ∨
      step dir (.page env capacity) s =
        ⟨s.system, s.cursor.page (s.system.entries dir) capacity⟩ := by
  by_cases h : env.sql .find = true ∧ env.sql .list = true ∧
      ∃ inode, s.system.inodes.find dir = some inode ∧ inode.isDir = true
  · obtain ⟨hfind, hlist, inode, hinode, hdir⟩ := h
    exact .inr (step_page_of_dir hfind hlist hinode hdir capacity)
  · obtain ⟨e, he⟩ := exec_readdir_error s.cursor.offset capacity h
    left
    rw [step, he]

theorem aligned_step {s : DirectoryListing} (h : s.cursor.Aligned (s.system.entries dir))
    {e : ListingEvent} (he : Kept dir e s) :
    (step dir e s).cursor.Aligned ((step dir e s).system.entries dir) := by
  cases e with
  | request e => exact h.change he
  | page env capacity =>
    rcases step_page env capacity s with hsame | hpage
    · rw [hsame]
      exact h
    · rw [hpage]
      exact h.page (nodup_entries s.system dir) he

/-- Only what removes or renames carries an entry across the offset: what makes a file puts it at
    the end, unless an entry of its number and name was returned before. -/
theorem uncrossed_of_adds {s : DirectoryListing} (h : s.cursor.Aligned (s.system.entries dir))
    {e : Event} {d : Inode} (hd : s.system.inodes.find dir = some d) (hinit : e.req ≠ .init)
    (hremoval : e.req.removal = none)
    (hrename : ∀ parent name newparent newname, e.req ≠ .rename parent name newparent newname)
    (hfresh : ∀ name, .child (InodeStore.maxIno s.system.inodes + 1) name ∉ s.cursor.taken) :
    s.cursor.Uncrossed ((e.step s.system).entries dir) := by
  rcases entries_step_of_adds hd hinit hremoval hrename with hsame | ⟨name, hnew⟩
  · rw [hsame]
    exact h.uncrossed
  · have hnodup := nodup_entries (e.step s.system) dir
    rw [hnew] at hnodup ⊢
    refine h.uncrossed_append fun y hy => ?_
    rw [List.mem_singleton] at hy
    subst hy
    refine ⟨fun hmem => ?_, hfresh name⟩
    exact (List.nodup_append.1 hnodup).2.2 _ hmem _ (List.mem_singleton_self _) rfl

/-- Where an operation carries an entry across the offset, the rest of the directory is listed
    with one too many or one too few. -/
theorem exists_pages_not_exact {s : DirectoryListing} {e : Event}
    (h : ¬ s.cursor.Uncrossed ((e.step s.system).entries dir)) :
    ∃ s', Runs (step dir) (Kept dir) (step dir (.request e) s) s' ∧ ¬ s'.cursor.Exact := by
  -- in a directory that is gone nothing stands on either side
  have hstands : ∃ inode, (e.step s.system).inodes.find dir = some inode ∧ inode.isDir = true := by
    by_contra hnone
    apply h
    have hnil : (e.step s.system).entries dir = [] := by
      unfold System.entries
      split
      · rename_i inode hinode
        exact if_neg fun hdir => hnone ⟨inode, hinode, hdir⟩
      · rfl
    rw [hnil]
    exact ⟨fun _ _ => by simp, fun _ _ _ => by simp⟩
  obtain ⟨inode, hinode, hdir⟩ := hstands
  generalize hn : ((e.step s.system).entries dir).length + 1 = n
  let env : Env := { e.env with sql := fun _ => true }
  have hpage : ∀ c, step dir (.page env n) ⟨e.step s.system, c⟩ =
      ⟨e.step s.system, c.page ((e.step s.system).entries dir) n⟩ :=
    fun c => step_page_of_dir rfl rfl hinode hdir n
  have hpos : 0 < n := by omega
  refine ⟨step dir (.page env n) (step dir (.page env n) (step dir (.request e) s)),
    .next (.next .start hpos) hpos, ?_⟩
  have hrequest : step dir (.request e) s =
      ⟨e.step s.system, s.cursor.change ((e.step s.system).entries dir)⟩ := rfl
  rw [hrequest, hpage, hpage]
  exact Cursor.not_exact_of_crossed (nodup_entries _ dir) h (by omega)

/-- Where no operation between two pages carries an entry across the offset, every entry that
    stays is listed once and none twice; and an operation that does carry one across makes the
    pages after it list an entry twice or leave one out. -/
theorem pages_exact {dir : ℕ} {s₀ : System} {s : DirectoryListing}
    (h : Runs (step dir) (Kept dir) (start dir s₀) s) :
    s.cursor.Exact ∧
      ∀ e : Event, ¬ s.cursor.Uncrossed ((e.step s.system).entries dir) →
        ∃ s', Runs (step dir) (Kept dir) (step dir (.request e) s) s' ∧ ¬ s'.cursor.Exact := by
  have haligned : s.cursor.Aligned (s.system.entries dir) :=
    h.invariant (fun s => s.cursor.Aligned (s.system.entries dir)) (Cursor.aligned_start _)
      fun e s hs he => aligned_step hs he
  exact ⟨haligned.exact, fun e he => exists_pages_not_exact he⟩

end DirectoryListing

end

section

open scoped Sample

namespace Sample

def makeFiles : List Event :=
  [.mkdir caller 1 (.utf8 "d") 0o755, .create caller 2 (.utf8 "x") 0o644 0,
    .create caller 1 (.utf8 "a") 0o644 0, .create caller 1 (.utf8 "b") 0o644 0].map event

/-- The root with a directory 2 and two files 4 and 5; the file 3 is in the directory. -/
def listedRoot : System := Runs.runAll Event.step makeFiles rooted

/-- The root is listed: a page, a request, and the rest. -/
def pagesAround (capacity : ℕ) (req : Request) : List ListingEvent :=
  [.page (env none []) capacity, .request (event req), .page (env none []) 10,
    .page (env none []) 10]

def listedAround (capacity : ℕ) (req : Request) : DirectoryListing :=
  Runs.runAll (DirectoryListing.step 1) (pagesAround capacity req) (.start 1 listedRoot)

end Sample

theorem listedRoot_runs :
    Runs Event.step (fun e _ => e.env.Works) Sample.rooted Sample.listedRoot :=
  Runs.of_admits _ .start (Runs.admits_of_forall _ (fun e he _ => Sample.works_events _ e he) _)

/-- A file is created between two pages. -/
theorem pages_exact_of_created :
    (Sample.listedAround 4 (.create Sample.caller 1 (.utf8 "c") 0o644 0)).cursor.Exact := by
  refine (DirectoryListing.pages_exact (Runs.of_admits (Sample.pagesAround 4 _) .start
    ⟨Nat.zero_lt_succ 3, ⟨?_, ?_⟩, Nat.zero_lt_succ 9, Nat.zero_lt_succ 9, trivial⟩)).1
  · decide +kernel
  · decide +kernel

/-- A file that was returned is removed between two pages, and the next file is left out. A file
    with a lower number is moved in, and the last one that was returned comes again. -/
theorem pages_not_exact :
    Runs Event.step (fun e _ => e.env.Works) Sample.rooted Sample.listedRoot ∧
    ((Sample.listedAround 4 (.unlink 1 (.utf8 "a"))).cursor.ended = true ∧
      .child 5 "b" ∈ (Sample.listedAround 4 (.unlink 1 (.utf8 "a"))).cursor.steady ∧
      (Sample.listedAround 4 (.unlink 1 (.utf8 "a"))).cursor.taken.count (.child 5 "b") = 0 ∧
      ¬ (Sample.listedAround 4 (.unlink 1 (.utf8 "a"))).cursor.Exact) ∧
    (Sample.listedAround 4 (.rename 2 (.utf8 "x") 1 (.utf8 "x"))).cursor.taken.count
      (.child 4 "a") = 2 ∧
    ¬ (Sample.listedAround 4 (.rename 2 (.utf8 "x") 1 (.utf8 "x"))).cursor.Exact := by
  have hended : (Sample.listedAround 4 (.unlink 1 (.utf8 "a"))).cursor.ended = true := by
    decide +kernel
  have hsteady : .child 5 "b" ∈ (Sample.listedAround 4 (.unlink 1 (.utf8 "a"))).cursor.steady := by
    decide +kernel
  have hlost : (Sample.listedAround 4 (.unlink 1 (.utf8 "a"))).cursor.taken.count
      (.child 5 "b") = 0 := by
    decide +kernel
  have htwice : (Sample.listedAround 4 (.rename 2 (.utf8 "x") 1 (.utf8 "x"))).cursor.taken.count
      (.child 4 "a") = 2 := by
    decide +kernel
  refine ⟨listedRoot_runs, ⟨hended, hsteady, hlost, fun h => ?_⟩, htwice, fun h => ?_⟩
  · have hone := h.once hended _ hsteady
    omega
  · have hone := List.nodup_iff_count_le_one.1 h.nodup (.child 4 "a")
    omega

end

end TgCryptFs

import TgCryptFs.Store.InodeMap
import TgCryptFs.Store.SampleRecords

set_option autoImplicit false

/-!
# The inode store refines the map

In two steps: the encrypted rows stand one by one for the inodes of a plain table, and the
plain table, read by its key, is the map.
-/
namespace TgCryptFs
open Library

section Plain

variable [Primitives]

/-- The same calls on a table of inodes. -/
def InodeCall.answer (u : Inodes) : InodeCall → InodeReply × Inodes
  | insert _ inode =>
    match InodeStore.insert u inode with
    | .error _ => (.failed .constraint, u)
    | .ok u' => (.done, u')
  | update _ inode =>
    match InodeStore.update u inode with
    | .error _ => (.failed .constraint, u)
    | .ok u' => (.done, u')
  | delete ino => (.done, InodeStore.delete u ino)
  | get ino => (.inode (InodeStore.get u ino), u)
  | lookup parentIno name => (.inode (InodeStore.lookup u parentIno name), u)
  | listChildren parentIno => (.inodes (InodeStore.listChildren u parentIno), u)
  | nextIno =>
    match InodeStore.nextIno u with
    | .error _ => (.failed .invalidColumnType, u)
    | .ok n => (.ino n, u)

variable {u : Inodes} {m : InodeMap}

theorem named_iff_findUniq (hb : Function.Injective blake3) (hu : u.find = m.entry)
    {parent : ℕ} {name : String} {i : Inode} :
    u.findUniq (parent, nameHash name) = some i ↔ m.Named parent name i := by
  rw [Table.findUniq_eq_some_iff_find, hu, InodeMap.Named, Inode.nameKey, Prod.mk.injEq,
    (nameHash_injective hb).eq_iff]

/-- The table takes a new inode exactly where the map has room for it. -/
theorem insert_iff_free (hb : Function.Injective blake3) (hu : u.find = m.entry) {i : Inode} :
    (∃ u', Table.insert u i = some u') ↔ m.entry i.ino = none ∧ m.Free i := by
  constructor
  · rintro ⟨u', hu'⟩
    obtain ⟨-, hkey, huniq⟩ := Table.rows_insert hu'
    refine ⟨hu ▸ hkey, fun j hj => ?_⟩
    rw [← named_iff_findUniq hb hu] at hj
    rw [Inode.nameKey, hj] at huniq
    cases huniq
  · rintro ⟨hnew, hfree⟩
    refine Table.insert_eq_some (hu ▸ hnew) ?_
    by_contra huniq
    obtain ⟨j, hj⟩ := Option.ne_none_iff_exists'.1 huniq
    have hnamed := (named_iff_findUniq hb hu).1 hj
    have hentry := hnamed.1
    rw [hfree j hnamed, hnew] at hentry
    cases hentry

theorem update_iff_free (hb : Function.Injective blake3) (hu : u.find = m.entry) {i : Inode} :
    (∃ u', Table.update u i = some u') ↔ m.entry i.ino = none ∨ m.Free i := by
  have hheld : (∀ j, u.findUniq i.nameKey = some j → j.ino = i.ino) ↔ m.Free i :=
    forall_congr' fun j => imp_congr_left (named_iff_findUniq hb hu)
  rw [← hheld, ← hu]
  exact Table.update_eq_some_iff

theorem listChildren_nodup (u : Inodes) (parent : ℕ) : (InodeStore.listChildren u parent).Nodup :=
  u.key_nodup.of_map.filter _

theorem mem_listChildren {i : Inode} {parent : ℕ} :
    i ∈ InodeStore.listChildren u parent ↔ u.find i.ino = some i ∧ i.parent = parent := by
  rw [InodeStore.listChildren, List.mem_filter, decide_eq_true_iff, Table.find_eq_some]
  exact and_congr_left' (and_iff_left rfl).symm

theorem answer_insert (hb : Function.Injective blake3) (hu : u.find = m.entry)
    (nonce : Aead.Nonce) (i : Inode) :
    m.Answers (.insert nonce i) (InodeCall.answer u (.insert nonce i)).1 ∧
      (InodeCall.answer u (.insert nonce i)).2.find = (m.step (.insert nonce i)).entry := by
  by_cases h : m.entry i.ino = none ∧ m.Free i
  · obtain ⟨u', hu'⟩ := (insert_iff_free hb hu).2 h
    have hanswer : InodeCall.answer u (.insert nonce i) = (.done, u') := by
      simp only [InodeCall.answer, InodeStore.insert, hu']
    rw [hanswer, InodeMap.step, dif_pos h]
    refine ⟨⟨.inl rfl, iff_of_false (fun hfail => by cases hfail) ?_⟩, ?_⟩
    · rintro (hthere | ⟨j, hj⟩)
      · exact hthere h.1
      · have hentry := hj.1
        rw [h.2 j hj, h.1] at hentry
        cases hentry
    · rw [Table.find_insert hu', hu]
      rfl
  · have hrefused : Table.insert u i = none := by
      by_contra hsome
      exact h ((insert_iff_free hb hu).1 (Option.ne_none_iff_exists'.1 hsome))
    have hanswer : InodeCall.answer u (.insert nonce i) = (.failed .constraint, u) := by
      simp only [InodeCall.answer, InodeStore.insert, hrefused]
    rw [hanswer, InodeMap.step, dif_neg h]
    refine ⟨⟨.inr rfl, iff_of_true rfl ?_⟩, hu⟩
    by_contra hroom
    obtain ⟨hnew, hnone⟩ := not_or.1 hroom
    exact h ⟨not_not.1 hnew, fun j hj => absurd ⟨j, hj⟩ hnone⟩

theorem answer_update (hb : Function.Injective blake3) (hu : u.find = m.entry)
    (nonce : Aead.Nonce) (i : Inode) :
    m.Answers (.update nonce i) (InodeCall.answer u (.update nonce i)).1 ∧
      (InodeCall.answer u (.update nonce i)).2.find = (m.step (.update nonce i)).entry := by
  have hallowed : (m.entry i.ino = none ∨ m.Free i) ↔
      ¬ (m.entry i.ino ≠ none ∧ ∃ j, j.ino ≠ i.ino ∧ m.Named i.parent i.name j) := by
    rw [← InodeMap.not_free_iff, not_and_not_right, imp_iff_not_or, not_not]
  by_cases h : m.entry i.ino = none ∨ m.Free i
  · obtain ⟨u', hu'⟩ := (update_iff_free hb hu).2 h
    have hanswer : InodeCall.answer u (.update nonce i) = (.done, u') := by
      simp only [InodeCall.answer, InodeStore.update, hu']
    rw [hanswer]
    refine ⟨⟨.inl rfl, iff_of_false (fun hfail => by cases hfail) (hallowed.1 h)⟩, ?_⟩
    rw [Table.find_update hu', hu, InodeMap.step]
    by_cases hthere : m.entry i.ino = none
    · rw [dif_neg fun hboth => hboth.1 hthere, hthere]
      exact Function.update_eq_self_iff.2 hthere.symm
    · obtain ⟨old, hold⟩ := Option.ne_none_iff_exists'.1 hthere
      have hwritten : ((m.entry i.ino).map fun _ => i) = some i := by rw [hold, Option.map_some]
      rw [dif_pos ⟨hthere, h.resolve_left hthere⟩, hwritten]
      rfl
  · have hrefused : Table.update u i = none := by
      by_contra hsome
      exact h ((update_iff_free hb hu).1 (Option.ne_none_iff_exists'.1 hsome))
    have hanswer : InodeCall.answer u (.update nonce i) = (.failed .constraint, u) := by
      simp only [InodeCall.answer, InodeStore.update, hrefused]
    rw [hanswer, InodeMap.step, dif_neg fun hboth => h (.inr hboth.2)]
    exact ⟨⟨.inr rfl, iff_of_true rfl (not_not.1 (mt hallowed.2 h))⟩, hu⟩

/-- One call: the answer is one the map allows, and the table goes on to be the map. -/
theorem answer_refines (hb : Function.Injective blake3) (hu : u.find = m.entry) (c : InodeCall) :
    m.Answers c (c.answer u).1 ∧ (c.answer u).2.find = (m.step c).entry := by
  cases c with
  | insert nonce i => exact answer_insert hb hu nonce i
  | update nonce i => exact answer_update hb hu nonce i
  | delete ino =>
    refine ⟨rfl, ?_⟩
    rw [InodeCall.answer, InodeStore.delete, Table.find_erase, hu]
    rfl
  | get ino => exact ⟨congrArg InodeReply.inode (congrFun hu ino), hu⟩
  | lookup parent name =>
    exact ⟨⟨_, rfl, fun i => named_iff_findUniq hb hu⟩, hu⟩
  | listChildren parent =>
    exact ⟨⟨_, rfl, listChildren_nodup u parent, fun i => hu ▸ mem_listChildren⟩, hu⟩
  | nextIno =>
    rw [InodeCall.answer]
    split
    · exact ⟨.inl ⟨_, rfl⟩, hu⟩
    · rename_i n hn
      obtain ⟨habsent, hpos⟩ := find_nextIno hn
      exact ⟨.inr ⟨n, rfl, hpos, hu ▸ habsent⟩, hu⟩

end Plain

section Encrypted

variable [Primitives] [Postcard Inode] {metaKey : Bytes} {t : InodeRows} {u : Inodes}

namespace InodeCall

def serve (metaKey : Bytes) (t : InodeRows) : InodeCall → InodeReply × InodeRows
  | insert nonce inode =>
    match InodeRows.insert metaKey nonce inode t with
    | .error e => (.failed e, t)
    | .ok t' => (.done, t')
  | update nonce inode =>
    match InodeRows.update metaKey nonce inode t with
    | .error e => (.failed e, t)
    | .ok t' => (.done, t')
  | delete ino => (.done, InodeRows.delete ino t)
  | get ino =>
    match InodeRows.get metaKey ino t with
    | .error e => (.failed e, t)
    | .ok found => (.inode found, t)
  | lookup parentIno name =>
    match InodeRows.lookup metaKey parentIno name t with
    | .error e => (.failed e, t)
    | .ok found => (.inode found, t)
  | listChildren parentIno =>
    match InodeRows.listChildren metaKey parentIno t with
    | .error e => (.failed e, t)
    | .ok found => (.inodes found, t)
  | nextIno =>
    match InodeRows.nextIno t with
    | .error e => (.failed e, t)
    | .ok n => (.ino n, t)

def step (metaKey : Bytes) (c : InodeCall) (t : InodeRows) : InodeRows := (c.serve metaKey t).2

/-- The table after the calls, from the empty one. -/
def after (metaKey : Bytes) (calls : List InodeCall) : InodeRows :=
  Runs.runAll (step metaKey) calls Table.empty

/-- The numbers are below 2 ^ 63, a parent is any u64, and the cipher takes what is written. -/
def Admitted (metaKey : Bytes) : InodeCall → Prop
  | insert nonce i | update nonce i =>
    i.ino < 2 ^ 63 ∧ i.parent < 2 ^ 64 ∧
      ∃ data, sealRecord metaKey nonce (inodeAad i.ino) i = some data
  | delete ino | get ino => ino < 2 ^ 63
  | lookup parentIno _ | listChildren parentIno => parentIno < 2 ^ 64
  | nextIno => True

end InodeCall

/-- The row stands for the inode: its columns are those of the inode it encrypts. -/
structure RowFor (metaKey : Bytes) (row : InodeRow) (i : Inode) : Prop where
  ino_lt : i.ino < 2 ^ 63
  parent_lt : i.parent < 2 ^ 64
  ino : row.ino = wrapI64 i.ino
  parent : row.parent = wrapI64 i.parent
  nameHash : row.nameHash = nameHash i.name
  opens : openRecord metaKey row.data (inodeAad i.ino) = .ok i

namespace RowFor

variable {row : InodeRow} {i : Inode}

theorem ino_eq_iff (h : RowFor metaKey row i) {n : ℕ} (hn : n < 2 ^ 63) :
    row.ino = wrapI64 n ↔ i.ino = n := by
  have hi := h.ino_lt
  rw [h.ino, wrapI64_inj (by omega) (by omega)]

theorem parent_eq_iff (h : RowFor metaKey row i) {n : ℕ} (hn : n < 2 ^ 64) :
    row.parent = wrapI64 n ↔ i.parent = n := by
  rw [h.parent, wrapI64_inj h.parent_lt hn]

theorem nameKey_eq_iff (h : RowFor metaKey row i) {n : ℕ} (hn : n < 2 ^ 64) {hash : Bytes} :
    row.nameKey = (wrapI64 n, hash) ↔ i.nameKey = (n, hash) := by
  rw [InodeRow.nameKey, Inode.nameKey, Prod.mk.injEq, Prod.mk.injEq, h.parent_eq_iff hn, h.nameHash]

theorem matches_keys :
    Table.Matches InodeRow.ino InodeRow.nameKey Inode.ino Inode.nameKey (RowFor metaKey) where
  key hr hx := by
    have hsame := hx.ino_eq_iff hr.ino_lt
    rwa [← hr.ino] at hsame
  uniq hr hx := by
    rw [InodeRow.nameKey, InodeRow.nameKey, hr.parent, hr.nameHash]
    exact hx.nameKey_eq_iff hr.parent_lt

theorem ino_natCast (h : RowFor metaKey row i) : row.ino = i.ino := by
  rw [h.ino, wrapI64_of_lt h.ino_lt]

theorem of_rowOf {nonce : Aead.Nonce} (hino : i.ino < 2 ^ 63) (hparent : i.parent < 2 ^ 64)
    (h : InodeRows.rowOf metaKey nonce i = some row) : RowFor metaKey row i := by
  obtain ⟨data, hdata, rfl⟩ := Option.map_eq_some_iff.1 h
  exact ⟨hino, hparent, rfl, rfl, rfl, openRecord_sealRecord hdata⟩

theorem openRow {row? : Option InodeRow} {i? : Option Inode}
    (h : Option.Rel (RowFor metaKey) row? i?) {aad : InodeRow → String}
    (haad : ∀ row i, row? = some row → RowFor metaKey row i → aad row = inodeAad i.ino) :
    TgCryptFs.openRow metaKey InodeRow.data aad row? = .ok i? := by
  cases h with
  | none => rfl
  | @some row i hrow =>
    refine openRow_some ?_
    rw [haad row i rfl hrow]
    exact hrow.opens

end RowFor

omit [Primitives] [Postcard Inode] in
/-- The largest of some natural numbers, as SQLite finds it. -/
theorem max?_natCast (l : List ℕ) :
    (l.map fun n : ℕ => (n : ℤ)).max?.getD 0 = (l.foldr max 0 : ℕ) := by
  induction l with
  | nil => rfl
  | cons n l ih =>
    rw [List.map_cons, List.max?_cons, Option.getD_some, List.foldr_cons]
    cases hmax : (l.map fun n : ℕ => (n : ℤ)).max? with
    | none =>
      rw [hmax, Option.getD_none] at ih
      rw [Option.elim_none]
      omega
    | some m =>
      rw [hmax, Option.getD_some] at ih
      rw [Option.elim_some]
      omega

theorem maxIno_related (h : Table.Related (RowFor metaKey) t u) :
    InodeRows.maxIno t = InodeStore.maxIno u := by
  have hinos : t.rows.map InodeRow.ino = (u.rows.map Inode.ino).map fun n : ℕ => (n : ℤ) := by
    rw [List.map_map]
    exact List.forall₂_eq_eq_eq ▸ List.rel_map (fun _ _ hrow => hrow.ino_natCast) h
  rw [InodeRows.maxIno, hinos, max?_natCast, InodeStore.maxIno, List.foldr_map]

theorem nextIno_related (h : Table.Related (RowFor metaKey) t u) :
    (InodeRows.nextIno t = .error .invalidColumnType ∧ ∃ e, InodeStore.nextIno u = .error e) ∨
      ∃ n, InodeRows.nextIno t = .ok n ∧ InodeStore.nextIno u = .ok n := by
  unfold InodeRows.nextIno InodeStore.nextIno
  rw [maxIno_related h]
  by_cases hlt : InodeStore.maxIno u + 1 < 2 ^ 63
  · refine .inr ⟨InodeStore.maxIno u + 1, ?_, if_pos hlt⟩
    have hcast : (InodeStore.maxIno u : ℤ) + 1 = (InodeStore.maxIno u + 1 : ℕ) := rfl
    rw [if_pos (by omega), hcast, wrapU64_of_nonneg (by omega)]
  · exact .inl ⟨if_neg (by omega), _, if_neg hlt⟩

theorem rowOf_some {nonce : Aead.Nonce} {i : Inode}
    (hc : InodeCall.Admitted metaKey (.insert nonce i)) :
    ∃ row, InodeRows.rowOf metaKey nonce i = some row ∧ RowFor metaKey row i := by
  obtain ⟨hino, hparent, data, hdata⟩ := hc
  have hrow : InodeRows.rowOf metaKey nonce i = some _ :=
    (congrArg (Option.map _) hdata).trans (Option.map_some ..)
  exact ⟨_, hrow, .of_rowOf hino hparent hrow⟩

theorem insert_related (h : Table.Related (RowFor metaKey) t u) {nonce : Aead.Nonce} {i : Inode}
    (hc : InodeCall.Admitted metaKey (.insert nonce i)) :
    (InodeRows.insert metaKey nonce i t = .error .constraint ∧
        ∃ e, InodeStore.insert u i = .error e) ∨
      ∃ t' u', InodeRows.insert metaKey nonce i t = .ok t' ∧ InodeStore.insert u i = .ok u' ∧
        Table.Related (RowFor metaKey) t' u' := by
  obtain ⟨row, hrow, hfor⟩ := rowOf_some hc
  unfold InodeRows.insert InodeStore.insert
  rw [hrow]
  dsimp only
  rcases Table.rel_cases (h.insert RowFor.matches_keys hfor) with
    ⟨ht, hu⟩ | ⟨t', u', ht, hu, hrel⟩
  · rw [ht, hu]
    exact .inl ⟨rfl, _, rfl⟩
  · rw [ht, hu]
    exact .inr ⟨t', u', rfl, rfl, hrel⟩

theorem update_related (h : Table.Related (RowFor metaKey) t u) {nonce : Aead.Nonce} {i : Inode}
    (hc : InodeCall.Admitted metaKey (.update nonce i)) :
    (InodeRows.update metaKey nonce i t = .error .constraint ∧
        ∃ e, InodeStore.update u i = .error e) ∨
      ∃ t' u', InodeRows.update metaKey nonce i t = .ok t' ∧ InodeStore.update u i = .ok u' ∧
        Table.Related (RowFor metaKey) t' u' := by
  obtain ⟨row, hrow, hfor⟩ := rowOf_some hc
  unfold InodeRows.update InodeStore.update
  rw [hrow]
  dsimp only
  rcases Table.rel_cases (h.update RowFor.matches_keys hfor) with
    ⟨ht, hu⟩ | ⟨t', u', ht, hu, hrel⟩
  · rw [ht, hu]
    exact .inl ⟨rfl, _, rfl⟩
  · rw [ht, hu]
    exact .inr ⟨t', u', rfl, rfl, hrel⟩

theorem get_related (h : Table.Related (RowFor metaKey) t u) {n : ℕ} (hn : n < 2 ^ 63) :
    InodeRows.get metaKey n t = .ok (InodeStore.get u n) := by
  refine RowFor.openRow (h.find fun row i hrow => hrow.ino_eq_iff hn) fun row i hfound hrow => ?_
  have hkey := (Table.key_of_find hfound).symm.trans hrow.ino
  have hi := hrow.ino_lt
  rw [(wrapI64_inj (by omega) (by omega)).1 hkey]

theorem lookup_related (h : Table.Related (RowFor metaKey) t u) {parent : ℕ}
    (hp : parent < 2 ^ 64) (name : String) :
    InodeRows.lookup metaKey parent name t = .ok (InodeStore.lookup u parent name) := by
  refine RowFor.openRow (h.findUniq fun row i hrow => hrow.nameKey_eq_iff hp) fun row i _ hrow => ?_
  rw [hrow.ino_natCast]

theorem listChildren_related (h : Table.Related (RowFor metaKey) t u) {parent : ℕ}
    (hp : parent < 2 ^ 64) :
    InodeRows.listChildren metaKey parent t = .ok (InodeStore.listChildren u parent) := by
  have hchildren : List.Forall₂ (RowFor metaKey)
      (t.rows.filter fun row => row.parent = wrapI64 parent)
      (InodeStore.listChildren u parent) := by
    refine List.rel_filter (fun row i hrow => ?_) h
    change decide (row.parent = wrapI64 parent) = true ↔ decide (i.parent = parent) = true
    rw [decide_eq_true_iff, decide_eq_true_iff]
    exact hrow.parent_eq_iff hp
  refine openRows_ok (hchildren.imp fun row i hrow => ?_)
  have hi := hrow.ino_lt
  rw [hrow.ino, wrapU64_wrapI64 (by omega)]
  exact hrow.opens

theorem delete_related (h : Table.Related (RowFor metaKey) t u) {n : ℕ} (hn : n < 2 ^ 63) :
    Table.Related (RowFor metaKey) (InodeRows.delete n t) (InodeStore.delete u n) :=
  h.erase fun _ _ hrow => hrow.ino_eq_iff hn

/-- One call is answered alike, and the tables go on standing for each other. -/
theorem serve_related (h : Table.Related (RowFor metaKey) t u) {c : InodeCall}
    (hc : c.Admitted metaKey) :
    (c.serve metaKey t).1 = (c.answer u).1 ∧
      Table.Related (RowFor metaKey) (c.serve metaKey t).2 (c.answer u).2 := by
  cases c with
  | insert nonce i =>
    rcases insert_related h hc with ⟨ht, e, hu⟩ | ⟨t', u', ht, hu, hrel⟩
    · rw [InodeCall.serve, InodeCall.answer, ht, hu]
      exact ⟨rfl, h⟩
    · rw [InodeCall.serve, InodeCall.answer, ht, hu]
      exact ⟨rfl, hrel⟩
  | update nonce i =>
    rcases update_related h hc with ⟨ht, e, hu⟩ | ⟨t', u', ht, hu, hrel⟩
    · rw [InodeCall.serve, InodeCall.answer, ht, hu]
      exact ⟨rfl, h⟩
    · rw [InodeCall.serve, InodeCall.answer, ht, hu]
      exact ⟨rfl, hrel⟩
  | delete n => exact ⟨rfl, delete_related h hc⟩
  | get n =>
    rw [InodeCall.serve, get_related h hc]
    exact ⟨rfl, h⟩
  | lookup parent name =>
    rw [InodeCall.serve, lookup_related h hc name]
    exact ⟨rfl, h⟩
  | listChildren parent =>
    rw [InodeCall.serve, listChildren_related h hc]
    exact ⟨rfl, h⟩
  | nextIno =>
    rcases nextIno_related h with ⟨ht, e, hu⟩ | ⟨n, ht, hu⟩
    · rw [InodeCall.serve, InodeCall.answer, ht, hu]
      exact ⟨rfl, h⟩
    · rw [InodeCall.serve, InodeCall.answer, ht, hu]
      exact ⟨rfl, h⟩

theorem after_refines (hb : Function.Injective blake3) {calls : List InodeCall}
    (hcalls : ∀ c ∈ calls, c.Admitted metaKey) {m : InodeMap}
    (h : Table.Related (RowFor metaKey) t u) (hu : u.find = m.entry) :
    ∃ u' : Inodes, Table.Related (RowFor metaKey) (Runs.runAll (InodeCall.step metaKey) calls t) u' ∧
      u'.find = (Runs.runAll InodeMap.step calls m).entry := by
  induction calls generalizing t u m with
  | nil => exact ⟨u, h, hu⟩
  | cons c calls ih =>
    have hserve := serve_related h (hcalls c List.mem_cons_self)
    have hanswer := answer_refines hb hu c
    exact ih (fun x hx => hcalls x (List.mem_cons_of_mem _ hx)) hserve.2 hanswer.2

/-- After any calls from the empty store, the next one is answered as the map says. -/
theorem inode_store_refines_map (hb : Function.Injective blake3) (calls : List InodeCall)
    (hcalls : ∀ c ∈ calls, c.Admitted metaKey) (c : InodeCall) (hc : c.Admitted metaKey) :
    (InodeMap.after calls).Answers c (c.serve metaKey (InodeCall.after metaKey calls)).1 := by
  have hstart : (Table.empty : Inodes).find = InodeMap.empty.entry := rfl
  obtain ⟨u, hrel, hu⟩ := after_refines hb hcalls Table.related_empty hstart
  rw [InodeCall.after, (serve_related hrel hc).1]
  exact (answer_refines hb hu c).1

end Encrypted

section
open scoped Sample

def Sample.file : Inode := .newFile 2 1 "a" 0o644 0 0 0

/-- A file that was inserted is found under its number. -/
theorem inserted_file_found :
    ((InodeCall.get 2).serve [] (InodeCall.after [] [.insert Sample.zeroNonce Sample.file])).1 =
      .inode (some Sample.file) := by
  have hlength : (Sample.frames (Sample.Fields.fields Sample.file)).length < 256 ^ 16 := by
    decide +kernel
  have hinsert : (InodeCall.insert Sample.zeroNonce Sample.file).Admitted [] :=
    ⟨by decide, by decide, Sample.sealRecord_some hlength [] Sample.zeroNonce _⟩
  have hget : (InodeCall.get 2).Admitted [] := by
    change 2 < 2 ^ 63
    omega
  have hfree : InodeMap.empty.Free Sample.file := fun j hj => by cases hj.1
  have hmap : (InodeMap.after [.insert Sample.zeroNonce Sample.file]).entry 2 =
      some Sample.file := by
    change (InodeMap.step (.insert Sample.zeroNonce Sample.file) InodeMap.empty).entry 2 = _
    rw [InodeMap.step, dif_pos ⟨rfl, hfree⟩]
    change Function.update InodeMap.empty.entry 2 (some Sample.file) 2 = some Sample.file
    rw [Function.update_self]
  have hanswer := inode_store_refines_map Sample.hash_injective
    [.insert Sample.zeroNonce Sample.file] (by simpa using hinsert) (.get 2) hget
  exact hanswer.trans (congrArg InodeReply.inode hmap)

end
end TgCryptFs

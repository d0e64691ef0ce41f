import TgCryptFs.Library.Tally
import TgCryptFs.Cli.Rotate

set_option autoImplicit false

/-!
# Rotations beside flushes

Several mounted instances and several runs of `rotate` share one volume, each going on from
call to call. A flush stamps its record with the epoch the instance was built with, and
`rotate` looks for the epoch the config had when it began.
-/
namespace TgCryptFs
open Library

/-- The `CryptFs` of the CLI's `mount`, which sets no epoch, with a transport. -/
def Mount.cli (uid gid : ℕ) : Mount :=
  { transport := true, rt := true, currentEpoch := 0, uid, gid }

/-- The records the call inserts have this epoch. -/
def Op.Stamps (epoch : ℕ) : Op → Prop
  | .blockInsert b => b.epoch = epoch
  | _ => True

section

variable [Primitives]

/-- An instance in the middle of a flush, with the calls it still has to make. -/
structure Flush where
  system : System
  rest : Fuse Unit

structure SharedVolume where
  db : Db
  remote : Remote
  currentEpoch : ℕ
  flushes : List Flush
  rotations : List Rotation

inductive SharedEvent where
  /-- An instance begins to flush. -/
  | flush (uid gid : ℕ) (cache : Option BlockCache) (ino : ℕ) (data : Bytes)
  /-- The `k`-th flush makes its next call. -/
  | call (k : ℕ) (env : Env)
  | rotate
  | advance (k : ℕ)
  | fail (k : ℕ)

namespace SharedVolume

/-- The instance over the tables as they are now. -/
def attach (v : SharedVolume) (s : System) : System :=
  { s with conn := .autocommit v.db, remote := v.remote }

def call (v : SharedVolume) (k : ℕ) (env : Env) : SharedVolume :=
  match v.flushes[k]? with
  | some ⟨s, .call o f⟩ =>
    let (x, s') := env.serve o (v.attach s)
    { v with db := s'.conn.durable, remote := s'.remote, flushes := v.flushes.set k ⟨s', f x⟩ }
  | some ⟨_, .ret _⟩ => { v with flushes := v.flushes.eraseIdx k }
  | none => v

def advance (v : SharedVolume) (k : ℕ) : SharedVolume :=
  match v.rotations[k]? with
  | some rot =>
    let (rot', t, epoch) := rot.next v.db.blocks v.currentEpoch
    { v with db := { v.db with blocks := t }, currentEpoch := epoch
             rotations := Rotation.replaced v.rotations k rot' }
  | none => v

def step : SharedEvent → SharedVolume → SharedVolume
  | .flush uid gid cache ino data, v =>
    let s := v.attach (.fresh (.cli uid gid) cache)
    { v with flushes := v.flushes ++ [⟨s, flushHandle s.mount ino data⟩] }
  | .call k env, v => v.call k env
  | .rotate, v => { v with rotations := v.rotations ++ [.opened v.currentEpoch] }
  | .advance k, v => v.advance k
  | .fail k, v => { v with rotations := v.rotations.eraseIdx k }

/-- Some files, and no blocks yet. -/
def new (inodes : Inodes) : SharedVolume := ⟨⟨inodes, .empty⟩, ⟨[], []⟩, 0, [], []⟩

end SharedVolume

/-! ## One call of a flush -/

omit [Primitives] in
theorem stamps_recordBlock {epoch : ℕ} {b : BlockRecord} (h : b.epoch = epoch) (data : Bytes) :
    (recordBlock b data).Uses (Op.Stamps epoch) := by
  refine ⟨h, fun x => ?_⟩
  cases x with
  | error e => trivial
  | ok _ => exact ⟨trivial, fun _ => trivial⟩

theorem stamps_uploadNew (m : Mount) (ino : ℕ) (data : Bytes) :
    (uploadNew m ino data).Uses (Op.Stamps m.currentEpoch) := by
  refine ⟨trivial, fun x => ?_⟩
  cases x with
  | none => trivial
  | some id => exact ⟨trivial, fun rid => stamps_recordBlock rfl data⟩

theorem stamps_flushToTransport (m : Mount) (ino : ℕ) (data : Bytes) :
    (flushToTransport m ino data).Uses (Op.Stamps m.currentEpoch) := by
  unfold flushToTransport
  split
  · trivial
  split
  · trivial
  refine ⟨trivial, fun x => ?_⟩
  rcases x with e | (_ | r)
  · exact stamps_uploadNew m ino data
  · exact stamps_uploadNew m ino data
  · exact ⟨trivial, fun _ => trivial⟩

theorem stamps_flushHandle (m : Mount) (ino : ℕ) (data : Bytes) :
    (flushHandle m ino data).Uses (Op.Stamps m.currentEpoch) := by
  refine CallTree.uses_bind (stamps_flushToTransport m ino data) fun out => ?_
  cases out with
  | none => trivial
  | some block =>
    refine ⟨trivial, fun x => ?_⟩
    rcases x with e | (_ | i)
    · trivial
    · trivial
    · exact ⟨trivial, fun _ => trivial⟩

/-- The epochs by block id. -/
def epochAt (t : Blocks) (rid : Bytes) : Option ℕ := (t.find rid).map BlockRecord.epoch

omit [Primitives] in
theorem epochAt_of_find {t t' : Blocks} {rid : Bytes} {x : Option BlockRecord}
    (h : t'.find = Function.update t.find rid x) :
    epochAt t' = Function.update (epochAt t) rid (x.map BlockRecord.epoch) :=
  Table.observe_of_update h

omit [Primitives] in
theorem epochAt_incrementRef (t : Blocks) (rid : Bytes) :
    epochAt (BlockStore.incrementRef t rid) = epochAt t := by
  rw [epochAt_of_find (find_incrementRef t rid), Function.update_eq_self_iff, epochAt, Option.map_map]
  rfl

/-- A statement outside a transaction leaves the epochs as they are, but for that of a
    record it inserts. -/
theorem epochAt_serve (env : Env) (o : Op) {s : System} {db : Db} (hs : s.conn = .autocommit db) :
    epochAt (env.serve o s).2.conn.durable.blocks = epochAt db.blocks ∨
    ∃ b, o = .blockInsert b ∧ epochAt (env.serve o s).2.conn.durable.blocks =
      Function.update (epochAt db.blocks) b.rid (some b.epoch) := by
  obtain ⟨mount, conn, handles, cache, remote⟩ := s
  obtain rfl : conn = .autocommit db := hs
  cases o with
  | blockInsert b =>
    have hserve : ∀ x, env.read .blockInsert (BlockStore.insert db.blocks b) = x →
        (env.serve (.blockInsert b) ⟨mount, .autocommit db, handles, cache, remote⟩).2.conn.durable.blocks =
          x.toOption.getD db.blocks := by
      rintro x rfl
      change (Env.modifyBlocks _ _ _ _).2.conn.durable.blocks = _
      unfold Env.modifyBlocks
      dsimp only [Connection.view_autocommit]
      cases env.read .blockInsert (BlockStore.insert db.blocks b) <;> rfl
    rcases ht : env.read .blockInsert (BlockStore.insert db.blocks b) with e | t
    · exact .inl (congrArg epochAt (hserve _ ht))
    · refine .inr ⟨b, rfl, ?_⟩
      rw [hserve _ ht]
      exact epochAt_of_find (find_of_blockInsert (Env.read_eq_ok ht).2).1
  | incrementRef rid =>
    refine .inl ?_
    simp only [Env.serve, Env.modifyBlocks, Env.read]
    cases env.sql .incrementRef with
    | false => rfl
    | true => exact epochAt_incrementRef db.blocks rid
  | insert i =>
    rw [Env.serve_insert]
    split <;> exact .inl rfl
  | update site i =>
    rw [Env.snd_serve_update]
    exact .inl rfl
  | delete site ino =>
    rw [Env.snd_serve_delete]
    exact .inl rfl
  | begin =>
    rw [Env.serve_begin]
    split <;> exact .inl rfl
  | cacheGet i rid => cases cache <;> exact .inl rfl
  | cachePut i rid data => cases cache <;> exact .inl rfl
  | _ => exact .inl rfl

/-! ## The epochs of the records -/

namespace SharedVolume

/-- All records are at the epoch of the config; the rotations that still run have come to
    it before. -/
structure Settled (v : SharedVolume) : Prop where
  records : ∀ rid e, epochAt v.db.blocks rid = some e → e = v.currentEpoch
  rotations : ∀ rot ∈ v.rotations, nextEpoch rot.oldEpoch = v.currentEpoch

/-- The records are on their way to the next epoch. A rotation that has listed them has all
    those still to update that are at the old one. -/
structure Moving (v : SharedVolume) : Prop where
  records : ∀ rid e, epochAt v.db.blocks rid = some e →
    e = v.currentEpoch ∨ e = nextEpoch v.currentEpoch
  rotations : ∀ rot ∈ v.rotations, rot.oldEpoch = v.currentEpoch
  listed : ∀ old blocks, .updating old blocks ∈ v.rotations →
    ∀ rid, epochAt v.db.blocks rid = some old → rid ∈ blocks.map BlockRecord.rid

/-- Every flush stamps its record with the epoch of a mount. -/
def StampsZero (v : SharedVolume) : Prop := ∀ fl ∈ v.flushes, fl.rest.Uses (Op.Stamps 0)

def Covered (v : SharedVolume) : Prop := (v.Settled ∨ v.Moving) ∧ v.StampsZero

end SharedVolume

/-- A record is inserted only while the config is at the mounts' epoch and no rotation has
    listed the blocks, and a rotation begins only while no other is left from an earlier
    epoch. -/
def SharedEvent.InStep (v : SharedVolume) : SharedEvent → Prop
  | .call k _ => ∀ s b f, v.flushes[k]? = some ⟨s, .call (.blockInsert b) f⟩ →
      v.currentEpoch = 0 ∧ ∀ rot ∈ v.rotations, ∃ old, rot = .opened old
  | .rotate => ∀ rot ∈ v.rotations, rot.oldEpoch = v.currentEpoch
  | _ => True

namespace SharedVolume

theorem settled_or_moving_congr {v v' : SharedVolume} (h : v.Settled ∨ v.Moving)
    (hb : epochAt v'.db.blocks = epochAt v.db.blocks) (he : v'.currentEpoch = v.currentEpoch)
    (hr : ∀ rot ∈ v'.rotations, rot ∈ v.rotations) : v'.Settled ∨ v'.Moving := by
  rcases h with ⟨hrec, hrot⟩ | ⟨hrec, hrot, hlist⟩
  · refine .inl ⟨?_, fun rot h => ?_⟩
    · rw [hb, he]
      exact hrec
    · rw [he]
      exact hrot rot (hr rot h)
  · refine .inr ⟨?_, fun rot h => ?_, fun old blocks h => ?_⟩
    · rw [hb, he]
      exact hrec
    · rw [he]
      exact hrot rot (hr rot h)
    · rw [hb]
      exact hlist old blocks (hr _ h)

/-- A new record at the epoch of the config, before any rotation has listed. -/
theorem settled_or_moving_insert {v v' : SharedVolume} (h : v.Settled ∨ v.Moving) {rid : Bytes}
    (hb : epochAt v'.db.blocks = Function.update (epochAt v.db.blocks) rid (some v.currentEpoch))
    (he : v'.currentEpoch = v.currentEpoch) (hr : v'.rotations = v.rotations)
    (hopen : ∀ rot ∈ v.rotations, ∃ old, rot = .opened old) : v'.Settled ∨ v'.Moving := by
  have hnew : ∀ k e, epochAt v'.db.blocks k = some e →
      e = v.currentEpoch ∨ epochAt v.db.blocks k = some e := by
    intro k e hk
    rw [hb, Function.update_apply] at hk
    split at hk
    · exact .inl (Option.some.inj hk).symm
    · exact .inr hk
  rcases h with ⟨hrec, hrot⟩ | ⟨hrec, hrot, -⟩
  · refine .inl ⟨fun k e hk => ?_, by rw [he, hr]; exact hrot⟩
    rw [he]
    exact (hnew k e hk).elim id (hrec k e)
  · refine .inr ⟨fun k e hk => ?_, by rw [he, hr]; exact hrot, fun old blocks h => ?_⟩
    · rw [he]
      exact (hnew k e hk).elim .inl (hrec k e)
    · rw [hr] at h
      obtain ⟨_, e⟩ := hopen _ h
      cases e

theorem covered_call {v : SharedVolume} (hv : v.Covered) {k : ℕ} {env : Env}
    (h : (SharedEvent.call k env).InStep v) : (v.call k env).Covered := by
  obtain ⟨hrec, hst⟩ := hv
  unfold call
  split
  · rename_i s o f hk
    have hfl := hst _ (List.mem_of_getElem? hk)
    refine ⟨?_, fun fl hmem => ?_⟩
    · rcases epochAt_serve env o (s := v.attach s) rfl with hsame | ⟨b, rfl, hins⟩
      · exact settled_or_moving_congr hrec hsame rfl fun _ h => h
      · obtain ⟨hzero, hopen⟩ := h s b f hk
        have hb : b.epoch = v.currentEpoch := hfl.1.trans hzero.symm
        rw [hb] at hins
        exact settled_or_moving_insert hrec hins rfl rfl hopen
    · rcases List.mem_or_eq_of_mem_set hmem with h | rfl
      · exact hst fl h
      · exact hfl.2 _
  · exact ⟨settled_or_moving_congr hrec rfl rfl fun _ h => h,
      fun fl h => hst fl (List.mem_of_mem_eraseIdx h)⟩
  · exact ⟨hrec, hst⟩

omit [Primitives] in
theorem epochAt_restamp (t : Blocks) (old : ℕ) (b : BlockRecord) (rid : Bytes) :
    epochAt (Rotation.restamp t old b) rid =
      if rid = b.rid then (epochAt t rid).map fun _ => nextEpoch old else epochAt t rid := by
  rw [Rotation.restamp, epochAt_of_find (find_updateBlockEpoch t _ _ _ _), Function.update_apply]
  split
  · rename_i e
    rw [e, Option.map_map, epochAt, Option.map_map]
    rfl
  · rfl

omit [Primitives] in
theorem mem_listByEpoch {t : Blocks} {old : ℕ} {rid : Bytes} (h : epochAt t rid = some old) :
    rid ∈ (BlockStore.listByEpoch t old).map BlockRecord.rid := by
  obtain ⟨r, hr, he⟩ := Option.map_eq_some_iff.1 h
  refine List.mem_map.2 ⟨r, List.mem_filter.2 ⟨Table.mem_of_find hr, ?_⟩, Table.key_of_find hr⟩
  exact decide_eq_true he

omit [Primitives] in
theorem oldEpoch_of_mem_set {rotations : List Rotation} {k : ℕ} {rot rot' r : Rotation}
    (hk : rotations[k]? = some rot) (hr : r ∈ rotations.set k rot')
    (he : rot'.oldEpoch = rot.oldEpoch) : ∃ r₀ ∈ rotations, r.oldEpoch = r₀.oldEpoch := by
  rcases List.mem_or_eq_of_mem_set hr with hr | rfl
  · exact ⟨r, hr, rfl⟩
  · exact ⟨rot, List.mem_of_getElem? hk, he⟩

/-- A rotation lists: it has all there is at its epoch. -/
theorem settled_or_moving_list {v : SharedVolume} (h : v.Settled ∨ v.Moving) {k old : ℕ}
    (hk : v.rotations[k]? = some (.opened old)) (v' : SharedVolume) (hb : v'.db = v.db)
    (he : v'.currentEpoch = v.currentEpoch)
    (hr : v'.rotations =
      v.rotations.set k (.updating old (BlockStore.listByEpoch v.db.blocks old))) :
    v'.Settled ∨ v'.Moving := by
  obtain ⟨db, remote, epoch, flushes, rotations⟩ := v'
  obtain rfl : db = v.db := hb
  obtain rfl : epoch = v.currentEpoch := he
  obtain rfl := hr
  rcases h with ⟨hrec, hrot⟩ | ⟨hrec, hrot, hlist⟩
  · refine .inl ⟨hrec, fun rot h => ?_⟩
    obtain ⟨r₀, hr₀, e⟩ := oldEpoch_of_mem_set hk h rfl
    rw [e]
    exact hrot r₀ hr₀
  · refine .inr ⟨hrec, fun rot h => ?_, fun o blocks h => ?_⟩
    · obtain ⟨r₀, hr₀, e⟩ := oldEpoch_of_mem_set hk h rfl
      rw [e]
      exact hrot r₀ hr₀
    rcases List.mem_or_eq_of_mem_set h with h | h
    · exact hlist o blocks h
    · cases h
      exact fun rid => mem_listByEpoch

theorem settled_or_moving_restamp {v v' : SharedVolume} (h : v.Settled ∨ v.Moving) {k old : ℕ}
    {b : BlockRecord} {bs : List BlockRecord}
    (hk : v.rotations[k]? = some (.updating old (b :: bs)))
    (hv' : v' = { v with db := { v.db with blocks := Rotation.restamp v.db.blocks old b }
                         rotations := v.rotations.set k (.updating old bs) }) :
    v'.Settled ∨ v'.Moving := by
  subst hv'
  have hmem := List.mem_of_getElem? hk
  rcases h with ⟨hrec, hrot⟩ | ⟨hrec, hrot, hlist⟩
  · refine .inl ⟨fun rid e he => ?_, fun rot h => ?_⟩
    · rw [epochAt_restamp] at he
      split at he
      · obtain ⟨_, -, rfl⟩ := Option.map_eq_some_iff.1 he
        exact hrot _ hmem
      · exact hrec rid e he
    · obtain ⟨r₀, hr₀, e⟩ := oldEpoch_of_mem_set hk h rfl
      rw [e]
      exact hrot r₀ hr₀
  · have hold : old = v.currentEpoch := hrot _ hmem
    subst hold
    -- a row at the old epoch has not been updated, so it was there before
    have hback : ∀ rid, epochAt (Rotation.restamp v.db.blocks v.currentEpoch b) rid =
        some v.currentEpoch → rid ≠ b.rid ∧ epochAt v.db.blocks rid = some v.currentEpoch := by
      intro rid he
      rw [epochAt_restamp] at he
      split at he
      · obtain ⟨_, -, hn⟩ := Option.map_eq_some_iff.1 he
        exact (nextEpoch_ne _ hn).elim
      · rename_i hne
        exact ⟨hne, he⟩
    refine .inr ⟨fun rid e he => ?_, fun rot h => ?_, fun o blocks h rid he => ?_⟩
    · rw [epochAt_restamp] at he
      split at he
      · obtain ⟨_, -, rfl⟩ := Option.map_eq_some_iff.1 he
        exact .inr rfl
      · exact hrec rid e he
    · obtain ⟨r₀, hr₀, e⟩ := oldEpoch_of_mem_set hk h rfl
      rw [e]
      exact hrot r₀ hr₀
    · rcases List.mem_or_eq_of_mem_set h with h | h
      · obtain rfl : o = v.currentEpoch := hrot _ h
        exact hlist _ blocks h rid (hback rid he).2
      · cases h
        obtain ⟨hne, he⟩ := hback rid he
        exact (List.mem_cons.1 (hlist _ _ hmem rid he)).resolve_left hne

/-- A rotation has nothing left to update: no row is at the epoch it began with. -/
theorem settled_of_done {v v' : SharedVolume} (h : v.Settled ∨ v.Moving) {k old : ℕ}
    (hk : v.rotations[k]? = some (.updating old []))
    (hv' : v' = { v with currentEpoch := nextEpoch old, rotations := v.rotations.eraseIdx k }) :
    v'.Settled := by
  subst hv'
  have hmem := List.mem_of_getElem? hk
  rcases h with ⟨hrec, hrot⟩ | ⟨hrec, hrot, hlist⟩
  · have hold : nextEpoch old = v.currentEpoch := hrot _ hmem
    refine ⟨fun rid e he => (hrec rid e he).trans hold.symm, fun rot h => ?_⟩
    exact (hrot rot (List.mem_of_mem_eraseIdx h)).trans hold.symm
  · obtain rfl : old = v.currentEpoch := hrot _ hmem
    refine ⟨fun rid e he => ?_, fun rot h => ?_⟩
    · refine (hrec rid e he).resolve_left ?_
      rintro rfl
      exact absurd (hlist _ _ hmem rid he) List.not_mem_nil
    · exact congrArg nextEpoch (hrot rot (List.mem_of_mem_eraseIdx h))

theorem covered_advance {v : SharedVolume} (hv : v.Covered) (k : ℕ) : (v.advance k).Covered := by
  obtain ⟨hrec, hst⟩ := hv
  unfold advance
  cases hk : v.rotations[k]? with
  | none => exact ⟨hrec, hst⟩
  | some rot =>
    refine ⟨?_, hst⟩
    cases rot with
    | opened old => exact settled_or_moving_list hrec hk _ rfl rfl rfl
    | updating old blocks =>
      cases blocks with
      | nil => exact .inl (settled_of_done hrec hk rfl)
      | cons b bs => exact settled_or_moving_restamp hrec hk rfl

/-- A rotation begins at the epoch of the config; whichever else runs began there too. -/
theorem covered_rotate {v : SharedVolume} (hv : v.Covered) (h : SharedEvent.InStep v .rotate) :
    (step .rotate v).Covered := by
  obtain ⟨hrec, hst⟩ := hv
  have hmoving : v.Moving := by
    rcases hrec with ⟨hrec, hrot⟩ | hmoving
    · refine ⟨fun rid e he => .inl (hrec rid e he), h, fun old blocks hmem => ?_⟩
      have hnext := hrot _ hmem
      rw [h _ hmem] at hnext
      exact (nextEpoch_ne _ hnext).elim
    · exact hmoving
  refine ⟨.inr ⟨hmoving.records, fun rot hmem => ?_, fun old blocks hmem => ?_⟩, hst⟩
  · rcases List.mem_append.1 hmem with hmem | hmem
    · exact h rot hmem
    · rw [List.mem_singleton.1 hmem]
      rfl
  · rcases List.mem_append.1 hmem with hmem | hmem
    · exact hmoving.listed old blocks hmem
    · cases List.mem_singleton.1 hmem

theorem covered_step {e : SharedEvent} {v : SharedVolume} (hv : v.Covered) (h : e.InStep v) :
    (step e v).Covered := by
  cases e with
  | flush uid gid cache ino data =>
    refine ⟨settled_or_moving_congr hv.1 rfl rfl fun _ h => h, fun fl hmem => ?_⟩
    rcases List.mem_append.1 hmem with hmem | hmem
    · exact hv.2 fl hmem
    · rw [List.mem_singleton.1 hmem]
      exact stamps_flushHandle (.cli uid gid) ino data
  | call k env => exact covered_call hv h
  | rotate => exact covered_rotate hv h
  | advance k => exact covered_advance hv k
  | fail k => exact ⟨settled_or_moving_congr hv.1 rfl rfl fun _ => List.mem_of_mem_eraseIdx, hv.2⟩

theorem covered_new (inodes : Inodes) : (new inodes).Covered :=
  ⟨.inl ⟨fun _ _ h => (by cases h), fun _ h => absurd h List.not_mem_nil⟩,
    fun _ h => absurd h List.not_mem_nil⟩

end SharedVolume

/-- In every run whose inserts and rotations are in step, a rotation that completes has left
    no block at another epoch than the config's. -/
theorem rotate_leaves_no_block_behind {inodes : Inodes} {v : SharedVolume}
    (h : Runs SharedVolume.step (fun e v => e.InStep v) (.new inodes) v) {k old : ℕ}
    (hk : v.rotations[k]? = some (.updating old [])) {rid : Bytes} {r : BlockRecord}
    (hr : (v.advance k).db.blocks.find rid = some r) : r.epoch = (v.advance k).currentEpoch := by
  have hv := h.invariant SharedVolume.Covered (SharedVolume.covered_new inodes)
    fun _ _ hv he => SharedVolume.covered_step hv he
  have hdone : v.advance k =
      { v with currentEpoch := nextEpoch old, rotations := v.rotations.eraseIdx k } := by
    rw [SharedVolume.advance, hk]
    rfl
  have hsettled := SharedVolume.settled_of_done hv.1 hk hdone
  exact hsettled.records rid r.epoch (by rw [epochAt, hr]; rfl)

theorem inStep_rotate {v : SharedVolume} (h : v.rotations = []) : SharedEvent.InStep v .rotate := by
  intro rot hrot
  rw [h] at hrot
  exact absurd hrot List.not_mem_nil

theorem call_config (v : SharedVolume) (k : ℕ) (env : Env) :
    (v.call k env).currentEpoch = v.currentEpoch ∧ (v.call k env).rotations = v.rotations := by
  unfold SharedVolume.call
  split <;> exact ⟨rfl, rfl⟩

theorem admits_calls (k n : ℕ) (env : Env) {v : SharedVolume} (he : v.currentEpoch = 0)
    (hr : v.rotations = []) :
    Runs.Admits SharedVolume.step (fun e v => e.InStep v) (List.replicate n (.call k env)) v := by
  induction n generalizing v with
  | zero => trivial
  | succ n ih =>
    obtain ⟨he', hr'⟩ := call_config v k env
    refine ⟨fun _ _ _ _ => ⟨he, fun rot h => ?_⟩, ih (he'.trans he) (hr'.trans hr)⟩
    rw [hr] at h
    exact absurd h List.not_mem_nil

end

section

open scoped Sample

/-- A file is created. -/
def created : System :=
  Runs.runAll Event.step
    ([.init, .create Sample.caller 1 (.utf8 "a") 0o644 0].map Sample.event)
    (.fresh Sample.mount none)

/-- A flush from its first call to its last. -/
def flushed (data : Bytes) (id : ℤ) (rid : Bytes) : List SharedEvent :=
  .flush 0 0 none 2 data :: List.replicate 8 (.call 0 (Sample.env (some id) rid))

/-- A rotation stops after it has listed the one block, and is tried again once there are
    two. -/
def retriedRun : List SharedEvent :=
  flushed [97, 98] 1 [1] ++ ([.rotate, .advance 0, .fail 0] ++ (flushed [97] 2 [2] ++
    [.rotate, .advance 0, .advance 0, .advance 0]))

def retried : SharedVolume := Runs.runAll SharedVolume.step retriedRun (.new created.inodes)

theorem rotate_retried : ∃ r, (retried.advance 0).db.blocks.find [2] = some r ∧ r.epoch = 1 ∧
    r.epoch = (retried.advance 0).currentEpoch := by
  have hrun : Runs SharedVolume.step (fun e v => e.InStep v) (.new created.inodes) retried := by
    refine .of_admits retriedRun .start (Runs.admits_append.2 ⟨?_, Runs.admits_append.2 ⟨?_,
      Runs.admits_append.2 ⟨?_, ?_⟩⟩⟩)
    · exact ⟨trivial, admits_calls 0 8 _ (by decide +kernel) (by decide +kernel)⟩
    · exact ⟨inStep_rotate (by decide +kernel), trivial, trivial, trivial⟩
    · exact ⟨trivial, admits_calls 0 8 _ (by decide +kernel) (by decide +kernel)⟩
    · exact ⟨inStep_rotate (by decide +kernel), trivial, trivial, trivial, trivial⟩
  have hk : retried.rotations[0]? = some (.updating 0 []) := by decide +kernel
  have hfind : (retried.advance 0).db.blocks.find [2] = some
      { rid := [2], contentHash := blake3 [97], messageId := 2, encryptedSize := 1, epoch := 1,
        refCount := 1, compressed := false } := by decide +kernel
  exact ⟨_, hfind, rfl, rotate_leaves_no_block_behind hrun hk hfind⟩

/-- A file is stored, the volume rotated, another file stored by the same mount. -/
def outdatedRun : List SharedEvent :=
  flushed [97, 98] 1 [1] ++ ([.rotate, .advance 0, .advance 0, .advance 0] ++
    (flushed [97] 2 [2] ++ [.rotate, .advance 0, .advance 0]))

def outdated : SharedVolume := Runs.runAll SharedVolume.step outdatedRun (.new created.inodes)

/-- The second rotation completes; the block stored after the first is at the mount's
    epoch. -/
theorem rotate_leaves_outdated_block :
    Runs SharedVolume.step (fun _ _ => True) (.new created.inodes) outdated ∧
    outdated.rotations[0]? = some (.updating 1 []) ∧
    (outdated.advance 0).currentEpoch = 2 ∧
    ∃ r, (outdated.advance 0).db.blocks.find [2] = some r ∧ r.epoch = 0 := by
  refine ⟨.of_admits _ .start (Runs.admits_of_forall _ (fun _ _ _ => trivial) _), by decide +kernel,
    by decide +kernel, { rid := [2], contentHash := blake3 [97], messageId := 2, encryptedSize := 1,
                         epoch := 0, refCount := 1, compressed := false }, by decide +kernel, rfl⟩

end

end TgCryptFs

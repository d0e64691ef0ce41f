import TgCryptFs.Core.Metadata
import TgCryptFs.Library.Table

set_option autoImplicit false

/-!
# The inode and block tables

A row of the inode table is the inode it encrypts: the parent and name-hash
columns are written from the same value in every statement. The unique index is
on the parent and the hash of the name.
-/
namespace TgCryptFs
open Library

structure BlockRecord where
  rid : Bytes
  contentHash : Bytes
  messageId : ℤ
  encryptedSize : ℤ
  epoch : ℕ
  refCount : ℤ
  compressed : Bool
deriving DecidableEq, Repr

variable [Primitives]

def nameHash (name : String) : Bytes := blake3 (utf8 name)

/-- The columns of the unique index `inodes_parent_name`. -/
def Inode.nameKey (i : Inode) : ℕ × Bytes := (i.parent, nameHash i.name)

abbrev Inodes := Table Inode.ino Inode.nameKey
abbrev Blocks := Table BlockRecord.rid BlockRecord.rid

structure Db where
  inodes : Inodes
  blocks : Blocks
deriving DecidableEq

def Db.empty : Db := ⟨.empty, .empty⟩

inductive SqlError where
  | failed | constraint
deriving DecidableEq, Repr

namespace InodeStore

def get (t : Inodes) (ino : ℕ) : Option Inode := t.find ino

def lookup (t : Inodes) (parent : ℕ) (name : String) : Option Inode :=
  t.findUniq (parent, nameHash name)

def listChildren (t : Inodes) (parent : ℕ) : List Inode := t.rows.filter (·.parent = parent)

def maxIno (t : Inodes) : ℕ := t.rows.foldr (fun r m => max r.ino m) 0

/-- `COALESCE(MAX(ino), 0) + 1`. Past the largest `i64` SQLite answers with a
    real number, which the row reader refuses. -/
def nextIno (t : Inodes) : Except SqlError ℕ :=
  if maxIno t + 1 < 2 ^ 63 then .ok (maxIno t + 1) else .error .failed

def insert (t : Inodes) (i : Inode) : Except SqlError Inodes :=
  match t.insert i with
  | some t' => .ok t'
  | none => .error .constraint

def update (t : Inodes) (i : Inode) : Except SqlError Inodes :=
  match t.update i with
  | some t' => .ok t'
  | none => .error .constraint

def delete (t : Inodes) (ino : ℕ) : Inodes := t.erase ino

end InodeStore

namespace BlockStore

/-- `LIMIT 1` on the content-hash index. -/
def findByContentHash (t : Blocks) (contentHash : Bytes) : Option BlockRecord :=
  t.rows.find? (·.contentHash = contentHash)

def insert (t : Blocks) (b : BlockRecord) : Except SqlError Blocks :=
  match t.insert b with
  | some t' => .ok t'
  | none => .error .constraint

def bump (r : BlockRecord) : BlockRecord := { r with refCount := r.refCount + 1 }

/-- `ref_count = ref_count + 1 WHERE rid = ?`. -/
def incrementRef (t : Blocks) (rid : Bytes) : Blocks :=
  match t.find rid with
  | none => t
  | some r => (t.update (bump r)).getD t

def drop (r : BlockRecord) : BlockRecord := { r with refCount := r.refCount - 1 }

/-- `ref_count = ref_count - 1 WHERE rid = ?`, then the count is read back: it says whether the
    block is garbage. No row is an error. -/
def decrementRef (t : Blocks) (rid : Bytes) : Except SqlError Bool × Blocks :=
  let t' := match t.find rid with
    | none => t
    | some r => (t.update (drop r)).getD t
  match t'.find rid with
  | none => (.error .failed, t')
  | some r => (.ok (decide (r.refCount ≤ 0)), t')

def delete (t : Blocks) (rid : Bytes) : Blocks := t.erase rid

/-- `WHERE epoch = ?`. -/
def listByEpoch (t : Blocks) (epoch : ℕ) : List BlockRecord := t.rows.filter (·.epoch = epoch)

/-- `SET epoch = ?, message_id = ?, encrypted_size = ? WHERE rid = ?`. -/
def updateBlockEpoch (t : Blocks) (rid : Bytes) (newEpoch : ℕ)
    (newMessageId newEncryptedSize : ℤ) : Blocks :=
  match t.find rid with
  | none => t
  | some r =>
    (t.update { r with epoch := newEpoch, messageId := newMessageId,
                       encryptedSize := newEncryptedSize }).getD t

end BlockStore

theorem le_maxIno {t : Inodes} {r : Inode} (h : r ∈ t.rows) : r.ino ≤ InodeStore.maxIno t := by
  unfold InodeStore.maxIno
  generalize t.rows = rows at h
  induction rows with
  | nil => cases h
  | cons x xs ih =>
    rw [List.foldr_cons]
    rcases List.mem_cons.1 h with rfl | h
    · exact Nat.le_max_left _ _
    · exact Nat.le_trans (ih h) (Nat.le_max_right _ _)

theorem nextIno_eq {t : Inodes} {n : ℕ} (h : InodeStore.nextIno t = .ok n) :
    n = InodeStore.maxIno t + 1 := by
  unfold InodeStore.nextIno at h
  split at h
  · cases h
    rfl
  · cases h

theorem find_nextIno {t : Inodes} {n : ℕ} (h : InodeStore.nextIno t = .ok n) :
    t.find n = none ∧ 0 < n := by
  unfold InodeStore.nextIno at h
  split at h
  · cases h
    refine ⟨Table.find_eq_none.2 fun r hr e => ?_, Nat.succ_pos _⟩
    have := le_maxIno hr
    omega
  · cases h

theorem lookup_eq_some {t : Inodes} {parent : ℕ} {name : String} {r : Inode}
    (h : InodeStore.lookup t parent name = some r) :
    t.find r.ino = some r ∧ r.parent = parent ∧ nameHash r.name = nameHash name := by
  obtain ⟨hr, hk⟩ := Table.findUniq_eq_some_iff_find.1 h
  exact ⟨hr, congrArg Prod.fst hk, congrArg Prod.snd hk⟩

theorem nameHash_injective (hb : Function.Injective blake3) : Function.Injective nameHash :=
  hb.comp utf8_injective

omit [Primitives] in
theorem findByContentHash_eq_some {t : Blocks} {hash : Bytes} {r : BlockRecord}
    (h : BlockStore.findByContentHash t hash = some r) : r ∈ t.rows ∧ r.contentHash = hash :=
  ⟨List.mem_of_find?_eq_some h, by simpa using List.find?_some h⟩

omit [Primitives] in
theorem find_rewritten (t : Blocks) (rid : Bytes) {f : BlockRecord → BlockRecord}
    (hf : ∀ r, (f r).rid = r.rid) :
    (match t.find rid with | none => t | some r => (t.update (f r)).getD t).find =
      Function.update t.find rid ((t.find rid).map f) := by
  cases h : t.find rid with
  | none => exact (Function.update_eq_self_iff.2 h.symm).symm
  | some r =>
    have hk : (f r).rid = rid := (hf r).trans (Table.key_of_find h)
    obtain ⟨t', ht'⟩ : ∃ t', t.update (f r) = some t' :=
      Table.update_eq_some fun x hx => (Table.findUniq_eq_some.1 hx).2
    dsimp only
    rw [ht', Option.getD_some, Table.find_update ht', hk, h]
    rfl

omit [Primitives] in
theorem find_incrementRef (t : Blocks) (rid : Bytes) :
    (BlockStore.incrementRef t rid).find =
      Function.update t.find rid ((t.find rid).map BlockStore.bump) :=
  find_rewritten t rid fun _ => rfl

omit [Primitives] in
theorem find_updateBlockEpoch (t : Blocks) (rid : Bytes) (newEpoch : ℕ)
    (newMessageId newEncryptedSize : ℤ) :
    (BlockStore.updateBlockEpoch t rid newEpoch newMessageId newEncryptedSize).find =
      Function.update t.find rid ((t.find rid).map fun r =>
        { r with epoch := newEpoch, messageId := newMessageId, encryptedSize := newEncryptedSize }) :=
  find_rewritten t rid fun _ => rfl

end TgCryptFs

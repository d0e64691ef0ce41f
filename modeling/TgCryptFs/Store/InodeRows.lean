import TgCryptFs.Library.RelatedTables
import TgCryptFs.Library.Words
import TgCryptFs.Store.Database
import TgCryptFs.Store.Records

set_option autoImplicit false

/-!
# The inode table as SQLite has it

A row keeps the parent and the hash of the name in columns of their own, next to the
encrypted inode. Numbers are cast to the signed integers of SQLite.
-/
namespace TgCryptFs
open Library

structure InodeRow where
  ino : ℤ
  parent : ℤ
  nameHash : Bytes
  data : Bytes
deriving DecidableEq, Repr

/-- The columns of the unique index `inodes_parent_name`. -/
def InodeRow.nameKey (r : InodeRow) : ℤ × Bytes := (r.parent, r.nameHash)

abbrev InodeRows := Table InodeRow.ino InodeRow.nameKey

def inodeAad (ino : ℤ) : String := "inode:" ++ ino.repr

variable [Primitives] [Postcard Inode]

namespace InodeRows

/-- The row that `insert` and `update` write. -/
def rowOf (metaKey : Bytes) (nonce : Aead.Nonce) (inode : Inode) : Option InodeRow :=
  (sealRecord metaKey nonce (inodeAad inode.ino) inode).map fun encrypted =>
    ⟨wrapI64 inode.ino, wrapI64 inode.parent, nameHash inode.name, encrypted⟩

def insert (metaKey : Bytes) (nonce : Aead.Nonce) (inode : Inode) (t : InodeRows) :
    Except RowError InodeRows :=
  match rowOf metaKey nonce inode with
  | none => .error .toSqlConversion
  | some row =>
    match Table.insert t row with
    | none => .error .constraint
    | some t' => .ok t'

def get (metaKey : Bytes) (ino : ℕ) (t : InodeRows) : Except RowError (Option Inode) :=
  openRow metaKey InodeRow.data (fun _ => inodeAad ino) (t.find (wrapI64 ino))

def listChildren (metaKey : Bytes) (parentIno : ℕ) (t : InodeRows) : Except RowError (List Inode) :=
  openRows metaKey InodeRow.data (fun row => inodeAad (wrapU64 row.ino))
    (t.rows.filter fun row => row.parent = wrapI64 parentIno)

/-- The number of the row stays signed in the associated data. -/
def lookup (metaKey : Bytes) (parentIno : ℕ) (name : String) (t : InodeRows) :
    Except RowError (Option Inode) :=
  openRow metaKey InodeRow.data (fun row => inodeAad row.ino)
    (t.findUniq (wrapI64 parentIno, nameHash name))

def update (metaKey : Bytes) (nonce : Aead.Nonce) (inode : Inode) (t : InodeRows) :
    Except RowError InodeRows :=
  match rowOf metaKey nonce inode with
  | none => .error .toSqlConversion
  | some row =>
    match Table.update t row with
    | none => .error .constraint
    | some t' => .ok t'

omit [Primitives] [Postcard Inode] in
def delete (ino : ℕ) (t : InodeRows) : InodeRows := Table.erase t (wrapI64 ino)

omit [Primitives] [Postcard Inode] in
/-- `COALESCE(MAX(ino), 0)`. -/
def maxIno (t : InodeRows) : ℤ := (t.rows.map InodeRow.ino).max?.getD 0

omit [Primitives] [Postcard Inode] in
/-- Past the largest `i64` SQLite answers with a real number, which the row reader refuses. -/
def nextIno (t : InodeRows) : Except RowError ℕ :=
  if maxIno t + 1 < 2 ^ 63 then .ok (wrapU64 (maxIno t + 1)) else .error .invalidColumnType

end InodeRows
end TgCryptFs

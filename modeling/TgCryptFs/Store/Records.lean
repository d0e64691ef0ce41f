import TgCryptFs.Core.Sealing

set_option autoImplicit false

/-!
# Encrypted records

A store keeps each record serialised and sealed under the meta key, with the identity
of its row as associated data.
-/
namespace TgCryptFs

/-- `postcard::to_allocvec` and `postcard::from_bytes` at a record type. -/
class Postcard (α : Type) where
  toAllocvec : α → Bytes
  fromBytes : Bytes → Option α
  fromBytes_toAllocvec : ∀ a, fromBytes (toAllocvec a) = some a

/-- What the methods of a store fail with, by the variant of `rusqlite::Error`. -/
inductive RowError where
  /-- The record was not serialised or not encrypted. -/
  | toSqlConversion
  /-- The row was not decrypted or not deserialised. -/
  | fromSqlConversion
  | invalidColumnType
  | constraint
  /-- The statement itself failed. -/
  | failed
deriving DecidableEq, Repr

variable [Primitives] {α Row : Type} [Postcard α]

def sealRecord (metaKey : Bytes) (nonce : Aead.Nonce) (aad : String) (record : α) : Option Bytes :=
  Aead.encrypt metaKey nonce (Postcard.toAllocvec record) (utf8 aad)

def openRecord (metaKey data : Bytes) (aad : String) : Except RowError α :=
  match Aead.decrypt metaKey data (utf8 aad) with
  | none => .error .fromSqlConversion
  | some decrypted =>
    match Postcard.fromBytes decrypted with
    | none => .error .fromSqlConversion
    | some record => .ok record

theorem openRecord_sealRecord {metaKey data : Bytes} {nonce : Aead.Nonce} {aad : String} {record : α}
    (h : sealRecord metaKey nonce aad record = some data) :
    openRecord metaKey data aad = .ok record := by
  rw [openRecord, Aead.decrypt_encrypt h]
  dsimp only
  rw [Postcard.fromBytes_toAllocvec]

theorem openRecord_of_decrypt_none {metaKey data : Bytes} {aad : String}
    (h : Aead.decrypt metaKey data (utf8 aad) = none) :
    (openRecord metaKey data aad : Except RowError α) = .error .fromSqlConversion := by
  rw [openRecord, h]

/-- The row that a query for one row found, if any. -/
def openRow (metaKey : Bytes) (data : Row → Bytes) (aad : Row → String) :
    Option Row → Except RowError (Option α)
  | none => .ok none
  | some row =>
    match openRecord metaKey (data row) (aad row) with
    | .error e => .error e
    | .ok record => .ok (some record)

/-- The rows of a query, up to the first that is not read. -/
def openRows (metaKey : Bytes) (data : Row → Bytes) (aad : Row → String) :
    List Row → Except RowError (List α)
  | [] => .ok []
  | row :: rows =>
    match openRecord metaKey (data row) (aad row) with
    | .error e => .error e
    | .ok record =>
      match openRows metaKey data aad rows with
      | .error e => .error e
      | .ok records => .ok (record :: records)

theorem openRow_some {metaKey : Bytes} {data : Row → Bytes} {aad : Row → String} {row : Row}
    {record : α} (h : openRecord metaKey (data row) (aad row) = .ok record) :
    openRow metaKey data aad (some row) = .ok (some record) := by
  rw [openRow, h]

theorem openRows_error {metaKey : Bytes} {data : Row → Bytes} {aad : Row → String}
    {rows : List Row} {row : Row} {e : RowError} (hrow : row ∈ rows)
    (h : (openRecord metaKey (data row) (aad row) : Except RowError α) = .error e) :
    ∃ e', (openRows metaKey data aad rows : Except RowError (List α)) = .error e' := by
  induction rows with
  | nil => cases hrow
  | cons first rows ih =>
    rw [openRows]
    rcases List.mem_cons.1 hrow with rfl | hrow
    · rw [h]
      exact ⟨e, rfl⟩
    · obtain ⟨e', he'⟩ := ih hrow
      rw [he']
      split
      · exact ⟨_, rfl⟩
      · exact ⟨e', rfl⟩

/-- Rows that are read one by one are read together, in their order. -/
theorem openRows_ok {metaKey : Bytes} {data : Row → Bytes} {aad : Row → String} {rows : List Row}
    {records : List α}
    (h : List.Forall₂ (fun row record => openRecord metaKey (data row) (aad row) = .ok record)
      rows records) :
    openRows metaKey data aad rows = .ok records := by
  induction h with
  | nil => rfl
  | cons hrow _ ih => rw [openRows, hrow, ih]

end TgCryptFs

set_option autoImplicit false

/-!
# One connection to a transactional store

Outside a transaction every statement is durable at once. Inside one, the
connection sees `db` while a crash or a rollback goes back to `saved`.
-/
namespace TgCryptFs.Library

inductive Connection (D : Type) where
  | autocommit (db : D)
  | inTransaction (saved db : D)
deriving DecidableEq

/-- How a COMMIT ends. `rolledBack` and `stillOpen` are its two failures. -/
inductive CommitOutcome where
  | done | rolledBack | stillOpen
deriving DecidableEq

namespace Connection

variable {D : Type}

/-- What the connection's own statements read. -/
def view : Connection D → D
  | .autocommit db => db
  | .inTransaction _ db => db

/-- What is left after a crash. -/
def durable : Connection D → D
  | .autocommit db => db
  | .inTransaction saved _ => saved

def IsAutocommit : Connection D → Prop
  | .autocommit _ => True
  | .inTransaction _ _ => False

instance : (c : Connection D) → Decidable c.IsAutocommit
  | .autocommit _ => .isTrue trivial
  | .inTransaction _ _ => .isFalse id

def write : Connection D → D → Connection D
  | .autocommit _, db => .autocommit db
  | .inTransaction saved _, db => .inTransaction saved db

/-- BEGIN: a transaction does not nest. -/
def begin : Connection D → Option (Connection D)
  | .autocommit db => some (.inTransaction db db)
  | .inTransaction _ _ => none

/-- COMMIT, with whether it succeeded. -/
def commit : Connection D → CommitOutcome → Bool × Connection D
  | .autocommit db, _ => (false, .autocommit db)
  | .inTransaction _ db, .done => (true, .autocommit db)
  | .inTransaction saved _, .rolledBack => (false, .autocommit saved)
  | .inTransaction saved db, .stillOpen => (false, .inTransaction saved db)

def rollback : Connection D → Connection D
  | .autocommit db => .autocommit db
  | .inTransaction saved _ => .autocommit saved

/-- Reopening after a crash. -/
def recover (c : Connection D) : Connection D := .autocommit c.durable

@[simp] theorem view_autocommit (db : D) : (autocommit db).view = db := rfl
@[simp] theorem view_inTransaction (saved db : D) : (inTransaction saved db).view = db := rfl
@[simp] theorem durable_autocommit (db : D) : (autocommit db).durable = db := rfl
@[simp] theorem durable_inTransaction (saved db : D) : (inTransaction saved db).durable = saved := rfl

@[simp] theorem view_write (c : Connection D) (db : D) : (c.write db).view = db := by
  cases c <;> rfl

@[simp] theorem isAutocommit_write (c : Connection D) (db : D) :
    (c.write db).IsAutocommit ↔ c.IsAutocommit := by
  cases c <;> rfl

/-- A statement is durable at once or not at all. -/
theorem durable_write (c : Connection D) (db : D) :
    (c.write db).durable = if c.IsAutocommit then db else c.durable := by
  cases c <;> simp [write, IsAutocommit]

theorem view_eq_durable {c : Connection D} (h : c.IsAutocommit) : c.view = c.durable := by
  cases c with
  | autocommit db => rfl
  | inTransaction saved db => exact h.elim

@[simp] theorem write_view (c : Connection D) : c.write c.view = c := by
  cases c <;> rfl

@[simp] theorem write_write (c : Connection D) (a b : D) : (c.write a).write b = c.write b := by
  cases c <;> rfl

end Connection
end TgCryptFs.Library

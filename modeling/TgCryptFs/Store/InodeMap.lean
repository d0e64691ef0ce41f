import Mathlib.Data.Set.Finite.Basic
import TgCryptFs.Library.Runs
import TgCryptFs.Store.InodeRows

set_option autoImplicit false

/-!
# What the inode store is for

A finite map from numbers to inodes in which no two inodes share a parent and a name, and
the answers that a caller may expect of it.
-/
namespace TgCryptFs
open Library

/-- The calls of the store. An inode that is written is encrypted with a fresh nonce. -/
inductive InodeCall where
  | insert (nonce : Aead.Nonce) (inode : Inode)
  | update (nonce : Aead.Nonce) (inode : Inode)
  | delete (ino : ℕ)
  | get (ino : ℕ)
  | lookup (parentIno : ℕ) (name : String)
  | listChildren (parentIno : ℕ)
  | nextIno

inductive InodeReply where
  | done
  | inode (found : Option Inode)
  | inodes (found : List Inode)
  | ino (n : ℕ)
  | failed (e : RowError)
deriving DecidableEq

/-- The inodes by their numbers. -/
structure InodeMap where
  entry : ℕ → Option Inode
  ino_eq : ∀ {n i}, entry n = some i → i.ino = n
  name_unique : ∀ {i j : Inode}, entry i.ino = some i → entry j.ino = some j →
    i.parent = j.parent → i.name = j.name → i.ino = j.ino
  finite : {n | entry n ≠ none}.Finite

namespace InodeMap

def empty : InodeMap where
  entry _ := none
  ino_eq h := by cases h
  name_unique h := by cases h
  finite := by simp

/-- The inode that has the name below the parent. -/
def Named (m : InodeMap) (parent : ℕ) (name : String) (i : Inode) : Prop :=
  m.entry i.ino = some i ∧ i.parent = parent ∧ i.name = name

/-- No other inode has the place of this one. -/
def Free (m : InodeMap) (i : Inode) : Prop := ∀ j, m.Named i.parent i.name j → j.ino = i.ino

theorem entry_update {m : InodeMap} {i j : Inode}
    (h : Function.update m.entry i.ino (some i) j.ino = some j) :
    j = i ∨ j.ino ≠ i.ino ∧ m.entry j.ino = some j := by
  by_cases hj : j.ino = i.ino
  · rw [hj, Function.update_self] at h
    exact .inl (Option.some.inj h).symm
  · rw [Function.update_of_ne hj] at h
    exact .inr ⟨hj, h⟩

def put (m : InodeMap) (i : Inode) (hfree : m.Free i) : InodeMap where
  entry := Function.update m.entry i.ino (some i)
  ino_eq {n j} h := by
    by_cases hn : n = i.ino
    · subst hn
      rw [Function.update_self] at h
      exact congrArg Inode.ino (Option.some.inj h).symm
    · rw [Function.update_of_ne hn] at h
      exact m.ino_eq h
  name_unique {j k} hj hk hparent hname := by
    rcases entry_update hj with rfl | ⟨-, hj'⟩ <;> rcases entry_update hk with rfl | ⟨-, hk'⟩
    · rfl
    · exact (hfree k ⟨hk', hparent.symm, hname.symm⟩).symm
    · exact hfree j ⟨hj', hparent, hname⟩
    · exact m.name_unique hj' hk' hparent hname
  finite := by
    refine (m.finite.insert i.ino).subset fun n hn => ?_
    by_cases h : n = i.ino
    · exact .inl h
    · exact .inr fun hnone => hn ((Function.update_of_ne h _ _).trans hnone)

def erase (m : InodeMap) (n : ℕ) : InodeMap where
  entry := Function.update m.entry n none
  ino_eq {a i} h := by
    by_cases ha : a = n
    · rw [ha, Function.update_self] at h
      cases h
    · rw [Function.update_of_ne ha] at h
      exact m.ino_eq h
  name_unique {i j} hi hj := by
    by_cases hin : i.ino = n
    · rw [hin, Function.update_self] at hi
      cases hi
    · by_cases hjn : j.ino = n
      · rw [hjn, Function.update_self] at hj
        cases hj
      · rw [Function.update_of_ne hin] at hi
        rw [Function.update_of_ne hjn] at hj
        exact m.name_unique hi hj
  finite := by
    refine m.finite.subset fun a ha h => ha ?_
    by_cases han : a = n
    · rw [han, Function.update_self]
    · rw [Function.update_of_ne han, h]

open Classical in
/-- An insertion asks for a new number, an update for one that is there, both for a place that
    no other inode has. -/
noncomputable def step (c : InodeCall) (m : InodeMap) : InodeMap :=
  match c with
  | .insert _ i => if h : m.entry i.ino = none ∧ m.Free i then m.put i h.2 else m
  | .update _ i => if h : m.entry i.ino ≠ none ∧ m.Free i then m.put i h.2 else m
  | .delete n => m.erase n
  | _ => m

/-- The map after the calls, from the empty one. -/
noncomputable def after (calls : List InodeCall) : InodeMap := Runs.runAll step calls empty

/-- What a call may be answered. -/
def Answers (m : InodeMap) : InodeCall → InodeReply → Prop
  | .insert _ i, r =>
    (r = .done ∨ r = .failed .constraint) ∧
      (r = .failed .constraint ↔ m.entry i.ino ≠ none ∨ ∃ j, m.Named i.parent i.name j)
  | .update _ i, r =>
    (r = .done ∨ r = .failed .constraint) ∧
      (r = .failed .constraint ↔
        m.entry i.ino ≠ none ∧ ∃ j, j.ino ≠ i.ino ∧ m.Named i.parent i.name j)
  | .delete _, r => r = .done
  | .get n, r => r = .inode (m.entry n)
  | .lookup parent name, r =>
    ∃ found, r = .inode found ∧ ∀ i, found = some i ↔ m.Named parent name i
  | .listChildren parent, r =>
    ∃ found, r = .inodes found ∧ found.Nodup ∧
      ∀ i, i ∈ found ↔ m.entry i.ino = some i ∧ i.parent = parent
  | .nextIno, r => (∃ e, r = .failed e) ∨ ∃ n, r = .ino n ∧ 0 < n ∧ m.entry n = none

theorem not_free_iff {m : InodeMap} {i : Inode} :
    ¬ m.Free i ↔ ∃ j, j.ino ≠ i.ino ∧ m.Named i.parent i.name j := by
  simp only [Free, not_forall, exists_prop]
  exact exists_congr fun j => and_comm

end InodeMap
end TgCryptFs

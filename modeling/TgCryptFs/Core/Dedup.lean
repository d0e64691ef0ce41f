import Std.Data.HashMap.Lemmas
import TgCryptFs.Core.Crypto
import TgCryptFs.Library.RefCounts

set_option autoImplicit false

/-!
# The dedup index

Content hashes with the block that holds the content and the number of its uses.
-/
namespace TgCryptFs
open Library

structure DedupEntry where
  rid : Bytes
  refCount : UInt32
deriving DecidableEq, Repr

structure DedupIndex where
  entries : Std.HashMap Bytes DedupEntry

inductive DedupResult where
  | duplicate (rid : Bytes)
  | unique (contentHash : Bytes)
deriving DecidableEq, Repr

namespace DedupIndex

def new : DedupIndex := ⟨∅⟩

def check [Primitives] (d : DedupIndex) (data : Bytes) : DedupResult :=
  match d.entries[blake3 data]? with
  | some entry => .duplicate entry.rid
  | none => .unique (blake3 data)

def insert (d : DedupIndex) (contentHash rid : Bytes) : DedupIndex :=
  match d.entries[contentHash]? with
  | some e => ⟨d.entries.insert contentHash { e with refCount := e.refCount + 1 }⟩
  | none => ⟨d.entries.insert contentHash ⟨rid, 1⟩⟩

/-- Answers whether the block is garbage. `saturating_sub` stops at zero. -/
def release (d : DedupIndex) (contentHash : Bytes) : Bool × DedupIndex :=
  match d.entries[contentHash]? with
  | none => (false, d)
  | some e =>
    let refCount := if e.refCount = 0 then 0 else e.refCount - 1
    if refCount = 0 then (true, ⟨d.entries.erase contentHash⟩)
    else (false, ⟨d.entries.insert contentHash { e with refCount }⟩)

/-- What the index says is held. -/
def refs (d : DedupIndex) : RefCounts Bytes Bytes :=
  fun hash => d.entries[hash]?.map fun e => (e.rid, e.refCount.toNat)

variable {d : DedupIndex} {hash rid : Bytes}

theorem refs_new : refs new = RefCounts.empty := by
  funext hash
  simp [refs, new, RefCounts.empty]

theorem check_eq [Primitives] (data : Bytes) :
    d.check data = (d.refs (blake3 data)).elim (.unique (blake3 data)) fun e => .duplicate e.1 := by
  unfold check refs
  cases d.entries[blake3 data]? <;> rfl

theorem toNat_add_one {n : UInt32} (h : n.toNat + 1 < 2 ^ 32) : (n + 1).toNat = n.toNat + 1 := by
  rw [UInt32.toNat_add]
  exact Nat.mod_eq_of_lt h

theorem toNat_sub_one {n : UInt32} (h : n ≠ 0) : (n - 1).toNat = n.toNat - 1 := by
  have hpos : 0 < n.toNat := Nat.pos_of_ne_zero fun he => h (UInt32.toNat_inj.1 he)
  exact UInt32.toNat_sub_of_le n 1 (UInt32.le_iff_toNat_le.2 hpos)

/-- What is held when the entry under one hash is replaced. -/
theorem refs_entry (e : DedupEntry) :
    refs ⟨d.entries.insert hash e⟩ =
      Function.update d.refs hash (some (e.rid, e.refCount.toNat)) := by
  funext j
  unfold refs
  rw [Function.update_apply, Std.HashMap.getElem?_insert]
  by_cases hj : j = hash
  · subst hj
    simp
  · rw [if_neg hj, if_neg (by simpa using fun he => hj he.symm)]

theorem refs_erase : refs ⟨d.entries.erase hash⟩ = Function.update d.refs hash none := by
  funext j
  unfold refs
  rw [Function.update_apply, Std.HashMap.getElem?_erase]
  by_cases hj : j = hash
  · subst hj
    simp
  · rw [if_neg hj, if_neg (by simpa using fun he => hj he.symm)]

theorem refs_insert (h : d.refs.count hash + 1 < 2 ^ 32) :
    (d.insert hash rid).refs = d.refs.acquire hash rid := by
  unfold insert
  cases he : d.entries[hash]? with
  | none =>
    have hrefs : d.refs hash = none := by rw [refs, he]; rfl
    rw [RefCounts.acquire_of_none hrefs]
    exact refs_entry ⟨rid, 1⟩
  | some e =>
    have hrefs : d.refs hash = some (e.rid, e.refCount.toNat) := by rw [refs, he]; rfl
    rw [RefCounts.count_of_eq hrefs] at h
    rw [RefCounts.acquire_of_eq hrefs, ← toNat_add_one h]
    exact refs_entry { e with refCount := e.refCount + 1 }

theorem release_eq (d : DedupIndex) (hash : Bytes) :
    (d.release hash).1 = d.refs.last hash ∧ (d.release hash).2.refs = d.refs.release hash := by
  unfold release
  cases he : d.entries[hash]? with
  | none =>
    have hrefs : d.refs hash = none := by rw [refs, he]; rfl
    rw [RefCounts.last_of_none hrefs, RefCounts.release_of_none hrefs]
    exact ⟨rfl, rfl⟩
  | some e =>
    have hrefs : d.refs hash = some (e.rid, e.refCount.toNat) := by rw [refs, he]; rfl
    rw [RefCounts.last_of_eq hrefs, RefCounts.release_of_eq hrefs]
    dsimp only
    by_cases hlast : e.refCount.toNat ≤ 1
    · have hzero : (if e.refCount = 0 then 0 else e.refCount - 1) = 0 := by
        split
        · rfl
        · rename_i hne
          rw [← UInt32.toNat_inj, toNat_sub_one hne]
          exact Nat.sub_eq_zero_of_le hlast
      rw [if_pos hzero, if_pos hlast]
      exact ⟨(decide_eq_true hlast).symm, refs_erase⟩
    · have hne : e.refCount ≠ 0 := by
        intro hz
        rw [hz] at hlast
        exact hlast (Nat.zero_le 1)
      have hmore : e.refCount - 1 ≠ 0 := by
        rw [← UInt32.toNat_inj.ne, toNat_sub_one hne]
        exact Nat.sub_ne_zero_of_lt (Nat.not_le.1 hlast)
      rw [if_neg hne, if_neg hmore, if_neg hlast, refs_entry, toNat_sub_one hne]
      exact ⟨(decide_eq_false hlast).symm, rfl⟩

end DedupIndex
end TgCryptFs

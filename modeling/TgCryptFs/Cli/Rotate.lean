import TgCryptFs.Fuse.Pointers

set_option autoImplicit false

/-!
# Key rotation

`key rotate` reads the epoch of the config, lists the blocks of that epoch, gives each row
the next epoch and its old message id, and writes the config. It has a connection of its
own: it sees what is committed, and its UPDATE fails while the mount holds a transaction.
The blocks themselves are not encrypted again.
-/
namespace TgCryptFs
open Library

/-- `current_epoch + 1` on a `u32`. -/
def nextEpoch (epoch : ℕ) : ℕ := (epoch + 1) % 2 ^ 32

theorem nextEpoch_ne (epoch : ℕ) : nextEpoch epoch ≠ epoch := by
  unfold nextEpoch
  omega

/-- A run of `rotate` between two of its accesses: it has read the config, or it has listed
    the blocks and has these still to update. -/
inductive Rotation where
  | opened (oldEpoch : ℕ)
  | updating (oldEpoch : ℕ) (blocks : List BlockRecord)
deriving DecidableEq

namespace Rotation

def oldEpoch : Rotation → ℕ
  | .opened e => e
  | .updating e _ => e

/-- The blocks still to update. -/
def listed : Rotation → List BlockRecord
  | .opened _ => []
  | .updating _ blocks => blocks

/-- `update_block_epoch` for one listed block. -/
def restamp (t : Blocks) (oldEpoch : ℕ) (b : BlockRecord) : Blocks :=
  BlockStore.updateBlockEpoch t b.rid (nextEpoch oldEpoch) b.messageId b.encryptedSize

/-- The next access, to a block table and the epoch of the config. -/
def next (t : Blocks) (currentEpoch : ℕ) : Rotation → Option Rotation × Blocks × ℕ
  | .opened old => (some (.updating old (BlockStore.listByEpoch t old)), t, currentEpoch)
  | .updating old (b :: bs) => (some (.updating old bs), restamp t old b, currentEpoch)
  | .updating old [] => (none, t, nextEpoch old)

/-- The next access is an UPDATE. -/
def writes : Rotation → Bool
  | .updating _ (_ :: _) => true
  | _ => false

/-- The `k`-th of several runs goes on as `r`, or is over. -/
def replaced (rotations : List Rotation) (k : ℕ) : Option Rotation → List Rotation
  | some r => rotations.set k r
  | none => rotations.eraseIdx k

end Rotation

variable [Primitives]

/-- A mounted volume with the epoch of its config file and the runs of `rotate` going on. -/
structure Volume where
  system : System
  currentEpoch : ℕ
  rotations : List Rotation

inductive VolumeEvent where
  | life (l : Life)
  /-- A run of `rotate` begins. -/
  | rotate
  /-- The `k`-th run takes its next step. -/
  | advance (k : ℕ)
  /-- The `k`-th run stops with an error. -/
  | fail (k : ℕ)

namespace Volume

def stop (v : Volume) (k : ℕ) : Volume := { v with rotations := v.rotations.eraseIdx k }

def advance (v : Volume) (k : ℕ) : Volume :=
  match v.rotations[k]? with
  | none => v
  | some rot =>
    let (rot', t, epoch) := rot.next v.system.conn.durable.blocks v.currentEpoch
    if rot.writes then
      if v.system.conn.IsAutocommit then
        ⟨v.system.writeBlocks t, epoch, Rotation.replaced v.rotations k rot'⟩
      else v.stop k
    else ⟨v.system, epoch, Rotation.replaced v.rotations k rot'⟩

def step : VolumeEvent → Volume → Volume
  | .life l, v => { v with system := l.step v.system }
  | .rotate, v => { v with rotations := v.rotations ++ [.opened v.currentEpoch] }
  | .advance k, v => v.advance k
  | .fail k, v => v.stop k

def new (m : Mount) (cache : Option BlockCache) : Volume := ⟨.fresh m cache, 0, []⟩

end Volume

/-! ## What a step of `rotate` does -/

omit [Primitives] in
theorem find_restamp {t : Blocks} {old : ℕ} {b r : BlockRecord} (hr : t.find b.rid = some r)
    (hid : r.messageId = b.messageId) (hsize : r.encryptedSize = b.encryptedSize) :
    (Rotation.restamp t old b).find =
      Function.update t.find b.rid (some { r with epoch := nextEpoch old }) := by
  rw [Rotation.restamp, find_updateBlockEpoch, hr, ← hid, ← hsize]
  rfl

/-- The ways the `k`-th run changes a volume: no block is touched, or its next listed block
    is given the next epoch. -/
inductive Advanced (v : Volume) (k : ℕ) : Volume → Prop where
  | spared {v' : Volume} (hs : v'.system = v.system)
      (hr : ∀ r ∈ v'.rotations, r ∈ v.rotations ∨
        ∃ old, r = .updating old (BlockStore.listByEpoch v.system.conn.durable.blocks old)) :
      Advanced v k v'
  | restamped {v' : Volume} {old : ℕ} {b : BlockRecord} {bs : List BlockRecord}
      (hk : v.rotations[k]? = some (.updating old (b :: bs))) (hauto : v.system.conn.IsAutocommit)
      (hs : v'.system = v.system.writeBlocks (Rotation.restamp v.system.blocks old b))
      (hr : ∀ r ∈ v'.rotations, r ∈ v.rotations ∨ r = .updating old bs) : Advanced v k v'

theorem advanced_stop (v : Volume) (k : ℕ) : Advanced v k (v.stop k) :=
  .spared rfl fun _ hr => .inl (List.mem_of_mem_eraseIdx hr)

theorem advanced_advance (v : Volume) (k : ℕ) : Advanced v k (v.advance k) := by
  unfold Volume.advance
  cases hk : v.rotations[k]? with
  | none => exact .spared rfl fun _ hr => .inl hr
  | some rot =>
    cases rot with
    | opened old =>
      refine .spared rfl fun r hr => ?_
      rcases List.mem_or_eq_of_mem_set hr with h | h
      · exact .inl h
      · exact .inr ⟨old, h⟩
    | updating old blocks =>
      cases blocks with
      | nil => exact .spared rfl fun r hr => .inl (List.mem_of_mem_eraseIdx hr)
      | cons b bs =>
        by_cases hauto : v.system.conn.IsAutocommit
        · have hview : v.system.conn.durable.blocks = v.system.blocks := by
            rw [System.blocks, Connection.view_eq_durable hauto]
          simp only [Rotation.writes, Rotation.next, if_true, if_pos hauto, hview]
          exact .restamped hk hauto rfl fun r hr => List.mem_or_eq_of_mem_set hr
        · simp only [Rotation.writes, if_true, if_neg hauto]
          exact advanced_stop v k

/-! ## The listed blocks -/

/-- What a rotation has listed is what the rows say: their message and its size never
    change. A mount in a transaction locks `rotate` out. -/
def Volume.ListsTrue (v : Volume) : Prop :=
  v.system.conn.IsAutocommit → ∀ rot ∈ v.rotations, ∀ b ∈ rot.listed,
    ∃ r, v.system.blocks.find b.rid = some r ∧ r.messageId = b.messageId ∧
      r.encryptedSize = b.encryptedSize

theorem listsTrue_of_recounted {v v' : Volume} (hv : v.ListsTrue)
    (hauto : v'.system.conn.IsAutocommit → v.system.conn.IsAutocommit)
    (hb : Recounted v.system.blocks v'.system.blocks) (hr : v'.rotations = v.rotations) :
    v'.ListsTrue := by
  intro ha rot hrot b hb'
  rw [hr] at hrot
  obtain ⟨r, hfind, hid, hsize⟩ := hv (hauto ha) rot hrot b hb'
  obtain ⟨n, hn⟩ := hb _ _ hfind
  exact ⟨_, hn, hid, hsize⟩

theorem listsTrue_advanced {v v' : Volume} {k : ℕ} (hv : v.ListsTrue) (h : Advanced v k v') :
    v'.ListsTrue := by
  cases h with
  | spared hs hr =>
    intro ha rot hrot b hb
    rw [hs] at ha ⊢
    rcases hr rot hrot with h | ⟨old, rfl⟩
    · exact hv ha rot h b hb
    · -- the mount is in no transaction, so what is committed is what it sees
      rw [Rotation.listed, ← Connection.view_eq_durable ha] at hb
      exact ⟨b, Table.find_of_mem (List.mem_filter.1 hb).1, rfl, rfl⟩
  | @restamped old b₀ bs hk hauto hs hr =>
    intro ha rot hrot b hb
    have hmem : .updating old (b₀ :: bs) ∈ v.rotations := List.mem_of_getElem? hk
    obtain ⟨r₀, hr₀, hid₀, hsize₀⟩ := hv hauto _ hmem b₀ List.mem_cons_self
    have hold : ∃ r, v.system.blocks.find b.rid = some r ∧ r.messageId = b.messageId ∧
        r.encryptedSize = b.encryptedSize := by
      rcases hr rot hrot with h | rfl
      · exact hv hauto rot h b hb
      · exact hv hauto _ hmem b (List.mem_cons_of_mem _ hb)
    obtain ⟨r, hr, hid, hsize⟩ := hold
    rw [hs, System.blocks_writeBlocks, find_restamp hr₀ hid₀ hsize₀, Function.update_apply]
    split
    · rename_i e
      rw [e] at hr
      obtain rfl : r₀ = r := Option.some.inj (hr₀.symm.trans hr)
      exact ⟨_, rfl, hid, hsize⟩
    · exact ⟨r, hr, hid, hsize⟩

theorem listsTrue_step (e : VolumeEvent) {v : Volume} (hv : v.ListsTrue) :
    (Volume.step e v).ListsTrue := by
  cases e with
  | life l =>
    cases l with
    | serve e =>
      exact listsTrue_of_recounted hv (fun h => by_contra fun hn => leaked_exec e.env e.req hn h)
        (recounted_exec e.env e.req v.system) rfl
    | remount m cache => exact listsTrue_of_recounted hv id (.refl _) rfl
  | rotate =>
    intro ha rot hrot b hb
    rcases List.mem_append.1 hrot with h | h
    · exact hv ha rot h b hb
    · rw [List.mem_singleton.1 h] at hb
      exact absurd hb List.not_mem_nil
  | advance k => exact listsTrue_advanced hv (advanced_advance v k)
  | fail k => exact listsTrue_advanced hv (advanced_stop v k)

theorem listsTrue_new (m : Mount) (cache : Option BlockCache) : (Volume.new m cache).ListsTrue :=
  fun _ _ h => absurd h List.not_mem_nil

end TgCryptFs

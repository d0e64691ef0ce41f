import Mathlib.Data.Option.Basic
import TgCryptFs.Core.Sample
import TgCryptFs.Store.MetaStores

set_option autoImplicit false

/-!
# A concrete record format

For closed statements: a record is the list of its fields, each a byte string, and each byte
string is written with a 1 before every byte and a 0 at its end. Reading is the inverse.
-/
namespace TgCryptFs.Sample

def frame : Bytes → Bytes
  | [] => [0]
  | b :: bs => 1 :: b :: frame bs

def frames (fields : List Bytes) : Bytes := fields.flatMap frame

theorem frame_append_inj {a b x y : Bytes} (h : frame a ++ x = frame b ++ y) : a = b ∧ x = y := by
  induction a generalizing b with
  | nil =>
    cases b with
    | nil => exact ⟨rfl, by simpa [frame] using h⟩
    | cons c b => simp [frame] at h
  | cons c a ih =>
    cases b with
    | nil => simp [frame] at h
    | cons d b =>
      simp only [frame, List.cons_append, List.cons.injEq, true_and] at h
      obtain ⟨rfl, hrest⟩ := h
      obtain ⟨rfl, rfl⟩ := ih hrest
      exact ⟨rfl, rfl⟩

theorem frame_ne_nil (a : Bytes) : frame a ≠ [] := by
  cases a <;> simp [frame]

theorem frames_injective : Function.Injective frames := by
  intro l
  induction l with
  | nil =>
    intro m h
    cases m with
    | nil => rfl
    | cons a m => exact absurd (List.append_eq_nil_iff.1 h.symm).1 (frame_ne_nil a)
  | cons a l ih =>
    intro m h
    cases m with
    | nil => exact absurd (List.append_eq_nil_iff.1 h).1 (frame_ne_nil a)
    | cons b m =>
      obtain ⟨rfl, hrest⟩ := frame_append_inj h
      rw [ih hrest]

@[simp] theorem length_frame (a : Bytes) : (frame a).length = 2 * a.length + 1 := by
  induction a with
  | nil => rfl
  | cons b a ih =>
    simp only [frame, List.length_cons, ih]
    omega

/-- Records as lists of fields. -/
class Fields (α : Type) where
  fields : α → List Bytes
  fields_injective : Function.Injective fields

theorem toAllocvec_injective {α : Type} [Fields α] :
    Function.Injective fun a : α => frames (Fields.fields a) :=
  frames_injective.comp Fields.fields_injective

open Classical in
noncomputable scoped instance postcard {α : Type} [Fields α] : Postcard α where
  toAllocvec a := frames (Fields.fields a)
  fromBytes b := if h : ∃ a : α, frames (Fields.fields a) = b then some h.choose else none
  fromBytes_toAllocvec a := by
    have h : ∃ a' : α, frames (Fields.fields a') = frames (Fields.fields a) := ⟨a, rfl⟩
    rw [dif_pos h]
    exact congrArg some (toAllocvec_injective h.choose_spec)

theorem sealRecord_some {α : Type} [Fields α] {record : α}
    (h : (frames (Fields.fields record)).length < 256 ^ 16) (metaKey : Bytes) (nonce : Aead.Nonce)
    (aad : String) : ∃ data, sealRecord metaKey nonce aad record = some data := by
  have hseal : sealBox (frames (Fields.fields record)) = some _ := if_pos h
  exact ⟨_, congrArg (Option.map _) hseal⟩

def natBytes (n : ℕ) : Bytes := utf8 n.repr

theorem natBytes_injective : Function.Injective natBytes := utf8_injective.comp repr_injective

def intBytes (z : ℤ) : Bytes := (if z < 0 then 1 else 0) :: natBytes z.natAbs

theorem intBytes_injective : Function.Injective intBytes := by
  intro y z h
  obtain ⟨hsign, habs⟩ := List.cons.inj h
  have habs' := natBytes_injective habs
  by_cases hy : y < 0 <;> by_cases hz : z < 0 <;> simp [hy, hz] at hsign <;> omega

def boolByte (b : Bool) : Bytes := [if b then 1 else 0]

theorem boolByte_injective : Function.Injective boolByte := by
  intro a b h
  cases a <;> cases b <;> simp_all [boolByte]

theorem length_boolByte (b : Bool) : (boolByte b).length = 1 := rfl

/-- A field that may be absent. -/
def optionBytes {α : Type} (f : α → Bytes) : Option α → Bytes
  | none => []
  | some a => 1 :: f a

theorem optionBytes_injective {α : Type} {f : α → Bytes} (hf : Function.Injective f) :
    Function.Injective (optionBytes f) := by
  intro a b h
  cases a <;> cases b <;> simp_all [optionBytes]
  exact hf h

def wordBytes (n : UInt32) : Bytes := Srb1.leBytes32 n.toNat

theorem wordBytes_injective : Function.Injective wordBytes := by
  intro m n h
  simp only [wordBytes, Srb1.leBytes32, List.cons.injEq, ← UInt8.toNat_inj, UInt8.toNat_ofNat',
    and_true] at h
  have hm := m.toNat_lt
  have hn := n.toNat_lt
  exact UInt32.toNat_inj.1 (by omega)

theorem length_wordBytes (n : UInt32) : (wordBytes n).length = 4 := rfl

def accessByte : AccessLevel → Bytes
  | .readOnly => [0]
  | .readWrite => [1]
  | .admin => [2]

theorem accessByte_injective : Function.Injective accessByte := by
  intro a b h
  cases a <;> cases b <;> simp_all [accessByte]

scoped instance : Fields ShareRecord where
  fields s := [utf8 s.userId, intBytes s.telegramUserId, utf8 s.displayName,
    accessByte s.accessLevel, s.wrappedKey, intBytes s.grantedAt, boolByte s.active]
  fields_injective a b h := by
    cases a; cases b
    simpa [utf8_injective.eq_iff, intBytes_injective.eq_iff, accessByte_injective.eq_iff,
      boolByte_injective.eq_iff] using h

scoped instance : Fields Invite where
  fields i := [utf8 i.inviteId, utf8 i.volumeId, utf8 i.createdBy, accessByte i.accessLevel,
    intBytes i.createdAt, intBytes i.expiresAt, wordBytes i.maxUses, wordBytes i.useCount,
    boolByte i.revoked, optionBytes id i.wrappedKey]
  fields_injective a b h := by
    cases a; cases b
    simpa [utf8_injective.eq_iff, intBytes_injective.eq_iff, accessByte_injective.eq_iff,
      boolByte_injective.eq_iff, wordBytes_injective.eq_iff,
      (optionBytes_injective Function.injective_id).eq_iff] using h

/-- Records inside a record. -/
def nested {α : Type} (f : α → Bytes) (l : List α) : Bytes := frames (l.map f)

theorem nested_injective {α : Type} {f : α → Bytes} (hf : Function.Injective f) :
    Function.Injective (nested f) :=
  frames_injective.comp (List.map_injective_iff.2 hf)

def pointerBytes (p : BlockPointer) : Bytes :=
  frames [p.rid, intBytes p.messageId, natBytes p.fileOffset, natBytes p.length,
    natBytes p.blockDataOffset, natBytes p.encryptedSize, boolByte p.compressed, p.contentHash,
    natBytes p.epoch]

theorem pointerBytes_injective : Function.Injective pointerBytes := by
  intro p q h
  have hfields := frames_injective h
  cases p; cases q
  simpa [natBytes_injective.eq_iff, intBytes_injective.eq_iff, boolByte_injective.eq_iff]
    using hfields

def manifestBytes (m : FileManifest) : Bytes :=
  frames [natBytes m.inode, natBytes m.version, natBytes m.totalSize, m.fileHash,
    nested pointerBytes m.blocks]

theorem manifestBytes_injective : Function.Injective manifestBytes := by
  intro m n h
  have hfields := frames_injective h
  cases m; cases n
  simpa [natBytes_injective.eq_iff, (nested_injective pointerBytes_injective).eq_iff] using hfields

def fileTypeByte : FileType → Bytes
  | .regularFile => [0]
  | .directory => [1]
  | .symlink => [2]

theorem fileTypeByte_injective : Function.Injective fileTypeByte := by
  intro a b h
  cases a <;> cases b <;> simp_all [fileTypeByte]

def timestampBytes (t : Timestamps) : Bytes :=
  nested intBytes [t.atimeNs, t.mtimeNs, t.ctimeNs, t.crtimeNs]

theorem timestampBytes_injective : Function.Injective timestampBytes := by
  intro a b h
  have htimes := nested_injective intBytes_injective h
  cases a; cases b
  simpa using htimes

scoped instance : Fields Inode where
  fields i := [natBytes i.ino, natBytes i.parent, utf8 i.name, fileTypeByte i.fileType,
    natBytes i.mode, natBytes i.uid, natBytes i.gid, natBytes i.size, natBytes i.nlink,
    timestampBytes i.timestamps, optionBytes manifestBytes i.manifest,
    optionBytes utf8 i.symlinkTarget, nested natBytes i.children]
  fields_injective a b h := by
    cases a; cases b
    simpa [utf8_injective.eq_iff, natBytes_injective.eq_iff, fileTypeByte_injective.eq_iff,
      timestampBytes_injective.eq_iff, (optionBytes_injective manifestBytes_injective).eq_iff,
      (optionBytes_injective utf8_injective).eq_iff, (nested_injective natBytes_injective).eq_iff]
      using h

def behaviorByte : DeleteBehavior → Bytes
  | .immediate => [0]
  | .soft => [1]
  | .reject => [2]

theorem behaviorByte_injective : Function.Injective behaviorByte := by
  intro a b h
  cases a <;> cases b <;> simp_all [behaviorByte]

def expiryByte : ExpiryBehavior → Bytes
  | .purge => [0]
  | .hold => [1]

theorem expiryByte_injective : Function.Injective expiryByte := by
  intro a b h
  cases a <;> cases b <;> simp_all [expiryByte]

def ruleBytes (r : PolicyRule) : Bytes :=
  frames [utf8 r.pathPattern, behaviorByte r.onDelete, boolByte r.recordChanges,
    boolByte r.mutable, optionBytes natBytes r.retentionSecs, expiryByte r.onExpiry]

theorem ruleBytes_injective : Function.Injective ruleBytes := by
  intro a b h
  have hfields := frames_injective h
  cases a; cases b
  simpa [utf8_injective.eq_iff, boolByte_injective.eq_iff, behaviorByte_injective.eq_iff,
    expiryByte_injective.eq_iff, (optionBytes_injective natBytes_injective).eq_iff] using hfields

scoped instance : Fields MutabilityPolicy where
  fields p := [wordBytes p.policyId, utf8 p.name, nested ruleBytes p.rules]
  fields_injective a b h := by
    cases a; cases b
    simpa [utf8_injective.eq_iff, wordBytes_injective.eq_iff,
      (nested_injective ruleBytes_injective).eq_iff] using h

def configBytes (c : VolumeConfig) : Bytes :=
  frames [utf8 c.displayName, c.salt, natBytes c.kdfParams.memoryKib, natBytes c.kdfParams.iterations,
    natBytes c.kdfParams.parallelism, natBytes c.kdfParams.outputLen, optionBytes utf8 c.passwordVerificationHash]

theorem configBytes_injective : Function.Injective configBytes := by
  intro a b h
  have hfields := frames_injective h
  obtain ⟨_, _, ⟨_, _, _⟩, _⟩ := a
  obtain ⟨_, _, ⟨_, _, _⟩, _⟩ := b
  simpa [utf8_injective.eq_iff, natBytes_injective.eq_iff,
    (optionBytes_injective utf8_injective).eq_iff, and_assoc] using hfields

scoped instance : Fields StoredConfig where
  fields c := [utf8 c.volumeId, configBytes c.config]
  fields_injective a b h := by
    cases a; cases b
    simpa [utf8_injective.eq_iff, configBytes_injective.eq_iff] using h

scoped instance : Fields UserRecord where
  fields u := [utf8 u.userId, intBytes u.telegramUserId, utf8 u.displayName, utf8 u.accessLevel,
    u.mlkemPublicKey, u.wrappedKeys, intBytes u.grantedAt, optionBytes intBytes u.lastValidated,
    boolByte u.active]
  fields_injective a b h := by
    cases a; cases b
    simpa [utf8_injective.eq_iff, intBytes_injective.eq_iff, boolByte_injective.eq_iff,
      (optionBytes_injective intBytes_injective).eq_iff] using h

scoped instance : Fields DeadmanRecord where
  fields d := [utf8 d.volumeId, boolByte d.armed, d.configData, optionBytes intBytes d.lastCheck]
  fields_injective a b h := by
    cases a; cases b
    simpa [utf8_injective.eq_iff, boolByte_injective.eq_iff,
      (optionBytes_injective intBytes_injective).eq_iff] using h

def operationBytes : SnapshotOperation → Bytes
  | .create => [0]
  | .write => [1]
  | .delete => [2]
  | .rename oldName newName => 3 :: frames [utf8 oldName, utf8 newName]
  | .mkdir => [4]
  | .rmdir => [5]
  | .link => [6]
  | .symlink => [7]
  | .setAttr => [8]
  | .restore fromSnapshot => 9 :: natBytes fromSnapshot

theorem operationBytes_injective : Function.Injective operationBytes := by
  intro a b h
  cases a <;> cases b <;>
    simp_all [operationBytes, frames_injective.eq_iff, utf8_injective.eq_iff,
      natBytes_injective.eq_iff]

def stateBytes (s : SnapshotState) : Bytes :=
  frames [frames (Fields.fields s.inodeSnapshot), optionBytes manifestBytes s.manifest]

theorem stateBytes_injective : Function.Injective stateBytes := by
  intro a b h
  have hfields := frames_injective h
  cases a; cases b
  simpa [frames_injective.eq_iff, Fields.fields_injective.eq_iff,
    (optionBytes_injective manifestBytes_injective).eq_iff] using hfields

scoped instance : Fields SnapshotEntry where
  fields e := [natBytes e.snapshotId, intBytes e.timestamp, operationBytes e.operation,
    natBytes e.inode, optionBytes stateBytes e.before, optionBytes stateBytes e.after,
    optionBytes utf8 e.userId]
  fields_injective a b h := by
    cases a; cases b
    simpa [natBytes_injective.eq_iff, intBytes_injective.eq_iff, operationBytes_injective.eq_iff,
      (optionBytes_injective stateBytes_injective).eq_iff,
      (optionBytes_injective utf8_injective).eq_iff] using h

def share : ShareRecord := ⟨"u", 0, "U", .readOnly, [], 0, true⟩

theorem seals_share : ∃ data, sealRecord [] zeroNonce (shareAad "u") share = some data := by
  have hlength : (frames (Fields.fields share)).length < 256 ^ 16 := by decide +kernel
  exact sealRecord_some hlength [] zeroNonce _

end TgCryptFs.Sample

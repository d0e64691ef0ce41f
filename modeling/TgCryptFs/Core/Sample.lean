import Mathlib.Data.List.Nodup
import TgCryptFs.Core.Crypto

set_option autoImplicit false

/-!
# Concrete primitives

For closed statements about the model: BLAKE3 with its digests of the few short
strings they use, continued injectively to all byte strings, and a stand-in for the
cipher with its laws, which hides nothing and only puts the length where the real one
puts its tag.
-/
namespace TgCryptFs.Sample

/-- A digest is 32 bytes, most significant first. -/
def digestBytes (n : ℕ) : Bytes := (List.range 32).map fun i => UInt8.ofNat (n >>> (8 * (31 - i)))

def digests : List (Bytes × ℕ) :=
  [([],
     0xaf1349b9f5f9a1a6a0404dea36dcc9499bcb25c9adc112b7cc9a93cae41f3262),
   ([97],
     0x17762fddd969a453925d65717ac3eea21320b66b54342fde15128d6caf21215f),
   ([98],
     0x10e5cf3d3c8a4f9f3468c8cc58eea84892a22fdadbc1acb22410190044c1d553),
   ([97, 98],
     0x2dc99999a6aaef3f20349d2ed4057a2b54419545dabb809e6381de1bad8337e2),
   ([98, 97],
     0xb51f1e48254663a1a2b7bf5bbbc86c6fc69118a92b14a161f54388963b33243e),
   ([0, 98],
     0x3acbabc85b6b9ceff22334abe02e3752f93875f0c2fcdc7ef48ded6117df4170)]

def hash (b : Bytes) : Bytes :=
  match digests.lookup b with
  | some n => digestBytes n
  | none => List.replicate 33 0 ++ b

/-- The `k` low bytes of `n`. -/
def lowBytes : ℕ → ℕ → Bytes
  | 0, _ => []
  | k + 1, n => UInt8.ofNat n :: lowBytes k (n / 256)

@[simp] theorem length_lowBytes (k n : ℕ) : (lowBytes k n).length = k := by
  induction k generalizing n with
  | zero => rfl
  | succ k ih => rw [lowBytes, List.length_cons, ih]

theorem lowBytes_inj {k a b : ℕ} (ha : a < 256 ^ k) (hb : b < 256 ^ k)
    (h : lowBytes k a = lowBytes k b) : a = b := by
  induction k generalizing a b with
  | zero => omega
  | succ k ih =>
    simp only [lowBytes, List.cons.injEq] at h
    have hlow : a % 256 = b % 256 := by simpa using congrArg UInt8.toNat h.1
    have hhigh : a / 256 = b / 256 := ih (by omega) (by omega) h.2
    omega

def sealBox (msg : Bytes) : Option Bytes :=
  if msg.length < 256 ^ 16 then some (lowBytes 16 msg.length ++ msg) else none

def openBox (ct : Bytes) : Option Bytes :=
  if 16 ≤ ct.length ∧ ct.take 16 = lowBytes 16 (ct.length - 16) then some (ct.drop 16) else none

theorem sealBox_eq_some {msg ct : Bytes} (h : sealBox msg = some ct) :
    msg.length < 256 ^ 16 ∧ ct = lowBytes 16 msg.length ++ msg := by
  unfold sealBox at h
  split at h
  · rename_i hlt
    exact ⟨hlt, (Option.some.inj h).symm⟩
  · cases h

theorem openBox_sealBox {msg ct : Bytes} (h : sealBox msg = some ct) : openBox ct = some msg := by
  obtain ⟨-, rfl⟩ := sealBox_eq_some h
  rw [openBox, if_pos]
  · rw [List.drop_left' (length_lowBytes 16 _)]
  · rw [List.take_left' (length_lowBytes 16 _), List.length_append, length_lowBytes]
    exact ⟨by omega, by rw [Nat.add_sub_cancel_left]⟩

theorem openBox_take {msg ct : Bytes} (h : sealBox msg = some ct) {n : ℕ} (hn : n < ct.length) :
    openBox (ct.take n) = none := by
  obtain ⟨hlt, rfl⟩ := sealBox_eq_some h
  rw [List.length_append, length_lowBytes] at hn
  rw [openBox, if_neg]
  rintro ⟨h16, htag⟩
  rw [List.length_take, List.length_append, length_lowBytes] at h16 htag
  rw [List.take_take, Nat.min_eq_left (by omega), List.take_left' (length_lowBytes 16 _)] at htag
  have := lowBytes_inj hlt (by omega) htag
  omega

scoped instance primitives : Primitives where
  blake3 := hash
  sealBox _ _ _ msg := sealBox msg
  openBox _ _ _ ct := openBox ct
  length_sealBox _ _ _ msg ct h := by
    rw [(sealBox_eq_some h).2, List.length_append, length_lowBytes, Nat.add_comm]
  openBox_sealBox _ _ _ _ _ h := openBox_sealBox h
  openBox_cut _ _ _ _ _ h _ hn := openBox_take h hn

def zeroNonce : Aead.Nonce := ⟨List.replicate 24 0, List.length_replicate⟩

theorem length_hash_of_lookup {b : Bytes} {n : ℕ} (h : digests.lookup b = some n) :
    (hash b).length = 32 := by
  simp [hash, h, digestBytes]

theorem length_hash_of_none {b : Bytes} (h : digests.lookup b = none) :
    (hash b).length = 33 + b.length := by
  simp only [hash, h, List.length_append, List.length_replicate]

theorem mem_of_lookup {b : Bytes} {n : ℕ} (h : digests.lookup b = some n) : (b, n) ∈ digests := by
  obtain ⟨l₁, l₂, e, -⟩ := List.lookup_eq_some_iff.1 h
  rw [e]
  simp

theorem digestBytes_injOn :
    ∀ x ∈ digests, ∀ y ∈ digests, digestBytes x.2 = digestBytes y.2 → x.1 = y.1 := by
  decide +kernel

theorem hash_injective : Function.Injective (blake3 : Bytes → Bytes) := by
  intro a b h
  change hash a = hash b at h
  cases ha : digests.lookup a with
  | some m =>
    cases hb : digests.lookup b with
    | some n =>
      simp only [hash, ha, hb] at h
      exact digestBytes_injOn _ (mem_of_lookup ha) _ (mem_of_lookup hb) h
    | none =>
      have h1 := length_hash_of_lookup ha
      have h2 := length_hash_of_none hb
      rw [h] at h1
      omega
  | none =>
    cases hb : digests.lookup b with
    | some n =>
      have h1 := length_hash_of_none ha
      have h2 := length_hash_of_lookup hb
      rw [h] at h1
      omega
    | none =>
      simp only [hash, ha, hb] at h
      exact List.append_cancel_left h


/-! A second stand-in, for short messages and associated data: the tag holds both, so that
    nothing opens under other associated data. -/

namespace Binding

/-- What the tag takes. -/
def Fits (length : ℕ) (aad : Bytes) : Prop := length < 256 ∧ aad.length ≤ 14

instance (length : ℕ) (aad : Bytes) : Decidable (Fits length aad) :=
  inferInstanceAs (Decidable (_ ∧ _))

def tag (length : ℕ) (aad : Bytes) : Bytes :=
  UInt8.ofNat length :: UInt8.ofNat aad.length :: (aad ++ List.replicate (14 - aad.length) 0)

theorem length_tag {length : ℕ} {aad : Bytes} (h : Fits length aad) :
    (tag length aad).length = 16 := by
  have := h.2
  simp only [tag, List.length_cons, List.length_append, List.length_replicate]
  omega

theorem tag_inj {m n : ℕ} {a b : Bytes} (ha : Fits m a) (hb : Fits n b)
    (h : tag m a = tag n b) : m = n ∧ a = b := by
  obtain ⟨hm, ha⟩ := ha
  obtain ⟨hn, hb⟩ := hb
  obtain ⟨h1, h⟩ := List.cons.inj h
  obtain ⟨h2, h⟩ := List.cons.inj h
  have h1 := congrArg UInt8.toNat h1
  have h2 := congrArg UInt8.toNat h2
  rw [UInt8.toNat_ofNat', UInt8.toNat_ofNat'] at h1 h2
  exact ⟨by omega, (List.append_inj h (by omega)).1⟩

def sealBox (aad msg : Bytes) : Option Bytes :=
  if Fits msg.length aad then some (tag msg.length aad ++ msg) else none

def openBox (aad ct : Bytes) : Option Bytes :=
  if 16 ≤ ct.length ∧ Fits (ct.length - 16) aad ∧ ct.take 16 = tag (ct.length - 16) aad then
    some (ct.drop 16)
  else none

theorem sealBox_eq_some {aad msg ct : Bytes} (h : sealBox aad msg = some ct) :
    Fits msg.length aad ∧ ct = tag msg.length aad ++ msg := by
  unfold sealBox at h
  split at h
  · rename_i hfits
    exact ⟨hfits, (Option.some.inj h).symm⟩
  · cases h

theorem length_sealBox {aad msg ct : Bytes} (h : sealBox aad msg = some ct) :
    ct.length = msg.length + 16 := by
  obtain ⟨hfits, rfl⟩ := sealBox_eq_some h
  rw [List.length_append, length_tag hfits, Nat.add_comm]

theorem openBox_sealBox {aad msg ct : Bytes} (h : sealBox aad msg = some ct) :
    openBox aad ct = some msg := by
  have hlen := length_sealBox h
  obtain ⟨hfits, rfl⟩ := sealBox_eq_some h
  have hsub : (tag msg.length aad ++ msg).length - 16 = msg.length := by omega
  rw [openBox, hsub, if_pos, List.drop_left' (length_tag hfits)]
  exact ⟨by omega, hfits, List.take_left' (length_tag hfits)⟩

/-- What opens, cut or not, is whole and under the associated data it was sealed with. -/
theorem eq_of_openBox {aad aad' msg ct m : Bytes} (h : sealBox aad msg = some ct) {n : ℕ}
    (hn : n ≤ ct.length) (hm : openBox aad' (ct.take n) = some m) :
    n = ct.length ∧ aad' = aad := by
  have hlen := length_sealBox h
  obtain ⟨hfits, rfl⟩ := sealBox_eq_some h
  unfold openBox at hm
  split at hm
  · rename_i hopen
    obtain ⟨h16, hfits', htag⟩ := hopen
    rw [List.length_take, Nat.min_eq_left hn] at h16 hfits' htag
    rw [List.take_take, Nat.min_eq_left h16, List.take_left' (length_tag hfits)] at htag
    obtain ⟨hlength, haad⟩ := tag_inj hfits hfits' htag
    exact ⟨by omega, haad.symm⟩
  · cases hm

scoped instance (priority := 2000) primitives : Primitives where
  blake3 := hash
  sealBox _ _ := sealBox
  openBox _ _ := openBox
  length_sealBox _ _ _ _ _ := length_sealBox
  openBox_sealBox _ _ _ _ _ := openBox_sealBox
  openBox_cut _ _ aad msg ct h n hn := by
    cases hm : openBox aad (ct.take n) with
    | none => rfl
    | some m =>
      have := (eq_of_openBox h (Nat.le_of_lt hn) hm).1
      omega

/-- A ciphertext opens only under the associated data it was made with. -/
theorem eq_of_decrypt {key plaintext aad aad' out m : Bytes} {nonce : Aead.Nonce}
    (h : Aead.encrypt key nonce plaintext aad = some out) (hm : Aead.decrypt key out aad' = some m) :
    aad' = aad := by
  have hlen := Aead.length_encrypt h
  obtain ⟨ct, hct, rfl⟩ := Option.map_eq_some_iff.1 h
  rw [Aead.decrypt, if_neg (by omega), List.take_left' nonce.property,
    List.drop_left' nonce.property] at hm
  have hopen : openBox aad' (ct.take ct.length) = some m := by
    rw [List.take_length]
    exact hm
  exact (eq_of_openBox hct (Nat.le_refl _) hopen).2

end Binding
end TgCryptFs.Sample

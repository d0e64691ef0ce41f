import Mathlib.Algebra.Group.Nat.Defs
import Mathlib.Data.List.Basic
import Mathlib.Logic.Function.Basic

set_option autoImplicit false

/-!
# Primitives and the SRB1 block encoding

The hash and the cipher come from crates outside the repository, so they enter
as a class: BLAKE3 as a function on byte strings, XChaCha20-Poly1305 with its
length and inversion laws. A sealed message cut short does not open.
-/
namespace TgCryptFs

abbrev Bytes := List UInt8

class Primitives where
  blake3 : Bytes → Bytes
  /-- Arguments: key, nonce, associated data, plaintext. -/
  sealBox : Bytes → Bytes → Bytes → Bytes → Option Bytes
  openBox : Bytes → Bytes → Bytes → Bytes → Option Bytes
  length_sealBox : ∀ key nonce aad msg ct, sealBox key nonce aad msg = some ct →
    ct.length = msg.length + 16
  openBox_sealBox : ∀ key nonce aad msg ct, sealBox key nonce aad msg = some ct →
    openBox key nonce aad ct = some msg
  openBox_cut : ∀ key nonce aad msg ct, sealBox key nonce aad msg = some ct →
    ∀ n < ct.length, openBox key nonce aad (ct.take n) = none

export Primitives (blake3)

/-- The bytes of a Rust string. -/
def utf8 (s : String) : Bytes := s.toList.flatMap String.utf8EncodeChar

theorem utf8_injective : Function.Injective utf8 := by
  intro a b h
  have hb : a.toByteArray = b.toByteArray := by
    rw [← String.utf8Encode_toList, ← String.utf8Encode_toList]
    exact congrArg List.toByteArray h
  exact String.toByteArray_inj.1 hb

theorem repr_injective : Function.Injective Nat.repr := by
  intro m n h
  have hdigits := congrArg String.toList h
  rw [Nat.toList_repr, Nat.toList_repr] at hdigits
  simpa using congrArg (fun cs => Nat.ofDigitChars 10 cs 0) hdigits

def hexDigit (n : UInt8) : Char := "0123456789abcdef".toList.getD n.toNat '0'

/-- `hex::encode`. -/
def hexEncode (b : Bytes) : String :=
  String.ofList (b.flatMap fun x => [hexDigit (x / 16), hexDigit (x % 16)])

theorem hexDigit_inj {a b : UInt8} (ha : a.toNat < 16) (hb : b.toNat < 16) (h : hexDigit a = hexDigit b) :
    a = b := by
  have hall : ∀ i < 16, ∀ j < 16,
      "0123456789abcdef".toList.getD i '0' = "0123456789abcdef".toList.getD j '0' → i = j := by decide
  exact UInt8.toNat_inj.1 (hall _ ha _ hb h)

theorem hexPair_inj {x y : UInt8} (hhigh : hexDigit (x / 16) = hexDigit (y / 16))
    (hlow : hexDigit (x % 16) = hexDigit (y % 16)) : x = y := by
  have hdiv : ∀ z : UInt8, (z / 16).toNat = z.toNat / 16 := fun z => UInt8.toNat_div z 16
  have hmod : ∀ z : UInt8, (z % 16).toNat = z.toNat % 16 := fun z => UInt8.toNat_mod z 16
  have hlt : ∀ z : UInt8, (z / 16).toNat < 16 ∧ (z % 16).toNat < 16 := by
    intro z
    have := z.toNat_lt
    rw [hdiv, hmod]
    omega
  have h₁ := congrArg UInt8.toNat (hexDigit_inj (hlt x).1 (hlt y).1 hhigh)
  have h₂ := congrArg UInt8.toNat (hexDigit_inj (hlt x).2 (hlt y).2 hlow)
  rw [hdiv, hdiv] at h₁
  rw [hmod, hmod] at h₂
  rw [← UInt8.toNat_inj]
  omega

theorem hexEncode_injective : Function.Injective hexEncode := by
  intro a b h
  have h' := String.ofList_injective h
  clear h
  induction a generalizing b with
  | nil =>
    cases b with
    | nil => rfl
    | cons y b => cases h'
  | cons x a ih =>
    cases b with
    | nil => cases h'
    | cons y b =>
      obtain ⟨hhigh, h'⟩ := List.cons.inj h'
      obtain ⟨hlow, h'⟩ := List.cons.inj h'
      rw [hexPair_inj hhigh hlow, ih h']

namespace Aead

def nonceSize : ℕ := 24
def tagSize : ℕ := 16

abbrev Nonce := {b : Bytes // b.length = nonceSize}

/-- `nonce || ciphertext || tag`, with the nonce the generator supplied. -/
def encrypt [Primitives] (key : Bytes) (nonce : Nonce) (plaintext aad : Bytes) : Option Bytes :=
  (Primitives.sealBox key nonce aad plaintext).map (nonce.val ++ ·)

def decrypt [Primitives] (key ciphertext aad : Bytes) : Option Bytes :=
  if ciphertext.length < nonceSize + tagSize then none
  else Primitives.openBox key (ciphertext.take nonceSize) aad (ciphertext.drop nonceSize)

variable [Primitives]

theorem length_encrypt {key plaintext aad out : Bytes} {nonce : Nonce}
    (h : encrypt key nonce plaintext aad = some out) :
    out.length = nonceSize + plaintext.length + tagSize := by
  obtain ⟨ct, hct, rfl⟩ := Option.map_eq_some_iff.1 h
  have := Primitives.length_sealBox _ _ _ _ _ hct
  simp only [List.length_append, nonce.property, this, tagSize]
  omega

theorem decrypt_encrypt {key plaintext aad out : Bytes} {nonce : Nonce}
    (h : encrypt key nonce plaintext aad = some out) : decrypt key out aad = some plaintext := by
  have hlen := length_encrypt h
  obtain ⟨ct, hct, rfl⟩ := Option.map_eq_some_iff.1 h
  rw [decrypt, if_neg (by omega), List.take_left' nonce.property, List.drop_left' nonce.property]
  exact Primitives.openBox_sealBox _ _ _ _ _ hct

theorem decrypt_cut {key plaintext aad out : Bytes} {nonce : Nonce}
    (h : encrypt key nonce plaintext aad = some out) {n : ℕ} (hlt : n < out.length) :
    decrypt key (out.take n) aad = none := by
  have hlen := length_encrypt h
  obtain ⟨ct, hct, rfl⟩ := Option.map_eq_some_iff.1 h
  unfold decrypt
  split
  · rfl
  · rename_i hge
    simp only [List.length_take, List.length_append, nonce.property] at hge hlt
    have hle : nonceSize ≤ n := by omega
    have htake : ((nonce.val ++ ct).take n).take nonceSize = nonce := by
      rw [List.take_take, Nat.min_eq_left hle, List.take_left' nonce.property]
    have hdrop : ((nonce.val ++ ct).take n).drop nonceSize = ct.take (n - nonceSize) := by
      rw [List.drop_take, List.drop_left' nonce.property]
    rw [htake, hdrop]
    exact Primitives.openBox_cut _ _ _ _ _ hct _ (by omega)

end Aead

namespace Srb1

def magic : Bytes := [83, 82, 66, 49]
def version : UInt8 := 1
def headerSize : ℕ := 46
def flagCompressed : UInt8 := 1

/-- `u32::to_le_bytes`. -/
def leBytes32 (n : ℕ) : Bytes :=
  [UInt8.ofNat n, UInt8.ofNat (n / 2 ^ 8), UInt8.ofNat (n / 2 ^ 16), UInt8.ofNat (n / 2 ^ 24)]

def header (epoch : ℕ) (plaintextLen : ℕ) (compressed : Bool) (contentHash : Bytes) : Bytes :=
  magic ++ [version] ++ leBytes32 epoch ++ [if compressed then flagCompressed else 0] ++
    contentHash ++ leBytes32 plaintextLen

/-- The header is bound as associated data after the caller's own, without the magic. -/
def encode [Primitives] (key : Bytes) (nonce : Aead.Nonce) (epoch : ℕ) (plaintext : Bytes)
    (compressed : Bool) (contentHash aad : Bytes) : Option Bytes :=
  let header := header epoch plaintext.length compressed contentHash
  (Aead.encrypt key nonce plaintext (aad ++ header.drop 4)).map (header ++ ·)

theorem length_encode [Primitives] {key plaintext contentHash aad out : Bytes}
    {nonce : Aead.Nonce} {epoch : ℕ} {compressed : Bool}
    (h : encode key nonce epoch plaintext compressed contentHash aad = some out) :
    plaintext.length < out.length := by
  obtain ⟨ct, hct, rfl⟩ := Option.map_eq_some_iff.1 h
  have := Aead.length_encrypt hct
  simp only [List.length_append, this, Aead.nonceSize]
  omega

end Srb1
end TgCryptFs

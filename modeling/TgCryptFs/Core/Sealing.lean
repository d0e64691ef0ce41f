import Mathlib.Data.List.Nodup
import TgCryptFs.Core.Crypto

set_option autoImplicit false

/-!
# What was encrypted under a key

An ideal cipher opens a ciphertext, under some associated data, only if that pair came
out of an encryption under the same key. The encryptions that were made are a list.
-/
namespace TgCryptFs.Aead

/-- The arguments of one call of `encrypt`, with the nonce the generator supplied. -/
structure Sealing where
  nonce : Nonce
  plaintext : Bytes
  aad : Bytes

variable [Primitives]

def Sealing.output (key : Bytes) (s : Sealing) : Option Bytes :=
  encrypt key s.nonce s.plaintext s.aad

/-- The pair opens only if it was produced by one of the encryptions of `log`. -/
def Unforged (key : Bytes) (log : List Sealing) (ciphertext aad : Bytes) : Prop :=
  ∀ m, decrypt key ciphertext aad = some m →
    ∃ s ∈ log, s.output key = some ciphertext ∧ s.aad = aad

theorem Unforged.opened {key : Bytes} {log : List Sealing} {ciphertext aad m : Bytes}
    (h : Unforged key log ciphertext aad) (hm : decrypt key ciphertext aad = some m) :
    ∃ s ∈ log, s.output key = some ciphertext ∧ s.aad = aad ∧ s.plaintext = m := by
  obtain ⟨s, hs, hout, rfl⟩ := h m hm
  have := decrypt_encrypt hout
  exact ⟨s, hs, hout, rfl, Option.some.inj (this.symm.trans hm)⟩

theorem Sealing.take_output {key ciphertext : Bytes} {s : Sealing}
    (h : s.output key = some ciphertext) : ciphertext.take nonceSize = s.nonce.val := by
  obtain ⟨ct, -, rfl⟩ := Option.map_eq_some_iff.1 h
  exact List.take_left' s.nonce.property

/-- With a fresh nonce for every encryption, the ciphertext tells which one made it. -/
theorem eq_of_output_eq {key ciphertext : Bytes} {log : List Sealing}
    (hfresh : (log.map Sealing.nonce).Nodup) {s t : Sealing} (hs : s ∈ log) (ht : t ∈ log)
    (h1 : s.output key = some ciphertext) (h2 : t.output key = some ciphertext) : s = t := by
  have hnonce : s.nonce = t.nonce :=
    Subtype.ext ((Sealing.take_output h1).symm.trans (Sealing.take_output h2))
  exact List.inj_on_of_nodup_map hfresh hs ht hnonce

end TgCryptFs.Aead

import TgCryptFs.Core.Sample
import TgCryptFs.Core.Sealing

set_option autoImplicit false

/-!
# Reading an SRB1 block

The header is read before anything is authenticated. It is the end of the associated
data, so what `decrypt` accepts pins the caller's part as well as every header byte
after the magic.
-/
namespace TgCryptFs.Srb1

inductive BlockError where
  | blockFormat (message : String)
  | decryption
deriving DecidableEq, Repr

structure DecodedBlock where
  epoch : ℕ
  compressed : Bool
  contentHash : Bytes
  plaintextLen : ℕ
  plaintext : Bytes
deriving DecidableEq, Repr

/-- `u32::from_le_bytes`. -/
def fromLeBytes32 (b : Bytes) : ℕ :=
  (b.getD 0 0).toNat + (b.getD 1 0).toNat * 2 ^ 8 + (b.getD 2 0).toNat * 2 ^ 16 +
    (b.getD 3 0).toNat * 2 ^ 24

/-- `block[start..stop]`. -/
def slice (block : Bytes) (start stop : ℕ) : Bytes := (block.drop start).take (stop - start)

def decode [Primitives] (key block aad : Bytes) : Except BlockError DecodedBlock :=
  if block.length < headerSize + Aead.nonceSize + Aead.tagSize then
    .error (.blockFormat "block too short")
  else if block.take 4 ≠ magic then .error (.blockFormat "invalid magic")
  else if block.getD 4 0 ≠ version then
    .error (.blockFormat ("unsupported version: " ++ toString (block.getD 4 0).toNat))
  else
    let epoch := fromLeBytes32 (slice block 5 9)
    let compressed := block.getD 9 0 &&& flagCompressed != 0
    let contentHash := slice block 10 42
    let plaintextLen := fromLeBytes32 (slice block 42 46)
    match Aead.decrypt key (block.drop headerSize) (aad ++ slice block 4 headerSize) with
    | none => .error .decryption
    | some plaintext =>
      if plaintext.length ≠ plaintextLen then
        .error (.blockFormat ("plaintext length mismatch: header says " ++ toString plaintextLen ++
          ", got " ++ toString plaintext.length))
      else .ok { epoch, compressed, contentHash, plaintextLen, plaintext }

/-- The arguments of one call of `encode`. -/
structure Encoding where
  nonce : Aead.Nonce
  epoch : UInt32
  plaintext : Bytes
  compressed : Bool
  contentHash : {b : Bytes // b.length = 32}
  aad : Bytes

namespace Encoding

def header (e : Encoding) : Bytes :=
  Srb1.header e.epoch.toNat e.plaintext.length e.compressed e.contentHash

def block [Primitives] (key : Bytes) (e : Encoding) : Option Bytes :=
  encode key e.nonce e.epoch.toNat e.plaintext e.compressed e.contentHash e.aad

/-- The encryption inside an `encode`. -/
def sealing (e : Encoding) : Aead.Sealing := ⟨e.nonce, e.plaintext, e.aad ++ e.header.drop 4⟩

/-- What a block carries. -/
def decoded (e : Encoding) : DecodedBlock :=
  ⟨e.epoch.toNat, e.compressed, e.contentHash, e.plaintext.length, e.plaintext⟩

theorem length_header (e : Encoding) : e.header.length = headerSize := by
  simp [header, Srb1.header, magic, leBytes32, e.contentHash.property, headerSize]

theorem block_eq_some [Primitives] {key : Bytes} {e : Encoding} {out : Bytes} :
    e.block key = some out ↔ ∃ ct, e.sealing.output key = some ct ∧ out = e.header ++ ct := by
  rw [block, encode, Option.map_eq_some_iff]
  exact exists_congr fun ct => and_congr_right fun _ => eq_comm

end Encoding

theorem fromLeBytes32_leBytes32 (n : ℕ) : fromLeBytes32 (leBytes32 n) = n % 2 ^ 32 := by
  simp only [fromLeBytes32, leBytes32, List.getD_cons_zero, List.getD_cons_succ,
    UInt8.toNat_ofNat']
  omega

theorem decode_eq_ok [Primitives] {key block aad : Bytes} {r : DecodedBlock} :
    decode key block aad = .ok r ↔
      86 ≤ block.length ∧ block.take 4 = magic ∧ block.getD 4 0 = version ∧
        Aead.decrypt key (block.drop headerSize) (aad ++ slice block 4 headerSize) =
          some r.plaintext ∧
        r.plaintext.length = fromLeBytes32 (slice block 42 46) ∧
        r = { epoch := fromLeBytes32 (slice block 5 9)
              compressed := block.getD 9 0 &&& flagCompressed != 0
              contentHash := slice block 10 42
              plaintextLen := fromLeBytes32 (slice block 42 46)
              plaintext := r.plaintext } := by
  have hsize : headerSize + Aead.nonceSize + Aead.tagSize = 86 := rfl
  rw [decode, hsize]
  constructor
  · intro h
    split at h
    · cases h
    · split at h
      · cases h
      · split at h
        · cases h
        · dsimp only at h
          split at h
          · cases h
          · split at h
            · cases h
            · rename_i hlen hmagic hversion _ plaintext hdecrypt hplain
              cases h
              exact ⟨Nat.not_lt.1 hlen, not_not.1 hmagic, not_not.1 hversion, hdecrypt,
                not_not.1 hplain, rfl⟩
  · rintro ⟨hlen, hmagic, hversion, hdecrypt, hplain, hr⟩
    rw [if_neg (Nat.not_lt.2 hlen), if_neg (not_not.2 hmagic), if_neg (not_not.2 hversion)]
    dsimp only
    rw [hdecrypt]
    dsimp only
    rw [if_neg (not_not.2 hplain), ← hr]

/-- The fields of a header, where `decode` looks for them. -/
structure Fields (e : Encoding) (ct block : Bytes) : Prop where
  magic : block.take 4 = magic
  version : block.getD 4 0 = version
  epoch : slice block 5 9 = leBytes32 e.epoch.toNat
  flags : block.getD 9 0 = if e.compressed then flagCompressed else 0
  contentHash : slice block 10 42 = e.contentHash
  plaintextLen : slice block 42 46 = leBytes32 e.plaintext.length
  bound : slice block 4 headerSize = e.header.drop 4
  payload : block.drop headerSize = ct

theorem fields_append (e : Encoding) (ct : Bytes) : Fields e ct (e.header ++ ct) := by
  have hhash : e.contentHash.val.length = 32 := e.contentHash.property
  have hcons : e.header = [83, 82, 66, 49, 1] ++ leBytes32 e.epoch.toNat ++
      [if e.compressed then flagCompressed else 0] ++ e.contentHash.val ++
      leBytes32 e.plaintext.length := rfl
  have hlen : e.header.length = 46 := e.length_header
  constructor
  · rfl
  · rfl
  · rfl
  · rfl
  · simp [hcons, slice, leBytes32, hhash]
  · simp [hcons, slice, leBytes32, hhash]
  · rw [slice, List.drop_append_of_le_length (by omega)]
    exact List.take_left' (by rw [List.length_drop, hlen]; rfl)
  · exact List.drop_left' hlen

theorem flag_compressed (compressed : Bool) :
    ((if compressed then flagCompressed else 0) &&& flagCompressed != 0) = compressed := by
  cases compressed <;> decide

/-- What `decode` makes of a block of `encode`: the length field holds 32 bits. -/
theorem decode_block [Primitives] {key out : Bytes} {e : Encoding} (h : e.block key = some out)
    {r : DecodedBlock} :
    decode key out e.aad = .ok r ↔ e.plaintext.length < 2 ^ 32 ∧ r = e.decoded := by
  obtain ⟨ct, hct, rfl⟩ := Encoding.block_eq_some.1 h
  have hf := fields_append e ct
  have hlen : 86 ≤ (e.header ++ ct).length := by
    have hheader : e.header.length = 46 := e.length_header
    have hbody : ct.length = 24 + e.plaintext.length + 16 := Aead.length_encrypt hct
    rw [List.length_append]
    omega
  have hdecrypt : Aead.decrypt key ct (e.aad ++ e.header.drop 4) = some e.plaintext :=
    Aead.decrypt_encrypt hct
  have hepoch : e.epoch.toNat % 2 ^ 32 = e.epoch.toNat := Nat.mod_eq_of_lt e.epoch.toNat_lt
  rw [decode_eq_ok, hf.payload, hf.bound, hf.epoch, hf.flags, hf.contentHash, hf.plaintextLen,
    flag_compressed, hdecrypt, fromLeBytes32_leBytes32, fromLeBytes32_leBytes32, hepoch]
  constructor
  · rintro ⟨-, -, -, hplain, hmod, hr⟩
    have hsame : e.plaintext = r.plaintext := Option.some.inj hplain
    rw [← hsame] at hmod hr
    have hlt : e.plaintext.length < 2 ^ 32 := hmod ▸ Nat.mod_lt _ (by decide)
    rw [← hmod] at hr
    exact ⟨hlt, hr⟩
  · rintro ⟨hlt, rfl⟩
    have hmod := Nat.mod_eq_of_lt hlt
    refine ⟨hlen, hf.magic, hf.version, rfl, hmod.symm, ?_⟩
    rw [hmod]
    rfl

/-- Under a key that is used only by `encode`: what opens is the block of one of the
    calls of `log`, with its own associated data. -/
theorem exists_encoding_of_decode [Primitives] {key block aad : Bytes} {log : List Encoding}
    (h : Aead.Unforged key (log.map Encoding.sealing) (block.drop headerSize)
      (aad ++ slice block 4 headerSize))
    {r : DecodedBlock} (hr : decode key block aad = .ok r) :
    ∃ e ∈ log, e.block key = some block ∧ e.aad = aad ∧ r = e.decoded := by
  obtain ⟨hlen, hmagic, -, hdecrypt, -, -⟩ := decode_eq_ok.1 hr
  obtain ⟨s, hs, hout, haad, -⟩ := h.opened hdecrypt
  obtain ⟨e, he, rfl⟩ := List.mem_map.1 hs
  -- Both headers are 42 bytes after the magic, so the associated data splits in one way.
  have hheader : (e.header.drop 4).length = 42 := by
    rw [List.length_drop, e.length_header]
    rfl
  have hslice : (slice block 4 headerSize).length = 42 := by
    rw [slice, List.length_take, List.length_drop]
    change min 42 (block.length - 4) = 42
    omega
  have hsplit : e.aad = aad ∧ e.header.drop 4 = slice block 4 headerSize :=
    List.append_inj' haad (hheader.trans hslice.symm)
  have hblock : block = e.header ++ block.drop headerSize := by
    have htail : block.drop 4 = slice block 4 headerSize ++ block.drop headerSize := by
      rw [slice, show headerSize = 4 + (headerSize - 4) from rfl, ← List.drop_drop]
      exact (List.take_append_drop _ _).symm
    calc block = block.take 4 ++ block.drop 4 := (List.take_append_drop 4 block).symm
      _ = magic ++ (e.header.drop 4 ++ block.drop headerSize) := by
        rw [hmagic, htail, hsplit.2]
      _ = e.header ++ block.drop headerSize := by
        rw [← List.append_assoc]
        rfl
  have hmade : e.block key = some block := Encoding.block_eq_some.2 ⟨_, hout, hblock⟩
  rw [← hsplit.1] at hr
  exact ⟨e, he, hmade, hsplit.1, ((decode_block hmade).1 hr).2⟩

/-- The last part says what fresh nonces add: a genuine block that was changed anywhere
    but in its nonce, or is read with other associated data, is rejected. -/
theorem decode_authentic [Primitives] (key block aad : Bytes) (log : List Encoding)
    (h : Aead.Unforged key (log.map Encoding.sealing) (block.drop headerSize)
      (aad ++ slice block 4 headerSize)) :
    (∀ r, decode key block aad = .ok r →
      ∃ e ∈ log, e.block key = some block ∧ e.aad = aad ∧ r = e.decoded) ∧
    ((∀ e ∈ log, e.aad = aad → e.block key ≠ some block) →
      ∃ err, decode key block aad = .error err) ∧
    ((log.map Encoding.nonce).Nodup → ∀ e ∈ log, ∀ genuine, e.block key = some genuine →
      slice block headerSize (headerSize + Aead.nonceSize) = e.nonce.val →
      block ≠ genuine ∨ aad ≠ e.aad → ∃ err, decode key block aad = .error err) := by
  refine ⟨fun r hr => exists_encoding_of_decode h hr, fun hno => ?_, fun hfresh e he genuine hgen hnonce hne => ?_⟩
  · cases hr : decode key block aad with
    | error err => exact ⟨err, rfl⟩
    | ok r =>
      obtain ⟨e, he, hmade, haad, -⟩ := exists_encoding_of_decode h hr
      exact absurd hmade (hno e he haad)
  · cases hr : decode key block aad with
    | error err => exact ⟨err, rfl⟩
    | ok r =>
      -- The nonce says which call of `encode` made the block.
      obtain ⟨e', he', hmade, haad, -⟩ := exists_encoding_of_decode h hr
      have hsame : e'.nonce = e.nonce := by
        obtain ⟨ct, hct, hblock⟩ := Encoding.block_eq_some.1 hmade
        refine Subtype.ext (Eq.trans ?_ hnonce)
        rw [slice, Nat.add_sub_cancel_left, hblock, (fields_append e' ct).payload]
        exact (Aead.Sealing.take_output hct).symm
      obtain rfl : e' = e := List.inj_on_of_nodup_map hfresh he' he hsame
      rcases hne with hne | hne
      · exact absurd (Option.some.inj (hmade.symm.trans hgen)) hne
      · exact absurd haad.symm hne

section
open scoped Sample

def greeting : Encoding where
  nonce := ⟨List.replicate 24 7, rfl⟩
  epoch := 3
  plaintext := [104, 105]
  compressed := true
  contentHash := ⟨List.replicate 32 9, rfl⟩
  aad := [97]

def greetingBlock : Bytes := greeting.header ++ List.replicate 24 7 ++ Sample.lowBytes 16 2 ++ [104, 105]

theorem greetingBlock_eq : greeting.block [] = some greetingBlock := by decide +kernel

theorem decode_greeting_authentic :
    decode [] greetingBlock [97] = .ok greeting.decoded ∧
    ∃ e ∈ [greeting], e.block [] = some greetingBlock ∧ e.aad = [97] ∧
      greeting.decoded = e.decoded := by
  have hok : decode [] greetingBlock [97] = .ok greeting.decoded :=
    (decode_block greetingBlock_eq).2 ⟨by decide, rfl⟩
  refine ⟨hok, (decode_authentic [] greetingBlock [97] [greeting] ?_).1 _ hok⟩
  intro m _
  exact ⟨greeting.sealing, List.mem_cons_self, by decide +kernel, by decide +kernel⟩

end

end TgCryptFs.Srb1

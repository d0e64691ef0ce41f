import TgCryptFs.Core.Sample
import TgCryptFs.Core.Volume

set_option autoImplicit false

/-!
# Opening a volume

The password leads to the root key, the root key to the hierarchy, and a config with a
verification hash rejects a hierarchy with another one.
-/
namespace TgCryptFs
open Library

/-- Argon2id and HKDF-SHA256. -/
class KeyDerivation where
  /-- Arguments: password, salt, parameters. There is no output for parameters it refuses. -/
  argon2id : Bytes → Bytes → Argon2Params → Option Bytes
  /-- Arguments: salt, key, info. -/
  hkdf : Option Bytes → Bytes → Bytes → Bytes

structure KeyHierarchy where
  root : Bytes
  data : Bytes
  metaKey : Bytes
  schema : Bytes
  integrity : Bytes
  wrapping : Bytes
  deadman : Bytes
deriving DecidableEq

inductive CoreError where
  | volumeNotFound (volumeId : String)
  | readConfig
  | parseConfig
  | keyDerivation
  | wrongPassword
  /-- `output[..32]` of a shorter output. -/
  | panicked
deriving DecidableEq

structure OpenVolumeResult where
  config : VolumeConfig
  paths : VolumePaths
  hierarchy : KeyHierarchy

section

variable [KeyDerivation]

def hkdfDerive (parent info : Bytes) : Bytes := KeyDerivation.hkdf none parent info

def hkdfDeriveWithSalt (parent info salt : Bytes) : Bytes := KeyDerivation.hkdf (some salt) parent info

def deriveRootKey (password salt : Bytes) (params : Argon2Params) : Except CoreError Bytes :=
  match KeyDerivation.argon2id password salt params with
  | none => .error .keyDerivation
  | some output => if output.length < 32 then .error .panicked else .ok (output.take 32)

def deriveHierarchy (root salt : Bytes) : KeyHierarchy where
  root := root
  data := hkdfDeriveWithSalt root (utf8 "SentenceRefs.v1:data") salt
  metaKey := hkdfDeriveWithSalt root (utf8 "SentenceRefs.v1:meta") salt
  schema := hkdfDeriveWithSalt root (utf8 "SentenceRefs.v1:schema") salt
  integrity := hkdfDeriveWithSalt root (utf8 "SentenceRefs.v1:ih") salt
  wrapping := hkdfDeriveWithSalt root (utf8 "SentenceRefs.v1:wrapping") salt
  deadman := hkdfDeriveWithSalt root (utf8 "SentenceRefs.v1:deadman") salt

def computeVerificationHash [Primitives] (hierarchy : KeyHierarchy) : String :=
  hexEncode (blake3 (hkdfDerive hierarchy.root (utf8 "password-verification")))

end

/-- The comparison that takes the same time for all strings of a length: zero if they are
    equal. -/
def difference (actual expected : Bytes) : ℕ :=
  (actual.zip expected).foldl (fun diff p => diff ||| (p.1 ^^^ p.2).toNat)
    (actual.length ^^^ expected.length)

def openVolume [Primitives] [KeyDerivation] [ConfigFormat] (volumeId : String) (password : Bytes)
    (volumesDir : Pieces) (fs : Fs) : Except CoreError OpenVolumeResult :=
  let paths := VolumePaths.new (FileSystem.join volumesDir (pieces volumeId))
  if fs.existsAt paths.configPath = false then .error (.volumeNotFound volumeId)
  else
    match fs.fileAt paths.configPath with
    | none => .error .readConfig
    | some ino =>
      match parseConfig (fs.content ino) with
      | none => .error .parseConfig
      | some config =>
        match deriveRootKey password config.salt config.kdfParams with
        | .error e => .error e
        | .ok root =>
          let hierarchy := deriveHierarchy root config.salt
          let verified := match config.passwordVerificationHash with
            | none => true
            | some expected =>
              difference (utf8 (computeVerificationHash hierarchy)) (utf8 expected) = 0
          if verified then .ok ⟨config, paths, hierarchy⟩ else .error .wrongPassword

namespace Sample

/-- Keys of the length the parameters ask for. -/
scoped instance keyDerivation : KeyDerivation where
  argon2id _ _ params := some (List.replicate params.outputLen 1)
  hkdf _ _ _ := List.replicate 32 2

end Sample
end TgCryptFs

import Provenance.Key.Profile
import Provenance.Text.Hex
import Provenance.Text.Numeral

/-!
# Errors of key and cipher operations

Each cause is a constructor; the wording is in `KeyError.message`.
-/

namespace Provenance

/-- What is wrong with the bytes of a key. -/
inductive KeyFault
  | size (actual : Nat)
  | unknownTag (tag : UInt8)
  | otherUse (actual expected : KeyUse)
  | otherProfile (actual expected : Profile)
  | cipherSize (cipher : String) (actual : Nat)
  deriving DecidableEq

inductive DecryptionFault
  | authentication
  | tooShort
  | blockPadding (mode : String)
  deriving DecidableEq

inductive KeyError
  | unsupportedLevel (level : Nat)
  | generationExhausted (attempts : Nat)
  | invalidKey (fault : KeyFault)
  | encryption
  | decryption (fault : DecryptionFault)
  | malformedText
  deriving DecidableEq

/-- Bytes of an encoded key: the tag and 32 bytes of curve material. -/
def encodedKeySize : Nat := 33

def KeyFault.message : KeyFault → String
  | .size actual =>
    "expected " ++ Numeral.encode encodedKeySize ++ " bytes, got " ++ Numeral.encode actual
  | .unknownTag tag => "unknown profile tag 0x" ++ Hex.encode [tag]
  | .otherUse actual expected => actual.name ++ " key used for " ++ expected.name
  | .otherProfile actual expected => "expected a " ++ expected.domain ++ " key, got " ++ actual.domain
  | .cipherSize cipher actual => cipher ++ " key of " ++ Numeral.encode actual ++ " bytes"

def DecryptionFault.message : DecryptionFault → String
  | .authentication => "aead::Error"
  | .tooShort => "sealed data too short"
  | .blockPadding mode => "bad " ++ mode ++ " padding"

def KeyError.message : KeyError → String
  | .unsupportedLevel level => "unsupported security level: " ++ Numeral.encode level
  | .generationExhausted attempts =>
    "key generation failed the self-test " ++ Numeral.encode attempts ++ " times"
  | .invalidKey fault => "invalid key: " ++ fault.message
  | .encryption => "encryption error: aead::Error"
  | .decryption fault => "decryption error: " ++ fault.message
  | .malformedText => "encoding error"

end Provenance

import Provenance.Key.Basic
import Provenance.Curve.Ed25519

/-!
# Signatures under a profile

What is signed is not the message but the profile's hash of its domain text and the message, so a
signature under one profile never counts under another, even for the same secret.
-/

namespace Provenance.Signing

def input (p : Profile) (message : Bytes) : Bytes :=
  p.digestKind.digest [Utf8.encode p.domain, message]

/-- Sign with the encoded secret bytes of a signing key. -/
def sign (secretKey message : Bytes) : Except KeyError Bytes := do
  let p ← Profile.detectFor secretKey .sign
  return Ed25519.sign (Profile.rawKey secretKey) (input p message)

/-- Whether a signature holds; malformed keys and signatures do not. -/
def verify (publicKey message signature : Bytes) : Bool :=
  match Profile.detectFor publicKey .sign with
  | .error _ => false
  | .ok p => Ed25519.verify (Profile.rawKey publicKey) (input p message) signature

end Provenance.Signing

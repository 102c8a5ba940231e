import Provenance.Key.Encoding
import Provenance.Text.Base64Url
import Provenance.Text.Utf8

/-!
# Keys

A public key is its encoded bytes, a hash that names it everywhere else, and an optional alias.
`PublicKey.ofBytes` computes the hash; a key that came over the wire carries a hash which may be
wrong (`PublicKey.hashMatches`). A private key adds the encoded secret bytes.
-/

namespace Provenance

/-- The hash that names a public key: base64url of SHA-256 over its encoded bytes. -/
def keyHash (bytes : Bytes) : String := Base64Url.encode (sha256 bytes)

structure PublicKey where
  bytes : Bytes
  hash : String
  label : Option String
  deriving DecidableEq

namespace PublicKey

def ofBytes (bytes : Bytes) (label : Option String) : PublicKey := ⟨bytes, keyHash bytes, label⟩

/-- The alias, or the hash of a key without one. -/
def displayName (k : PublicKey) : String := k.label.getD k.hash

def withLabel (k : PublicKey) (label : String) : PublicKey := { k with label := some label }

def profile (k : PublicKey) : Except KeyError Profile := Profile.detect k.bytes

/-- What the key is for, if its profile is known. -/
def use? (k : PublicKey) : Option KeyUse :=
  match k.profile with
  | .ok p => some p.use
  | .error _ => none

/-- Whether the carried hash is the hash of the carried bytes. -/
def hashMatches (k : PublicKey) : Bool := keyHash k.bytes = k.hash

def debugText (k : PublicKey) : String :=
  "PublicKey(" ++ k.hash ++ ", alias=" ++ k.displayName ++ ")"

theorem hashMatches_ofBytes (bytes : Bytes) (label : Option String) :
    (ofBytes bytes label).hashMatches = true := by simp [hashMatches, ofBytes]

end PublicKey

structure PrivateKey where
  publicKey : PublicKey
  secretBytes : Bytes
  deriving DecidableEq

namespace PrivateKey

def hash (k : PrivateKey) : String := k.publicKey.hash

def withLabel (k : PrivateKey) (label : String) : PrivateKey :=
  { k with publicKey := k.publicKey.withLabel label }

/-- Relabel if a label is given, else keep the one the key has. -/
def relabel (k : PrivateKey) : Option String → PrivateKey
  | none => k
  | some label => k.withLabel label

def debugText (k : PrivateKey) : String := "PrivateKey(" ++ k.publicKey.debugText ++ ")"

end PrivateKey

end Provenance

import Provenance.Key.Signing
import Provenance.Key.Sealing

/-!
# Key pairs from secrets and seeds

The public half follows from the secret half (`PrivateKey.ofSecret`). A seed text has one key pair in
each profile: its secret is the start of the ChaCha20 key stream under the seed's hash
(`PrivateKey.ofSeed`). From the seed `public` come the two keys that everybody holds: `Anchor.write`,
which may write where nobody else is named, and `Anchor.read`.
-/

namespace Provenance

/-- The public point of a secret on the curve that the profile uses. -/
def Profile.publicPoint (p : Profile) (secret : Bytes) : Bytes :=
  match p.use with
  | .sign => Ed25519.publicPoint secret
  | .encrypt => X25519.publicPoint secret

theorem Profile.length_publicPoint (p : Profile) (secret : Bytes) :
    (p.publicPoint secret).length = 32 := by
  cases p <;> simp [Profile.publicPoint, Profile.use]

namespace PrivateKey

def ofSecret (p : Profile) (secret : Bytes) : PrivateKey :=
  ⟨PublicKey.ofBytes (p.encode (p.publicPoint secret)) none, p.encode secret⟩

def ofSeed (p : Profile) (seed : String) (label : Option String) : PrivateKey :=
  let stream := ChaCha20.block (sha256 (Utf8.encode seed)) (Bytes.zeros 12) 0
  (ofSecret p (stream.take 32)).relabel label

theorem profile_ofSecret (p : Profile) (secret : Bytes) :
    (ofSecret p secret).publicKey.profile = .ok p :=
  Profile.detect_encode p _ (p.length_publicPoint secret)

end PrivateKey

/-! ## The anchors -/

namespace Anchor

def seed : String := "public"

def write : PrivateKey := PrivateKey.ofSeed .sign64 seed (some seed)

def read : PrivateKey := PrivateKey.ofSeed .encrypt128 seed (some seed)

end Anchor

end Provenance

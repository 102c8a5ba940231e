import Provenance.Key.Basic
import Provenance.Curve.X25519
import Provenance.Hash.Blake3
import Provenance.Cipher.ChaChaPoly

/-!
# Sealing to a public key

A sealed text is an ephemeral public point (32 bytes), a nonce (12 bytes), and the text encrypted and
tagged under a key that is derived from the agreement of the ephemeral secret with the recipient.
The ephemeral secret and the nonce are arguments: `SealEntropy`.
-/

namespace Provenance

/-- The fresh bytes of one sealing. -/
structure SealEntropy where
  ephemeral : Bytes
  nonce : Bytes
  nonce_size : nonce.length = 12

namespace Sealing

/-- Bytes in front of the ciphertext. -/
def overhead : Nat := 44

/-- The key that the text is encrypted under. -/
def wrapKey (p : Profile) (shared ephemeral recipient : Bytes) : Bytes :=
  Blake3.deriveKey (Utf8.encode p.domain) (p.digestKind.digest [shared, ephemeral, recipient])

/-- Seal to the holder of an encoded encryption key. -/
def sealTo (publicKey text : Bytes) (fresh : SealEntropy) : Except KeyError Bytes := do
  let p ← Profile.detectFor publicKey .encrypt
  let recipient := Profile.rawKey publicKey
  let ephemeral := X25519.publicPoint fresh.ephemeral
  let key := wrapKey p (X25519.agree fresh.ephemeral recipient) ephemeral recipient
  match ChaChaPoly.lock? key fresh.nonce text with
  | some locked => return ephemeral ++ fresh.nonce ++ locked
  | none => throw .encryption

/-- Recover a sealed text with the encoded secret bytes of the recipient. -/
def openSealed (secretKey sealedText : Bytes) : Except KeyError Bytes := do
  let p ← Profile.detectFor secretKey .encrypt
  if sealedText.length < overhead then throw (.decryption .tooShort)
  let secret := Profile.rawKey secretKey
  let ephemeral := sealedText.take 32
  let nonce := (sealedText.drop 32).take 12
  let key := wrapKey p (X25519.agree secret ephemeral) ephemeral (X25519.publicPoint secret)
  match ChaChaPoly.open? key nonce (sealedText.drop overhead) with
  | some text => return text
  | none => throw (.decryption .authentication)

end Sealing

end Provenance

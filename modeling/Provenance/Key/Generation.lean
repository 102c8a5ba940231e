import Provenance.Key.Derivation
import Provenance.Entropy

/-!
# Fresh key pairs

A candidate pair is drawn and has to pass a test of itself: a signing key verifies what it signed,
an encryption key opens what was sealed to it. A failing candidate is discarded and another one
drawn, at most eight times. Main statement: the pair has the profile asked for
(`PrivateKey.profile_of_generate`).
-/

namespace Provenance.PrivateKey

def maxAttempts : Nat := 8

def probeMessage : Bytes := Utf8.encode "trustlog self-test"

def passesSignTest (k : PrivateKey) : Bool :=
  match Signing.sign k.secretBytes probeMessage with
  | .ok signature => Signing.verify k.publicKey.bytes probeMessage signature
  | .error _ => false

def passesSealTest (k : PrivateKey) (block : Bytes) (fresh : SealEntropy) : Bool :=
  match Sealing.sealTo k.publicKey.bytes block fresh with
  | .error _ => false
  | .ok sealedBlock =>
    match Sealing.openSealed k.secretBytes sealedBlock with
    | .ok text => text = block
    | .error _ => false

def passesTest (k : PrivateKey) (p : Profile) (e : Entropy) : Bool × Entropy :=
  match p.use with
  | .sign => (k.passesSignTest, e)
  | .encrypt =>
    let (block, e) := e.draw 16
    let (fresh, e) := e.drawSeal
    (k.passesSealTest block fresh, e)

/-- Draw candidates until one passes or the attempts are used up. -/
def generateWithin (p : Profile) : Nat → Entropy → Except KeyError (PrivateKey × Entropy)
  | 0, _ => .error (.generationExhausted maxAttempts)
  | attempts + 1, e =>
    let (secret, e) := e.draw 32
    let k := ofSecret p secret
    let (passed, e) := k.passesTest p e
    if passed then .ok (k, e) else generateWithin p attempts e

def generate (p : Profile) (e : Entropy) : Except KeyError (PrivateKey × Entropy) :=
  generateWithin p maxAttempts e

theorem profile_of_generateWithin (p : Profile) (attempts : Nat) (e : Entropy) {k : PrivateKey}
    {e' : Entropy} (h : generateWithin p attempts e = .ok (k, e')) :
    k.publicKey.profile = .ok p := by
  induction attempts generalizing e with
  | zero => simp [generateWithin] at h
  | succ attempts ih =>
    simp only [generateWithin] at h
    split at h
    · cases h
      exact profile_ofSecret p _
    · exact ih _ h

theorem profile_of_generate (p : Profile) (e : Entropy) {k : PrivateKey} {e' : Entropy}
    (h : generate p e = .ok (k, e')) : k.publicKey.profile = .ok p :=
  profile_of_generateWithin p maxAttempts e h

end Provenance.PrivateKey

import Provenance.Key.Generation
import Provenance.Proofs.Drafts
import Provenance.Proofs.Sealing

/-!
# Key generation succeeds

The test that a fresh pair has to pass is one that every pair passes: a signature of the pair
verifies, and what is sealed to the pair is opened (`PrivateKey.passesTest_ofSecret`). So the first
candidate is taken, and the attempts are never used up.

Main statement: `PrivateKey.generate_isOk`.
-/

namespace Provenance

theorem Signing.sign_encode {p : Profile} (hp : p.use = .sign) {secret : Bytes}
    (h : secret.length = 32) (message : Bytes) :
    sign (p.encode secret) message = .ok (Ed25519.sign secret (input p message)) := by
  have hdetect := Profile.detectFor_encode (p := p) h
  rw [hp] at hdetect
  rw [sign, hdetect]
  rfl

namespace PrivateKey

theorem passesSignTest_ofSecret {p : Profile} (hp : p.use = .sign) {secret : Bytes}
    (h : secret.length = 32) : (ofSecret p secret).passesSignTest = true := by
  have hsign : Signing.sign (ofSecret p secret).secretBytes probeMessage =
      .ok (Ed25519.sign secret (Signing.input p probeMessage)) := Signing.sign_encode hp h _
  rw [passesSignTest, hsign]
  simp only [(signPair_ofSecret hp h).verify_eq, rawKey_ofSecret hp]
  exact Ed25519.verify_sign _ _

theorem passesSealTest_ofSecret {p : Profile} (hp : p.use = .encrypt) {secret : Bytes}
    (h : secret.length = 32) {block : Bytes} (hblock : block.length = 16) (fresh : SealEntropy) :
    (ofSecret p secret).passesSealTest block fresh = true := by
  have hpair := sealPair_ofSecret hp h
  have hfits : ChaChaPoly.fits block = true := by
    rw [ChaChaPoly.fits, hblock]
    decide
  have hdetect := Profile.detectFor_encode (p := p) (X25519.length_publicPoint secret)
  rw [hp, ← hpair.publicHalf] at hdetect
  obtain ⟨sealedBlock, hsealed⟩ := Sealing.sealTo_isOk fresh hdetect hfits
  rw [passesSealTest, hsealed]
  simp only [Sealing.openSealed_sealTo hpair hsealed, decide_true]

/-- Every pair made of a secret passes the test of itself. -/
theorem passesTest_ofSecret (p : Profile) {secret : Bytes} (h : secret.length = 32) (e : Entropy) :
    ((ofSecret p secret).passesTest p e).1 = true := by
  unfold passesTest
  cases hp : p.use with
  | sign => exact passesSignTest_ofSecret hp h
  | encrypt => exact passesSealTest_ofSecret hp h (Entropy.length_draw 16 e) _

/-- Generation gives a pair, whatever is drawn. -/
theorem generate_isOk (p : Profile) (e : Entropy) : ∃ k e', generate p e = .ok (k, e') := by
  have hpasses := passesTest_ofSecret p (Entropy.length_draw 32 e) (e.draw 32).2
  refine ⟨ofSecret p (e.draw 32).1,
    ((ofSecret p (e.draw 32).1).passesTest p (e.draw 32).2).2, ?_⟩
  rw [generate, maxAttempts, generateWithin]
  simp only [hpasses, if_true]

end PrivateKey

end Provenance

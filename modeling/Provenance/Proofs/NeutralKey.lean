import Provenance.Proofs.Codec
import Provenance.Proofs.HonestWriter

/-!
# The neutral key

The neutral point of the curve is a public key without a secret: it takes `neutralSignature` for a
signature of every message (`Ed25519.verify_neutral`), since all multiples of it are neutral and
are written in one way only.

A revision under this key is therefore accepted by every chain that knows the key and lets it write
(`TrustChain.receive_signNeutral`), without an evaluation of the curve.
-/

namespace Provenance

/-! ## Neutral points -/

namespace Ed25519

open Point

theorem ofBytes?_neutral : ofBytes? (1 :: Bytes.zeros 31) = some zero := by
  have h : (ofBytes? (1 :: Bytes.zeros 31)).map (fun p => (p.x, p.y, p.z, p.t)) =
      some (0, 1, 1, 0) := by
    decide +kernel
  obtain ⟨p, hp, heq⟩ := Option.map_eq_some_iff.mp h
  rw [hp]
  cases p
  cases heq
  rfl

theorem toBytes_zero : zero.toBytes = 1 :: Bytes.zeros 31 := by decide +kernel

/-- The neutral point signs every message. -/
theorem verify_neutral (message : Bytes) :
    verify (1 :: Bytes.zeros 31) message neutralSignature = true := by
  have hsignature : neutralSignature = (1 :: Bytes.zeros 31) ++ Bytes.ofNatLE 32 0 := by decide
  have hchallenge : challenge (1 :: Bytes.zeros 31) (1 :: Bytes.zeros 31) message < 2 ^ 255 :=
    mod_groupOrder_lt _
  have hsum := (represents_base.multiply (Nat.two_pow_pos 255)).add
    (represents_zero.negate.multiply hchallenge)
  rw [zero_nsmul, neg_zero, nsmul_zero, add_zero] at hsum
  rw [hsignature]
  exact verify_parts ofBytes?_neutral rfl (by decide)
    ((hsum.toBytes_eq represents_zero).trans toBytes_zero)

end Ed25519

/-! ## The key and its signatures -/

namespace PublicKey

theorem profile_neutral (p : Profile) (label : Option String) : (neutral p label).profile = .ok p :=
  Profile.detect_encode p _ rfl

theorem use?_neutral (p : Profile) (label : Option String) :
    (neutral p label).use? = some p.use := by
  rw [use?, profile_neutral]

theorem checkStructure_neutral (p : Profile) (label : Option String) :
    (neutral p label).checkStructure = .ok () := by
  have hmatches : (neutral p label).hashMatches = true := hashMatches_ofBytes _ label
  rw [checkStructure, profile_neutral, hmatches]
  rfl

end PublicKey

theorem Signing.verify_neutral {p : Profile} (hp : p.use = .sign) (label : Option String)
    (message : Bytes) : verify (PublicKey.neutral p label).bytes message neutralSignature = true := by
  have hdetect : Profile.detect (PublicKey.neutral p label).bytes = .ok p :=
    PublicKey.profile_neutral p label
  simp only [verify, Profile.detectFor, hdetect, bind, Except.bind, hp, if_true, pure, Except.pure]
  exact Ed25519.verify_neutral _

theorem Revision.checkStructure_signNeutral {h : Header} (htype : h.payloadType ≠ "")
    (hparent : h.parent ≠ some h.version) (hrecipient : h.recipient ≠ some "") (p : Profile)
    (label : Option String) (body : Option Bytes) :
    (signNeutral h (PublicKey.neutral p label) body).checkStructure = .ok () := by
  have hsigner : (PublicKey.neutral p label).hash ≠ "" := keyHash_ne_empty _
  have hlength : ∀ h : Header, (h.digest body).length = digestSize := fun h => length_sha256 _
  have hsignature : neutralSignature ≠ [] := by decide
  simp only [checkStructure, signNeutral, Attestation.check, htype, hparent, hrecipient, hlength,
    hsignature, Option.getD_some, hsigner, ne_eq, not_true_eq_false, if_false]

theorem PublicKey.sized_neutral (p : Profile) : (neutral p none).Sized where
  bytes := by cases p <;> decide
  hash := length_encode_keyHash_lt _
  label := by
    rintro s hs
    cases hs

/-- A header of an object with one writer, whoever signs it. -/
theorem Header.sized_oneWriter {h : Header} {writer : Bytes} (htype : h.payloadType = "Account")
    (hsigner : ∀ s ∈ h.signer, ∃ bytes, s = keyHash bytes) (hrecipient : h.recipient = none)
    (hreaders : h.readers = NameSet.empty) (hwriters : h.writers = NameSet.ofList [keyHash writer]) :
    h.Sized where
  payloadType := by
    rw [htype]
    decide
  signer s hs := by
    obtain ⟨bytes, rfl⟩ := hsigner s hs
    exact length_encode_keyHash_lt bytes
  recipient s hs := by
    rw [hrecipient] at hs
    cases hs
  readers := by
    rw [hreaders]
    exact NameSet.sized_empty
  writers := by
    rw [hwriters]
    exact NameSet.sized_singleton (length_encode_keyHash_lt writer)

theorem Revision.sized_signNeutral {h : Header} (hs : h.Sized) (p : Profile) (label : Option String)
    {body : Option Bytes} (hbody : ∀ b ∈ body, b.length < 2 ^ 64) :
    (signNeutral h (.neutral p label) body).Sized where
  header := { hs with
    signer := by
      rintro s hs
      cases hs
      exact length_encode_keyHash_lt _ }
  attestation := by
    rintro a ha
    cases ha
    have hsignature : neutralSignature.length < 2 ^ 64 := by decide
    exact ⟨(length_sha256 _).trans_lt (by decide), hsignature⟩
  body := hbody

/-- The key attests what is signed with it. -/
theorem Validator.attests_signNeutral {p : Profile} (hp : p.use = .sign) (label : Option String)
    (h : Header) (body : Option Bytes) {a : Attestation}
    (ha : (Revision.signNeutral h (.neutral p label) body).attestation = some a) :
    attests (.neutral p label) (.signNeutral h (.neutral p label) body) a = true := by
  obtain rfl := Option.some.inj ha
  simp only [attests, Bool.and_eq_true, decide_eq_true_eq]
  refine ⟨⟨?_, ?_⟩, Signing.verify_neutral hp label _⟩
  · rw [PublicKey.use?_neutral, hp]
  · simp only [Revision.digestMatches, Revision.signNeutral, decide_eq_true_eq]

/-! ## Chains -/

namespace TrustChain

theorem addKey_neutral (c : TrustChain) (p : Profile) :
    c.addKey (.neutral p none) = .ok { c with
      keys := c.keys.insert (PublicKey.neutral p none).hash (.neutral p none) } := by
  have hclaim : claimedAlias? (.neutral p none) = none := by
    unfold claimedAlias?
    split <;> rfl
  have hself : PublicKey.ofBytes (PublicKey.neutral p none).bytes (PublicKey.neutral p none).label =
      .neutral p none := rfl
  have hbind : bindAlias c.aliases (.neutral p none) = .ok c.aliases := by
    rw [bindAlias, hclaim]
  simp only [addKey, PublicKey.checkStructure_neutral, checkWhenStrict_ok, hself, hbind, bind,
    Except.bind, pure, Except.pure]

theorem receive_neutralKey (c : TrustChain) {p : Profile} {raw : Bytes}
    (hraw : Record.decode raw = .ok (.publicKey (.neutral p none))) (d : Delivery) :
    c.receive raw d = ({ c with
      keys := c.keys.insert (PublicKey.neutral p none).hash (.neutral p none) }, true) := by
  simp only [receive, hraw, receiveRecord, receiveKey, addKey_neutral]

section

variable {c : TrustChain} {p : Profile} {h : Header} {body : Option Bytes}

/-- A chain that knows the key finds nothing wrong with a revision under it, if the key may
write. -/
theorem acceptable_signNeutral (hc : Keyed c) (hp : p.use = .sign)
    (hkey : c.key? (PublicKey.neutral p none).hash = some (.neutral p none))
    (hentitled : Entitled c (.signNeutral h (.neutral p none) body)
      (PublicKey.neutral p none).hash) :
    ∃ a k, c.Acceptable (.signNeutral h (.neutral p none) body) a k := by
  apply hentitled.acceptable hc ⟨_, hkey, rfl⟩ rfl rfl
  · simp only [Revision.digestMatches, Revision.signNeutral, decide_eq_true_eq]
  · rw [PublicKey.use?_neutral, hp]
  · exact Signing.verify_neutral hp none _

theorem receive_signNeutral (hc : Keyed c) (hp : p.use = .sign)
    (hkey : c.key? (PublicKey.neutral p none).hash = some (.neutral p none))
    (hentitled : Entitled c (.signNeutral h (.neutral p none) body)
      (PublicKey.neutral p none).hash)
    (hstructure : (Revision.signNeutral h (.neutral p none) body).checkStructure = .ok ())
    {raw : Bytes}
    (hraw : Record.decode raw = .ok (.data (.signNeutral h (.neutral p none) body)))
    (d : Delivery) : (c.receive raw d).2 = true := by
  refine (perform_accepted c rfl (Operation.record?_receive hraw d)).mpr
    ⟨fun _ => ?_, acceptable_signNeutral hc hp hkey hentitled⟩
  rw [hstructure, checkWhenStrict_ok]

end

end TrustChain

end Provenance

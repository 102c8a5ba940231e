import Provenance.Revision.Builder
import Provenance.Record.Structure
import Provenance.Proofs.KeyHashes

/-!
# Drafts step by step

A revision is built in any number of steps and then signed with a key pair
(`PrivateKey.SignPair`). `Draft.build_invariant` carries over to the finished draft what every step
keeps. Main statements: `Draft.sign_eq_ok`, what signing makes of a draft, and
`Draft.checkStructure_sign`, that it is without a flaw of structure.
-/

namespace Provenance

/-! ## Key pairs -/

/-- Both halves are of one profile for signing, and the public half carries its own hash. -/
structure PrivateKey.SignPair (k : PrivateKey) (p : Profile) : Prop where
  publicHalf : Profile.detect k.publicKey.bytes = .ok p
  secretHalf : Profile.detect k.secretBytes = .ok p
  forSigning : p.use = .sign
  hashMatches : k.publicKey.hashMatches = true

/-- Every secret of 32 bytes makes such a pair. -/
theorem PrivateKey.signPair_ofSecret {p : Profile} (hp : p.use = .sign) {secret : Bytes}
    (h : secret.length = 32) : (ofSecret p secret).SignPair p where
  publicHalf := profile_ofSecret p secret
  secretHalf := Profile.detect_encode p secret h
  forSigning := hp
  hashMatches := PublicKey.hashMatches_ofBytes _ none

theorem PrivateKey.rawKey_ofSecret {p : Profile} (hp : p.use = .sign) (secret : Bytes) :
    Profile.rawKey (ofSecret p secret).publicKey.bytes = Ed25519.publicPoint secret := by
  rw [ofSecret, PublicKey.ofBytes, Profile.rawKey_encode, Profile.publicPoint, hp]

theorem PrivateKey.SignPair.withLabel {k : PrivateKey} {p : Profile} (h : k.SignPair p)
    (label : String) : (k.withLabel label).SignPair p :=
  ⟨h.publicHalf, h.secretHalf, h.forSigning, h.hashMatches⟩

theorem Anchor.signPair_write : write.SignPair .sign64 := by
  have hl : ∀ key nonce, ((ChaCha20.block key nonce 0).take 32).length = 32 := by
    intro key nonce
    simp
  exact (PrivateKey.signPair_ofSecret rfl (hl _ _)).withLabel seed

/-- A signature of the pair holds under any encoded key that has the bytes of its public half. -/
theorem PrivateKey.SignPair.verify_eq {k : PrivateKey} {p : Profile} (h : k.SignPair p)
    (message signature : Bytes) :
    Signing.verify k.publicKey.bytes message signature =
      Ed25519.verify (Profile.rawKey k.publicKey.bytes) (Signing.input p message) signature := by
  simp only [Signing.verify, Profile.detectFor, h.publicHalf, h.forSigning, bind, Except.bind, pure,
    Except.pure, if_true]

namespace Draft

/-! ## Steps -/

inductive Step
  | setVersion (version : VersionId)
  | setParent (parent : VersionId)
  | setImmutable (immutable : Bool)
  | allowWriters (names : List String)
  | allowReaders (names : List String)
  | setBody (body : Bytes)
  | sealBody (key : PublicKey) (text : Bytes) (fresh : SealEntropy)

def perform (d : Draft) : Step → Except RecordError Draft
  | .setVersion version => .ok (d.setVersion version)
  | .setParent parent => .ok (d.setParent parent)
  | .setImmutable immutable => .ok (d.setImmutable immutable)
  | .allowWriters names => .ok (d.allowWriters names)
  | .allowReaders names => .ok (d.allowReaders names)
  | .setBody body => .ok (d.setBody body)
  | .sealBody key text fresh => d.sealBody key text fresh

/-- The draft after a list of steps, unless one of them fails. -/
def build (d : Draft) : List Step → Except RecordError Draft
  | [] => .ok d
  | step :: steps =>
    match d.perform step with
    | .ok d => d.build steps
    | .error e => .error e

theorem build_invariant {P : Draft → Prop} {steps : List Step}
    (hstep : ∀ d d' step, step ∈ steps → P d → d.perform step = .ok d' → P d') {d d' : Draft}
    (hd : P d) (h : d.build steps = .ok d') : P d' := by
  induction steps generalizing d with
  | nil =>
    cases h
    exact hd
  | cons step steps ih =>
    rw [build] at h
    split at h
    · rename_i d₁ hd₁
      apply ih (fun d d' s hs => hstep d d' s (List.mem_cons_of_mem step hs)) ?_ h
      exact hstep d d₁ step (List.mem_cons_self ..) hd hd₁
    · cases h

/-! ## What a step does to the header -/

theorem sealBody_eq_ok {d d' : Draft} {key : PublicKey} {text : Bytes} {fresh : SealEntropy}
    (h : d.sealBody key text fresh = .ok d') :
    ∃ sealedText, Sealing.sealTo key.bytes text fresh = .ok sealedText ∧ d' = {
      header := { d.header with
        recipient := some key.hash
        readers := d.header.readers.insert key.hash }
      body := some sealedText } := by
  unfold sealBody at h
  split at h
  · split at h
    · cases h
    · rename_i sealedText hsealed
      cases h
      exact ⟨sealedText, hsealed, rfl⟩
  · cases h

theorem perform_payloadType {d d' : Draft} {step : Step} (h : d.perform step = .ok d') :
    d'.header.payloadType = d.header.payloadType := by
  cases step with
  | sealBody key text fresh =>
    obtain ⟨sealedText, -, rfl⟩ := sealBody_eq_ok h
    rfl
  | _ =>
    cases h
    rfl

/-- A step names no recipient, or the recipient that it seals to. -/
theorem perform_recipient {d d' : Draft} {step : Step} {hash : String}
    (h : d.perform step = .ok d') (hr : d'.header.recipient = some hash) :
    d.header.recipient = some hash ∨
      ∃ key text fresh, step = .sealBody key text fresh ∧ key.hash = hash := by
  cases step with
  | sealBody key text fresh =>
    obtain ⟨sealedText, -, rfl⟩ := sealBody_eq_ok h
    exact Or.inr ⟨key, text, fresh, rfl, Option.some.inj hr⟩
  | setBody body =>
    cases h
    cases hr
  | _ =>
    cases h
    exact Or.inl hr

theorem build_payloadType {id : ObjectId} {version : VersionId} {payloadType : String}
    {steps : List Step} {d : Draft} (h : (new id version payloadType).build steps = .ok d) :
    d.header.payloadType = payloadType :=
  build_invariant (P := fun d => d.header.payloadType = payloadType)
    (fun _ _ _ _ hd hs => (perform_payloadType hs).trans hd) rfl h

theorem build_recipient {id : ObjectId} {version : VersionId} {payloadType : String}
    {steps : List Step} {d : Draft} (h : (new id version payloadType).build steps = .ok d)
    {hash : String} (hr : d.header.recipient = some hash) :
    ∃ key text fresh, .sealBody key text fresh ∈ steps ∧ key.hash = hash := by
  refine build_invariant (P := fun d => ∀ hash, d.header.recipient = some hash →
    ∃ key text fresh, .sealBody key text fresh ∈ steps ∧ key.hash = hash) ?_ ?_ h hash hr
  · intro d d' step hmem hd hs hash hr
    rcases perform_recipient hs hr with hold | ⟨key, text, fresh, rfl, hk⟩
    · exact hd hash hold
    · exact ⟨key, text, fresh, hmem, hk⟩
  · intro hash hr
    cases hr

/-! ## Signing -/

theorem sign_eq_ok {k : PrivateKey} {p : Profile} (hk : k.SignPair p) (d : Draft) (r : Revision) :
    d.sign k = .ok r ↔
      r.header = { d.header with signer := some k.hash } ∧ r.body = d.body ∧
        r.attestation = some ⟨r.header.digest r.body, Ed25519.sign (Profile.rawKey k.secretBytes)
          (Signing.input p (r.header.digest r.body))⟩ := by
  have hsign : ∀ message, Signing.sign k.secretBytes message =
      .ok (Ed25519.sign (Profile.rawKey k.secretBytes) (Signing.input p message)) := by
    intro message
    simp only [Signing.sign, Profile.detectFor, hk.secretHalf, hk.forSigning, bind, Except.bind,
      pure, Except.pure, if_true]
  simp only [sign, hsign, bind, Except.bind, pure, Except.pure, Except.ok.injEq]
  constructor
  · rintro rfl
    exact ⟨rfl, rfl, rfl⟩
  · obtain ⟨header, attestation, body⟩ := r
    rintro ⟨hh, hb, ha⟩
    simp only at hh hb ha
    subst hh hb ha
    rfl

theorem sign_isOk {k : PrivateKey} {p : Profile} (hk : k.SignPair p) (d : Draft) :
    ∃ r, d.sign k = .ok r := by
  let header : Header := { d.header with signer := some k.hash }
  let signature := Ed25519.sign (Profile.rawKey k.secretBytes)
    (Signing.input p (header.digest d.body))
  exact ⟨⟨header, some ⟨header.digest d.body, signature⟩, d.body⟩,
    (sign_eq_ok hk d _).mpr ⟨rfl, rfl, rfl⟩⟩

/-- What is signed with a key pair is without a flaw, unless the payload type is missing or the
revision is its own parent. -/
theorem checkStructure_sign {id : ObjectId} {version : VersionId} {payloadType : String}
    {steps : List Step} {d : Draft} {k : PrivateKey} {p : Profile} {r : Revision}
    (hbuild : (new id version payloadType).build steps = .ok d)
    (hseal : ∀ key text fresh, .sealBody key text fresh ∈ steps → key.hashMatches = true)
    (hk : k.SignPair p) (hsign : d.sign k = .ok r) (htype : payloadType ≠ "")
    (hparent : r.header.parent ≠ some r.header.version) : r.checkStructure = .ok () := by
  obtain ⟨hheader, -, ha⟩ := (sign_eq_ok hk d r).mp hsign
  have hne : ∀ key : PublicKey, key.hashMatches = true → key.hash ≠ "" := by
    intro key hm
    rw [← PublicKey.hashMatches_iff.mp hm]
    exact keyHash_ne_empty key.bytes
  have htype' : r.header.payloadType ≠ "" := by
    rw [hheader]
    show d.header.payloadType ≠ ""
    rw [build_payloadType hbuild]
    exact htype
  have hsigner : r.header.signer.getD "" ≠ "" := by
    rw [hheader]
    exact hne k.publicKey hk.hashMatches
  have hrecipient : r.header.recipient ≠ some "" := by
    rw [hheader]
    intro hr
    obtain ⟨key, text, fresh, hmem, hk⟩ := build_recipient hbuild hr
    exact hne key (hseal key text fresh hmem) hk
  have hdigest : (r.header.digest r.body).length = digestSize := length_sha256 _
  have hsignature : ∀ secret message, Ed25519.sign secret message ≠ [] := by
    intro secret message hnil
    have hl := Ed25519.length_sign secret message
    rw [hnil] at hl
    exact absurd hl (by decide)
  unfold Revision.checkStructure
  rw [if_neg htype', if_neg hparent, ha]
  show Attestation.check _ r.header = .ok ()
  unfold Attestation.check
  rw [if_neg hsigner, if_neg (by rw [hdigest]; exact fun h => h rfl), if_neg (hsignature _ _),
    if_neg hrecipient]

end Draft

end Provenance

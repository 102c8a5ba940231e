import Provenance.Proofs.Drafts
import Provenance.Proofs.Ed25519
import Provenance.Proofs.RecordRoundTrip
import Provenance.Proofs.Registry

/-!
# Honest writers

A revision that was built step by step and signed with a key pair is accepted exactly if the chain
knows the key (`Knows`), the object is not immutable, the parent is there and the write set admits
the key (`Entitled`). Main statement: `run_honestWriter`.

The chain knows keys by their hashes, so that whoever finds a second key of the same SHA-256 may
stand in for the first (`Collides`). Nothing else comes between the two halves of the statement.
-/

namespace Provenance.TrustChain

/-! ## Who may write -/

/-- The bytes of this key stand under its hash. -/
def Knows (c : TrustChain) (k : PublicKey) : Prop :=
  ∃ stored, c.key? k.hash = some stored ∧ stored.bytes = k.bytes

/-- Another key of the same SHA-256 stands in the place of this one. -/
def Collides (c : TrustChain) (k : PublicKey) : Prop :=
  ∃ stored, c.key? k.hash = some stored ∧ stored.bytes ≠ k.bytes ∧
    sha256 stored.bytes = sha256 k.bytes

/-- Where something stands under the hash of a key, it is the key or collides with it. -/
theorem knows_or_collides {c : TrustChain} (hc : Keyed c) {k : PublicKey}
    (hkey : c.hasKey k.hash = true) (hmatches : k.hashMatches = true) :
    Knows c k ∨ Collides c k := by
  obtain ⟨stored, hstored⟩ := Option.isSome_iff_exists.mp hkey
  by_cases hbytes : stored.bytes = k.bytes
  · exact Or.inl ⟨stored, hstored, hbytes⟩
  · obtain ⟨-, hname⟩ := hc k.hash stored hstored
    have hk := PublicKey.hashMatches_iff.mp hmatches
    exact Or.inr ⟨stored, hstored, hbytes, sha256_eq_of_keyHash_eq (hname.trans hk.symm)⟩

/-- Nothing stands against a revision by the key of this hash. -/
structure Entitled (c : TrustChain) (r : Revision) (hash : String) : Prop where
  notImmutable : c.isImmutable r.id = false
  parent : ∀ parent, r.header.parent = some parent →
    ∃ e ∈ c.entries r.id, e.revision.version = parent
  admitted : c.Admits (c.writersFor r.header) hash

theorem Entitled.acceptable {c : TrustChain} (hc : Keyed c) {r : Revision} {k : PublicKey}
    (h : Entitled c r k.hash) (hknows : Knows c k) {a : Attestation} (ha : r.attestation = some a)
    (hsigner : r.header.signer = some k.hash) (hdigest : r.digestMatches = true)
    (huse : k.use? = some .sign) (hverify : Signing.verify k.bytes a.digest a.signature = true) :
    ∃ a k, c.Acceptable r a k := by
  obtain ⟨stored, hstored, hbytes⟩ := hknows
  obtain ⟨hhash, hmatches⟩ := hc k.hash stored hstored
  have huse' : stored.use? = k.use? := by
    unfold PublicKey.use? PublicKey.profile
    rw [hbytes]
  refine ⟨a, stored, ⟨ha, ?_, ?_, ?_, ?_, h.parent, h.notImmutable⟩, ?_⟩
  · rw [hsigner, hhash]
  · rw [hhash, hstored]
  · rw [PublicKey.hashMatches_iff, hmatches, hhash]
  · simp only [Validator.attests, Bool.and_eq_true, decide_eq_true_eq]
    rw [huse', hbytes]
    exact ⟨⟨huse, hdigest⟩, hverify⟩
  · rw [hhash]
    exact h.admitted

/-- What a chain accepts comes from a signer who is entitled, and whose key is known unless another
key collides with it. -/
theorem Acceptable.entitled {c : TrustChain} (hc : Keyed c) {r : Revision} {a : Attestation}
    {stored k : PublicKey} (h : c.Acceptable r a stored) (hsigner : r.header.signer = some k.hash)
    (hmatches : k.hashMatches = true) : (Knows c k ∨ Collides c k) ∧ Entitled c r k.hash := by
  have hhash : stored.hash = k.hash := Option.some.inj (h.signer.symm.trans hsigner)
  have hstored : c.key? k.hash = some stored := by
    rw [← hhash]
    exact h.known
  constructor
  · exact knows_or_collides hc (hasKey_of_key? hstored) hmatches
  · have hadmitted := h.admitted
    rw [hhash] at hadmitted
    exact ⟨h.notImmutable, h.parent, hadmitted⟩

/-! ## Every run -/

/-- **Honest writers.** After any run, a revision that was built in any steps and signed with a key
pair is accepted when it arrives if its signer is known and entitled, and only then, where a
collision may pass for a known signer. When it is accepted, it is the one new entry of its object,
which exists from then on exactly if the revision has a body. All sizes in the record are numbers of
64 bits. -/
theorem run_honestWriter (partition : PartitionKey) (strict : Bool) (journals : List Journal)
    (ops : List Operation) {k : PrivateKey} {p : Profile} (hk : k.SignPair p) {id : ObjectId}
    {version : VersionId} {payloadType : String} {steps : List Draft.Step} {draft : Draft}
    (hbuild : (Draft.new id version payloadType).build steps = .ok draft)
    (hseal : ∀ key text fresh, .sealBody key text fresh ∈ steps → key.hashMatches = true)
    {r : Revision} (hsign : draft.sign k = .ok r) (htype : payloadType ≠ "")
    (hparent : r.header.parent ≠ some r.header.version) (hsized : r.toItem.isSized = true)
    (hverify : ∀ a, r.attestation = some a → Ed25519.verify (Profile.rawKey k.publicKey.bytes)
      (Signing.input p a.digest) a.signature = true)
    (d : Delivery) :
    let c := (start partition strict journals).run ops
    let outcome := c.receive (Record.encode (.data r)) d
    (Knows c k.publicKey ∧ Entitled c r k.hash → outcome.2 = true) ∧
      (outcome.2 = true →
        (Knows c k.publicKey ∨ Collides c k.publicKey) ∧ Entitled c r k.hash) ∧
        (outcome.2 = true → outcome.1.entries r.id = c.entries r.id ++ [⟨r, d⟩] ∧
          outcome.1.hasObject r.id = r.hasBody) := by
  intro c outcome
  have hkeyed : Keyed c := run_keyed (keyed_start partition strict journals) ops
  obtain ⟨hheader, -, ha⟩ := (Draft.sign_eq_ok hk draft r).mp hsign
  have hsigner : r.header.signer = some k.publicKey.hash := by
    rw [hheader]
    rfl
  have hdecode : Record.decode (Record.encode (.data r)) = .ok (.data r) := by
    have h := Record.decode_encode_data hsized []
    rw [List.append_nil] at h
    exact h
  have hrecord : (Operation.receive (Record.encode (.data r)) d).record? = some (.data r) := by
    simp only [Operation.record?, hdecode, Except.toOption]
  have hstructure : c.checkWhenStrict r.checkStructure = .ok () := by
    rw [Draft.checkStructure_sign hbuild hseal hk hsign htype hparent]
    unfold checkWhenStrict
    split <;> rfl
  have haccepted : outcome.2 = true ↔ ∃ a k, c.Acceptable r a k := by
    refine (perform_accepted c rfl hrecord).trans ?_
    simp only [hstructure, implies_true, true_and]
  refine ⟨fun h => ?_, fun h => ?_, fun h => ?_⟩
  · rw [haccepted]
    apply h.2.acceptable hkeyed h.1 ha hsigner
    · simp only [Revision.digestMatches, ha, decide_eq_true_eq]
    · exact PublicKey.use?_eq_some.mpr ⟨p, hk.publicHalf, hk.forSigning⟩
    · rw [hk.verify_eq]
      exact hverify _ ha
  · obtain ⟨a, stored, hacc⟩ := haccepted.mp h
    exact hacc.entitled hkeyed hsigner hk.hashMatches
  · obtain ⟨js, hjs⟩ := perform_append rfl hrecord rfl h
    constructor
    · have hentries := entries_of_append hjs r.id
      rw [if_pos rfl] at hentries
      exact hentries
    · apply hasObject_of_append hjs
      rw [Revision.isSigned, ha]
      rfl

/-- An object that is anchored for the public writer under its alias, and a draft of its first
revision. -/
def publicRoot : Header :=
  { Header.anchor ⟨.replicate 1⟩ ⟨.replicate 2⟩ "Account" with
    writers := NameSet.ofList [Anchor.seed] }

def publicSteps : List Draft.Step := [.setParent publicRoot.version, .setBody [1, 2, 3]]

def publicDraft : Draft where
  header := { Header.anchor publicRoot.id ⟨.replicate 3⟩ "Account" with
    parent := some publicRoot.version }
  body := some [1, 2, 3]

def publicHeader : Header := { publicDraft.header with signer := some Anchor.write.hash }

def publicRevision : Revision where
  header := publicHeader
  attestation := some ⟨publicHeader.digest (some [1, 2, 3]),
    Ed25519.sign (Profile.rawKey Anchor.write.secretBytes)
      (Signing.input .sign64 (publicHeader.digest (some [1, 2, 3])))⟩
  body := some [1, 2, 3]

theorem header_publicRevision : publicRevision.header = publicHeader := rfl

set_option maxRecDepth 100000 in
theorem publicRevision_facts :
    let c := (start ⟨"accounts", 0, .data⟩ true []).run [.addRoot publicRoot (.direct 0 0)]
    c.key? Anchor.write.hash = some Anchor.write.publicKey ∧
      c.resolve? Anchor.seed = some Anchor.write.hash ∧
        c.writersFor publicHeader = NameSet.ofList [Anchor.seed] ∧
          publicRevision.toItem.isSized = true := by
  decide +kernel

theorem publicRevision_verifies : ∀ a, publicRevision.attestation = some a →
    Ed25519.verify (Profile.rawKey Anchor.write.publicKey.bytes) (Signing.input .sign64 a.digest)
      a.signature = true := by
  intro a ha
  have hpublic : Profile.rawKey Anchor.write.publicKey.bytes =
      Ed25519.publicPoint (Profile.rawKey Anchor.write.secretBytes) :=
    PrivateKey.rawKey_ofSecret rfl _
  simp only [publicRevision, Option.some.injEq] at ha
  subst ha
  rw [hpublic]
  exact Ed25519.verify_sign (Profile.rawKey Anchor.write.secretBytes)
    (Signing.input .sign64 (publicHeader.digest (some [1, 2, 3])))

/-- The public writer is entitled through its alias, so that the revision is accepted. -/
theorem publicRevision_accepted :
    let c := (start ⟨"accounts", 0, .data⟩ true []).run [.addRoot publicRoot (.direct 0 0)]
    (c.receive (Record.encode (.data publicRevision)) (.direct 0 0)).2 = true ∧
      (c.receive (Record.encode (.data publicRevision)) (.direct 0 0)).1.entries publicRevision.id =
        c.entries publicRevision.id ++ [⟨publicRevision, .direct 0 0⟩] ∧
      (c.receive (Record.encode (.data publicRevision)) (.direct 0 0)).1.hasObject
        publicRevision.id = publicRevision.hasBody := by
  intro c
  obtain ⟨hkey, halias, hwriters, hsized⟩ := publicRevision_facts
  have hentitled : Entitled c publicRevision Anchor.write.hash := by
    refine ⟨by decide, ?_, ?_⟩
    · intro parent hp
      exact ⟨⟨Revision.ofHeader publicRoot, .direct 0 0⟩, List.mem_singleton_self _,
        Option.some.inj hp⟩
    · have hmem : Anchor.seed ∈ c.writersFor publicRevision.header := by
        rw [header_publicRevision, hwriters, NameSet.mem_ofList]
        exact List.mem_singleton_self _
      exact Or.inr (Or.inr ⟨Anchor.seed, hmem, halias⟩)
  have hbuild : (Draft.new publicRoot.id ⟨.replicate 3⟩ "Account").build publicSteps =
      .ok publicDraft := rfl
  have hseal : ∀ key text fresh, .sealBody key text fresh ∈ publicSteps →
      key.hashMatches = true := by
    intro key text fresh hmem
    simp [publicSteps] at hmem
  have hsign : publicDraft.sign Anchor.write = .ok publicRevision :=
    (Draft.sign_eq_ok Anchor.signPair_write publicDraft publicRevision).mpr ⟨rfl, rfl, rfl⟩
  obtain ⟨haccepts, -, heffect⟩ := run_honestWriter ⟨"accounts", 0, .data⟩ true []
    [.addRoot publicRoot (.direct 0 0)] Anchor.signPair_write hbuild hseal hsign (by decide)
    (by decide) hsized publicRevision_verifies (.direct 0 0)
  have haccepted := haccepts ⟨⟨Anchor.write.publicKey, hkey, rfl⟩, hentitled⟩
  obtain ⟨hentries, hobject⟩ := heffect haccepted
  exact ⟨haccepted, hentries, hobject⟩

end Provenance.TrustChain

import Provenance.Proofs.Judgement

/-!
# What strictness changes

A strict chain and a lenient one in the same state judge a record by the same rules, except that the
strict one looks for flaws of structure first. `Record.Proper` is what this adds; main statement
`TrustChain.receiveRecord_strict`.

Three of the checks of structure add nothing: a validator accepts no revision that has a flaw in its
signer, the length of its digest or its signature (`Validator.attested_of_check`).
-/

namespace Provenance

/-! ## What every accepted revision has -/

theorem Ed25519.length_of_verify {key message signature : Bytes}
    (h : verify key message signature = true) : signature.length = 64 := by
  unfold verify at h
  split at h
  · cases h
  · simp only [Bool.and_eq_true, decide_eq_true_eq] at h
    exact h.1.1

theorem Signing.length_of_verify {key message signature : Bytes}
    (h : verify key message signature = true) : signature.length = 64 := by
  unfold verify at h
  split at h
  · cases h
  · exact Ed25519.length_of_verify h

/-- A signer with a name, a digest of the right length and a signature. -/
structure Revision.Attested (r : Revision) (a : Attestation) : Prop where
  attestation : r.attestation = some a
  signer : r.header.signer.getD "" ≠ ""
  digest : a.digest.length = digestSize
  signature : a.signature ≠ []

/-- The name is the hash of the signer's bytes, the digest is that of the revision, and only
signatures of 64 bytes are verified. -/
theorem Validator.attested_of_check {v : Validator} {r : Revision} (h : v.check r = .ok ()) :
    ∃ a, r.Attested a := by
  obtain ⟨a, k, ha, hkey, hattests, -⟩ := (check_eq_ok v r).mp h
  obtain ⟨hsigner, -, hmatches⟩ := signerKey?_eq_some.mp hkey
  simp only [attests, Bool.and_eq_true, decide_eq_true_eq] at hattests
  obtain ⟨⟨-, hdigest⟩, hverify⟩ := hattests
  refine ⟨a, ha, ?_, ?_, ?_⟩
  · rw [hsigner, Option.getD_some, ← PublicKey.hashMatches_iff.mp hmatches]
    exact keyHash_ne_empty k.bytes
  · simp only [Revision.digestMatches, ha, decide_eq_true_eq] at hdigest
    rw [hdigest]
    exact length_sha256 _
  · intro hnil
    have hl := Signing.length_of_verify hverify
    rw [hnil] at hl
    exact absurd hl (by decide)

/-! ## What strictness adds -/

/-- What a strict chain wants of a revision, and a lenient one does not. -/
structure Revision.Proper (r : Revision) : Prop where
  payloadType : r.header.payloadType ≠ ""
  parent : r.header.parent ≠ some r.header.version
  recipient : r.header.recipient ≠ some ""

structure PublicKey.Proper (k : PublicKey) : Prop where
  profile : ∃ p, k.profile = .ok p
  hash : k.hash = keyHash k.bytes

structure Castle.Proper (castle : Castle) : Prop where
  held : castle.lookup.entries ≠ []
  filled : ∀ e ∈ castle.lookup.entries, e.2 ≠ []

def Record.Proper : Record → Prop
  | .data r => r.Proper
  | .publicKey k => k.Proper
  | .castle c => c.Proper

/-- For a revision that is attested, the checks of structure come down to those of the header. -/
theorem Revision.Attested.checkStructure_eq_ok {r : Revision} {a : Attestation}
    (h : r.Attested a) : r.checkStructure = .ok () ↔ r.Proper := by
  unfold checkStructure
  simp only [h.attestation, Attestation.check, h.signer, h.digest, h.signature, ne_eq,
    not_true_eq_false, if_false]
  constructor
  · intro hok
    split at hok
    · cases hok
    · rename_i htype
      split at hok
      · cases hok
      · rename_i hparent
        split at hok
        · cases hok
        · rename_i hrecipient
          exact ⟨htype, hparent, hrecipient⟩
  · intro hproper
    rw [if_neg hproper.payloadType, if_neg hproper.parent, if_neg hproper.recipient]

theorem Revision.Attested.flaw_mem {r : Revision} {a : Attestation} (h : r.Attested a) {flaw : Flaw}
    (hflaw : r.checkStructure = .error flaw) :
    flaw ∈ [Flaw.missingPayloadType, .selfParent, .missingRecipient] := by
  unfold checkStructure at hflaw
  simp only [h.attestation, Attestation.check, h.signer, h.digest, h.signature, ne_eq,
    not_true_eq_false, if_false] at hflaw
  split at hflaw
  · cases hflaw
    decide
  · split at hflaw
    · cases hflaw
      decide
    · split at hflaw <;> cases hflaw
      decide

theorem PublicKey.checkStructure_eq_ok {k : PublicKey} :
    k.checkStructure = .ok () ↔ k.Proper := by
  unfold checkStructure
  constructor
  · intro hok
    split at hok
    · cases hok
    · rename_i p hprofile
      split at hok
      · rename_i hmatches
        exact ⟨⟨p, hprofile⟩, (hashMatches_iff.mp hmatches).symm⟩
      · cases hok
  · rintro ⟨⟨p, hprofile⟩, hhash⟩
    rw [hprofile, if_pos (hashMatches_iff.mpr hhash.symm)]

theorem Castle.checkStructure_eq_ok {castle : Castle} (hid : castle.id ≠ none) :
    castle.checkStructure = .ok () ↔ castle.Proper := by
  have hflawed : (castle.lookup.isEmpty || castle.lookup.values.any List.isEmpty) = false ↔
      castle.Proper := by
    rw [Bool.or_eq_false_iff, NameMap.isEmpty, List.isEmpty_eq_false_iff, NameMap.values,
      List.any_eq_false]
    constructor
    · rintro ⟨hheld, hfilled⟩
      exact ⟨hheld, fun e he hnil => hfilled e.2 (List.mem_map_of_mem he) (by rw [hnil]; rfl)⟩
    · rintro ⟨hheld, hfilled⟩
      refine ⟨hheld, fun value hvalue hnil => ?_⟩
      obtain ⟨e, he, rfl⟩ := List.mem_map.mp hvalue
      exact hfilled e he (List.isEmpty_iff.mp hnil)
  rw [checkStructure, if_neg hid, ← hflawed]
  cases castle.lookup.isEmpty || castle.lookup.values.any List.isEmpty <;> simp

/-! ## Two chains in one state -/

namespace TrustChain

/-- The chain with its checks of structure switched on or off. -/
def withStrictness (c : TrustChain) (strict : Bool) : TrustChain := { c with strict := strict }

section

variable (c : TrustChain) (d : Delivery)

theorem receiveRevision_accepted (r : Revision) :
    (c.receiveRevision r d).2 = true ↔
      c.checkWhenStrict r.checkStructure = .ok () ∧ c.validator.check r = .ok () := by
  unfold receiveRevision
  split
  · rename_i flaw hflaw
    simp [dropRevision, hflaw]
  · rename_i hok
    rw [hok]
    split
    · unfold promote
      cases c.validator.check r <;> simp [dropRevision]
    · rename_i hsigned
      -- A validator accepts nothing without a digest.
      have hunsigned : c.validator.check r ≠ .ok () := by
        intro hcheck
        obtain ⟨a, ha⟩ := Validator.attested_of_check hcheck
        exact hsigned (by rw [Revision.isSigned, ha.attestation]; rfl)
      simp [dropRevision, hunsigned]

/-- Accepted revisions are committed, whatever the chain checked before. -/
theorem receiveRevision_eq {r : Revision} (h : (c.receiveRevision r d).2 = true) :
    c.receiveRevision r d = (c.commit r d, true) := by
  obtain ⟨hstructure, hcheck⟩ := (receiveRevision_accepted c d r).mp h
  obtain ⟨a, ha⟩ := Validator.attested_of_check hcheck
  have hsigned : r.isSigned = true := by rw [Revision.isSigned, ha.attestation]; rfl
  rw [receiveRevision, hstructure]
  simp only [hsigned, if_true, promote, hcheck]

/-- The same of keys and castles. -/
theorem receiveKey_eq {k : PublicKey} (h : (c.receiveKey k d).2 = true) :
    ∃ aliases, bindAlias c.aliases (PublicKey.ofBytes k.bytes k.label) = .ok aliases ∧
      (c.receiveKey k d).1 = { c with
        aliases := aliases
        keys := c.keys.insert (keyHash k.bytes) (PublicKey.ofBytes k.bytes k.label) } := by
  unfold receiveKey at h ⊢
  split at h
  · cases h
  · rename_i c' hadd
    obtain ⟨aliases, -, hbind, heq⟩ := addKey_eq_ok hadd
    exact ⟨aliases, hbind, heq⟩

theorem receiveKey_accepted (k : PublicKey) :
    (c.receiveKey k d).2 = true ↔ ∃ c', c.addKey k = .ok c' := by
  unfold receiveKey
  cases c.addKey k <;> simp

theorem receiveCastle_accepted (castle : Castle) :
    (c.receiveCastle castle d).2 = true ↔
      c.checkWhenStrict castle.checkStructure = .ok () ∧ ∃ c', c.addCastle castle = .ok c' := by
  unfold receiveCastle
  cases c.checkWhenStrict castle.checkStructure with
  | error flaw => simp [bind, Except.bind]
  | ok u => cases c.addCastle castle <;> simp [bind, Except.bind]

theorem receiveCastle_eq {castle : Castle} (h : (c.receiveCastle castle d).2 = true) :
    ∃ id, castle.id = some id ∧
      (c.receiveCastle castle d).1 = { c with castles := c.castles.insert id castle } := by
  obtain ⟨hstructure, c', hadd⟩ := (receiveCastle_accepted c d castle).mp h
  obtain ⟨id, hid, rfl⟩ := addCastle_eq_ok hadd
  refine ⟨id, hid, ?_⟩
  simp only [receiveCastle, hstructure, hadd, bind, Except.bind]

end

section

variable (c : TrustChain) (d : Delivery)

theorem receiveRevision_strict (r : Revision) :
    ((c.withStrictness true).receiveRevision r d).2 = true ↔
      ((c.withStrictness false).receiveRevision r d).2 = true ∧ r.Proper := by
  rw [receiveRevision_accepted, receiveRevision_accepted]
  simp only [checkWhenStrict, withStrictness, if_true, Bool.false_eq_true, if_false, true_and]
  rw [and_comm]
  refine and_congr_right (fun hcheck => ?_)
  obtain ⟨a, ha⟩ := Validator.attested_of_check hcheck
  exact ha.checkStructure_eq_ok

theorem receiveKey_strict (k : PublicKey) :
    ((c.withStrictness true).receiveKey k d).2 = true ↔
      ((c.withStrictness false).receiveKey k d).2 = true ∧ k.Proper := by
  rw [receiveKey_accepted, receiveKey_accepted, addKey_isOk, addKey_isOk,
    ← PublicKey.checkStructure_eq_ok]
  simp only [checkWhenStrict, withStrictness, if_true, Bool.false_eq_true, if_false, true_and]
  exact and_comm

theorem receiveCastle_strict (castle : Castle) :
    ((c.withStrictness true).receiveCastle castle d).2 = true ↔
      ((c.withStrictness false).receiveCastle castle d).2 = true ∧ castle.Proper := by
  rw [receiveCastle_accepted, receiveCastle_accepted]
  simp only [checkWhenStrict, withStrictness, if_true, Bool.false_eq_true, if_false, true_and]
  have hadd : ∀ strict, (∃ c', { c with strict := strict }.addCastle castle = .ok c') ↔
      castle.id ≠ none := by
    intro strict
    unfold addCastle
    cases castle.id <;> simp
  rw [hadd, hadd, and_comm]
  exact and_congr_right Castle.checkStructure_eq_ok

/-- Nothing that a validator wants to see is found missing by the checks of structure. -/
theorem receiveRevision_unattested {r : Revision} {flaw : Flaw}
    (hmem : flaw ∈ [Flaw.missingSigner, .digestLength, .missingSignature])
    (hflaw : r.checkStructure = .error flaw) : (c.receiveRevision r d).2 = false := by
  rw [← Bool.not_eq_true]
  intro haccepted
  obtain ⟨-, hcheck⟩ := (receiveRevision_accepted c d r).mp haccepted
  obtain ⟨a, ha⟩ := Validator.attested_of_check hcheck
  have hother := ha.flaw_mem hflaw
  simp only [List.mem_cons, List.not_mem_nil, or_false] at hmem hother
  rcases hmem with rfl | rfl | rfl <;> simp at hother

/-- Accepted twice, a record does the same to both chains. -/
theorem receiveRecord_same {record : Record}
    (hstrict : ((c.withStrictness true).receiveRecord record d).2 = true)
    (hlenient : ((c.withStrictness false).receiveRecord record d).2 = true) :
    ((c.withStrictness true).receiveRecord record d).1 =
      ((c.withStrictness false).receiveRecord record d).1.withStrictness true := by
  cases record with
  | data r =>
    simp only [receiveRecord] at hstrict hlenient ⊢
    rw [receiveRevision_eq _ d hstrict, receiveRevision_eq _ d hlenient]
    rfl
  | publicKey k =>
    simp only [receiveRecord] at hstrict hlenient ⊢
    obtain ⟨aliases, hbind, heq⟩ := receiveKey_eq _ d hstrict
    obtain ⟨aliases', hbind', heq'⟩ := receiveKey_eq _ d hlenient
    obtain rfl : aliases = aliases' := Except.ok.inj (hbind.symm.trans hbind')
    rw [heq, heq']
    rfl
  | castle castle =>
    simp only [receiveRecord] at hstrict hlenient ⊢
    obtain ⟨id, hid, heq⟩ := receiveCastle_eq _ d hstrict
    obtain ⟨id', hid', heq'⟩ := receiveCastle_eq _ d hlenient
    obtain rfl : id = id' := Option.some.inj (hid.symm.trans hid')
    rw [heq, heq']
    rfl

end

/-- **Strictness.** Of two chains in one state, the strict one accepts a record if the lenient one
does and the record is proper, and only then; the two are in one state afterwards. A revision without
a signer, with a digest of another length or without a signature is accepted by neither. -/
theorem receiveRecord_strict (c : TrustChain) (record : Record) (d : Delivery) :
    let strict := (c.withStrictness true).receiveRecord record d
    let lenient := (c.withStrictness false).receiveRecord record d
    (strict.2 = true ↔ lenient.2 = true ∧ record.Proper) ∧
      (strict.2 = true → lenient.2 = true → strict.1 = lenient.1.withStrictness true) ∧
        ∀ r, record = .data r → ∀ flaw ∈ [Flaw.missingSigner, .digestLength, .missingSignature],
          r.checkStructure = .error flaw → strict.2 = false ∧ lenient.2 = false := by
  intro strict lenient
  refine ⟨?_, receiveRecord_same c d, ?_⟩
  · cases record with
    | data r => exact receiveRevision_strict c d r
    | publicKey k => exact receiveKey_strict c d k
    | castle castle => exact receiveCastle_strict c d castle
  · rintro r rfl flaw hmem hflaw
    exact ⟨receiveRevision_unattested _ d hmem hflaw, receiveRevision_unattested _ d hmem hflaw⟩

/-- A key that no profile fits, and one that has a profile. -/
def strangeKey : PublicKey := PublicKey.ofBytes [0] none

def knownKey : PublicKey := PublicKey.neutral .encrypt128 none

theorem receiveKey_unlabelled (c : TrustChain) (d : Delivery) (bytes : Bytes) :
    ((c.withStrictness false).receiveKey (.ofBytes bytes none) d).2 = true := by
  have hclaim : claimedAlias? (.ofBytes bytes none) = none := by
    unfold claimedAlias?
    split <;> rfl
  refine (receiveKey_accepted _ d _).mpr ((addKey_isOk _ _).mpr ⟨rfl, c.aliases, ?_⟩)
  rw [bindAlias, show PublicKey.ofBytes (PublicKey.ofBytes bytes none).bytes
    (PublicKey.ofBytes bytes none).label = .ofBytes bytes none from rfl, hclaim]
  rfl

/-- Only the lenient chain takes the one, and both take the other. -/
theorem strangeKey_strict :
    let c := start ⟨"accounts", 0, .data⟩ true []
    ((c.withStrictness false).receiveRecord (.publicKey strangeKey) (.direct 0 0)).2 = true ∧
      ((c.withStrictness true).receiveRecord (.publicKey strangeKey) (.direct 0 0)).2 = false ∧
        ((c.withStrictness true).receiveRecord (.publicKey knownKey) (.direct 0 0)).1 =
          ((c.withStrictness false).receiveRecord (.publicKey knownKey)
            (.direct 0 0)).1.withStrictness true := by
  intro c
  have hstrange : ¬ strangeKey.Proper := by
    rintro ⟨⟨p, hp⟩, -⟩
    cases hp
  have hknown : knownKey.Proper := ⟨⟨.encrypt128, rfl⟩, rfl⟩
  have hlenient : ∀ bytes, ((c.withStrictness false).receiveRecord
      (.publicKey (.ofBytes bytes none)) (.direct 0 0)).2 = true :=
    receiveKey_unlabelled c (.direct 0 0)
  refine ⟨hlenient _, ?_, ?_⟩
  · obtain ⟨hiff, -⟩ := receiveRecord_strict c (.publicKey strangeKey) (.direct 0 0)
    rw [← Bool.not_eq_true, hiff]
    exact fun h => hstrange h.2
  · obtain ⟨hiff, hsame, -⟩ := receiveRecord_strict c (.publicKey knownKey) (.direct 0 0)
    exact hsame (hiff.mpr ⟨hlenient _, hknown⟩) (hlenient _)

end TrustChain

end Provenance

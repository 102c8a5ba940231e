import Provenance.Proofs.NeutralKey
import Provenance.Proofs.SelfDelimiting

/-!
# Altered revisions

Whoever is not the signer of a revision has only the attestation that it carries. Under it no other
header and no other bytes of a body are accepted (`Validator.check_altered`), unless they make a
collision of SHA-256.

One alteration remains. A digest covers the bytes of the body and nothing tells it whether there is
a body, so that a tombstone and a revision with an empty payload share their attestations
(`Revision.EmptyTwin`). Everybody can turn the one into the other.
-/

namespace Provenance

namespace Revision

/-- What the digest of a revision covers. -/
def signedBytes (r : Revision) : Bytes := r.header.digestInput r.body

/-- The two are the same, except that one has an empty body and the other has none. -/
structure EmptyTwin (r r' : Revision) : Prop where
  header : r'.header = r.header
  attestation : r'.attestation = r.attestation
  body : (r.body = none ∧ r'.body = some []) ∨ (r.body = some [] ∧ r'.body = none)

theorem digestMatches_iff {r : Revision} {a : Attestation} (ha : r.attestation = some a) :
    r.digestMatches = true ↔ a.digest = sha256 r.signedBytes := by
  simp only [digestMatches, ha, decide_eq_true_eq]
  rfl

theorem EmptyTwin.signedBytes_eq {r r' : Revision} (h : EmptyTwin r r') :
    r'.signedBytes = r.signedBytes := by
  unfold signedBytes Header.digestInput
  rw [h.header]
  rcases h.body with ⟨hb, hb'⟩ | ⟨hb, hb'⟩ <;> rw [hb, hb'] <;> rfl

theorem EmptyTwin.isTombstone_eq {r r' : Revision} (h : EmptyTwin r r')
    (hsigned : r.isSigned = true) : r'.isTombstone = !r.isTombstone := by
  have hsigned' : r'.isSigned = true := by
    rw [isSigned, h.attestation]
    exact hsigned
  rw [isTombstone, isTombstone, hsigned, hsigned', hasBody, hasBody]
  rcases h.body with ⟨hb, hb'⟩ | ⟨hb, hb'⟩ <;> rw [hb, hb'] <;> rfl

/-- Two revisions with one attestation that cover the same bytes are equal or empty twins. -/
theorem eq_or_emptyTwin {r r' : Revision} (hattestation : r'.attestation = r.attestation)
    (hs : r.header.canonicalItem.isSized = true) (hs' : r'.header.canonicalItem.isSized = true)
    (hbytes : r'.signedBytes = r.signedBytes) : r' = r ∨ EmptyTwin r r' := by
  obtain ⟨hheader, hbody⟩ := (Header.digestInput_eq_iff hs' hs r'.body r.body).mp hbytes
  cases hb : r.body with
  | none =>
    cases hb' : r'.body with
    | none =>
      left
      cases r
      cases r'
      simp_all only
    | some bs' =>
      rw [hb, hb'] at hbody
      obtain rfl : bs' = [] := hbody
      exact Or.inr ⟨hheader, hattestation, Or.inl ⟨hb, hb'⟩⟩
  | some bs =>
    cases hb' : r'.body with
    | none =>
      rw [hb, hb'] at hbody
      obtain rfl : bs = [] := hbody.symm
      exact Or.inr ⟨hheader, hattestation, Or.inr ⟨hb, hb'⟩⟩
    | some bs' =>
      rw [hb, hb'] at hbody
      left
      cases r
      cases r'
      simp_all only [Option.getD_some]

end Revision

namespace Validator

open Revision

/-- A validator looks at the body of a revision through its digest alone. -/
theorem check_emptyTwin (v : Validator) {r r' : Revision} (h : EmptyTwin r r') :
    v.check r' = v.check r := by
  have hattests : ∀ k a, r.attestation = some a → attests k r' a = attests k r a := by
    intro k a ha
    have hdigest : r'.digestMatches = r.digestMatches := by
      rw [Bool.eq_iff_iff, digestMatches_iff ha, digestMatches_iff (h.attestation.trans ha),
        h.signedBytes_eq]
    rw [attests, attests, hdigest]
  unfold check
  rw [h.attestation, h.header]
  cases ha : r.attestation with
  | none => rfl
  | some a =>
    cases v.signerKey? r.header with
    | none => rfl
    | some k => simp only [hattests k a ha]

/-- A revision whose digest is not that of its header and body fails one of the first checks. -/
theorem check_of_digest_ne (v : Validator) {r : Revision} {a : Attestation}
    (ha : r.attestation = some a) (hdigest : a.digest ≠ sha256 r.signedBytes) :
    v.check r = .error .invalidSignature ∨ v.check r = .error .unknownSigningKey := by
  have hmismatch : r.digestMatches = false := by
    rw [← Bool.not_eq_true, digestMatches_iff ha]
    exact hdigest
  unfold check
  simp only [ha]
  cases v.signerKey? r.header with
  | none => exact Or.inr rfl
  | some k =>
    left
    simp only [attests, hmismatch, Bool.and_false, Bool.false_and, Bool.false_eq_true, if_false]

/-! ## Every alteration -/

/-- **Altered revisions.** Let a validator accept a revision, and let another one carry the same
attestation and differ in its header or body. Every validator refuses the other one for its signer
or signature, or else the two show a collision of SHA-256. This leaves out the empty twin: every
validator judges it like the revision itself, and it is a tombstone exactly if the revision is none.
All sizes in the headers are numbers of 64 bits. -/
theorem check_altered {v v' : Validator} {r r' : Revision} (haccepted : v.check r = .ok ())
    (hattestation : r'.attestation = r.attestation) (hne : r' ≠ r)
    (hs : r.header.canonicalItem.isSized = true) (hs' : r'.header.canonicalItem.isSized = true) :
    (¬ EmptyTwin r r' →
      (v'.check r' = .error .invalidSignature ∨ v'.check r' = .error .unknownSigningKey) ∨
        Bytes.Collide r.signedBytes r'.signedBytes) ∧
      (EmptyTwin r r' → v'.check r' = v'.check r ∧ r'.isTombstone = !r.isTombstone) := by
  obtain ⟨a, k, ha, -, hattests, -⟩ := (check_eq_ok v r).mp haccepted
  refine ⟨fun htwin => ?_, fun htwin => ⟨check_emptyTwin v' htwin, htwin.isTombstone_eq ?_⟩⟩
  · have hbytes : r.signedBytes ≠ r'.signedBytes := by
      intro e
      rcases eq_or_emptyTwin hattestation hs hs' e.symm with heq | htwin'
      · exact hne heq
      · exact htwin htwin'
    have hdigest : a.digest = sha256 r.signedBytes := by
      simp only [attests, Bool.and_eq_true] at hattests
      exact (digestMatches_iff ha).mp hattests.1.2
    by_cases hsha : sha256 r.signedBytes = sha256 r'.signedBytes
    · exact Or.inr ⟨hbytes, hsha⟩
    · exact Or.inl (check_of_digest_ne v' (hattestation.trans ha) (hdigest ▸ hsha))
  · rw [isSigned, ha]
    rfl

end Validator

/-! ## A tombstone that is revived -/

namespace TrustChain

/-- An object that its owner deletes with the first revision. -/
def eraser : PublicKey := PublicKey.neutral .sign64 none

def erased : Revision :=
  Revision.signNeutral
    { Header.anchor ⟨.replicate 1⟩ ⟨.replicate 2⟩ "Account" with
      writers := NameSet.ofList [eraser.hash] } eraser none

/-- The tombstone with a body put into it, and the tombstone made immutable. -/
def revived : Revision := { erased with body := some [] }

def sealed : Revision := { erased with header := { erased.header with immutable := true } }

def erasing : List Operation := [.addKey eraser]

theorem emptyTwin_revived : Revision.EmptyTwin erased revived := ⟨rfl, rfl, Or.inl ⟨rfl, rfl⟩⟩

theorem revived_ne : revived ≠ erased := by
  intro h
  have hbody : revived.body = erased.body := by rw [h]
  cases hbody

theorem run_erasing : (start ⟨"accounts", 0, .data⟩ true []).run erasing =
    { start ⟨"accounts", 0, .data⟩ true [] with
      keys := (start ⟨"accounts", 0, .data⟩ true []).keys.insert eraser.hash eraser } := by
  rw [erasing, run, perform, eraser, addKey_neutral]
  rfl

theorem check_erased :
    ((start ⟨"accounts", 0, .data⟩ true []).run erasing).validator.check erased = .ok () := by
  have hkey : ((start ⟨"accounts", 0, .data⟩ true []).run erasing).key? eraser.hash =
      some eraser := by
    rw [run_erasing]
    exact Table.find?_insert_self _ _ _
  have hentitled : Entitled ((start ⟨"accounts", 0, .data⟩ true []).run erasing) erased
      eraser.hash := by
    rw [run_erasing]
    exact ⟨rfl, fun _ h => (nomatch h),
      Or.inr (Or.inl (NameSet.mem_ofList.mpr (List.mem_singleton_self _)))⟩
  exact (check_validator _ _).mpr
    (acceptable_signNeutral (run_keyed (keyed_start _ _ _) _) rfl hkey hentitled)

/-- The chain takes the tombstone and, under the same digest and signature, the payload. -/
theorem revived_accepted :
    let c := (start ⟨"accounts", 0, .data⟩ true []).run erasing
    c.validator.check erased = .ok () ∧ revived.attestation = erased.attestation ∧
      revived ≠ erased ∧ c.validator.check revived = .ok () ∧ erased.isTombstone = true ∧
        revived.isTombstone = false := by
  intro c
  refine ⟨check_erased, rfl, revived_ne, ?_, rfl, rfl⟩
  rw [Validator.check_emptyTwin c.validator emptyTwin_revived]
  exact check_erased

theorem isSized_erased : erased.header.canonicalItem.isSized = true ∧
    sealed.header.canonicalItem.isSized = true := by
  have hsigner : erased.header.signer = some eraser.hash := rfl
  have hs : erased.header.Sized := by
    refine Header.sized_oneWriter rfl (fun s hs => ⟨eraser.bytes, ?_⟩) rfl rfl rfl
    exact Option.some.inj (hs.symm.trans hsigner)
  have hs' : sealed.header.Sized :=
    ⟨hs.payloadType, hs.signer, hs.recipient, hs.readers, hs.writers⟩
  exact ⟨hs.canonicalItem, hs'.canonicalItem⟩

/-- Nobody makes the tombstone immutable, but everybody may revive it. -/
theorem erased_altered :
    let c := (start ⟨"accounts", 0, .data⟩ true []).run erasing
    ((c.validator.check sealed = .error .invalidSignature ∨
        c.validator.check sealed = .error .unknownSigningKey) ∨
      Bytes.Collide erased.signedBytes sealed.signedBytes) ∧
      c.validator.check revived = .ok () := by
  intro c
  obtain ⟨hs, hs'⟩ := isSized_erased
  have hheader : sealed.header ≠ erased.header := by
    intro h
    have himmutable : sealed.header.immutable = erased.header.immutable := by rw [h]
    cases himmutable
  have hne : sealed ≠ erased := fun h => hheader (congrArg Revision.header h)
  have hattestation : sealed.attestation = erased.attestation := rfl
  have hattestation' : revived.attestation = erased.attestation := rfl
  obtain ⟨hrefused, -⟩ := Validator.check_altered check_erased hattestation hne hs hs'
  obtain ⟨-, hjudged⟩ := Validator.check_altered check_erased hattestation' revived_ne hs hs
  refine ⟨hrefused (fun h => hheader h.header), ?_⟩
  rw [(hjudged emptyTwin_revived).1]
  exact check_erased

end TrustChain

end Provenance

import Provenance.Proofs.AppendOnly
import Provenance.Proofs.Registry

/-!
# Histories verify themselves

In a chain that only receives records and anchors objects, every signed entry can be checked against
the entries in front of it (`Verified`), by anybody who knows the keys and aliases that the chain
has in the end. Main statement: `run_selfVerifying`.

The validator judges a write by the root of trust, which is not part of a history. What ties the two
is `RootsAnchored`: the root of trust of an object is the header of its latest anchor entry.
-/

namespace Provenance.TrustChain

/-! ## What a signed entry shows -/

/-- The revision `r` with the attestation `a` is backed by the key of the given hash and by the
entries `before` it. -/
structure Verified (c : TrustChain) (before : List Entry) (r : Revision) (a : Attestation)
    (hash : String) : Prop where
  digest : a.digest = sha256 (r.header.canonicalBytes ++ r.body.getD [])
  signer : r.header.signer = some hash
  known : c.hasKey hash = true
  signed : ∃ bytes p, keyHash bytes = hash ∧ Profile.detect bytes = .ok p ∧ p.use = .sign ∧
    Signing.verify bytes a.digest a.signature = true
  parent : ∀ parent, r.header.parent = some parent → ∃ e ∈ before, e.revision.version = parent
  notImmutable : ∀ e ∈ before, e.revision.header.immutable = false
  admitted : c.Admits ((Entry.writersAfter? before).getD r.header.writers) hash

def SelfVerifying (c : TrustChain) : Prop :=
  ∀ id i e a, (c.entries id)[i]? = some e → e.revision.attestation = some a →
    ∃ hash, Verified c ((c.entries id).take i) e.revision a hash

theorem Verified.perform {c : TrustChain} {before : List Entry} {r : Revision} {a : Attestation}
    {hash : String} (h : Verified c before r a hash) (op : Operation) :
    Verified (c.perform op).1 before r a hash where
  digest := h.digest
  signer := h.signer
  known := hasKey_perform h.known op
  signed := h.signed
  parent := h.parent
  notImmutable := h.notImmutable
  admitted := by
    rcases h.admitted with ⟨hn, hw⟩ | hw | ⟨name, hn, hr⟩
    · exact Or.inl ⟨hn, hw.trans (publicWriter_perform c op).symm⟩
    · exact Or.inr (Or.inl hw)
    · exact Or.inr (Or.inr ⟨name, hn, resolve?_perform hr op⟩)

/-! ## Roots and anchors -/

def RootsAnchored (c : TrustChain) : Prop :=
  ∀ id, c.root? id = (Entry.latestAnchor? (c.entries id)).map (fun r => r.header)

theorem writersFor_eq {c : TrustChain} (hc : RootsAnchored c) (h : Header) :
    c.writersFor h = (Entry.writersAfter? (c.entries h.id)).getD h.writers := by
  unfold writersFor Entry.writersAfter?
  rw [hc h.id]
  cases Entry.latestSigned? (c.entries h.id) <;> cases Entry.latestAnchor? (c.entries h.id) <;> rfl

/-- A revision that was received is signed, so that it leaves the latest anchor as it was. -/
theorem RootsAnchored.perform {c : TrustChain} (hc : RootsAnchored c) {op : Operation}
    (hop : op.isReceive = true ∨ op.isAnchor = true) : RootsAnchored (c.perform op).1 := by
  intro id
  rcases hop with hop | hop
  · have hn : op.isAnchor = false := by cases op <;> first | rfl | cases hop
    rw [root?_perform hn, hc id]
    rcases perform_entries c op id with heq | ⟨r, d, -, -, heq, hvalid⟩
    · rw [heq]
    · obtain ⟨a, k, hacc⟩ := hvalid (Operation.isValidated_of_isReceive hop)
      have hsigned : r.isSigned = true := by
        simp only [Revision.isSigned, hacc.attestation, Option.isSome_some]
      rw [heq, Entry.latestAnchor?_append, if_pos hsigned]
  · obtain ⟨h, d, rfl⟩ := Operation.eq_addRoot_of_isAnchor hop
    obtain ⟨hroot, hentries⟩ := perform_addRoot c h d id
    rw [hroot, hentries]
    split
    · rw [Entry.latestAnchor?_append]
      rfl
    · exact hc id

/-! ## One operation -/

/-- What the validator of a chain accepts is verified by the entries that are there already. -/
theorem Acceptable.verified {c : TrustChain} {r : Revision} {a : Attestation} {k : PublicKey}
    (h : c.Acceptable r a k) (hc : RootsAnchored c) :
    Verified c (c.entries r.id) r a k.hash := by
  have hatt := h.attests
  simp only [Validator.attests, Bool.and_eq_true, decide_eq_true_eq] at hatt
  obtain ⟨⟨huse, hdigest⟩, hverify⟩ := hatt
  have him := h.notImmutable
  rw [isImmutable_eq, Bool.or_eq_false_iff, Entry.isImmutable_eq_false] at him
  refine ⟨?_, h.signer, hasKey_of_key? h.known, ?_, h.parent, him.1, ?_⟩
  · simp only [Revision.digestMatches, h.attestation, decide_eq_true_eq] at hdigest
    exact hdigest
  · obtain ⟨p, hp, hu⟩ := PublicKey.use?_eq_some.mp huse
    exact ⟨k.bytes, p, PublicKey.hashMatches_iff.mp h.hashMatches, hp, hu, hverify⟩
  · have had := h.admitted
    rw [writersFor_eq hc] at had
    exact had

theorem SelfVerifying.perform {c : TrustChain} (hc : SelfVerifying c) (hr : RootsAnchored c)
    {op : Operation} (hop : op.isReceive = true ∨ op.isAnchor = true) :
    SelfVerifying (c.perform op).1 := by
  intro id i e a hi ha
  rcases perform_entries c op id with heq | ⟨r, d, hrecord, hid, heq, hvalid⟩
  · rw [heq] at hi ⊢
    obtain ⟨hash, hv⟩ := hc id i e a hi ha
    exact ⟨hash, hv.perform op⟩
  · rw [heq] at hi ⊢
    rcases Entry.getElem?_append_singleton hi with ⟨hold, htake⟩ | ⟨rfl, htake⟩
    · obtain ⟨hash, hv⟩ := hc id i e a hold ha
      rw [htake]
      exact ⟨hash, hv.perform op⟩
    · -- The new entry: it was received, as an anchor has no attestation.
      rw [htake]
      rcases hop with hop | hop
      · obtain ⟨a', k, hacc⟩ := hvalid (Operation.isValidated_of_isReceive hop)
        obtain rfl : a' = a := Option.some.inj (hacc.attestation.symm.trans ha)
        subst hid
        exact ⟨k.hash, (hacc.verified hr).perform op⟩
      · obtain ⟨h, d', rfl⟩ := Operation.eq_addRoot_of_isAnchor hop
        cases hrecord
        cases ha

/-! ## Every run -/

/-- **Self-verifying histories.** However records arrive and objects are anchored, each signed entry
of each history is verified by the entries in front of it. -/
theorem run_selfVerifying (partition : PartitionKey) (strict : Bool) (journals : List Journal)
    (ops : List Operation) (hops : ∀ op ∈ ops, op.isReceive = true ∨ op.isAnchor = true) :
    let c := (start partition strict journals).run ops
    c.publicWriter = Anchor.write.hash ∧ ∀ id h, c.history? id = some h →
      ∀ i e a, h.entries[i]? = some e → e.revision.attestation = some a →
        ∃ hash, Verified c (h.entries.take i) e.revision a hash := by
  intro c
  have hinv : SelfVerifying c ∧ RootsAnchored c :=
    run_invariant (P := fun c => SelfVerifying c ∧ RootsAnchored c)
      (fun c op hop h => ⟨h.1.perform h.2 (hops op hop), h.2.perform (hops op hop)⟩)
      ⟨fun _ _ _ _ hi _ => (nomatch hi), fun _ => rfl⟩
  refine ⟨publicWriter_run partition strict journals ops, fun id h hh i e a hi ha => ?_⟩
  rw [← entries_of_history? hh] at hi ⊢
  exact hinv.1 id i e a hi ha

/-- An author, an object that is anchored for the author alone, and its first revision. -/
def author : PublicKey := PublicKey.neutral .sign64 none

def authoredRoot : Header :=
  { Header.anchor ⟨.replicate 1⟩ ⟨.replicate 2⟩ "Account" with
    writers := NameSet.ofList [author.hash] }

def authored : Revision :=
  Revision.signNeutral
    { authoredRoot with version := ⟨.replicate 3⟩, parent := some authoredRoot.version } author
    (some [1, 2, 3])

def authoring : List Operation :=
  [.receive (Record.encode (.publicKey author)) (.direct 0 0), .addRoot authoredRoot (.direct 0 0),
    .receive (Record.encode (.data authored)) (.direct 0 0)]

set_option maxRecDepth 100000 in
/-- The revision is accepted, and the anchor in front of it verifies it. -/
theorem verified_authored :
    let c := (start ⟨"accounts", 0, .data⟩ true []).run authoring
    (∀ op ∈ authoring, op.isReceive = true ∨ op.isAnchor = true) ∧
      ∃ a hash, authored.attestation = some a ∧
        Verified c [⟨Revision.ofHeader authoredRoot, .direct 0 0⟩] authored a hash := by
  intro c
  have hops : ∀ op ∈ authoring, op.isReceive = true ∨ op.isAnchor = true := by
    intro op hop
    simp only [authoring, List.mem_cons, List.not_mem_nil, or_false] at hop
    rcases hop with rfl | rfl | rfl
    · exact Or.inl rfl
    · exact Or.inr rfl
    · exact Or.inl rfl
  have hentries : (c.history? authoredRoot.id).map (fun h => h.entries) =
      some [⟨Revision.ofHeader authoredRoot, .direct 0 0⟩, ⟨authored, .direct 0 0⟩] := by
    decide +kernel
  obtain ⟨h, hh, he⟩ := Option.map_eq_some_iff.mp hentries
  obtain ⟨-, hverified⟩ := run_selfVerifying ⟨"accounts", 0, .data⟩ true [] authoring hops
  obtain ⟨hash, hv⟩ := hverified authoredRoot.id h hh 1 ⟨authored, .direct 0 0⟩ _
    (by rw [he]; rfl) rfl
  rw [he] at hv
  exact ⟨hops, _, hash, rfl, hv⟩

end Provenance.TrustChain

import Provenance.Proofs.Operations

/-!
# What a chain goes by

Whether an operation is accepted, and what it then does, in terms of the operation and of a few parts
of the chain.

* `perform_accepted_key`, `perform_accepted_castle`: the exact conditions for keys and castles, as
  `perform_accepted` gives them for revisions;
* `perform_applied`: an accepted operation does the same to every chain (`TrustChain.applied`), one
  that is not changes nothing, journals aside;
* `accepted_congr`: two chains with the same rules (`SameRules`) that hold the same revisions and
  root of an object (`SameObject`) accept the same of it, wherever it was delivered from.
-/

namespace Provenance

/-- The same call with another delivery: the record is the same, and so are the checks on it. -/
structure Operation.SameCall (op op' : Operation) : Prop where
  record : op.record? = op'.record?
  isReceive : op.isReceive = op'.isReceive
  isValidated : op.isValidated = op'.isValidated

theorem Operation.SameCall.refl (op : Operation) : SameCall op op := ⟨rfl, rfl, rfl⟩

namespace TrustChain

/-! ## Keys and castles -/

theorem addKey_isOk (c : TrustChain) (k : PublicKey) :
    (∃ c', c.addKey k = .ok c') ↔ c.checkWhenStrict k.checkStructure = .ok () ∧
      ∃ aliases, bindAlias c.aliases (PublicKey.ofBytes k.bytes k.label) = .ok aliases := by
  constructor
  · rintro ⟨c', h⟩
    obtain ⟨aliases, hstructure, hbind, -⟩ := addKey_eq_ok h
    exact ⟨hstructure, aliases, hbind⟩
  · rintro ⟨hstructure, aliases, hbind⟩
    simp only [addKey, hstructure, hbind, bind, Except.bind, pure, Except.pure]
    exact ⟨_, rfl⟩

theorem perform_accepted_key (c : TrustChain) {op : Operation} {k : PublicKey}
    (hrecord : op.record? = some (.publicKey k)) :
    (c.perform op).2 = true ↔ c.checkWhenStrict k.checkStructure = .ok () ∧
      ∃ aliases, bindAlias c.aliases (PublicKey.ofBytes k.bytes k.label) = .ok aliases := by
  rw [← addKey_isOk]
  cases op with
  | addKey k' =>
    cases hrecord
    simp only [perform]
    cases c.addKey k <;> simp
  | receive raw d =>
    have hraw := Operation.decode_of_record? hrecord
    simp only [perform, receive, hraw, receiveRecord, receiveKey]
    cases c.addKey k <;> simp
  | _ => cases hrecord

theorem perform_accepted_castle (c : TrustChain) {op : Operation} {castle : Castle}
    (hrecord : op.record? = some (.castle castle)) :
    (c.perform op).2 = true ↔
      (op.isReceive = true → c.checkWhenStrict castle.checkStructure = .ok ()) ∧
        castle.id.isSome = true := by
  have hadd : ∀ c : TrustChain, (∃ c', c.addCastle castle = .ok c') ↔ castle.id.isSome = true := by
    intro c
    unfold addCastle
    cases castle.id <;> simp
  cases op with
  | addCastle castle' =>
    cases hrecord
    rw [← hadd c]
    simp only [perform, Operation.isReceive]
    cases c.addCastle castle <;> simp
  | receive raw d =>
    have hraw := Operation.decode_of_record? hrecord
    rw [← hadd c]
    simp only [perform, receive, hraw, receiveRecord, receiveCastle, Operation.isReceive,
      true_implies]
    cases c.checkWhenStrict castle.checkStructure with
    | error flaw => simp [bind, Except.bind]
    | ok u => cases c.addCastle castle <;> simp [bind, Except.bind]
  | _ => cases hrecord

/-! ## What an accepted operation does -/

/-- The chain after an operation that is accepted, the journals aside. -/
def applied (c : TrustChain) (op : Operation) : TrustChain :=
  match op.record? with
  | some (.data r) =>
    let roots := if op.isAnchor then c.roots.insert r.id r.header else c.roots
    { c with roots := roots }.append r (op.delivery?.getD (.direct 0 0))
  | some (.publicKey k) =>
    { c with
      aliases := (bindAlias c.aliases (PublicKey.ofBytes k.bytes k.label)).toOption.getD c.aliases
      keys := c.keys.insert (keyHash k.bytes) (PublicKey.ofBytes k.bytes k.label) }
  | some (.castle castle) =>
    { c with castles := castle.id.elim c.castles (fun id => c.castles.insert id castle) }
  | none => c

theorem perform_applied (c : TrustChain) (op : Operation) :
    ∃ js, (c.perform op).1 =
      { (if (c.perform op).2 then c.applied op else c) with listeners := js } := by
  have he := perform_effect c op
  generalize c.perform op = outcome at he
  cases he with
  | refused js => exact ⟨js, rfl⟩
  | accepted r d js hop hrecord hdelivery _ _ =>
    have hanchor : op.isAnchor = false := by
      cases op <;> first | rfl | cases hop
    refine ⟨js, ?_⟩
    simp only [if_true, applied, hrecord, hdelivery, hanchor, Option.getD_some, Bool.false_eq_true,
      if_false]
  | committed r d js hop =>
    subst hop
    exact ⟨js, rfl⟩
  | anchored h d hop =>
    subst hop
    exact ⟨c.listeners, rfl⟩
  | learned k aliases hrecord _ hbind =>
    refine ⟨c.listeners, ?_⟩
    simp only [if_true, applied, hrecord, hbind, Except.toOption, Option.getD_some]
  | stored castle id hrecord _ hid =>
    refine ⟨c.listeners, ?_⟩
    simp only [if_true, applied, hrecord, hid, Option.elim_some]

/-! ## Chains that judge alike -/

/-- Two chains that are equally strict and know the same keys and aliases. -/
structure SameRules (c c' : TrustChain) : Prop where
  strict : c.strict = c'.strict
  publicWriter : c.publicWriter = c'.publicWriter
  keys : c.keys = c'.keys
  aliases : c.aliases = c'.aliases

/-- Two chains that hold the same of an object, wherever it was delivered from. -/
structure SameObject (id : ObjectId) (c c' : TrustChain) : Prop where
  root : c.root? id = c'.root? id
  revisions : (c.entries id).map Entry.revision = (c'.entries id).map Entry.revision

section

variable {c c' : TrustChain} {id : ObjectId}

theorem SameRules.symm (h : SameRules c c') : SameRules c' c :=
  ⟨h.strict.symm, h.publicWriter.symm, h.keys.symm, h.aliases.symm⟩

theorem SameObject.symm (h : SameObject id c c') : SameObject id c' c :=
  ⟨h.root.symm, h.revisions.symm⟩

theorem SameRules.checkWhenStrict_eq (h : SameRules c c') (checked : Except Flaw Unit) :
    c.checkWhenStrict checked = c'.checkWhenStrict checked := by
  rw [checkWhenStrict, checkWhenStrict, h.strict]

theorem SameRules.admits (h : SameRules c c') {writers : NameSet} {hash : String}
    (ha : c.Admits writers hash) : c'.Admits writers hash := by
  unfold Admits resolve? at *
  rw [← h.publicWriter, ← h.aliases]
  exact ha

theorem SameObject.isImmutable_eq (h : SameObject id c c') :
    c.isImmutable id = c'.isImmutable id := by
  have hentries : ∀ entries : List Entry, Entry.isImmutable entries =
      (entries.map Entry.revision).any (fun r => r.header.immutable) := by
    intro entries
    rw [List.any_map]
    rfl
  rw [TrustChain.isImmutable_eq, TrustChain.isImmutable_eq, hentries, hentries, h.root,
    h.revisions]

theorem SameObject.writersFor_eq {h : Header} (hobject : SameObject h.id c c') :
    c.writersFor h = c'.writersFor h := by
  unfold writersFor Entry.latestSigned?
  rw [hobject.root, hobject.revisions]

/-- What one chain finds acceptable, the other one finds acceptable. -/
theorem Acceptable.transfer {r : Revision} {a : Attestation} {k : PublicKey}
    (h : c.Acceptable r a k) (hrules : SameRules c c') (hobject : SameObject r.id c c') :
    c'.Acceptable r a k where
  attestation := h.attestation
  signer := h.signer
  known := by
    have hknown := h.known
    unfold key? at hknown ⊢
    rw [← hrules.keys]
    exact hknown
  hashMatches := h.hashMatches
  attests := h.attests
  parent parent hparent := by
    obtain ⟨e, he, hversion⟩ := h.parent parent hparent
    have hmem : e.revision ∈ (c'.entries r.id).map Entry.revision := by
      rw [← hobject.revisions]
      exact List.mem_map_of_mem he
    obtain ⟨e', he', heq⟩ := List.mem_map.mp hmem
    exact ⟨e', he', heq ▸ hversion⟩
  notImmutable := by
    rw [← hobject.isImmutable_eq]
    exact h.notImmutable
  admitted := by
    have hadmitted := hrules.admits h.admitted
    rw [SameObject.writersFor_eq (h := r.header) hobject] at hadmitted
    exact hadmitted

end

/-! ## Acceptance -/

theorem perform_unreadable (c : TrustChain) {op : Operation} (h : op.record? = none) :
    (c.perform op).2 = false := by
  have he := perform_effect c op
  generalize c.perform op = outcome at he
  cases he with
  | refused js => rfl
  | accepted r d js _ hrecord _ _ _ => cases h.symm.trans hrecord
  | committed r d js hop =>
    subst hop
    cases h
  | anchored header d hop =>
    subst hop
    cases h
  | learned k aliases hrecord _ _ => cases h.symm.trans hrecord
  | stored castle id hrecord _ _ => cases h.symm.trans hrecord

/-- A revision that needs no validation is always taken. -/
theorem perform_unvalidated (c : TrustChain) {op : Operation} {r : Revision}
    (hrecord : op.record? = some (.data r)) (hop : op.isValidated = false) :
    (c.perform op).2 = true := by
  cases op with
  | commit r d => rfl
  | addRoot h d => rfl
  | receive raw d => cases hop
  | promote r d => cases hop
  | addKey k => cases hrecord
  | addCastle castle => cases hrecord

theorem accepted_of_accepted {c c' : TrustChain} {op op' : Operation} (hop : op.SameCall op')
    (hrules : SameRules c c')
    (hobject : ∀ r, op.record? = some (.data r) → SameObject r.id c c')
    (h : (c.perform op).2 = true) : (c'.perform op').2 = true := by
  cases hrecord : op.record? with
  | none =>
    rw [perform_unreadable c hrecord] at h
    cases h
  | some record =>
    have hrecord' : op'.record? = some record := hop.record.symm.trans hrecord
    cases record with
    | data r =>
      cases hvalidated : op.isValidated with
      | false =>
        exact perform_unvalidated c' hrecord' (hop.isValidated.symm.trans hvalidated)
      | true =>
        obtain ⟨hstructure, a, k, hacc⟩ := (perform_accepted c hvalidated hrecord).mp h
        refine (perform_accepted c' (hop.isValidated.symm.trans hvalidated) hrecord').mpr
          ⟨fun hreceive => ?_, a, k, hacc.transfer hrules (hobject r hrecord)⟩
        rw [← hrules.checkWhenStrict_eq]
        exact hstructure (hop.isReceive.trans hreceive)
    | publicKey k =>
      rw [perform_accepted_key c hrecord] at h
      rw [perform_accepted_key c' hrecord', ← hrules.checkWhenStrict_eq, ← hrules.aliases]
      exact h
    | castle castle =>
      rw [perform_accepted_castle c hrecord] at h
      rw [perform_accepted_castle c' hrecord', ← hrules.checkWhenStrict_eq, ← hop.isReceive]
      exact h

/-- **Judgement.** Whether an operation is accepted depends on the rules of the chain and on what it
holds of the object that the operation is about. -/
theorem accepted_congr {c c' : TrustChain} {op op' : Operation} (hop : op.SameCall op')
    (hrules : SameRules c c')
    (hobject : ∀ r, op.record? = some (.data r) → SameObject r.id c c') :
    (c.perform op).2 = (c'.perform op').2 := by
  have hback : (c'.perform op').2 = true → (c.perform op).2 = true :=
    accepted_of_accepted ⟨hop.record.symm, hop.isReceive.symm, hop.isValidated.symm⟩ hrules.symm
      (fun r hr => (hobject r (hop.record.trans hr)).symm)
  rw [Bool.eq_iff_iff]
  exact ⟨accepted_of_accepted hop hrules hobject, hback⟩

end TrustChain

end Provenance

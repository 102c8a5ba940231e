import Provenance.Proofs.Acceptance

/-!
# Runs of a chain

An `Operation` is one call that may change a chain, `TrustChain.perform` its outcome and
`TrustChain.run` the chain after a list of them. `TrustChain.perform_effect` says once what an
operation can do (`TrustChain.Effect`); every invariant is derived from it, by `run_invariant`.
-/

namespace Provenance

inductive Operation
  | receive (raw : Bytes) (d : Delivery)
  | promote (r : Revision) (d : Delivery)
  | addKey (k : PublicKey)
  | addCastle (castle : Castle)
  | commit (r : Revision) (d : Delivery)
  | addRoot (h : Header) (d : Delivery)

namespace Operation

/-- The record that an operation brings, unless it cannot be decoded. -/
def record? : Operation → Option Record
  | receive raw _ => (Record.decode raw).toOption
  | promote r _ => some (.data r)
  | addKey k => some (.publicKey k)
  | addCastle castle => some (.castle castle)
  | commit r _ => some (.data r)
  | addRoot h _ => some (.data (Revision.ofHeader h))

def delivery? : Operation → Option Delivery
  | receive _ d => some d
  | promote _ d => some d
  | commit _ d => some d
  | addRoot _ d => some d
  | addKey _ => none
  | addCastle _ => none

/-- The object that an operation names. -/
def objectId? (op : Operation) : Option ObjectId :=
  match op.record? with
  | some (.data r) => some r.id
  | _ => none

def isReceive : Operation → Bool
  | receive _ _ => true
  | _ => false

def isAnchor : Operation → Bool
  | addRoot _ _ => true
  | _ => false

/-- Whether a revision that the operation brings has to pass validation. -/
def isValidated : Operation → Bool
  | receive _ _ | promote _ _ => true
  | _ => false

theorem record?_receive {raw : Bytes} {r : Record} (hraw : Record.decode raw = .ok r)
    (d : Delivery) : (receive raw d).record? = some r := by
  simp only [record?, hraw, Except.toOption]

theorem decode_of_record? {raw : Bytes} {r : Record} {d : Delivery}
    (h : (receive raw d).record? = some r) : Record.decode raw = .ok r := by
  simp only [record?] at h
  cases hraw : Record.decode raw with
  | error e =>
    rw [hraw] at h
    cases h
  | ok r' =>
    rw [hraw] at h
    cases h
    rfl

theorem isValidated_of_isReceive {op : Operation} (h : op.isReceive = true) :
    op.isValidated = true := by
  cases op <;> first | rfl | cases h

theorem eq_addRoot_of_isAnchor {op : Operation} (h : op.isAnchor = true) :
    ∃ header d, op = addRoot header d := by
  cases op <;> first | exact ⟨_, _, rfl⟩ | cases h

end Operation

namespace TrustChain

/-- A new chain to which some listeners were added. -/
def start (partition : PartitionKey) (strict : Bool) (journals : List Journal) : TrustChain :=
  { new partition strict with listeners := journals }

/-- The chain after an operation, and whether the operation was accepted. -/
def perform (c : TrustChain) : Operation → TrustChain × Bool
  | .receive raw d => c.receive raw d
  | .promote r d => c.promote r d
  | .addKey k =>
    match c.addKey k with
    | .ok c => (c, true)
    | .error _ => (c, false)
  | .addCastle castle =>
    match c.addCastle castle with
    | .ok c => (c, true)
    | .error _ => (c, false)
  | .commit r d => (c.commit r d, true)
  | .addRoot h d => (c.addRoot h d, true)

/-- The chain after a list of operations. -/
def run (c : TrustChain) : List Operation → TrustChain
  | [] => c
  | op :: ops => (c.perform op).1.run ops

/-- What every operation of a run preserves, the run preserves. -/
theorem run_invariant {P : TrustChain → Prop} {ops : List Operation}
    (hstep : ∀ c op, op ∈ ops → P c → P (c.perform op).1) {c : TrustChain} (hc : P c) :
    P (c.run ops) := by
  induction ops generalizing c with
  | nil => exact hc
  | cons op ops ih =>
    apply ih (fun c' op' hop' => hstep c' op' (List.mem_cons_of_mem op hop'))
    exact hstep c op (List.mem_cons_self ..) hc

theorem run_append (c : TrustChain) (ops ops' : List Operation) :
    c.run (ops ++ ops') = (c.run ops).run ops' := by
  induction ops generalizing c with
  | nil => rfl
  | cons op ops ih => exact ih _

/-! ## What an operation can do -/

/-- The outcome of an operation, whatever the listeners hear of it. -/
inductive Effect (c : TrustChain) (op : Operation) : TrustChain × Bool → Prop
  | refused (js : List Journal) : Effect c op ({ c with listeners := js }, false)
  | accepted (r : Revision) (d : Delivery) (js : List Journal) (hop : op.isValidated = true)
      (hrecord : op.record? = some (.data r)) (hdelivery : op.delivery? = some d)
      (hstructure : op.isReceive = true → c.checkWhenStrict r.checkStructure = .ok ())
      (hvalid : c.validator.check r = .ok ()) :
      Effect c op ({ c.append r d with listeners := js }, true)
  | committed (r : Revision) (d : Delivery) (js : List Journal) (hop : op = .commit r d) :
      Effect c op ({ c.append r d with listeners := js }, true)
  | anchored (h : Header) (d : Delivery) (hop : op = .addRoot h d) :
      Effect c op (c.addRoot h d, true)
  | learned (k : PublicKey) (aliases : Table String String)
      (hrecord : op.record? = some (.publicKey k))
      (hstructure : c.checkWhenStrict k.checkStructure = .ok ())
      (hbind : bindAlias c.aliases (PublicKey.ofBytes k.bytes k.label) = .ok aliases) :
      Effect c op ({ c with
        aliases := aliases
        keys := c.keys.insert (keyHash k.bytes) (PublicKey.ofBytes k.bytes k.label) }, true)
  | stored (castle : Castle) (id : CastleId) (hrecord : op.record? = some (.castle castle))
      (hstructure : op.isReceive = true → c.checkWhenStrict castle.checkStructure = .ok ())
      (hid : castle.id = some id) :
      Effect c op ({ c with castles := c.castles.insert id castle }, true)

theorem checkWhenStrict_ok (c : TrustChain) : c.checkWhenStrict (.ok ()) = .ok () := by
  unfold checkWhenStrict
  split <;> rfl

theorem addKey_eq_ok {c c' : TrustChain} {k : PublicKey} (h : c.addKey k = .ok c') :
    ∃ aliases, c.checkWhenStrict k.checkStructure = .ok () ∧
      bindAlias c.aliases (PublicKey.ofBytes k.bytes k.label) = .ok aliases ∧ c' = { c with
        aliases := aliases
        keys := c.keys.insert (keyHash k.bytes) (PublicKey.ofBytes k.bytes k.label) } := by
  unfold addKey at h
  cases hs : c.checkWhenStrict k.checkStructure with
  | error e => rw [hs] at h; cases h
  | ok u =>
    rw [hs] at h
    cases hb : bindAlias c.aliases (PublicKey.ofBytes k.bytes k.label) with
    | error e => simp only [bind, Except.bind, hb] at h; cases h
    | ok aliases =>
      simp only [bind, Except.bind, hb, pure, Except.pure] at h
      cases h
      exact ⟨aliases, rfl, rfl, rfl⟩

theorem addCastle_eq_ok {c c' : TrustChain} {castle : Castle} (h : c.addCastle castle = .ok c') :
    ∃ id, castle.id = some id ∧ c' = { c with castles := c.castles.insert id castle } := by
  unfold addCastle at h
  split at h
  · cases h
  · rename_i id hid
    cases h
    exact ⟨id, hid, rfl⟩

theorem promote_effect (c : TrustChain) (op : Operation) (r : Revision) (d : Delivery)
    (hop : op.isValidated = true) (hrecord : op.record? = some (.data r))
    (hdelivery : op.delivery? = some d)
    (hstructure : op.isReceive = true → c.checkWhenStrict r.checkStructure = .ok ()) :
    Effect c op (c.promote r d) := by
  unfold promote
  split
  · exact .refused _
  · rename_i u hvalid
    exact .accepted r d _ hop hrecord hdelivery hstructure hvalid

theorem receiveRecord_effect (c : TrustChain) (op : Operation) (r : Record) (d : Delivery)
    (hop : op.isValidated = true) (hrecord : op.record? = some r)
    (hdelivery : op.delivery? = some d) : Effect c op (c.receiveRecord r d) := by
  cases r with
  | data r =>
    simp only [receiveRecord, receiveRevision]
    split
    · exact .refused _
    · rename_i hs
      split
      · exact promote_effect c op r d hop hrecord hdelivery (fun _ => hs)
      · exact .refused _
  | publicKey k =>
    simp only [receiveRecord, receiveKey]
    split
    · exact .refused _
    · rename_i c' hk
      obtain ⟨aliases, hs, hbind, rfl⟩ := addKey_eq_ok hk
      exact .learned k aliases hrecord hs hbind
  | castle castle =>
    simp only [receiveRecord, receiveCastle]
    split
    · exact .refused _
    · rename_i c' hadd
      cases hs : c.checkWhenStrict castle.checkStructure with
      | error e => rw [hs] at hadd; cases hadd
      | ok u =>
        rw [hs] at hadd
        obtain ⟨id, hid, rfl⟩ := addCastle_eq_ok hadd
        exact .stored castle id hrecord (fun _ => hs) hid

/-- **Effects.** Every operation has one of the six effects. -/
theorem perform_effect (c : TrustChain) (op : Operation) : Effect c op (c.perform op) := by
  cases op with
  | receive raw d =>
    simp only [perform, receive]
    split
    · rename_i r hr
      have hrecord : (Operation.receive raw d).record? = some r := by
        simp only [Operation.record?, hr, Except.toOption]
      exact receiveRecord_effect c _ r d rfl hrecord rfl
    · exact .refused _
  | promote r d => exact promote_effect c _ r d rfl rfl rfl (fun h => nomatch h)
  | addKey k =>
    simp only [perform]
    split
    · rename_i c' hk
      obtain ⟨aliases, hs, hbind, rfl⟩ := addKey_eq_ok hk
      exact .learned k aliases rfl hs hbind
    · exact .refused c.listeners
  | addCastle castle =>
    simp only [perform]
    split
    · rename_i c' hadd
      obtain ⟨id, hid, rfl⟩ := addCastle_eq_ok hadd
      exact .stored castle id rfl (fun h => nomatch h) hid
    · exact .refused c.listeners
  | commit r d => exact .committed r d _ rfl
  | addRoot h d => exact .anchored h d rfl

theorem perform_configuration (c : TrustChain) (op : Operation) :
    (c.perform op).1.partition = c.partition ∧ (c.perform op).1.strict = c.strict := by
  have he := perform_effect c op
  generalize c.perform op = outcome at he
  cases he <;> exact ⟨rfl, rfl⟩

theorem run_configuration (c : TrustChain) (ops : List Operation) :
    (c.run ops).partition = c.partition ∧ (c.run ops).strict = c.strict := by
  apply run_invariant (P := fun c' => c'.partition = c.partition ∧ c'.strict = c.strict)
  · intro c' op _ h
    obtain ⟨hp, hs⟩ := perform_configuration c' op
    exact ⟨hp.trans h.1, hs.trans h.2⟩
  · exact ⟨rfl, rfl⟩

/-! ## Which revisions are accepted -/

theorem promote_accepted (c : TrustChain) (r : Revision) (d : Delivery) :
    (c.promote r d).2 = true ↔ ∃ a k, c.Acceptable r a k := by
  rw [← check_validator]
  unfold promote
  cases c.validator.check r with
  | error e => simp [dropRevision]
  | ok u => simp

/-- A revision that has to be validated is accepted exactly if it is acceptable and, on arrival in a
strict chain, without a flaw of structure. -/
theorem perform_accepted (c : TrustChain) {op : Operation} {r : Revision}
    (hop : op.isValidated = true) (hrecord : op.record? = some (.data r)) :
    (c.perform op).2 = true ↔ (op.isReceive = true → c.checkWhenStrict r.checkStructure = .ok ()) ∧
      ∃ a k, c.Acceptable r a k := by
  cases op with
  | promote r' d =>
    cases hrecord
    simp only [perform, promote_accepted, Operation.isReceive, Bool.false_eq_true, false_implies,
      true_and]
  | receive raw d =>
    have hd := Operation.decode_of_record? hrecord
    simp only [perform, receive, hd, receiveRecord, receiveRevision, Operation.isReceive,
      true_implies]
    cases hs : c.checkWhenStrict r.checkStructure with
    | error flaw => simp [dropRevision]
    | ok u =>
      simp only [true_and]
      split
      · exact promote_accepted c r d
      · rename_i hsigned
        -- Without a digest there is nothing to attest.
        constructor
        · intro h
          cases h
        · rintro ⟨a, k, h⟩
          simp only [Revision.isSigned, h.attestation, Option.isSome_some,
            not_true_eq_false] at hsigned
  | _ => cases hop

/-! ## What acceptance does -/

/-- An operation that accepts a revision after validation appends it. -/
theorem perform_append {c : TrustChain} {op : Operation} {r : Revision} {d : Delivery}
    (hop : op.isValidated = true) (hrecord : op.record? = some (.data r))
    (hdelivery : op.delivery? = some d) (h : (c.perform op).2 = true) :
    ∃ js, (c.perform op).1 = { c.append r d with listeners := js } := by
  have he := perform_effect c op
  generalize c.perform op = outcome at he h
  cases he with
  | refused js => cases h
  | accepted r' d' js _ hrecord' hdelivery' _ _ =>
    cases hrecord.symm.trans hrecord'
    cases hdelivery.symm.trans hdelivery'
    exact ⟨js, rfl⟩
  | committed r' d' js heq =>
    subst heq
    cases hop
  | anchored header d' heq =>
    subst heq
    cases hop
  | learned k aliases hrecord' _ _ => cases hrecord.symm.trans hrecord'
  | stored castle id hrecord' _ _ => cases hrecord.symm.trans hrecord'

theorem receive_append {c : TrustChain} {raw : Bytes} {r : Revision} {d : Delivery}
    (hraw : Record.decode raw = .ok (.data r)) (h : (c.receive raw d).2 = true) :
    ∃ js, (c.receive raw d).1 = { c.append r d with listeners := js } :=
  perform_append rfl (Operation.record?_receive hraw d) rfl h

theorem receive_refused {c : TrustChain} {raw : Bytes} {d : Delivery}
    (h : (c.receive raw d).2 = false) : ∃ js, (c.receive raw d).1 = { c with listeners := js } := by
  have he := perform_effect c (.receive raw d)
  simp only [perform] at he
  generalize c.receive raw d = outcome at he h
  cases he with
  | refused js => exact ⟨js, rfl⟩
  | _ => cases h

theorem entries_of_append {c c' : TrustChain} {r : Revision} {d : Delivery} {js : List Journal}
    (h : c' = { c.append r d with listeners := js }) (id : ObjectId) :
    c'.entries id = if r.id = id then c.entries id ++ [⟨r, d⟩] else c.entries id := by
  subst h
  exact entries_append c r d id

/-- What makes an object immutable is in its history, or comes with the revision. -/
theorem isImmutable_of_append {c c' : TrustChain} {r : Revision} {d : Delivery} {js : List Journal}
    (h : c' = { c.append r d with listeners := js }) (id : ObjectId) :
    c'.isImmutable id =
      if r.id = id then c.isImmutable id || r.header.immutable else c.isImmutable id := by
  have hroot : c'.root? id = c.root? id := by
    rw [h]
    rfl
  rw [isImmutable_eq, isImmutable_eq, entries_of_append h, hroot]
  split
  · rw [Entry.isImmutable_append, Bool.or_right_comm]
  · rfl

/-- A signed revision that was appended decides whether its object exists. -/
theorem hasObject_of_append {c c' : TrustChain} {r : Revision} {d : Delivery} {js : List Journal}
    (h : c' = { c.append r d with listeners := js }) (hsigned : r.isSigned = true) :
    c'.hasObject r.id = r.hasBody := by
  rw [hasObject_eq, entries_of_append h, if_pos rfl, Entry.hasPayload_append,
    Entry.liveAfter_of_isSigned _ hsigned]

end TrustChain

end Provenance

import Provenance.Proofs.Registry

/-!
# Reports

`TrustChain.receive_report`: what a chain and its listeners look like after a record has arrived.

* A record that is dropped leaves the state as it is, and each listener hears of it once
  (`Drop.Describes`).
* A record that is accepted changes what it is about and nothing else (`TrustChain.Recorded`). Each
  listener hears once of a revision, and nothing of a key or a castle.

The outcomes are found along the functions that process a record, each of which either drops it or
passes it on (`TrustChain.receive_outcome`).
-/

namespace Provenance

/-- The revision in the bytes of a record, if there is one. -/
def Record.revision? (raw : Bytes) : Option Revision :=
  match decode raw with
  | .ok (.data r) => some r
  | _ => none

/-- The report of a dropped record: where it was delivered and, as far as it was read, what it is. -/
structure Drop.Describes (drop : Drop) (partition : PartitionKey) (raw : Bytes) (d : Delivery) :
    Prop where
  partition : drop.partition = partition
  noOffset : drop.offset = none ↔ d.offset = 0
  offset : ∀ offset, drop.offset = some offset → offset = d.offset
  id : drop.id = (Record.revision? raw).map Revision.id
  payloadType : drop.payloadType = (Record.revision? raw).map (fun r => r.header.payloadType)
  kind : drop.kind = raw.head?.bind RecordKind.ofTag?

/-- A record is of the kind that its tag names. -/
theorem Record.kind_of_decode {raw : Bytes} {r : Record} (h : decode raw = .ok r) :
    raw.head?.bind RecordKind.ofTag? = some r.kind := by
  cases raw with
  | nil => cases h
  | cons tag rest =>
    rw [List.head?_cons, Option.bind_some]
    simp only [decode] at h
    split at h
    · cases h
    · rename_i kind hkind
      rw [hkind]
      split at h
      · cases h
      · cases kind with
        | data =>
          simp only [ofItem] at h
          split at h <;> cases h
          rfl
        | publicKey =>
          simp only [ofItem] at h
          split at h <;> cases h
          rfl
        | castle =>
          simp only [ofItem] at h
          split at h <;> cases h
          rfl

namespace TrustChain

/-! ## Outcomes -/

/-- The record is dropped, with its report, or passed on to what commits or stores it. -/
inductive Outcome (c : TrustChain) (raw : Bytes) (d : Delivery) : TrustChain × Bool → Prop
  | dropped (reason : DropReason) : Outcome c raw d
      (c.drop d reason (Record.revision? raw) (raw.head?.bind RecordKind.ofTag?), false)
  | committed (r : Revision) (hraw : Record.decode raw = .ok (.data r)) :
      Outcome c raw d (c.commit r d, true)
  | learned (k : PublicKey) (c' : TrustChain) (hraw : Record.decode raw = .ok (.publicKey k))
      (hadd : c.addKey k = .ok c') : Outcome c raw d (c', true)
  | stored (castle : Castle) (c' : TrustChain) (hraw : Record.decode raw = .ok (.castle castle))
      (hadd : c.addCastle castle = .ok c') : Outcome c raw d (c', true)

section

variable {c : TrustChain} {raw : Bytes} {d : Delivery}

/-- What was decoded is dropped with what was found in it. -/
theorem dropped_outcome {r : Record} (hraw : Record.decode raw = .ok r)
    {found : Option Revision} (hfound : Record.revision? raw = found) (reason : DropReason) :
    Outcome c raw d (c.drop d reason found (some r.kind), false) := by
  rw [← hfound, ← Record.kind_of_decode hraw]
  exact .dropped reason

theorem receiveRevision_outcome {r : Revision} (hraw : Record.decode raw = .ok (.data r)) :
    Outcome c raw d (c.receiveRevision r d) := by
  have hfound : Record.revision? raw = some r := by rw [Record.revision?, hraw]
  unfold receiveRevision
  split
  · exact dropped_outcome hraw hfound _
  · split
    · unfold promote
      split
      · exact dropped_outcome hraw hfound _
      · exact .committed r hraw
    · exact dropped_outcome hraw hfound _

theorem receiveKey_outcome {k : PublicKey} (hraw : Record.decode raw = .ok (.publicKey k)) :
    Outcome c raw d (c.receiveKey k d) := by
  have hfound : Record.revision? raw = none := by rw [Record.revision?, hraw]
  unfold receiveKey
  split
  · exact dropped_outcome hraw hfound _
  · rename_i c' hadd
    exact .learned k c' hraw hadd

theorem receiveCastle_outcome {castle : Castle} (hraw : Record.decode raw = .ok (.castle castle)) :
    Outcome c raw d (c.receiveCastle castle d) := by
  have hfound : Record.revision? raw = none := by rw [Record.revision?, hraw]
  simp only [receiveCastle]
  split
  · exact dropped_outcome hraw hfound _
  · rename_i c' hadd
    cases hs : c.checkWhenStrict castle.checkStructure with
    | error flaw => rw [hs] at hadd; cases hadd
    | ok u =>
      rw [hs] at hadd
      exact .stored castle c' hraw hadd

theorem receive_outcome (c : TrustChain) (raw : Bytes) (d : Delivery) :
    Outcome c raw d (c.receive raw d) := by
  unfold receive
  cases hraw : Record.decode raw with
  | error e =>
    have hfound : Record.revision? raw = none := by rw [Record.revision?, hraw]
    simp only [← hfound]
    exact .dropped _
  | ok r =>
    cases r with
    | data r => exact receiveRevision_outcome hraw
    | publicKey k => exact receiveKey_outcome hraw
    | castle castle => exact receiveCastle_outcome hraw

end

/-! ## What an accepted record changes -/

/-- The chain after an accepted record: one more entry of the revision's object, which each listener
hears of; or one key, with at most one new alias; or one castle. -/
def Recorded (c : TrustChain) (d : Delivery) (c' : TrustChain) : Record → Prop
  | .data r =>
    c'.entries r.id = c.entries r.id ++ [⟨r, d⟩] ∧
      (∀ id, r.id ≠ id → c'.history? id = c.history? id) ∧
        c' = { c with
          histories := c'.histories
          listeners := c.listeners.map (fun j => j ++ [.committed c.partition r d]) }
  | .publicKey k =>
    (∀ hash, c'.key? hash = if keyHash k.bytes = hash then some (PublicKey.ofBytes k.bytes k.label)
      else c.key? hash) ∧
      (c'.aliases = c.aliases ∨ ∃ claimed, c.resolve? claimed = none ∧ ∀ name, c'.resolve? name =
        if claimed = name then some (keyHash k.bytes) else c.resolve? name) ∧
        c' = { c with keys := c'.keys, aliases := c'.aliases }
  | .castle castle =>
    ∃ id, castle.id = some id ∧
      (∀ other, c'.castle? other = if id = other then some castle else c.castle? other) ∧
        c' = { c with castles := c'.castles }

theorem recorded_commit (c : TrustChain) (r : Revision) (d : Delivery) :
    Recorded c d (c.commit r d) (.data r) := by
  refine ⟨?_, fun id hid => Table.find?_insert_of_ne hid _ _, rfl⟩
  have h := entries_append c r d r.id
  rw [if_pos rfl] at h
  exact h

theorem recorded_addKey {c c' : TrustChain} {k : PublicKey} (h : c.addKey k = .ok c')
    (d : Delivery) : Recorded c d c' (.publicKey k) := by
  obtain ⟨aliases, -, hbind, rfl⟩ := addKey_eq_ok h
  refine ⟨fun hash => Table.find?_insert _ _ _ _, ?_, rfl⟩
  rcases bindAlias_eq_ok hbind with rfl | ⟨claimed, -, hfree, rfl⟩
  · exact Or.inl rfl
  · exact Or.inr ⟨claimed, hfree, fun name => Table.find?_insert _ _ _ _⟩

theorem recorded_addCastle {c c' : TrustChain} {castle : Castle} (h : c.addCastle castle = .ok c')
    (d : Delivery) : Recorded c d c' (.castle castle) := by
  obtain ⟨id, hid, rfl⟩ := addCastle_eq_ok h
  exact ⟨id, hid, fun other => Table.find?_insert _ _ _ _, rfl⟩

/-! ## Every record -/

theorem describes_drop (c : TrustChain) (raw : Bytes) (d : Delivery) (reason : DropReason) :
    ∃ drop : Drop, drop.Describes c.partition raw d ∧
      c.drop d reason (Record.revision? raw) (raw.head?.bind RecordKind.ofTag?) =
        { c with listeners := c.listeners.map (fun j => j ++ [.dropped drop]) } := by
  refine ⟨_, ⟨rfl, ?_, ?_, rfl, rfl, rfl⟩, rfl⟩
  · by_cases h : d.offset = 0 <;> simp [h]
  · intro offset h
    by_cases h0 : d.offset = 0
    · simp [h0] at h
    · simpa [h0] using h.symm

/-- **Reports.** A record that is dropped changes nothing in the chain, and each listener hears of
it once. A record that is accepted changes one thing, and each listener hears of it once if it is a
revision and never otherwise. -/
theorem receive_report (c : TrustChain) (raw : Bytes) (d : Delivery) :
    let outcome := c.receive raw d
    (outcome.2 = false → ∃ drop : Drop, drop.Describes c.partition raw d ∧
      outcome.1 = { c with listeners := c.listeners.map (fun j => j ++ [.dropped drop]) }) ∧
      (outcome.2 = true → ∃ r, Record.decode raw = .ok r ∧ Recorded c d outcome.1 r) := by
  intro outcome
  have houtcome : Outcome c raw d outcome := receive_outcome c raw d
  generalize outcome = result at houtcome
  cases houtcome with
  | dropped reason => exact ⟨fun _ => describes_drop c raw d reason, fun h => (nomatch h)⟩
  | committed r hraw => exact ⟨fun h => (nomatch h), fun _ => ⟨_, hraw, recorded_commit c r d⟩⟩
  | learned k c' hraw hadd =>
    exact ⟨fun h => (nomatch h), fun _ => ⟨_, hraw, recorded_addKey hadd d⟩⟩
  | stored castle c' hraw hadd =>
    exact ⟨fun h => (nomatch h), fun _ => ⟨_, hraw, recorded_addCastle hadd d⟩⟩

/-- A castle without entries. -/
def hollow : Castle := ⟨some ⟨.replicate 1⟩, NameMap.empty⟩

set_option maxRecDepth 100000 in
theorem hollow_facts :
    Record.decode (Record.encode (.castle hollow)) = .ok (.castle hollow) ∧
      ((start ⟨"accounts", 0, .data⟩ true [[]]).receive (Record.encode (.castle hollow))
        (.direct 0 0)).2 = false ∧
      ((start ⟨"accounts", 0, .data⟩ false [[]]).receive (Record.encode (.castle hollow))
        (.direct 0 0)).2 = true := by
  decide +kernel

/-- A strict chain drops it and says so, a lenient one stores it in silence. -/
theorem hollow_reported :
    (∃ drop : Drop, drop.kind = some .castle ∧
      ((start ⟨"accounts", 0, .data⟩ true [[]]).receive (Record.encode (.castle hollow))
        (.direct 0 0)).1 = { start ⟨"accounts", 0, .data⟩ true [[]] with
          listeners := [[.dropped drop]] }) ∧
      ∃ id, hollow.id = some id ∧
        ((start ⟨"accounts", 0, .data⟩ false [[]]).receive (Record.encode (.castle hollow))
          (.direct 0 0)).1.castle? id = some hollow := by
  obtain ⟨hdecode, hdropped, haccepted⟩ := hollow_facts
  constructor
  · obtain ⟨drop, hdrop, heq⟩ := (receive_report _ _ _).1 hdropped
    exact ⟨drop, hdrop.kind, heq⟩
  · obtain ⟨r, hr, hrecorded⟩ := (receive_report _ _ _).2 haccepted
    cases hdecode.symm.trans hr
    obtain ⟨id, hid, hcastle, -⟩ := hrecorded
    refine ⟨id, hid, ?_⟩
    rw [hcastle, if_pos rfl]

end TrustChain

end Provenance

import Provenance.Chain.Basic
import Provenance.Record.Decode

/-!
# Receiving records

A record is decoded, checked, and then either committed or dropped. Dropping is normal: the listeners
are told, and nothing else changes. Each function gives the chain afterwards and whether the record
was accepted.
-/

namespace Provenance.TrustChain

/-- The validator over the committed state. -/
def validator (c : TrustChain) : Validator where
  root? := c.root?
  history? := c.history?
  key? := c.key?
  resolve? := c.resolve?
  staged := Table.empty
  publicWriter := c.publicWriter

/-- Tell the listeners that a record was dropped. -/
def drop (c : TrustChain) (d : Delivery) (reason : DropReason) (r : Option Revision)
    (kind : Option RecordKind) : TrustChain :=
  c.notify (.dropped {
    partition := c.partition
    offset := if d.offset = 0 then none else some d.offset
    reason := reason
    id := r.map Revision.id
    payloadType := r.map (fun r => r.header.payloadType)
    kind := kind })

def dropRevision (c : TrustChain) (r : Revision) (d : Delivery) (reason : DropReason) :
    TrustChain × Bool := (c.drop d reason (some r) (some .data), false)

/-- Validate a revision against the committed state, and commit it if it is valid. -/
def promote (c : TrustChain) (r : Revision) (d : Delivery) : TrustChain × Bool :=
  match c.validator.check r with
  | .error e => c.dropRevision r d (.rejected e)
  | .ok () => (c.commit r d, true)

def receiveRevision (c : TrustChain) (r : Revision) (d : Delivery) : TrustChain × Bool :=
  match c.checkWhenStrict r.checkStructure with
  | .error flaw => c.dropRevision r d (.flawed flaw)
  | .ok () => if r.isSigned then c.promote r d else c.dropRevision r d (.rejected .missingDigest)

def receiveKey (c : TrustChain) (k : PublicKey) (d : Delivery) : TrustChain × Bool :=
  match c.addKey k with
  | .error flaw => (c.drop d (.flawed flaw) none (some .publicKey), false)
  | .ok c => (c, true)

def receiveCastle (c : TrustChain) (castle : Castle) (d : Delivery) : TrustChain × Bool :=
  let added := do
    c.checkWhenStrict castle.checkStructure
    c.addCastle castle
  match added with
  | .error flaw => (c.drop d (.flawed flaw) none (some .castle), false)
  | .ok c => (c, true)

def receiveRecord (c : TrustChain) (r : Record) (d : Delivery) : TrustChain × Bool :=
  match r with
  | .data revision => c.receiveRevision revision d
  | .publicKey key => c.receiveKey key d
  | .castle castle => c.receiveCastle castle d

/-- Decode and process one record. -/
def receive (c : TrustChain) (raw : Bytes) (d : Delivery) : TrustChain × Bool :=
  match Record.decode raw with
  | .ok r => c.receiveRecord r d
  | .error e =>
    (c.drop d (DropReason.ofRecordError e) none (raw.head?.bind RecordKind.ofTag?), false)

end Provenance.TrustChain

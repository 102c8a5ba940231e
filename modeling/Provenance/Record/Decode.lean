import Provenance.Record.Basic
import Provenance.Cbor.Values

/-!
# Decoding records

A record is read from the front of its bytes; what follows it is ignored. Decoding is indifferent to
the order of fields, to their spelling in CBOR and to unknown fields, and fields with a default may
be left out. A revision needs a header; its absence is told apart from a record that is no CBOR map
of the right shape.
-/

namespace Provenance

/-! ## Parts -/

def Uuid.ofItem? (item : Item) : Option Uuid := item.wholeBytes?.bind Uuid.ofBytes?

def Header.fieldNames : List String :=
  ["id", "version", "previous_version", "payload_type", "signing_key_hash", "encrypt_key_hash",
    "allow_read", "allow_write", "immutable"]

def Header.ofItem? (item : Item) : Option Header := do
  let f ← Fields.read fieldNames (Item.maxNesting - 2) item
  let id ← f.required "id" Uuid.ofItem?
  let version ← f.required "version" Uuid.ofItem?
  let parent ← f.optional "previous_version" none (Item.option? Uuid.ofItem?)
  let payloadType ← f.optional "payload_type" "" Item.text?
  let signer ← f.optional "signing_key_hash" none (Item.option? Item.text?)
  let recipient ← f.optional "encrypt_key_hash" none (Item.option? Item.text?)
  let readers ← f.optional "allow_read" NameSet.empty Item.nameSet?
  let writers ← f.optional "allow_write" NameSet.empty Item.nameSet?
  let immutable ← f.optional "immutable" false Item.bool?
  return ⟨⟨id⟩, ⟨version⟩, parent.map VersionId.mk, payloadType, signer, recipient, readers, writers,
    immutable⟩

def Attestation.fieldNames : List String := ["digest", "signature"]

def Attestation.ofItem? (item : Item) : Option Attestation := do
  let f ← Fields.read fieldNames (Item.maxNesting - 2) item
  let digest ← f.required "digest" Item.bytes?
  let signature ← f.required "signature" Item.bytes?
  return ⟨digest, signature⟩

def PublicKey.fieldNames : List String := ["bytes", "hash", "alias"]

def PublicKey.ofItem? (item : Item) : Option PublicKey := do
  let f ← Fields.read fieldNames (Item.maxNesting - 2) item
  let bytes ← f.required "bytes" Item.bytes?
  let hash ← f.required "hash" Item.text?
  let label ← f.optional "alias" none (Item.option? Item.text?)
  return ⟨bytes, hash, label⟩

/-- The entries of a castle; of two under one name the later one counts. -/
def Castle.lookupOfEntries? : List (Item × Item) → Option (List (String × Bytes))
  | [] => some []
  | (key, value) :: rest => do
    let name ← key.text?
    let sealedSecret ← value.bytes?
    let entries ← lookupOfEntries? rest
    return (name, sealedSecret) :: entries

def Castle.lookupOfItem? (item : Item) : Option (NameMap Bytes) := do
  let entries ← item.entries?
  let named ← lookupOfEntries? entries
  return NameMap.ofList named

/-! ## Whole records -/

def Revision.fieldNames : List String := ["header", "digest", "body"]

/-- A revision, or the rest of one when the header is absent. -/
def Revision.ofItem? (item : Item) : Option (Option Header × Option Attestation × Option Bytes) := do
  let f ← Fields.read fieldNames (Item.maxNesting - 1) item
  let header ← f.optional "header" none (Item.option? Header.ofItem?)
  let attestation ← f.optional "digest" none (Item.option? Attestation.ofItem?)
  let body ← f.optional "body" none (Item.option? Item.bytes?)
  return (header, attestation, body)

def Castle.ofItem? (item : Item) : Option Castle := do
  let f ← Fields.read ["id", "lookup"] (Item.maxNesting - 1) item
  let id ← f.optional "id" none (Item.option? Uuid.ofItem?)
  let lookup ← f.optional "lookup" NameMap.empty Castle.lookupOfItem?
  return ⟨id.map CastleId.mk, lookup⟩

def PublicKey.ofRecordItem? (item : Item) : Option PublicKey := do
  let f ← Fields.read ["key"] (Item.maxNesting - 1) item
  f.required "key" PublicKey.ofItem?

namespace Record

def ofItem (kind : RecordKind) (item : Item) : Except RecordError Record :=
  match kind with
  | .data =>
    match Revision.ofItem? item with
    | none => .error .malformed
    | some (none, _, _) => .error .missingHeader
    | some (some header, attestation, body) => .ok (.data ⟨header, attestation, body⟩)
  | .publicKey =>
    match PublicKey.ofRecordItem? item with
    | none => .error .malformed
    | some k => .ok (.publicKey k)
  | .castle =>
    match Castle.ofItem? item with
    | none => .error .malformed
    | some c => .ok (.castle c)

def decode (raw : Bytes) : Except RecordError Record :=
  match raw with
  | [] => .error .emptyRecord
  | tag :: rest =>
    match RecordKind.ofTag? tag with
    | none => .error (.unknownKind tag)
    | some kind =>
      match Item.read rest with
      | none => .error .malformed
      | some (item, _) => ofItem kind item

end Record

end Provenance

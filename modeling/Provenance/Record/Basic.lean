import Provenance.Record.Castle
import Provenance.Revision.Basic

/-!
# Records

What a partition carries: revisions, public keys and castles. On the wire a record is the tag of its
kind and one CBOR map with the names of its fields in a fixed order. This module writes records
(`Record.encode`).
-/

namespace Provenance

inductive RecordKind
  | data
  | publicKey
  | castle
  deriving DecidableEq, Repr

namespace RecordKind

def tag : RecordKind → UInt8
  | data => 1
  | publicKey => 2
  | castle => 3

def ofTag? : UInt8 → Option RecordKind
  | 1 => some data
  | 2 => some publicKey
  | 3 => some castle
  | _ => none

theorem ofTag?_tag (k : RecordKind) : ofTag? k.tag = some k := by cases k <;> rfl

end RecordKind

inductive Record
  | data (revision : Revision)
  | publicKey (key : PublicKey)
  | castle (castle : Castle)
  deriving DecidableEq

def Record.kind : Record → RecordKind
  | .data _ => .data
  | .publicKey _ => .publicKey
  | .castle _ => .castle

/-! ## Items -/

def Item.ofFields (fields : List (String × Item)) : Item :=
  .map (fields.map (fun f => (.ofText f.1, f.2)))

def Header.toItem (h : Header) : Item :=
  .ofFields [
    ("id", .ofBytes h.id.uuid.bytes),
    ("version", .ofBytes h.version.uuid.bytes),
    ("previous_version", .ofOption (fun v => .ofBytes v.uuid.bytes) h.parent),
    ("payload_type", .ofText h.payloadType),
    ("signing_key_hash", .ofOption .ofText h.signer),
    ("encrypt_key_hash", .ofOption .ofText h.recipient),
    ("allow_read", nameSetItem h.readers),
    ("allow_write", nameSetItem h.writers),
    ("immutable", .ofBool h.immutable)]

def Attestation.toItem (a : Attestation) : Item :=
  .ofFields [("digest", .ofBytes a.digest), ("signature", .ofBytes a.signature)]

def Revision.toItem (r : Revision) : Item :=
  .ofFields [
    ("header", r.header.toItem),
    ("digest", .ofOption Attestation.toItem r.attestation),
    ("body", .ofOption .ofBytes r.body)]

/-- The bytes of a key are written as an array of numbers. -/
def PublicKey.toItem (k : PublicKey) : Item :=
  .ofFields [
    ("bytes", .array (k.bytes.map (fun b => .unsigned b.toNat))),
    ("hash", .ofText k.hash),
    ("alias", .ofOption .ofText k.label)]

def Castle.toItem (c : Castle) : Item :=
  .ofFields [
    ("id", .ofOption (fun i => .ofBytes i.uuid.bytes) c.id),
    ("lookup", .map (c.lookup.entries.map (fun e => (.ofText e.1, .ofBytes e.2))))]

/-! ## Encoding -/

namespace Record

def toItem : Record → Item
  | .data r => r.toItem
  | .publicKey k => .ofFields [("key", k.toItem)]
  | .castle c => c.toItem

def encode (r : Record) : Bytes := r.kind.tag :: r.toItem.encode

end Record

end Provenance

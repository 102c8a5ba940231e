import Provenance.Identifier
import Provenance.Container.NameSet
import Provenance.Cbor.Item
import Provenance.Hash.Sha2

/-!
# Revision headers

A header says everything that a chain has to know about a revision except its body. The bytes that a
signature covers start with the header in canonical form: one CBOR map with the keys 0 to 8 in
ascending order, names sorted within each permission set, nothing left out.
-/

namespace Provenance

structure Header where
  id : ObjectId
  version : VersionId
  /-- The version that this one was derived from. -/
  parent : Option VersionId
  payloadType : String
  /-- Hash of the key that signs the revision. -/
  signer : Option String
  /-- Hash of the key that the body is sealed to. -/
  recipient : Option String
  /-- Key hashes and aliases that may read. -/
  readers : NameSet
  /-- Key hashes and aliases that may write the next revision. -/
  writers : NameSet
  /-- No revision may follow. -/
  immutable : Bool
  deriving DecidableEq

namespace Header

/-- The header of a trust anchor: it names an object and permits nothing in particular. -/
def anchor (id : ObjectId) (version : VersionId) (payloadType : String) : Header where
  id := id
  version := version
  parent := none
  payloadType := payloadType
  signer := none
  recipient := none
  readers := NameSet.empty
  writers := NameSet.empty
  immutable := false

/-! ## Canonical form -/

def nameSetItem (s : NameSet) : Item := .array (s.names.map Item.ofText)

def canonicalItem (h : Header) : Item :=
  .map [
    (.unsigned 0, .ofBytes h.id.uuid.bytes),
    (.unsigned 1, .ofBytes h.version.uuid.bytes),
    (.unsigned 2, .ofOption (fun v => .ofBytes v.uuid.bytes) h.parent),
    (.unsigned 3, .ofText h.payloadType),
    (.unsigned 4, .ofOption .ofText h.signer),
    (.unsigned 5, .ofOption .ofText h.recipient),
    (.unsigned 6, nameSetItem h.readers),
    (.unsigned 7, nameSetItem h.writers),
    (.unsigned 8, .ofBool h.immutable)]

def canonicalBytes (h : Header) : Bytes := h.canonicalItem.encode

/-- What a digest covers: the canonical header, and the body behind it. -/
def digestInput (h : Header) (body : Option Bytes) : Bytes := h.canonicalBytes ++ body.getD []

def digest (h : Header) (body : Option Bytes) : Bytes := sha256 (h.digestInput body)

end Header

end Provenance

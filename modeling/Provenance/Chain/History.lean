import Provenance.Partition
import Provenance.Revision.Basic

/-!
# Histories

The history of an object is every committed revision of it, in the order of commits, each with where
it was delivered from. A history is never empty, and it only grows at its end (`History.append`).
-/

namespace Provenance

/-- Where a record came from. -/
structure Delivery where
  partition : UInt32
  /-- The offset in the log, zero for a record that did not come through one. -/
  offset : Nat
  /-- Unix time in milliseconds. -/
  timestamp : Int
  deriving DecidableEq

/-- The delivery of a record that did not come through a log. -/
def Delivery.direct (partition : UInt32) (now : Int) : Delivery := ⟨partition, 0, now⟩

structure Entry where
  revision : Revision
  delivery : Delivery
  deriving DecidableEq

/-! ## Lists of entries -/

namespace Entry

/-- Whether an object is live after an entry: a body gives it a payload, a tombstone takes it away,
an anchor changes nothing. -/
def liveAfter (live : Bool) (e : Entry) : Bool :=
  if e.revision.hasBody then true else if e.revision.isTombstone then false else live

def hasPayload (entries : List Entry) : Bool := entries.foldl liveAfter false

def isImmutable (entries : List Entry) : Bool := entries.any (fun e => e.revision.header.immutable)

/-- The latest revision with a digest; anchors are passed over. -/
def latestSigned? (entries : List Entry) : Option Revision :=
  (entries.map (fun e => e.revision)).reverse.find? Revision.isSigned

def findVersion? (entries : List Entry) (version : VersionId) : Option Entry :=
  entries.find? (fun e => e.revision.version = version)

end Entry

/-! ## Histories -/

structure History where
  partition : PartitionKey
  entries : List Entry
  nonempty : entries ≠ []

namespace History

def singleton (partition : PartitionKey) (e : Entry) : History := ⟨partition, [e], by simp⟩

def append (h : History) (e : Entry) : History := ⟨h.partition, h.entries ++ [e], by simp⟩

/-- The history of an object after an entry, whether it had one before or not. -/
def extend (partition : PartitionKey) (h : Option History) (e : Entry) : History :=
  match h with
  | some h => h.append e
  | none => singleton partition e

def first (h : History) : Entry := h.entries.head h.nonempty

def latest (h : History) : Entry := h.entries.getLast h.nonempty

def id (h : History) : ObjectId := h.first.revision.id

def size (h : History) : Nat := h.entries.length

def hasPayload (h : History) : Bool := Entry.hasPayload h.entries

def isImmutable (h : History) : Bool := Entry.isImmutable h.entries

def payloadType (h : History) : String := h.latest.revision.header.payloadType

def latestSigned? (h : History) : Option Revision := Entry.latestSigned? h.entries

def findVersion? (h : History) (version : VersionId) : Option Entry :=
  Entry.findVersion? h.entries version

def containsVersion (h : History) (version : VersionId) : Bool := (h.findVersion? version).isSome

/-- The write set of the latest signed revision. -/
def writers? (h : History) : Option NameSet := h.latestSigned?.map (fun r => r.header.writers)

def deliveries (h : History) : List Delivery := h.entries.map (fun e => e.delivery)

end History

end Provenance

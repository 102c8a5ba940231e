import Provenance.Revision.Header
import Provenance.Key.Sealing

/-!
# Revisions

A revision is a header, a signed digest and a body. Without the digest it is a trust anchor; with a
digest but no body it is a tombstone, which deletes the payload of its object.
-/

namespace Provenance

/-- The digest of a revision and the signature over it. -/
structure Attestation where
  digest : Bytes
  signature : Bytes
  deriving DecidableEq

structure Revision where
  header : Header
  attestation : Option Attestation
  body : Option Bytes
  deriving DecidableEq

namespace Revision

/-- A revision that only anchors its object. -/
def ofHeader (h : Header) : Revision := ⟨h, none, none⟩

def id (r : Revision) : ObjectId := r.header.id

def version (r : Revision) : VersionId := r.header.version

def isSigned (r : Revision) : Bool := r.attestation.isSome

def hasBody (r : Revision) : Bool := r.body.isSome

def isTombstone (r : Revision) : Bool := r.isSigned && !r.hasBody

/-- Whether the carried digest is the digest of the header and body. -/
def digestMatches (r : Revision) : Bool :=
  match r.attestation with
  | some a => a.digest = r.header.digest r.body
  | none => false

/-- The plaintext of the body: a sealed body is opened with the key, any other is taken as it is. -/
def plaintext (r : Revision) (secretKey : Bytes) : Except KeyError (Option Bytes) :=
  match r.body, r.header.recipient with
  | none, _ => .ok none
  | some body, none => .ok (some body)
  | some body, some _ => (Sealing.openSealed secretKey body).map some

end Revision

end Provenance

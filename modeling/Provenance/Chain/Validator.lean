import Provenance.Chain.History
import Provenance.Container.Table
import Provenance.Key.Signing

/-!
# Validation of revisions

A validator answers whether a revision may be appended to the history of its object. It reads the
state of a chain through look-ups and never writes, so one validator can judge a whole batch. The
checks, in their order:

1. the revision has a digest, and its signer is known under the hash of its own bytes;
2. the signer's key is a signing key and verifies the recomputed digest;
3. the parent, if there is one, is committed or staged;
4. neither the parent nor the object is immutable;
5. the signer is in the write set.

The most recent declaration gives the write set: a staged revision of the object, else the latest
committed one, else the root of trust, else, for a new object, the revision itself. The empty set
admits only the public writer. Other sets admit key hashes and aliases; an alias counts for the one
key that the look-up binds it to, and never for a key that merely claims it.
-/

namespace Provenance

/-- Why a revision is refused. -/
inductive Rejection
  | missingDigest
  | unknownSigningKey
  | invalidSignature
  | missingParent
  | immutable
  | unauthorized
  deriving DecidableEq

def Rejection.message : Rejection → String
  | .missingDigest => "missing header or digest"
  | .unknownSigningKey => "unknown signing key"
  | .invalidSignature => "invalid signature"
  | .missingParent => "missing parent"
  | .immutable => "write to immutable object"
  | .unauthorized => "unauthorized write"

structure Validator where
  root? : ObjectId → Option Header
  history? : ObjectId → Option History
  key? : String → Option PublicKey
  /-- The hash of the key that an alias is bound to. -/
  resolve? : String → Option String
  /-- Revisions that are not committed yet, one for each object. -/
  staged : Table ObjectId Revision
  /-- The hash that the empty write set admits. -/
  publicWriter : String

namespace Validator

/-! ## Extending a validator -/

/-- Make uncommitted revisions visible, in place of those of the same objects. -/
def withStaged (v : Validator) (staged : Table ObjectId Revision) : Validator :=
  { v with staged := v.staged.insertAll staged }

def stage (v : Validator) (r : Revision) : Validator := { v with staged := v.staged.insert r.id r }

/-- Look keys up in the overlay first. -/
def withKeyOverlay (v : Validator) (overlay : String → Option PublicKey) : Validator :=
  { v with key? := fun hash => (overlay hash).or (v.key? hash) }

/-- Resolve aliases that are not bound otherwise. -/
def withAliasFallback (v : Validator) (fallback : String → Option String) : Validator :=
  { v with resolve? := fun name => (v.resolve? name).or (fallback name) }

/-! ## The checks -/

/-- The signer's key, if it is known under the hash of its own bytes. -/
def signerKey? (v : Validator) (h : Header) : Option PublicKey :=
  h.signer.bind (fun hash => (v.key? hash).filter (fun k => k.hash = hash && k.hashMatches))

/-- Whether the key attests the revision: it is for signing and verifies the recomputed digest. -/
def attests (k : PublicKey) (r : Revision) (a : Attestation) : Bool :=
  k.use? = some .sign && r.digestMatches && Signing.verify k.bytes a.digest a.signature

/-- The staged revision of the same object, unless it is the candidate itself. -/
def stagedPredecessor? (v : Validator) (h : Header) : Option Revision :=
  (v.staged.find? h.id).filter (fun s => s.version ≠ h.version)

/-- Whether the parent is immutable; no value if there is no such parent. -/
def parentImmutable? (v : Validator) (h : Header) (parent : VersionId) : Option Bool :=
  let committed := ((v.history? h.id).bind (fun c => c.findVersion? parent)).map
    (fun e => e.revision.header.immutable)
  let staged := ((v.stagedPredecessor? h).filter (fun s => s.version = parent)).map
    (fun s => s.header.immutable)
  committed.or staged

def checkParent (v : Validator) (h : Header) : Except Rejection Unit :=
  match h.parent with
  | none => .ok ()
  | some parent =>
    match v.parentImmutable? h parent with
    | none => .error .missingParent
    | some true => .error .immutable
    | some false => .ok ()

/-- Whether anything that is known of the object makes it immutable. -/
def isImmutable (v : Validator) (h : Header) : Bool :=
  (v.root? h.id).any (fun root => root.immutable) ||
    (v.history? h.id).any (fun c => c.isImmutable) ||
      (v.stagedPredecessor? h).any (fun s => s.header.immutable)

/-- The write set that judges a revision with this header. -/
def writeSet (v : Validator) (h : Header) : NameSet :=
  let staged := (v.stagedPredecessor? h).map (fun s => s.header.writers)
  let committed := (v.history? h.id).bind (fun c => c.writers?)
  let root := (v.root? h.id).map (fun root => root.writers)
  (staged.or (committed.or root)).getD h.writers

/-- Whether a write set admits the key of the given hash. -/
def admits (v : Validator) (writers : NameSet) (hash : String) : Bool :=
  if writers.isEmpty then hash = v.publicWriter
  else writers.names.any (fun name => name = hash || v.resolve? name = some hash)

/-- The first check that a revision fails. -/
def check (v : Validator) (r : Revision) : Except Rejection Unit :=
  match r.attestation with
  | none => .error .missingDigest
  | some a =>
    match v.signerKey? r.header with
    | none => .error .unknownSigningKey
    | some k =>
      if attests k r a then
        match v.checkParent r.header with
        | .error e => .error e
        | .ok () =>
          if v.isImmutable r.header then .error .immutable
          else if v.admits (v.writeSet r.header) k.hash then .ok ()
          else .error .unauthorized
      else .error .invalidSignature

def accepts (v : Validator) (r : Revision) : Bool :=
  match v.check r with
  | .ok () => true
  | .error _ => false

/-- What a failed validation reports: the reason and the revision. -/
def failure? (v : Validator) (r : Revision) : Option (Rejection × Revision) :=
  match v.check r with
  | .ok () => none
  | .error e => some (e, r)

end Validator

end Provenance

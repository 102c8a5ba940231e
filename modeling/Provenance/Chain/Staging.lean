import Provenance.Chain.Receive

/-!
# Staged writes

Writes that are saved but not committed yet, such as the other members of a transaction: revisions,
one for each object, and public keys under the hashes they carry. A chain can judge a revision with
the saved revisions in view, and with the staged keys as well.
-/

namespace Provenance

structure Staging where
  keys : Table String PublicKey
  saved : Table ObjectId Revision

namespace Staging

def empty : Staging := ⟨Table.empty, Table.empty⟩

def stageKey (s : Staging) (k : PublicKey) : Staging := { s with keys := s.keys.insert k.hash k }

def stageRevision (s : Staging) (r : Revision) : Staging := { s with saved := s.saved.insert r.id r }

def key? (s : Staging) (hash : String) : Option PublicKey := s.keys.find? hash

/-- The hash of the staged signing key that claims an alias. -/
def resolve? (s : Staging) (name : String) : Option String :=
  (s.keys.entries.find? (fun e => TrustChain.claimedAlias? e.2 = some name)).map (·.1)

/-- The saved revisions in the order of their objects' identifiers. -/
def savedInOrder (s : Staging) : List Revision :=
  s.saved.values.mergeSort (fun a b => a.id.uuid.precedes b.id.uuid)

end Staging

namespace TrustChain

/-! ## Validators -/

/-- The validator that also sees the saved revisions. -/
def validatorWithSaved (c : TrustChain) (s : Staging) : Validator := c.validator.withStaged s.saved

/-- The validator that also sees the saved revisions and the staged keys. -/
def validatorWithStaging (c : TrustChain) (s : Staging) : Validator :=
  ((c.validatorWithSaved s).withKeyOverlay s.key?).withAliasFallback s.resolve?

/-- A validator over the chain's state that knows no aliases. -/
def bareValidator (c : TrustChain) : Validator := { c.validator with resolve? := fun _ => none }

/-! ## Validation without effect -/

def validateCommitted (c : TrustChain) (r : Revision) : Bool := c.validator.accepts r

def validateWithSaved (c : TrustChain) (s : Staging) (r : Revision) : Bool :=
  (c.validatorWithSaved s).accepts r

def validateWithStaging (c : TrustChain) (s : Staging) (r : Revision) : Bool :=
  (c.validatorWithStaging s).accepts r

/-- Keys and castles always pass; a revision is judged with the saved revisions in view. -/
def validate (c : TrustChain) (s : Staging) (r : Record) : Bool :=
  match r with
  | .data revision => c.validateWithSaved s revision
  | .publicKey _ => true
  | .castle _ => true

end TrustChain

end Provenance

import Provenance.Chain.Event
import Provenance.Key.Derivation

/-!
# The chain of trust

The trusted state of one partition: for each object its history and, if it was anchored, its root of
trust; the castles; the public keys, each under the hash of its bytes; and the aliases, each bound to
the first signing key that claimed it. A new chain knows the two anchor keys. This module holds the
state, the writes that need no authorization, and the queries.
-/

namespace Provenance

structure TrustChain where
  partition : PartitionKey
  /-- Whether records are checked for flaws of structure before they are validated. -/
  strict : Bool
  /-- Hash of the key that writes where nobody is named. -/
  publicWriter : String
  roots : Table ObjectId Header
  histories : Table ObjectId History
  castles : Table CastleId Castle
  keys : Table String PublicKey
  aliases : Table String String
  listeners : List Journal

namespace TrustChain

def new (partition : PartitionKey) (strict : Bool) : TrustChain where
  partition := partition
  strict := strict
  publicWriter := Anchor.write.hash
  roots := Table.empty
  histories := Table.empty
  castles := Table.empty
  keys := (Table.empty.insert Anchor.write.hash Anchor.write.publicKey).insert
    Anchor.read.hash Anchor.read.publicKey
  aliases := Table.empty.insert Anchor.seed Anchor.write.hash
  listeners := []

/-! ## Listeners -/

def addListener (c : TrustChain) : TrustChain := { c with listeners := c.listeners ++ [[]] }

def notify (c : TrustChain) (event : ChainEvent) : TrustChain :=
  { c with listeners := c.listeners.map (fun j => j ++ [event]) }

/-! ## Writes that need no authorization -/

/-- The alias that a key claims; only signing keys claim any. -/
def claimedAlias? (k : PublicKey) : Option String :=
  if k.use? = some .sign then k.label else none

/-- The aliases after a key has claimed its own, unless another key owns it. -/
def bindAlias (aliases : Table String String) (k : PublicKey) : Except Flaw (Table String String) :=
  match claimedAlias? k with
  | none => .ok aliases
  | some name =>
    match aliases.find? name with
    | none => .ok (aliases.insert name k.hash)
    | some owner => if owner = k.hash then .ok aliases else .error (.aliasTaken name)

/-- A check of structure, which a lenient chain leaves out. -/
def checkWhenStrict (c : TrustChain) (checked : Except Flaw Unit) : Except Flaw Unit :=
  if c.strict then checked else .ok ()

/-- Register a key under the hash of its bytes, whatever hash it carries. -/
def addKey (c : TrustChain) (k : PublicKey) : Except Flaw TrustChain := do
  c.checkWhenStrict k.checkStructure
  let trusted := PublicKey.ofBytes k.bytes k.label
  let aliases ← bindAlias c.aliases trusted
  return { c with aliases := aliases, keys := c.keys.insert trusted.hash trusted }

def addCastle (c : TrustChain) (castle : Castle) : Except Flaw TrustChain :=
  match castle.id with
  | none => .error .missingId
  | some id => .ok { c with castles := c.castles.insert id castle }

def append (c : TrustChain) (r : Revision) (d : Delivery) : TrustChain :=
  let history := History.extend c.partition (c.histories.find? r.id) ⟨r, d⟩
  { c with histories := c.histories.insert r.id history }

/-- Append a revision and tell the listeners. -/
def commit (c : TrustChain) (r : Revision) (d : Delivery) : TrustChain :=
  (c.append r d).notify (.committed c.partition r d)

/-- Anchor an object: the header's write set and immutability govern its next revision. -/
def addRoot (c : TrustChain) (h : Header) (d : Delivery) : TrustChain :=
  { c with roots := c.roots.insert h.id h }.append (Revision.ofHeader h) d

/-! ## Queries -/

/-- Whether the object has a payload now. -/
def hasObject (c : TrustChain) (id : ObjectId) : Bool :=
  (c.histories.find? id).any (fun h => h.hasPayload)

/-- Whether the object was ever committed or anchored. -/
def everHadObject (c : TrustChain) (id : ObjectId) : Bool := c.histories.contains id

def isImmutable (c : TrustChain) (id : ObjectId) : Bool :=
  (c.histories.find? id).any (fun h => h.isImmutable) ||
    (c.roots.find? id).any (fun root => root.immutable)

def history? (c : TrustChain) (id : ObjectId) : Option History := c.histories.find? id

def root? (c : TrustChain) (id : ObjectId) : Option Header := c.roots.find? id

def deliveries (c : TrustChain) (id : ObjectId) : List Delivery :=
  match c.history? id with
  | some h => h.deliveries
  | none => []

def key? (c : TrustChain) (hash : String) : Option PublicKey := c.keys.find? hash

def hasKey (c : TrustChain) (hash : String) : Bool := c.keys.contains hash

/-- The hash of the signing key that owns an alias. -/
def resolve? (c : TrustChain) (name : String) : Option String := c.aliases.find? name

def castle? (c : TrustChain) (id : CastleId) : Option Castle := c.castles.find? id

/-- Every history whose latest entry has the payload type, in the order of the objects' identifiers;
every history if no type is given. -/
def allHistories (c : TrustChain) (payloadType : Option String) : List History :=
  (c.histories.values.filter (fun h => payloadType.all (fun t => h.payloadType = t))).mergeSort
    (fun g h => g.id.uuid.precedes h.id.uuid)

end TrustChain

end Provenance

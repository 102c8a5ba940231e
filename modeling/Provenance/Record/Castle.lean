import Provenance.Container.NameMap
import Provenance.Identifier
import Provenance.Key.Sealing
import Provenance.Record.Error

/-!
# Castles

A castle keeps one secret for several holders: under the hash of each holder's key it has the secret
sealed to that key. Every holder can recover the secret, and nobody else has an entry.
-/

namespace Provenance

structure Castle where
  id : Option CastleId
  lookup : NameMap Bytes
  deriving DecidableEq

/-- A holder, and the fresh bytes that the secret is sealed to it with. -/
structure Holder where
  key : PublicKey
  fresh : SealEntropy

namespace Castle

/-- Seal the secret to each holder in turn, on top of the entries so far. -/
def enclose (secret : Bytes) : List Holder → NameMap Bytes → Except RecordError (NameMap Bytes)
  | [], lookup => .ok lookup
  | holder :: rest, lookup =>
    if holder.key.use? = some .encrypt then
      match Sealing.sealTo holder.key.bytes secret holder.fresh with
      | .error e => .error (.key e)
      | .ok sealedSecret => enclose secret rest (lookup.insert holder.key.hash sealedSecret)
    else .error (.notHolderKey holder.key.displayName)

def build (id : CastleId) (secret : Bytes) (holders : List Holder) : Except RecordError Castle := do
  let lookup ← enclose secret holders NameMap.empty
  return ⟨some id, lookup⟩

def isHeldBy (c : Castle) (keyHash : String) : Bool := c.lookup.contains keyHash

/-- The secret, for a key that is a holder's. -/
def recover (c : Castle) (key : PrivateKey) : Except KeyError (Option Bytes) :=
  match c.lookup.find? key.hash with
  | none => .ok none
  | some sealedSecret => (Sealing.openSealed key.secretBytes sealedSecret).map some

end Castle

end Provenance

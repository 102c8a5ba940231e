import Provenance.Chain.Validator
import Provenance.Record.Structure

/-!
# What listeners hear

A listener hears of every committed revision and of every dropped record. Its journal is what it has
heard so far, oldest first.
-/

namespace Provenance

inductive DropReason
  | unhandledKind
  | rejected (rejection : Rejection)
  | flawed (flaw : Flaw)
  | undecodable (error : RecordError)
  deriving DecidableEq

def DropReason.message : DropReason → String
  | .unhandledKind => "unhandled message type"
  | .rejected rejection => rejection.message
  | .flawed flaw => flaw.message
  | .undecodable error => "malformed message: " ++ error.message

/-- Why a record that could not be decoded is dropped. -/
def DropReason.ofRecordError : RecordError → DropReason
  | .unknownKind _ => .unhandledKind
  | .emptyRecord => .unhandledKind
  | .missingHeader => .rejected .missingDigest
  | e => .undecodable e

structure Drop where
  partition : PartitionKey
  /-- The offset in the log, for a record that came through one. -/
  offset : Option Nat
  reason : DropReason
  id : Option ObjectId
  payloadType : Option String
  kind : Option RecordKind
  deriving DecidableEq

inductive ChainEvent
  | committed (partition : PartitionKey) (revision : Revision) (delivery : Delivery)
  | dropped (drop : Drop)
  deriving DecidableEq

abbrev Journal := List ChainEvent

namespace Journal

/-- The objects and deliveries of the commits in a journal. -/
def commits (j : Journal) : List (ObjectId × Delivery) :=
  j.filterMap (fun e => match e with
    | .committed _ r d => some (r.id, d)
    | .dropped _ => none)

def drops (j : Journal) : List Drop :=
  j.filterMap (fun e => match e with
    | .committed _ _ _ => none
    | .dropped d => some d)

end Journal

end Provenance

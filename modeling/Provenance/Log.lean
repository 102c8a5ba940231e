import Provenance.Container.Table
import Provenance.Partition
import Provenance.Record.Decode

/-!
# The partitioned log

Each partition is a sequence of bundles. Offsets start at 1, grow by one with each write and are never
used again, also after bundles were deleted. The log knows nothing of trust: it keeps bytes under a
deduplication key, by which they can be deleted.
-/

namespace Provenance

structure Bundle where
  partition : PartitionKey
  key : String
  offset : Nat
  payload : Bytes
  deriving DecidableEq

def Bundle.record (b : Bundle) : Except RecordError Record := Record.decode b.payload

/-- The bundle at an offset, among bundles in ascending order of their offsets: the middle one, or one
in front of it, or one behind it. -/
def Bundle.search (offset : Nat) (bundles : List Bundle) : Option Bundle :=
  match h : bundles.drop (bundles.length / 2) with
  | [] => none
  | middle :: behind =>
    if middle.offset = offset then some middle
    else if middle.offset < offset then search offset behind
    else search offset (bundles.take (bundles.length / 2))
termination_by bundles.length
decreasing_by
  all_goals
    have hl := congrArg List.length h
    rw [List.length_drop, List.length_cons] at hl
  · omega
  · rw [List.length_take]
    omega

/-- One partition: the last offset given out, and the bundles it still holds. -/
structure PartitionLog where
  lastOffset : Nat
  bundles : List Bundle

def PartitionLog.empty : PartitionLog := ⟨0, []⟩

structure RecordLog where
  partitions : Table PartitionKey PartitionLog

namespace RecordLog

def empty : RecordLog := ⟨Table.empty⟩

/-- The state of a partition; one that was never written to is empty. -/
def partition (log : RecordLog) (p : PartitionKey) : PartitionLog :=
  (log.partitions.find? p).getD PartitionLog.empty

def setPartition (log : RecordLog) (p : PartitionKey) (state : PartitionLog) : RecordLog :=
  ⟨log.partitions.insert p state⟩

/-! ## Writing and deleting -/

/-- The bundle of a new write, with the next offset of its partition. -/
def write (log : RecordLog) (p : PartitionKey) (key : String) (payload : Bytes) :
    Bundle × RecordLog :=
  let state := log.partition p
  let bundle : Bundle := ⟨p, key, state.lastOffset + 1, payload⟩
  (bundle, log.setPartition p ⟨state.lastOffset + 1, state.bundles ++ [bundle]⟩)

def writeRecord (log : RecordLog) (p : PartitionKey) (key : String) (r : Record) :
    Bundle × RecordLog := log.write p key r.encode

/-- Delete the bundles whose key is given; how many there were. -/
def deleteMany (log : RecordLog) (p : PartitionKey) (keys : List String) : Nat × RecordLog :=
  match log.partitions.find? p with
  | none => (0, log)
  | some state =>
    let kept := state.bundles.filter (fun b => !keys.contains b.key)
    (state.bundles.length - kept.length, log.setPartition p { state with bundles := kept })

/-! ## Reading -/

def read (log : RecordLog) (p : PartitionKey) : List Bundle := (log.partition p).bundles

def bundleAt? (log : RecordLog) (p : PartitionKey) (offset : Nat) : Option Bundle :=
  Bundle.search offset (log.read p)

/-- The revision at an offset, if the bundle there is one. -/
def revisionAt? (log : RecordLog) (p : PartitionKey) (offset : Nat) : Option Revision :=
  match log.bundleAt? p offset with
  | none => none
  | some b =>
    match b.record with
    | .ok (.data r) => some r
    | _ => none

def size (log : RecordLog) (p : PartitionKey) : Nat := (log.read p).length

def isEmpty (log : RecordLog) (p : PartitionKey) : Bool := log.size p = 0

/-- The last offset given out in a partition, or zero. -/
def lastOffset (log : RecordLog) (p : PartitionKey) : Nat := (log.partition p).lastOffset

/-- The partitions ever written to, in the order of their keys. -/
def partitionKeys (log : RecordLog) : List PartitionKey :=
  log.partitions.keys.mergeSort (fun p q => (p.compare q).isLE)

end RecordLog

end Provenance

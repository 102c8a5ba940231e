import Provenance.Chain.Receive
import Provenance.Log

/-!
# A chain over a log

A record reaches a chain through the log: it is written, and what was written is received with the
offset that the log gave it. Loading a log receives every bundle that the chain's partition holds.
-/

namespace Provenance.TrustChain

/-- Receive a bundle of the chain's partition. -/
def receiveBundle (c : TrustChain) (b : Bundle) (timestamp : Int) : TrustChain × Bool :=
  c.receive b.payload ⟨c.partition.index, b.offset, timestamp⟩

/-- Receive bundles in turn; how many were accepted. -/
def receiveBundles (now : Int) : List Bundle → TrustChain → TrustChain × Nat
  | [], c => (c, 0)
  | b :: rest, c =>
    let (c, accepted) := c.receiveBundle b now
    let (c, count) := receiveBundles now rest c
    (c, if accepted then count + 1 else count)

def loadFrom (c : TrustChain) (log : RecordLog) (now : Int) : TrustChain × Nat :=
  receiveBundles now (log.read c.partition) c

/-- Write bytes to the log and receive them. -/
def writeRaw (c : TrustChain) (log : RecordLog) (key : String) (raw : Bytes) (timestamp : Int) :
    TrustChain × RecordLog × Bool :=
  let (bundle, log) := log.write c.partition key raw
  let (c, accepted) := c.receiveBundle bundle timestamp
  (c, log, accepted)

/-- Write a record to the log and receive it. -/
def writeThrough (c : TrustChain) (log : RecordLog) (key : String) (r : Record) (now : Int) :
    TrustChain × RecordLog × Bool := c.writeRaw log key r.encode now

end Provenance.TrustChain

import Provenance.Chain.Replay
import Provenance.Chain.Staging

/-!
# A node

A node runs one chain over one log, with a listener that records everything, and a staging area. What
is submitted to it goes through the log, under a key that tells what the record is about.
-/

namespace Provenance

structure Node where
  chain : TrustChain
  log : RecordLog
  staging : Staging
  /-- Whether the chain consults the staging area when it validates. -/
  consultsStaging : Bool

namespace Node

def new (partition : PartitionKey) (strict consultsStaging : Bool) : Node :=
  ⟨(TrustChain.new partition strict).addListener, RecordLog.empty, Staging.empty, consultsStaging⟩

/-- What the recording listener has heard. -/
def journal (n : Node) : Journal := n.chain.listeners.headD []

/-- The staged writes that the chain sees. -/
def visibleStaging (n : Node) : Staging := if n.consultsStaging then n.staging else Staging.empty

/-! ## Submitting records -/

/-- The log key that tells what a record is about. -/
def logKey : Record → String
  | .data r => r.id.text
  | .publicKey k => k.hash
  | .castle c =>
    match c.id with
    | some id => id.text
    | none => ""

/-- Write a record to the log under a key, and let the chain receive it. -/
def submitUnder (n : Node) (key : String) (r : Record) (now : Int) : Node × Bool :=
  let (chain, log, accepted) := n.chain.writeThrough n.log key r now
  ({ n with chain := chain, log := log }, accepted)

def submit (n : Node) (r : Record) (now : Int) : Node × Bool := n.submitUnder (logKey r) r now

/-- Publish a key. -/
def publish (n : Node) (k : PublicKey) (now : Int) : Node × Bool := n.submit (.publicKey k) now

/-- Bytes that did not come from a record; they carry no time. -/
def submitRaw (n : Node) (key : String) (raw : Bytes) : Node × Bool :=
  let (chain, log, accepted) := n.chain.writeRaw n.log key raw 0
  ({ n with chain := chain, log := log }, accepted)

/-- Load the node's log into its chain. -/
def load (n : Node) (now : Int) : Node × Nat :=
  let (chain, count) := n.chain.loadFrom n.log now
  ({ n with chain := chain }, count)

/-- A fresh chain like the node's, loaded from its log. -/
def replica (n : Node) (now : Int) : TrustChain × Nat :=
  (TrustChain.new n.chain.partition n.chain.strict).loadFrom n.log now

/-- The log offsets in the history of an object. -/
def offsets (n : Node) (id : ObjectId) : List Nat := (n.chain.deliveries id).map (fun d => d.offset)

end Node

end Provenance

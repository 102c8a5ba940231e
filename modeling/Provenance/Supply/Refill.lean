import Provenance.Supply.Basic

/-!
# Refilling the pools

A refill task notes at its start how many items each pool lacks under the cap. It then goes round the
pools and adds one item at a time, so that all of them grow evenly; a pool that refuses an item is
passed over from then on. Background tasks that start together note the same lack, so between them
they may fill a pool above the cap, but never above its target.
-/

namespace Provenance

inductive PoolKind
  | key (profile : Profile)
  | text (kind : TextKind)
  deriving DecidableEq

/-- The pools in the order of a round. -/
def PoolKind.all : List PoolKind := Profile.all.map .key ++ TextKind.all.map .text

namespace KeySupply

/-- How many items a pool lacks under a cap. -/
def lack (s : KeySupply) (cap : Nat) : PoolKind → Nat
  | .key p => (s.pools.ofKey p).limit cap - (s.pools.ofKey p).size
  | .text kind => (s.pools.ofText kind).limit cap - (s.pools.ofText kind).size

/-- A generated item is offered to its pool. -/
def produce (s : KeySupply) (kind : PoolKind) (e : Entropy) :
    Except KeyError (Bool × KeySupply × Entropy) :=
  match kind with
  | .key p => do
    let (k, e) ← PrivateKey.generate p e
    let (accepted, pool) := (s.pools.ofKey p).push k
    return (accepted, { s with pools := s.pools.setKey pool p }, e)
  | .text kind =>
    let (text, e) := generateText kind e
    let (accepted, pool) := (s.pools.ofText kind).push text
    .ok (accepted, { s with pools := s.pools.setText pool kind }, e)

end KeySupply

/-! ## Rounds -/

/-- A refill task at work: the rest of what each pool lacks, and how many items were added. -/
structure RefillTask where
  supply : KeySupply
  entropy : Entropy
  lack : PoolKind → Nat
  added : Nat
  failure : Option KeyError

namespace RefillTask

def start (s : KeySupply) (lack : PoolKind → Nat) (e : Entropy) : RefillTask :=
  ⟨s, e, lack, 0, none⟩

def setLack (t : RefillTask) (kind : PoolKind) (n : Nat) : RefillTask :=
  { t with lack := fun j => if j = kind then n else t.lack j }

/-- One item for one pool, if the pool lacks any. -/
def visit (t : RefillTask) (kind : PoolKind) : RefillTask :=
  if t.failure = none ∧ 0 < t.lack kind then
    match t.supply.produce kind t.entropy with
    | .error failure => { t with failure := some failure }
    | .ok (true, supply, entropy) =>
      { (t.setLack kind (t.lack kind - 1)) with
        supply := supply, entropy := entropy, added := t.added + 1 }
    | .ok (false, supply, entropy) =>
      { (t.setLack kind 0) with supply := supply, entropy := entropy }
  else t

def round (t : RefillTask) : RefillTask := PoolKind.all.foldl visit t

/-- Rounds enough for the pool that lacks most. -/
def roundCount (lack : PoolKind → Nat) : Nat := (PoolKind.all.map lack).foldl max 0

def run (t : RefillTask) : RefillTask := Nat.repeat round (roundCount t.lack) t

end RefillTask

namespace KeySupply

/-- One refill cycle: how many items were added, unless generation failed, and what the supply is
afterwards in either case. -/
def refillOnce (s : KeySupply) (cap : Nat) (e : Entropy) :
    Except KeyError Nat × KeySupply × Entropy :=
  let t := (RefillTask.start s (s.lack cap) e).run
  match t.failure with
  | none => (.ok t.added, t.supply, t.entropy)
  | some failure => (.error failure, t.supply, t.entropy)

/-- `count` tasks that started together, one after the other. -/
def refillTogether (lack : PoolKind → Nat) : Nat → KeySupply → Entropy → KeySupply × Entropy
  | 0, s, e => (s, e)
  | count + 1, s, e =>
    let t := (RefillTask.start s lack e).run
    refillTogether lack count t.supply t.entropy

/-- The background tasks at a time after their start. -/
def runBackground (s : KeySupply) (elapsed : Nat) (e : Entropy) : KeySupply × Entropy :=
  let lack := s.lack (s.config.capAfter elapsed)
  refillTogether lack s.config.taskCount s e

end KeySupply

end Provenance

import Provenance.Supply.Sizes

/-!
# When the supply refills its pools

Refilling runs in the background and starts gently: not at all before the warm-up is over, then with
a cap on every pool that grows by one each eight seconds (`generationCap`). Times are in
milliseconds.
-/

namespace Provenance

structure SupplyConfig where
  /-- Background tasks to start. -/
  tasks : Nat
  /-- Wait before the clock of the refill starts. -/
  startupDelay : Nat
  /-- Time on that clock before anything is generated. -/
  warmup : Nat
  /-- Sleep between two cycles. -/
  idleInterval : Nat
  /-- First sleep after a failed cycle, and the longest one. -/
  backoffStart : Nat
  backoffLimit : Nat
  targets : PoolSizes
  deriving DecidableEq

namespace SupplyConfig

def standard : SupplyConfig where
  tasks := 6
  startupDelay := 2000
  warmup := 60000
  idleInterval := 4000
  backoffStart := 500
  backoffLimit := 4000
  targets := ⟨80, 80, 20, 80, 20, 800, 200, 800⟩

/-- The standard with every pool closed: each request generates on demand. -/
def onDemand : SupplyConfig := { standard with targets := PoolSizes.none }

/-- Tasks that a start of the background refill starts. -/
def taskCount (c : SupplyConfig) : Nat := max c.tasks 1

end SupplyConfig

def baseCap : Nat := 2

/-- Milliseconds of run time for each further item under the cap. -/
def capRamp : Nat := 8000

/-- The cap of a cycle: zero until the warm-up is over, then two and one more each eight seconds. -/
def generationCap (elapsed warmup : Nat) : Nat :=
  if elapsed ≤ warmup then 0 else baseCap + (elapsed - warmup) / capRamp

/-- The cap that a background task works under, a time after its start. -/
def SupplyConfig.capAfter (c : SupplyConfig) (elapsed : Nat) : Nat :=
  if elapsed < c.startupDelay then 0 else generationCap (elapsed - c.startupDelay) c.warmup

/-- The first time after its start at which a background task has a cap to fill. -/
def SupplyConfig.firstRefill (c : SupplyConfig) : Nat := c.startupDelay + c.warmup + 1

end Provenance

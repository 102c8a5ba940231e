import Provenance.Key.Sealing

/-!
# Entropy

Fresh bytes are drawn from a tape. Every operation that needs some takes the tape as an argument and
gives back where it stopped, so that no two draws overlap.
-/

namespace Provenance

structure Entropy where
  tape : Nat → UInt8
  position : Nat

namespace Entropy

def draw (count : Nat) (e : Entropy) : Bytes × Entropy :=
  ((List.range' e.position count).map e.tape, { e with position := e.position + count })

@[simp] theorem length_draw (count : Nat) (e : Entropy) : (e.draw count).1.length = count := by
  simp [draw]

def drawSeal (e : Entropy) : SealEntropy × Entropy :=
  let (ephemeral, e) := e.draw 32
  (⟨ephemeral, (e.draw 12).1, length_draw 12 e⟩, (e.draw 12).2)

/-- The tape that a text determines: a ChaCha20 key stream. -/
def ofSeed (seed : String) : Entropy :=
  let key := sha256 (Utf8.encode seed)
  ⟨fun i => (ChaCha20.block key (Bytes.zeros 12) (i / 64)).getD (i % 64) 0, 0⟩

end Entropy

end Provenance

import Provenance.Curve.Field

/-!
# X25519 key agreement

The curve's points are known by one coordinate. `X25519.agree` multiplies a point by a secret number
with the Montgomery ladder; a secret is clamped when it is used and stored as it came. Two parties
that apply it to each other's public point reach the same 32 bytes.
-/

namespace Provenance.X25519

/-- The number that a secret stands for: a multiple of eight whose highest bit is bit 254. -/
def clamp (secret : Bytes) : Nat :=
  let n := Bytes.toNatLE secret % (1 <<< 254)
  (1 <<< 254) + (n - n % 8)

/-- Two points whose difference is the base point, each as a ratio. -/
structure Rung where
  x2 : FieldElement
  z2 : FieldElement
  x3 : FieldElement
  z3 : FieldElement

def Rung.swap (r : Rung) : Rung := ⟨r.x3, r.z3, r.x2, r.z2⟩

/-- Double the first point and add the second to it. -/
def Rung.climb (u : FieldElement) (r : Rung) : Rung :=
  let a := r.x2 + r.z2
  let b := r.x2 - r.z2
  let aa := a * a
  let bb := b * b
  let e := aa - bb
  let da := (r.x3 - r.z3) * a
  let cb := (r.x3 + r.z3) * b
  let sum := da + cb
  let difference := da - cb
  ⟨aa * bb, e * (aa + 121665 * e), sum * sum, u * (difference * difference)⟩

def ladderStep (u : FieldElement) (r : Rung) (bit : Bool) : Rung :=
  if bit then ((r.swap).climb u).swap else r.climb u

def multiply (scalar : Nat) (u : FieldElement) : FieldElement :=
  let r := (Bytes.bits 255 scalar).foldl (ladderStep u) ⟨1, 0, u, 1⟩
  r.x2 * r.z2.inverse

/-- The shared bytes of a secret and the other party's public point. -/
def agree (secret point : Bytes) : Bytes :=
  (multiply (clamp secret) (FieldElement.ofBytes point)).toBytes

/-- The public point of a secret. -/
def publicPoint (secret : Bytes) : Bytes := (multiply (clamp secret) 9).toBytes

@[simp] theorem length_agree (secret point : Bytes) : (agree secret point).length = 32 := by
  simp [agree]

@[simp] theorem length_publicPoint (secret : Bytes) : (publicPoint secret).length = 32 := by
  simp [publicPoint]

end Provenance.X25519

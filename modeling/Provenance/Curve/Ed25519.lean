import Provenance.Curve.Field
import Provenance.Hash.Sha2

/-!
# Ed25519 signatures

Points of the twisted Edwards curve are added by one complete formula. A signature is a point and a
number, 32 bytes each. Verification takes any public bytes that decode to a point, small-order and
unreduced ones included; it wants the number below the group order and the point recomputed from the
key, in its one reduced spelling. Main statements: `length_publicPoint`, `length_sign`.
-/

namespace Provenance.Ed25519

/-! ## The curve -/

/-- A point as two ratios with a common denominator and the product of the two. -/
structure Point where
  x : FieldElement
  y : FieldElement
  z : FieldElement
  t : FieldElement

def curveConstant : FieldElement := -121665 * FieldElement.inverse 121666

def twiceConstant : FieldElement := curveConstant + curveConstant

namespace Point

def zero : Point := ⟨0, 1, 1, 0⟩

def add (p q : Point) : Point :=
  let a := (p.y - p.x) * (q.y - q.x)
  let b := (p.y + p.x) * (q.y + q.x)
  let c := p.t * twiceConstant * q.t
  let d := (p.z + p.z) * q.z
  let e := b - a
  let f := d - c
  let g := d + c
  let h := b + a
  ⟨e * f, g * h, f * g, e * h⟩

def negate (p : Point) : Point := ⟨-p.x, p.y, p.z, -p.t⟩

def multiply (n : Nat) (p : Point) : Point :=
  (Bytes.bits 255 n).foldl (fun acc b => if b then (acc.add acc).add p else acc.add acc) zero

/-- The second coordinate, with the parity of the first in the highest bit. -/
def toBytes (p : Point) : Bytes :=
  let w := p.z.inverse
  let x := p.x * w
  let y := p.y * w
  Bytes.ofNatLE 32 (y.val + x.val % 2 * (1 <<< 255))

def ofBytes? (bs : Bytes) : Option Point := do
  let y := FieldElement.ofBytes bs
  let yy := y * y
  let root ← FieldElement.sqrtRatio? (yy - 1) (curveConstant * yy + 1)
  let x := if 1 <<< 255 ≤ Bytes.toNatLE bs then -root else root
  return ⟨x, y, 1, x * y⟩

@[simp] theorem length_toBytes (p : Point) : p.toBytes.length = 32 := by simp [toBytes]

end Point

/-- The base point: its second coordinate is four fifths and its first one even. -/
def base : Point :=
  let y := 4 * FieldElement.inverse 5
  (Point.ofBytes? y.toBytes).getD Point.zero

def groupOrder : Nat := (1 <<< 252) + 27742317777372353535851937790883648493

/-! ## Keys and signatures -/

/-- What a secret of 32 bytes stands for: a scalar and the bytes that blind its signatures. -/
structure SecretScalar where
  scalar : Nat
  blind : Bytes

def expand (secret : Bytes) : SecretScalar :=
  let h := sha512 secret
  let n := Bytes.toNatLE (h.take 32) % (1 <<< 254)
  ⟨(1 <<< 254) + (n - n % 8), h.drop 32⟩

def publicPoint (secret : Bytes) : Bytes := (base.multiply (expand secret).scalar).toBytes

/-- The number that binds a signature's point and key to the message. -/
def challenge (point key message : Bytes) : Nat :=
  Bytes.toNatLE (sha512 (point ++ key ++ message)) % groupOrder

def sign (secret message : Bytes) : Bytes :=
  let e := expand secret
  let r := Bytes.toNatLE (sha512 (e.blind ++ message)) % groupOrder
  let point := (base.multiply r).toBytes
  let k := challenge point (publicPoint secret) message
  point ++ Bytes.ofNatLE 32 ((r + k * e.scalar) % groupOrder)

def verify (key message signature : Bytes) : Bool :=
  match Point.ofBytes? key with
  | none => false
  | some a =>
    let point := signature.take 32
    let s := Bytes.toNatLE (signature.drop 32)
    let k := challenge point key message
    signature.length = 64 && s < groupOrder &&
      ((base.multiply s).add (a.negate.multiply k)).toBytes = point

@[simp] theorem length_publicPoint (secret : Bytes) : (publicPoint secret).length = 32 := by
  simp [publicPoint]

@[simp] theorem length_sign (secret message : Bytes) : (sign secret message).length = 64 := by
  simp [sign]

end Provenance.Ed25519

import Provenance.Bytes

/-!
# The field of integers modulo 2²⁵⁵ − 19

Both curves of the library live over this field. Elements are numbers below the prime, so ring
operations are those of `Fin`. An element is written as 32 bytes, least significant first; reading
reduces, so a number that is not below the prime is read as its residue.
-/

namespace Provenance

def fieldPrime : Nat := (1 <<< 255) - 19

abbrev FieldElement := Fin fieldPrime

theorem fieldPrime_ne_zero : fieldPrime ≠ 0 := by decide

instance : @NeZero Nat Zero.ofOfNat0 fieldPrime := ⟨fieldPrime_ne_zero⟩

namespace FieldElement

def ofNat (n : Nat) : FieldElement := Fin.ofNat fieldPrime n

/-! ## Powers -/

def power (x : FieldElement) (exponent : Nat) : FieldElement :=
  (Bytes.bits 255 exponent).foldl (fun acc b => if b then acc * acc * x else acc * acc) 1

/-- The inverse, and zero for zero. -/
def inverse (x : FieldElement) : FieldElement := power x (fieldPrime - 2)

/-- A square root of minus one. -/
def rootOfMinusOne : FieldElement := power 2 ((fieldPrime - 1) / 4)

/-- The even square root of `u / v`, if there is one. -/
def sqrtRatio? (u v : FieldElement) : Option FieldElement :=
  let v3 := v * v * v
  let r := u * v3 * power (u * v3 * v3 * v) ((fieldPrime - 5) / 8)
  let check := v * r * r
  let even (x : FieldElement) : FieldElement := if x.val % 2 = 1 then -x else x
  if check = u then some (even r)
  else if check = -u then some (even (r * rootOfMinusOne))
  else none

/-! ## Bytes -/

def toBytes (x : FieldElement) : Bytes := Bytes.ofNatLE 32 x.val

/-- The lowest 255 bits of 32 bytes, reduced. -/
def ofBytes (bs : Bytes) : FieldElement := ofNat (Bytes.toNatLE bs % (1 <<< 255))

@[simp] theorem length_toBytes (x : FieldElement) : (toBytes x).length = 32 := by simp [toBytes]

end FieldElement

end Provenance

import Mathlib.Algebra.Field.ZMod
import Mathlib.FieldTheory.Finite.Basic
import Mathlib.Tactic.LinearCombination
import Provenance.Proofs.FieldPrime

/-!
# Laws of field elements

`FieldElement.residue` takes an element to the field of integers modulo the prime, and takes each
operation on elements to the field's own: sums and products, `power` and `inverse`. Equations
between elements are then proved there.

* `FieldElement.ofBytes_spelled`: an element is read back from its bytes, whatever the highest bit;
* `FieldElement.sqrtRatio?_eq_some`: of the two roots of a square the even one is found.
-/

namespace Provenance

/-! ## Numbers of a fixed width -/

theorem Bytes.toNatLE_ofNatLE (width n : Nat) : toNatLE (ofNatLE width n) = n % 256 ^ width := by
  induction width generalizing n with
  | zero => rw [pow_zero, Nat.mod_one, ofNatLE, toNatLE, List.foldr_nil]
  | succ width ih =>
    have hrest := ih (n / 256)
    rw [toNatLE] at hrest ⊢
    rw [ofNatLE, List.foldr_cons, hrest, pow_succ', Nat.mod_mul, UInt8.toNat_ofNat']
    ring

theorem Bytes.toNatLE_ofNatLE_of_lt {width n : Nat} (h : n < 256 ^ width) :
    toNatLE (ofNatLE width n) = n := by
  rw [toNatLE_ofNatLE, Nat.mod_eq_of_lt h]

namespace FieldElement

theorem fieldPrime_lt : fieldPrime < 2 ^ 255 := by decide

theorem val_lt (x : FieldElement) : x.val < 2 ^ 255 := x.isLt.trans fieldPrime_lt

/-- Both curves take scalars whose highest bit is bit 254. -/
theorem clamped_lt (n : Nat) :
    (1 <<< 254) + (n % (1 <<< 254) - n % (1 <<< 254) % 8) < 2 ^ 255 := by
  have h : n % (1 <<< 254) < 1 <<< 254 := Nat.mod_lt _ (by decide)
  have htwice : (2 : Nat) ^ 255 = (1 <<< 254) + (1 <<< 254) := by decide
  rw [htwice]
  generalize 1 <<< 254 = top at *
  omega

/-! ## Residues -/

def residue (x : FieldElement) : ZMod fieldPrime := x.val

theorem residue_injective {x y : FieldElement} (h : x.residue = y.residue) : x = y := by
  rw [residue, residue, ZMod.natCast_eq_natCast_iff', Nat.mod_eq_of_lt x.isLt,
    Nat.mod_eq_of_lt y.isLt] at h
  exact Fin.ext h

@[simp] theorem residue_add (x y : FieldElement) : (x + y).residue = x.residue + y.residue := by
  rw [residue, Fin.val_add, ZMod.natCast_mod, Nat.cast_add, residue, residue]

@[simp] theorem residue_mul (x y : FieldElement) : (x * y).residue = x.residue * y.residue := by
  rw [residue, Fin.val_mul, ZMod.natCast_mod, Nat.cast_mul, residue, residue]

@[simp] theorem residue_sub (x y : FieldElement) : (x - y).residue = x.residue - y.residue := by
  rw [residue, Fin.sub_def, ZMod.natCast_mod, Nat.cast_add, Nat.cast_sub y.isLt.le,
    ZMod.natCast_self, residue, residue]
  ring

@[simp] theorem residue_zero : (0 : FieldElement).residue = 0 := Nat.cast_zero

@[simp] theorem residue_one : (1 : FieldElement).residue = 1 := Nat.cast_one

theorem residue_ofNat (n : Nat) : (ofNat n).residue = n := by
  rw [residue, ofNat, Fin.val_ofNat, ZMod.natCast_mod]

@[simp] theorem residue_literal (n : Nat) [n.AtLeastTwo] :
    (no_index (OfNat.ofNat n) : FieldElement).residue = OfNat.ofNat n :=
  residue_ofNat n

@[simp] theorem residue_neg (x : FieldElement) : (-x).residue = -x.residue := by
  have h : x.residue + (-x).residue = 0 := by
    rw [← residue_add, ← residue_zero]
    exact congrArg residue (by grind)
  exact (neg_eq_of_add_eq_zero_right h).symm

theorem residue_eq_zero {x : FieldElement} : x.residue = 0 ↔ x = 0 := by
  rw [← residue_zero]
  exact ⟨residue_injective, congrArg residue⟩

/-! ## Powers -/

theorem residue_power (x : FieldElement) {n : Nat} (hn : n < 2 ^ 255) :
    (power x n).residue = x.residue ^ n := by
  refine Bytes.foldl_bits (fun n (r : FieldElement) => r.residue = x.residue ^ n) _ ?_ ?_ hn
  · intro n r b h
    cases b <;> simp [h, two_mul, pow_add]
  · rw [residue_one, pow_zero]

@[simp] theorem residue_inverse (x : FieldElement) : x.inverse.residue = x.residue⁻¹ := by
  rw [inverse, residue_power x (by decide)]
  by_cases hx : x.residue = 0
  · rw [hx, inv_zero, zero_pow (by decide)]
  · apply eq_inv_of_mul_eq_one_left
    rw [← pow_succ]
    exact ZMod.pow_card_sub_one_eq_one hx

theorem residue_rootOfMinusOne : rootOfMinusOne.residue * rootOfMinusOne.residue = -1 := by
  have h : rootOfMinusOne * rootOfMinusOne = -1 := by decide +kernel
  rw [← residue_mul, h, residue_neg, residue_one]

theorem two_ne_zero : (2 : ZMod fieldPrime) ≠ 0 := by
  rw [← residue_literal 2, ne_eq, residue_eq_zero]
  decide

/-! ## Bytes -/

/-- The highest bit of 32 bytes is free: an element leaves room for it. -/
theorem ofBytes_spelled (x : FieldElement) (sign : Nat) (hsign : sign < 2) :
    let bytes := Bytes.ofNatLE 32 (x.val + sign * (1 <<< 255))
    ofBytes bytes = x ∧ (1 <<< 255 ≤ Bytes.toNatLE bytes ↔ sign = 1) := by
  have hx := x.val_lt
  have hshift : (1 <<< 255 : Nat) = 2 ^ 255 := by decide
  have hfit : (256 : Nat) ^ 32 = 2 * 2 ^ 255 := by decide
  intro bytes
  have hbytes : Bytes.toNatLE bytes = x.val + sign * 2 ^ 255 := by
    rw [show bytes = Bytes.ofNatLE 32 (x.val + sign * 2 ^ 255) by rw [← hshift],
      Bytes.toNatLE_ofNatLE_of_lt]
    rw [hfit]
    generalize 2 ^ 255 = top at *
    interval_cases sign <;> omega
  constructor
  · rw [ofBytes, hbytes, hshift, Nat.add_mul_mod_self_right, Nat.mod_eq_of_lt hx]
    exact Fin.ext (Nat.mod_eq_of_lt x.isLt)
  · rw [hbytes, hshift]
    generalize 2 ^ 255 = top at *
    interval_cases sign <;> omega

theorem ofBytes_toBytes (x : FieldElement) : ofBytes x.toBytes = x := by
  have h := (ofBytes_spelled x 0 (by decide)).1
  rwa [Nat.zero_mul, Nat.add_zero] at h

/-! ## Square roots -/

/-- The even one of an element and its opposite. -/
def even (x : FieldElement) : FieldElement := if x.val % 2 = 1 then -x else x

theorem even_neg (x : FieldElement) : (-x).even = x.even := by
  by_cases hx : x = 0
  · rw [hx]
    rfl
  have hval : (-x).val = fieldPrime - x.val := by
    have hpos : x.val ≠ 0 := fun h => hx (Fin.ext h)
    rw [Fin.neg_def]
    exact Nat.mod_eq_of_lt (by have := x.isLt; omega)
  have hodd : fieldPrime % 2 = 1 := by decide
  have hlt := x.isLt
  unfold even
  by_cases h : x.val % 2 = 1
  · rw [if_pos h, if_neg (by omega)]
  · rw [if_neg h, if_pos (by omega)]
    exact neg_neg x

theorem even_eq_even {x y : FieldElement} (h : x.residue ^ 2 = y.residue ^ 2) :
    x.even = y.even := by
  obtain h | h := sq_eq_sq_iff_eq_or_eq_neg.mp h
  · rw [residue_injective h]
  · rw [← residue_neg] at h
    rw [residue_injective h, even_neg]

/-- The parity of an element tells it from its opposite. -/
theorem resign_even (x : FieldElement) : (if x.val % 2 = 1 then -x.even else x.even) = x := by
  unfold even
  split
  · exact neg_neg x
  · rfl

/-- A unit to the power of half the number of units is a sign. -/
theorem pow_half_eq {w : ZMod fieldPrime} (hw : w ≠ 0) :
    w ^ ((fieldPrime - 1) / 2) = 1 ∨ w ^ ((fieldPrime - 1) / 2) = -1 := by
  have hhalf : (fieldPrime - 1) / 2 * 2 = fieldPrime - 1 := by decide
  apply mul_self_eq_one_iff.mp
  rw [← pow_two, ← pow_mul, hhalf]
  exact ZMod.pow_card_sub_one_eq_one hw

/-- The first candidate for the root of a ratio. -/
def rootCandidate (u v : FieldElement) : FieldElement :=
  u * (v * v * v) * power (u * (v * v * v) * (v * v * v) * v) ((fieldPrime - 5) / 8)

/-- It is a root of the ratio or of its opposite: with `w = v⁴ x`, it misses the ratio by the sign
that `w` has to the power of half the number of units. -/
theorem rootCandidate_sq {u v x : FieldElement} (hv : v.residue ≠ 0)
    (h : u.residue = v.residue * x.residue ^ 2) :
    v.residue * (rootCandidate u v).residue ^ 2 = u.residue ∨
      v.residue * (rootCandidate u v).residue ^ 2 = -u.residue := by
  have hexponent : 4 * ((fieldPrime - 5) / 8) + 2 = (fieldPrime - 1) / 2 := by decide
  have hcandidate : v.residue * (rootCandidate u v).residue ^ 2 =
      u.residue * (v.residue ^ 4 * x.residue) ^ ((fieldPrime - 1) / 2) := by
    simp only [rootCandidate, residue_mul]
    rw [residue_power _ (by decide), ← hexponent]
    simp only [residue_mul, h]
    ring
  rw [hcandidate]
  by_cases hx : x.residue = 0
  · left
    rw [h, hx]
    ring
  · obtain hsign | hsign := pow_half_eq (mul_ne_zero (pow_ne_zero 4 hv) hx)
    · left
      rw [hsign, mul_one]
    · right
      rw [hsign, mul_neg_one]

/-- The root of a ratio is found, the even one of the two. -/
theorem sqrtRatio?_eq_some {u v x : FieldElement} (hv : v.residue ≠ 0)
    (h : u.residue = v.residue * x.residue ^ 2) : sqrtRatio? u v = some x.even := by
  have hroot {r : FieldElement} (hr : v.residue * r.residue ^ 2 = u.residue) :
      r.even = x.even :=
    even_eq_even (mul_left_cancel₀ hv (hr.trans h))
  have hcheck : (v * rootCandidate u v * rootCandidate u v).residue =
      v.residue * (rootCandidate u v).residue ^ 2 := by
    rw [residue_mul, residue_mul]
    ring
  show (if v * rootCandidate u v * rootCandidate u v = u then some (rootCandidate u v).even
    else if v * rootCandidate u v * rootCandidate u v = -u then
      some (rootCandidate u v * rootOfMinusOne).even
    else none) = some x.even
  by_cases hplus : v * rootCandidate u v * rootCandidate u v = u
  · rw [if_pos hplus, hroot (hcheck.symm.trans (congrArg residue hplus))]
  · have hminus : v.residue * (rootCandidate u v).residue ^ 2 = -u.residue := by
      refine (rootCandidate_sq hv h).resolve_left (fun hsq => hplus (residue_injective ?_))
      rw [hcheck, hsq]
    have hneg : v * rootCandidate u v * rootCandidate u v = -u := by
      apply residue_injective
      rw [hcheck, hminus, residue_neg]
    rw [if_neg hplus, if_pos hneg, hroot]
    rw [residue_mul]
    linear_combination v.residue * (rootCandidate u v).residue ^ 2 * residue_rootOfMinusOne -
      hminus

end FieldElement

end Provenance

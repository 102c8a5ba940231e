import Provenance.Curve.X25519
import Provenance.Proofs.Ed25519

/-!
# Key agreement is symmetric

The one coordinate of a point is the ratio of `1 + y` to `1 - y`, for the second coordinate `y` of a
point of the same group that signatures live in (`X25519.coordinate`). The ladder keeps two
multiples of the point in this form, one step apart, and doubles the one and adds the two as it goes
down the bits of the scalar (`climb_double`, `climb_add`). So it ends with the coordinate of the
multiple (`residue_multiply`).

Main statement: `X25519.agree_comm`. Each party multiplies the base point by both scalars, and the
order does not matter.
-/

namespace Provenance.X25519

open FieldElement EdwardsCurve.Point

abbrev GroupPoint := Ed25519.curve.Point

/-! ## The coordinate -/

/-- The neutral point has no such ratio; as zero counts as its own inverse, its coordinate is zero,
like that of the point of order two. -/
def coordinate (a : GroupPoint) : ZMod fieldPrime := (1 + a.y) * (1 - a.y)⁻¹

/-- The two numbers have the coordinate as their ratio. -/
def Represents (x z : FieldElement) (a : GroupPoint) : Prop :=
  ∃ c ≠ 0, x.residue = c * (1 + a.y) ∧ z.residue = c * (1 - a.y)

theorem Represents.ratio {x z : FieldElement} {a : GroupPoint} (h : Represents x z a) :
    (x * z.inverse).residue = coordinate a := by
  obtain ⟨c, hc, hx, hz⟩ := h
  rw [residue_mul, residue_inverse, hx, hz, mul_inv, coordinate, mul_mul_mul_comm,
    mul_inv_cancel₀ hc, one_mul]

/-- Enough for the ratio: the products crosswise agree, and not both numbers are zero. -/
theorem represents_of_cross {x z : FieldElement} {a : GroupPoint}
    (hcross : x.residue * (1 - a.y) = z.residue * (1 + a.y))
    (hne : x.residue ≠ 0 ∨ z.residue ≠ 0) : Represents x z a := by
  have htwo := FieldElement.two_ne_zero
  have hx : 2 * x.residue = (x.residue + z.residue) * (1 + a.y) := by
    linear_combination hcross
  have hz : 2 * z.residue = (x.residue + z.residue) * (1 - a.y) := by
    linear_combination -hcross
  have hsum : x.residue + z.residue ≠ 0 := by
    intro hzero
    rw [hzero, zero_mul] at hx hz
    exact hne.elim (fun h => h ((mul_eq_zero.mp hx).resolve_left htwo))
      (fun h => h ((mul_eq_zero.mp hz).resolve_left htwo))
  refine ⟨(x.residue + z.residue) / 2, div_ne_zero hsum htwo, ?_, ?_⟩
  · rw [div_mul_eq_mul_div, ← hx, mul_div_cancel_left₀ _ htwo]
  · rw [div_mul_eq_mul_div, ← hz, mul_div_cancel_left₀ _ htwo]

theorem sub_y_ne_zero {a : GroupPoint} (h : coordinate a ≠ 0) : 1 - a.y ≠ 0 := by
  intro hzero
  rw [coordinate, hzero, inv_zero, mul_zero] at h
  exact h rfl

theorem coordinate_mul {a : GroupPoint} (h : coordinate a ≠ 0) :
    coordinate a * (1 - a.y) = 1 + a.y := by
  rw [coordinate, mul_assoc, inv_mul_cancel₀ (sub_y_ne_zero h), mul_one]

theorem coordinate_eq_zero {a : GroupPoint} : coordinate a = 0 ↔ a.y ^ 2 = 1 := by
  rw [coordinate, mul_eq_zero, inv_eq_zero]
  constructor
  · rintro (h | h)
    · linear_combination (a.y - 1) * h
    · linear_combination -(a.y + 1) * h
  · intro h
    rw [← mul_eq_zero]
    linear_combination -h

/-! ## Doubling and adding -/

/-- The constant of the ladder, in terms of the constant of the curve. -/
theorem one_add_d_mul : (1 + Ed25519.curve.d) * 121666 = 1 := by
  have h : Ed25519.curveConstant * 121666 = -121665 := by decide +kernel
  have hr := congrArg residue h
  rw [residue_mul, residue_neg, residue_literal, residue_literal] at hr
  have hd : Ed25519.curve.d = Ed25519.curveConstant.residue := rfl
  rw [hd]
  linear_combination hr

/-- Of a sum and the difference, the coordinates have a product that the second coordinates tell. -/
theorem sum_difference (a b : GroupPoint) :
    (1 + (a + b).y) * (1 + (a + -b).y) * (a.y - b.y) ^ 2 =
      (1 - (a + b).y) * (1 - (a + -b).y) * (a.y + b.y) ^ 2 := by
  have hcross : crossTerm a (-b) = -crossTerm a b := by
    rw [crossTerm, crossTerm, neg_x, neg_y]
    ring
  have hplus := add_ne_zero a b
  have hminus := sub_ne_zero a b
  have ha := a.onCurve
  have hb := b.onCurve
  rw [add_y, add_y, hcross, sub_neg_eq_add, numeratorY, numeratorY, neg_x, neg_y]
  field_simp
  rw [crossTerm]
  linear_combination -4 * a.y * b.y * b.x ^ 2 * (Ed25519.curve.d * b.y ^ 2 + 1) * ha -
    4 * a.y * b.y * (a.y ^ 2 - 1) * hb

variable {u : FieldElement} {r : Rung} {a b q : GroupPoint}

theorem climb_double (h : Represents r.x2 r.z2 a) :
    Represents (r.climb u).x2 (r.climb u).z2 (a + a) := by
  obtain ⟨c, hc, hx, hz⟩ := h
  have hminus := sub_ne_zero a a
  have hcurve := a.onCurve
  have htwo := FieldElement.two_ne_zero
  have hd := one_add_d_mul
  have hunit : (121666 : ZMod fieldPrime) ≠ 0 := right_ne_zero_of_mul_eq_one hd
  have hplus : (1 + (a + a).y) * (1 - crossTerm a a) = 1 - crossTerm a a + numeratorY a a := by
    rw [add_y]
    field_simp
  have hless : (1 - (a + a).y) * (1 - crossTerm a a) = 1 - crossTerm a a - numeratorY a a := by
    rw [add_y]
    field_simp
  refine ⟨2 ^ 3 * c ^ 4 * (1 - crossTerm a a) * (1 + Ed25519.curve.d * a.y ^ 2) * 121666,
    ?_, ?_, ?_⟩
  · exact mul_ne_zero (mul_ne_zero (mul_ne_zero (mul_ne_zero (pow_ne_zero 3 htwo)
      (pow_ne_zero 4 hc)) hminus) a.denominator_ne_zero) hunit
  · simp only [Rung.climb, residue_mul, residue_add, residue_sub, hx, hz]
    rw [numeratorY, crossTerm] at hplus
    rw [crossTerm]
    linear_combination -16 * c ^ 4 * a.y ^ 2 * hd -
      8 * c ^ 4 * 121666 * (Ed25519.curve.d * a.y ^ 2 - 1) * hcurve -
      8 * c ^ 4 * (1 + Ed25519.curve.d * a.y ^ 2) * 121666 * hplus
  · simp only [Rung.climb, residue_mul, residue_add, residue_sub, residue_literal, hx, hz]
    rw [numeratorY, crossTerm] at hless
    rw [crossTerm]
    linear_combination -16 * c ^ 4 * (1 - a.y ^ 2) * a.y ^ 2 * hd -
      8 * c ^ 4 * 121666 * (1 + Ed25519.curve.d * a.y ^ 2) * hcurve -
      8 * c ^ 4 * (1 + Ed25519.curve.d * a.y ^ 2) * 121666 * hless

/-- The two points are not turned into each other by a quarter, which would make their difference
one of the points without a ratio. -/
theorem y_ne_zero (h : coordinate q ≠ 0) (hq : (a + -b).y = q.y) : a.y ≠ 0 ∨ b.y ≠ 0 := by
  by_contra hzero
  rw [not_or, not_not, not_not] at hzero
  obtain ⟨ha, hb⟩ := hzero
  apply h
  rw [coordinate_eq_zero, ← hq, add_y, numeratorY, crossTerm, neg_x, neg_y, ha, hb]
  have hxa := a.sq_x_eq
  have hxb := b.sq_x_eq
  rw [ha] at hxa
  rw [hb] at hxb
  linear_combination (-b.x ^ 2) * hxa + hxb

theorem climb_add (hu : u.residue = coordinate q) (hq : coordinate q ≠ 0)
    (hdifference : (a + -b).y = q.y) (ha : Represents r.x2 r.z2 a) (hb : Represents r.x3 r.z3 b) :
    Represents (r.climb u).x3 (r.climb u).z3 (a + b) := by
  obtain ⟨c, hc, hxa, hza⟩ := ha
  obtain ⟨e, he, hxb, hzb⟩ := hb
  have htwo := FieldElement.two_ne_zero
  have hfactor : 2 ^ 4 * c ^ 2 * e ^ 2 ≠ 0 :=
    mul_ne_zero (mul_ne_zero (pow_ne_zero 4 htwo) (pow_ne_zero 2 hc)) (pow_ne_zero 2 he)
  have hx : (r.climb u).x3.residue = 2 ^ 4 * c ^ 2 * e ^ 2 * (a.y + b.y) ^ 2 := by
    simp only [Rung.climb, residue_mul, residue_add, residue_sub, hxa, hza, hxb, hzb]
    ring
  have hz : (r.climb u).z3.residue = coordinate q * (2 ^ 4 * c ^ 2 * e ^ 2 * (a.y - b.y) ^ 2) := by
    simp only [Rung.climb, residue_mul, residue_add, residue_sub, hxa, hza, hxb, hzb, hu]
    ring
  have hcoordinate := coordinate_mul hq
  have hsum := sum_difference a b
  rw [hdifference] at hsum
  apply represents_of_cross
  · apply mul_right_cancel₀ (sub_y_ne_zero hq)
    rw [hx, hz]
    linear_combination -(2 ^ 4 * c ^ 2 * e ^ 2) * hsum -
      2 ^ 4 * c ^ 2 * e ^ 2 * (1 + (a + b).y) * (a.y - b.y) ^ 2 * hcoordinate
  · by_contra hzero
    rw [not_or, not_not, not_not, hx, hz] at hzero
    have hplus : a.y + b.y = 0 :=
      sq_eq_zero_iff.mp ((mul_eq_zero.mp hzero.1).resolve_left hfactor)
    have hminus : a.y - b.y = 0 :=
      sq_eq_zero_iff.mp ((mul_eq_zero.mp
        ((mul_eq_zero.mp hzero.2).resolve_left hq)).resolve_left hfactor)
    have hya : a.y = 0 := by
      apply (mul_eq_zero.mp _).resolve_left htwo
      linear_combination hplus + hminus
    have hyb : b.y = 0 := by
      rw [hya, zero_add] at hplus
      exact hplus
    exact (y_ne_zero hq hdifference).elim (fun h => h hya) (fun h => h hyb)

/-! ## The ladder -/

/-- The rung after reading a number: its multiple of the point and the next one. -/
structure Rung.At (r : Rung) (q : GroupPoint) (n : Nat) : Prop where
  this : Represents r.x2 r.z2 (n • q)
  next : Represents r.x3 r.z3 ((n + 1) • q)

theorem Rung.At.ladderStep {n : Nat} (hu : u.residue = coordinate q) (hq : coordinate q ≠ 0)
    (h : r.At q n) (bit : Bool) : (ladderStep u r bit).At q (2 * n + bit.toNat) := by
  have hdouble : (2 * n) • q = n • q + n • q := by rw [two_mul, add_nsmul]
  have hnext : (n + 1) • q + n • q = (2 * n + 1) • q := by
    rw [← add_nsmul]
    congr 1
    omega
  have hdouble' : (n + 1) • q + (n + 1) • q = (2 * n + 1 + 1) • q := by
    rw [← add_nsmul]
    congr 1
    omega
  cases bit with
  | false =>
    have hdifference : (n • q + -((n + 1) • q)).y = q.y := by
      rw [succ_nsmul, neg_add, add_neg_cancel_left, neg_y]
    constructor
    · rw [Bool.toNat_false, add_zero, hdouble]
      exact climb_double h.this
    · rw [Bool.toNat_false, add_zero, ← hnext, add_comm]
      exact climb_add hu hq hdifference h.this h.next
  | true =>
    have hdifference : ((n + 1) • q + -(n • q)).y = q.y := by
      rw [succ_nsmul, add_assoc, add_comm q, ← add_assoc, add_neg_cancel, zero_add]
    constructor
    · rw [Bool.toNat_true, ← hnext]
      exact climb_add (r := r.swap) hu hq hdifference h.next h.this
    · rw [Bool.toNat_true, ← hdouble']
      exact climb_double (u := u) (r := r.swap) h.next

/-- With the coordinate zero, one number of each ratio stays zero. -/
def Rung.Vanishing (r : Rung) : Prop :=
  r.x2.residue * r.z2.residue = 0 ∧ r.x3.residue * r.z3.residue = 0

theorem Rung.Vanishing.climb (hu : u.residue = 0) (h : r.x2.residue * r.z2.residue = 0) :
    (r.climb u).Vanishing := by
  constructor
  · simp only [Rung.climb, residue_mul, residue_add, residue_sub]
    generalize r.x2.residue = x at *
    generalize r.z2.residue = z at *
    rw [show (x + z) * (x + z) - (x - z) * (x - z) = 4 * (x * z) by ring, h, mul_zero, zero_mul,
      mul_zero]
  · simp only [Rung.climb, residue_mul, hu, zero_mul, mul_zero]

theorem Rung.Vanishing.ladderStep (hu : u.residue = 0) (h : r.Vanishing) (bit : Bool) :
    (ladderStep u r bit).Vanishing := by
  cases bit with
  | false => exact Vanishing.climb hu h.1
  | true => exact (Vanishing.climb (r := r.swap) hu h.2).symm

/-- The sums of points without a ratio are such points. -/
theorem coordinate_nsmul_eq_zero (h : coordinate q = 0) (n : Nat) : coordinate (n • q) = 0 := by
  induction n with
  | zero =>
    rw [coordinate_eq_zero, zero_nsmul, zero_y]
    exact one_pow 2
  | succ n ih =>
    rw [coordinate_eq_zero] at h ih ⊢
    have hx : q.x = 0 := by
      apply sq_eq_zero_iff.mp
      apply (mul_eq_zero.mp _).resolve_left q.denominator_ne_zero
      rw [← q.sq_x_eq, h, sub_self]
    rw [succ_nsmul, add_y, numeratorY, crossTerm, hx]
    linear_combination q.y ^ 2 * ih + h

/-- The ladder gives the coordinate of the multiple. -/
theorem residue_multiply {n : Nat} (hn : n < 2 ^ 255) (hu : u.residue = coordinate q) :
    (multiply n u).residue = coordinate (n • q) := by
  by_cases hq : coordinate q = 0
  · have hstart : Rung.Vanishing ⟨1, 0, u, 1⟩ := by
      rw [Rung.Vanishing, residue_zero, hu, hq, mul_zero, zero_mul]
      exact ⟨rfl, rfl⟩
    have hvanishing := Bytes.foldl_bits (fun _ (r : Rung) => r.Vanishing) (ladderStep u)
      (fun _ r bit h => h.ladderStep (hu.trans hq) bit) hstart hn
    rw [coordinate_nsmul_eq_zero hq, multiply, residue_mul, residue_inverse]
    obtain hx | hz := mul_eq_zero.mp hvanishing.1
    · rw [hx, zero_mul]
    · rw [hz, inv_zero, mul_zero]
  · have hstart : Rung.At ⟨1, 0, u, 1⟩ q 0 := by
      constructor
      · refine represents_of_cross ?_ (Or.inl ?_)
        · rw [zero_nsmul, residue_zero, zero_y]
          ring
        · rw [residue_one]
          exact one_ne_zero
      · refine represents_of_cross ?_ (Or.inr ?_)
        · rw [zero_add, one_nsmul, residue_one, one_mul, hu, coordinate_mul hq]
        · rw [residue_one]
          exact one_ne_zero
    have hat := Bytes.foldl_bits (fun n (r : Rung) => r.At q n) (ladderStep u)
      (fun _ r bit h => h.ladderStep hu hq bit) hstart hn
    exact hat.this.ratio

/-! ## Agreement -/

theorem coordinate_basePoint : coordinate Ed25519.basePoint = 9 := by
  have h : Ed25519.base.y * 5 = 4 := by decide +kernel
  have hr := congrArg residue h
  rw [residue_mul, residue_literal, residue_literal] at hr
  have hy : Ed25519.basePoint.y = Ed25519.base.y.residue := rfl
  have hne : 1 - Ed25519.base.y.residue ≠ 0 := by
    intro hzero
    apply one_ne_zero (α := ZMod fieldPrime)
    linear_combination 5 * hzero + hr
  rw [coordinate, hy, mul_inv_eq_iff_eq_mul₀ hne]
  linear_combination 2 * hr

theorem clamp_lt (secret : Bytes) : clamp secret < 2 ^ 255 := clamped_lt _

/-- What two parties compute: the coordinate of the product of the scalars times the base point. -/
theorem agree_publicPoint (a b : Bytes) :
    ∃ shared : FieldElement, agree a (publicPoint b) = shared.toBytes ∧
      shared.residue = coordinate ((clamp a * clamp b) • Ed25519.basePoint) := by
  have hnine : (9 : FieldElement).residue = coordinate Ed25519.basePoint := by
    rw [coordinate_basePoint]
    exact residue_literal 9
  refine ⟨multiply (clamp a) (multiply (clamp b) 9), ?_, ?_⟩
  · rw [agree, publicPoint, ofBytes_toBytes]
  · rw [mul_comm, mul_nsmul]
    exact residue_multiply (clamp_lt a) (residue_multiply (clamp_lt b) hnine)

/-- Two parties that apply their secrets to each other's public points agree. -/
theorem agree_comm (a b : Bytes) : agree a (publicPoint b) = agree b (publicPoint a) := by
  obtain ⟨shared, hbytes, hshared⟩ := agree_publicPoint a b
  obtain ⟨shared', hbytes', hshared'⟩ := agree_publicPoint b a
  rw [mul_comm] at hshared'
  rw [hbytes, hbytes', residue_injective (hshared.trans hshared'.symm)]

end Provenance.X25519

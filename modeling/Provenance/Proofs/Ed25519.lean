import Provenance.Curve.Ed25519
import Provenance.Proofs.EdwardsGroup
import Provenance.Proofs.FieldLaws

/-!
# Signatures verify

A point in memory represents a point of the curve's group (`Ed25519.Point.Represents`), and each
operation on points in memory represents the group's own. The bytes of a point depend on the group
element alone and lead back to it.

Main statement: `Ed25519.verify_sign`, the signature that a secret makes is verified by the public
point of the secret, for every secret and every message.
-/

namespace Provenance.Ed25519

open FieldElement EdwardsCurve.Point

/-! ## The curve -/

theorem residue_curveConstant_ne_sq (w : ZMod fieldPrime) : w * w ≠ curveConstant.residue := by
  intro hw
  have hpower : curveConstant.residue ^ ((fieldPrime - 1) / 2) = -1 := by
    have h : power curveConstant ((fieldPrime - 1) / 2) = -1 := by decide +kernel
    rw [← residue_power _ (by decide), h, residue_neg, residue_one]
  have hne : w ≠ 0 := by
    rintro rfl
    rw [mul_zero] at hw
    exact absurd (residue_eq_zero.mp hw.symm) (by decide +kernel)
  have hhalf : 2 * ((fieldPrime - 1) / 2) = fieldPrime - 1 := by decide
  rw [← hw, ← pow_two, ← pow_mul, hhalf, ZMod.pow_card_sub_one_eq_one hne] at hpower
  apply FieldElement.two_ne_zero
  linear_combination hpower

/-- The curve of the signatures. -/
def curve : EdwardsCurve (ZMod fieldPrime) where
  d := curveConstant.residue
  i := rootOfMinusOne.residue
  i_mul_i := residue_rootOfMinusOne
  nonsquare := residue_curveConstant_ne_sq
  two_ne_zero := FieldElement.two_ne_zero

/-! ## Points in memory -/

/-- The ratios are the coordinates of a point of the group. -/
structure Point.Represents (p : Point) (a : curve.Point) : Prop where
  z : p.z.residue ≠ 0
  x : p.x.residue = a.x * p.z.residue
  y : p.y.residue = a.y * p.z.residue
  t : p.t.residue = a.x * a.y * p.z.residue

namespace Point

theorem represents_zero : zero.Represents 0 where
  z := by simp [zero]
  x := by simp [zero]
  y := by simp [zero]
  t := by simp [zero]

/-- Decoding, once the second coordinate is read, the root found and the sign known. -/
theorem ofBytes?_eq_some {bytes : Bytes} {y root : FieldElement}
    (hy : FieldElement.ofBytes bytes = y)
    (hroot : sqrtRatio? (y * y - 1) (curveConstant * (y * y) + 1) = some root) {odd : Prop}
    [Decidable odd] (hodd : 1 <<< 255 ≤ Bytes.toNatLE bytes ↔ odd) :
    let x := if odd then -root else root
    ofBytes? bytes = some ⟨x, y, 1, x * y⟩ := by
  have hx : (if 1 <<< 255 ≤ Bytes.toNatLE bytes then -root else root) =
      if odd then -root else root := if_congr hodd rfl rfl
  rw [ofBytes?, hy, hroot]
  exact congrArg (fun x => some (Point.mk x y 1 (x * y))) hx

namespace Represents

variable {p q : Point} {a b : curve.Point}

theorem add (hp : p.Represents a) (hq : q.Represents b) : (p.add q).Represents (a + b) := by
  have htwice : twiceConstant.residue = 2 * curve.d := by
    rw [twiceConstant, residue_add, two_mul]
    rfl
  have he : ((p.y + p.x) * (q.y + q.x) - (p.y - p.x) * (q.y - q.x)).residue =
      2 * (p.z.residue * q.z.residue) * numeratorX a b := by
    simp only [residue_sub, residue_mul, residue_add, hp.x, hp.y, hq.x, hq.y, numeratorX]
    ring
  have hf : ((p.z + p.z) * q.z - p.t * twiceConstant * q.t).residue =
      2 * (p.z.residue * q.z.residue) * (1 - crossTerm a b) := by
    simp only [residue_sub, residue_mul, residue_add, htwice, hp.t, hq.t, crossTerm]
    ring
  have hg : ((p.z + p.z) * q.z + p.t * twiceConstant * q.t).residue =
      2 * (p.z.residue * q.z.residue) * (1 + crossTerm a b) := by
    simp only [residue_mul, residue_add, htwice, hp.t, hq.t, crossTerm]
    ring
  have hh : ((p.y + p.x) * (q.y + q.x) + (p.y - p.x) * (q.y - q.x)).residue =
      2 * (p.z.residue * q.z.residue) * numeratorY a b := by
    simp only [residue_sub, residue_mul, residue_add, hp.x, hp.y, hq.x, hq.y, numeratorY]
    ring
  have htwo := FieldElement.two_ne_zero
  have hz := mul_ne_zero hp.z hq.z
  have hplus := add_ne_zero a b
  have hminus := sub_ne_zero a b
  constructor
  · simp only [Point.add, residue_mul, hf, hg]
    exact mul_ne_zero (mul_ne_zero (mul_ne_zero htwo hz) hminus)
      (mul_ne_zero (mul_ne_zero htwo hz) hplus)
  · simp only [Point.add, residue_mul, he, hf, hg, add_x]
    field_simp
  · simp only [Point.add, residue_mul, hf, hg, hh, add_y]
    field_simp
  · simp only [Point.add, residue_mul, he, hf, hg, hh, add_x, add_y]
    field_simp

theorem negate (hp : p.Represents a) : p.negate.Represents (-a) where
  z := hp.z
  x := by rw [Point.negate, residue_neg, hp.x, neg_x, neg_mul]
  y := hp.y
  t := by rw [Point.negate, residue_neg, hp.t, neg_x, neg_y, neg_mul, neg_mul]

theorem multiply (hp : p.Represents a) {n : Nat} (hn : n < 2 ^ 255) :
    (p.multiply n).Represents (n • a) := by
  refine Bytes.foldl_bits (fun n (acc : Point) => acc.Represents (n • a)) _ ?_ ?_ hn
  · intro n acc b hacc
    have hdouble : (acc.add acc).Represents ((2 * n) • a) := by
      rw [two_mul, add_nsmul]
      exact hacc.add hacc
    cases b with
    | false => exact hdouble
    | true =>
      rw [Bool.toNat_true, succ_nsmul]
      exact hdouble.add hp
  · rw [zero_nsmul]
    exact represents_zero

/-! ## Bytes of points -/

theorem ratio_x (hp : p.Represents a) : (p.x * p.z.inverse).residue = a.x := by
  rw [residue_mul, residue_inverse, hp.x, mul_inv_cancel_right₀ hp.z]

theorem ratio_y (hp : p.Represents a) : (p.y * p.z.inverse).residue = a.y := by
  rw [residue_mul, residue_inverse, hp.y, mul_inv_cancel_right₀ hp.z]

theorem toBytes_eq (hp : p.Represents a) (hq : q.Represents a) : p.toBytes = q.toBytes := by
  have hx := residue_injective (hp.ratio_x.trans hq.ratio_x.symm)
  have hy := residue_injective (hp.ratio_y.trans hq.ratio_y.symm)
  rw [Point.toBytes, Point.toBytes, hx, hy]

/-- The bytes of a point decode to the same point of the group. -/
theorem ofBytes?_toBytes (hp : p.Represents a) :
    ∃ q, ofBytes? p.toBytes = some q ∧ q.Represents a := by
  set x := p.x * p.z.inverse with hx
  set y := p.y * p.z.inverse with hy
  have hxa : x.residue = a.x := hp.ratio_x
  have hya : y.residue = a.y := hp.ratio_y
  obtain ⟨hread, hsign⟩ := ofBytes_spelled y (x.val % 2) (Nat.mod_lt _ (by decide))
  have hv : (curveConstant * (y * y) + 1).residue = 1 + curve.d * a.y ^ 2 := by
    simp only [residue_add, residue_mul, residue_one, hya]
    rw [pow_two, add_comm]
    rfl
  have hroot : sqrtRatio? (y * y - 1) (curveConstant * (y * y) + 1) = some x.even := by
    apply sqrtRatio?_eq_some
    · rw [hv]
      exact a.denominator_ne_zero
    · rw [hv, hxa, ← a.sq_x_eq, residue_sub, residue_mul, residue_one, hya, pow_two]
  refine ⟨⟨x, y, 1, x * y⟩, ?_, ?_⟩
  · have hpoint := ofBytes?_eq_some hread hroot hsign
    rw [resign_even] at hpoint
    exact hpoint
  · constructor <;> simp [hxa, hya]

end Represents

end Point

/-! ## The base point -/

theorem base_onCurve : base.y.residue ^ 2 - base.x.residue ^ 2 =
    1 + curve.d * base.x.residue ^ 2 * base.y.residue ^ 2 := by
  have h : base.y * base.y - base.x * base.x =
      1 + curveConstant * (base.x * base.x) * (base.y * base.y) := by decide +kernel
  have hd : curve.d = curveConstant.residue := rfl
  rw [hd]
  generalize base.x = x at *
  generalize base.y = y at *
  have hr := congrArg residue h
  simp only [residue_sub, residue_add, residue_mul, residue_one] at hr
  linear_combination hr

/-- The base point as a point of the group. -/
def basePoint : curve.Point := ⟨base.x.residue, base.y.residue, base_onCurve⟩

theorem represents_base : base.Represents basePoint := by
  have hz : base.z = 1 := by decide +kernel
  have ht : base.t = base.x * base.y := by decide +kernel
  constructor <;> simp [hz, ht, basePoint]

theorem groupOrder_nsmul : groupOrder • basePoint = 0 := by
  have h : (base.multiply groupOrder).x = 0 ∧
      (base.multiply groupOrder).y = (base.multiply groupOrder).z := by decide +kernel
  have hr := represents_base.multiply (n := groupOrder) (by decide)
  ext
  · apply (mul_eq_zero.mp (hr.x.symm.trans _)).resolve_right hr.z
    rw [h.1, residue_zero]
  · apply mul_right_cancel₀ hr.z
    rw [← hr.y, h.2, zero_y, one_mul]

theorem mod_groupOrder_nsmul (n : Nat) : (n % groupOrder) • basePoint = n • basePoint := by
  conv_rhs => rw [← Nat.mod_add_div n groupOrder, add_nsmul, mul_nsmul, groupOrder_nsmul,
    nsmul_zero, add_zero]

/-! ## Signatures -/

theorem scalar_lt (secret : Bytes) : (expand secret).scalar < 2 ^ 255 := clamped_lt _

theorem mod_groupOrder_lt (n : Nat) : n % groupOrder < 2 ^ 255 :=
  (Nat.mod_lt n (by decide)).trans (by decide)

/-- The equation that verification checks: with `s = r + k n`, taking `k` times the key `n • b` from
`s • b` leaves `r • b`. -/
theorem represents_verified {a : Point} {n r k : Nat} (ha : a.Represents (n • basePoint))
    (hk : k < 2 ^ 255) :
    ((base.multiply ((r + k * n) % groupOrder)).add (a.negate.multiply k)).Represents
      (r • basePoint) := by
  have hgroup : ((r + k * n) % groupOrder) • basePoint + k • -(n • basePoint) = r • basePoint := by
    rw [mod_groupOrder_nsmul, add_nsmul, neg_nsmul, mul_comm k n, mul_nsmul, add_neg_cancel_right]
  rw [← hgroup]
  exact (represents_base.multiply (mod_groupOrder_lt _)).add (ha.negate.multiply hk)

theorem verify_parts {key point message : Bytes} {a : Point} {s : Nat}
    (ha : Point.ofBytes? key = some a) (hpoint : point.length = 32) (hs : s < groupOrder)
    (hsum : ((base.multiply s).add (a.negate.multiply (challenge point key message))).toBytes =
      point) : verify key message (point ++ Bytes.ofNatLE 32 s) = true := by
  have hnumber : Bytes.toNatLE (Bytes.ofNatLE 32 s) = s :=
    Bytes.toNatLE_ofNatLE_of_lt (hs.trans (by decide))
  have hlength : (point ++ Bytes.ofNatLE 32 s).length = 64 := by
    rw [List.length_append, hpoint, Bytes.length_ofNatLE]
  unfold verify
  rw [ha]
  simp only [List.take_left' hpoint, List.drop_left' hpoint, hnumber, hsum, hlength,
    decide_eq_true hs, decide_true, Bool.and_self]

/-- A signature verifies under the public point of the secret that made it. -/
theorem verify_sign (secret message : Bytes) :
    verify (publicPoint secret) message (sign secret message) = true := by
  obtain ⟨a, ha, hrepresents⟩ := (represents_base.multiply (scalar_lt secret)).ofBytes?_toBytes
  refine verify_parts ha (Point.length_toBytes _) (Nat.mod_lt _ (by decide)) ?_
  exact (represents_verified hrepresents (mod_groupOrder_lt _)).toBytes_eq
    (represents_base.multiply (mod_groupOrder_lt _))

end Provenance.Ed25519

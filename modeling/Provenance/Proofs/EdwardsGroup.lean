import Mathlib.Tactic.FieldSimp
import Mathlib.Tactic.LinearCombination
import Mathlib.Tactic.Ring

/-!
# The group of an Edwards curve

The points of a curve `y² - x² = 1 + d x² y²` over a field in which minus one is a square and `d` is
not. Their addition has no exceptions (`EdwardsCurve.Point.add_ne_zero`) and makes them a group.

Turning a point by a quarter swaps its coordinates, up to a factor, and goes through a sum
(`add_turn`). So whatever holds of the first coordinate of all sums holds of the second one, and
associativity takes one identity of polynomials (`numerator_assoc`).
-/

namespace Provenance

/-- The constant of a curve, and what makes its addition complete. -/
structure EdwardsCurve (F : Type) [Field F] where
  d : F
  i : F
  i_mul_i : i * i = -1
  nonsquare : ∀ w, w * w ≠ d
  two_ne_zero : (2 : F) ≠ 0

namespace EdwardsCurve

variable {F : Type} [Field F] {c : EdwardsCurve F}

theorem i_ne_zero (c : EdwardsCurve F) : c.i ≠ 0 := by
  intro h
  have hi := c.i_mul_i
  rw [h, mul_zero] at hi
  exact one_ne_zero (neg_eq_zero.mp hi.symm)

@[ext] structure Point (c : EdwardsCurve F) where
  x : F
  y : F
  onCurve : y ^ 2 - x ^ 2 = 1 + c.d * x ^ 2 * y ^ 2

namespace Point

/-- The first coordinate of a point is the root of a ratio in the second one. -/
theorem sq_x_eq (p : Point c) : p.y ^ 2 - 1 = (1 + c.d * p.y ^ 2) * p.x ^ 2 := by
  linear_combination p.onCurve

theorem denominator_ne_zero (p : Point c) : 1 + c.d * p.y ^ 2 ≠ 0 := by
  intro h
  have hy : p.y ^ 2 = 1 := by linear_combination p.sq_x_eq + p.x ^ 2 * h
  apply c.nonsquare c.i
  linear_combination c.i_mul_i - h + c.d * hy

/-! ## Addition -/

/-- What the denominators of a sum differ from one by. -/
def crossTerm (p q : Point c) : F := c.d * (p.x * q.x * p.y * q.y)

def numeratorX (p q : Point c) : F := p.x * q.y + q.x * p.y

def numeratorY (p q : Point c) : F := p.y * q.y + p.x * q.x

/-- Were the cross term plus or minus one, `d` would be a square, unless this factor is zero. -/
theorem factor_eq_zero {p q : Point c} (h : crossTerm p q ^ 2 = 1) {s : F} (hs : s * s = -1) :
    s * q.x + q.y = 0 := by
  by_contra hne
  have hcross : crossTerm p q ≠ 0 := by
    intro hzero
    rw [hzero] at h
    exact one_ne_zero (h.symm.trans (by ring))
  have hproduct : p.x * p.y ≠ 0 := by
    intro hzero
    apply hcross
    rw [crossTerm]
    linear_combination c.d * q.x * q.y * hzero
  have hsquare : (s * p.x + crossTerm p q * p.y) ^ 2 =
      c.d * (p.x * p.y * (s * q.x + q.y)) ^ 2 := by
    simp only [crossTerm] at h ⊢
    linear_combination (p.x ^ 2 - c.d * p.x ^ 2 * p.y ^ 2 * q.x ^ 2) * hs + p.onCurve -
      c.d * p.x ^ 2 * p.y ^ 2 * q.onCurve + (p.y ^ 2 - 1) * h
  refine c.nonsquare ((s * p.x + crossTerm p q * p.y) / (p.x * p.y * (s * q.x + q.y))) ?_
  rw [← pow_two, div_pow, hsquare, mul_div_assoc,
    div_self (pow_ne_zero 2 (mul_ne_zero hproduct hne)), mul_one]

/-- Addition is complete: no cross term is plus or minus one. -/
theorem crossTerm_sq_ne_one (p q : Point c) : crossTerm p q ^ 2 ≠ 1 := by
  intro h
  have hplus : c.i * q.x + q.y = 0 := factor_eq_zero h c.i_mul_i
  have hminus : -c.i * q.x + q.y = 0 := factor_eq_zero h (by rw [neg_mul_neg, c.i_mul_i])
  have hy : q.y = 0 := by
    apply (mul_eq_zero.mp _).resolve_left c.two_ne_zero
    linear_combination hplus + hminus
  rw [crossTerm, hy, mul_zero, mul_zero] at h
  exact one_ne_zero (h.symm.trans (by ring))

theorem add_ne_zero (p q : Point c) : 1 + crossTerm p q ≠ 0 := by
  intro h
  apply crossTerm_sq_ne_one p q
  linear_combination (crossTerm p q - 1) * h

theorem sub_ne_zero (p q : Point c) : 1 - crossTerm p q ≠ 0 := by
  intro h
  apply crossTerm_sq_ne_one p q
  linear_combination -(crossTerm p q + 1) * h

theorem numerators_onCurve (p q : Point c) :
    (numeratorY p q * (1 + crossTerm p q)) ^ 2 - (numeratorX p q * (1 - crossTerm p q)) ^ 2 =
      ((1 + crossTerm p q) * (1 - crossTerm p q)) ^ 2 +
        c.d * (numeratorX p q * numeratorY p q) ^ 2 := by
  have hp := p.onCurve
  have hq := q.onCurve
  simp only [crossTerm, numeratorX, numeratorY]
  generalize c.d = d at *
  linear_combination
    ((q.y ^ 2 - q.x ^ 2) * (1 + d ^ 2 * (p.x * q.x * p.y * q.y) ^ 2) -
      d * (q.x * q.y) ^ 2 * (p.y ^ 2 - p.x ^ 2 + 1 + d * (p.x * p.y) ^ 2)) * hp +
    ((1 + d * (p.x * p.y) ^ 2) * (1 + d ^ 2 * (p.x * q.x * p.y * q.y) ^ 2) -
      d * (p.x * p.y) ^ 2 * (q.y ^ 2 - q.x ^ 2 + 1 + d * (q.x * q.y) ^ 2)) * hq

instance : Add (Point c) where
  add p q :=
    { x := numeratorX p q / (1 + crossTerm p q)
      y := numeratorY p q / (1 - crossTerm p q)
      onCurve := by
        have hplus := add_ne_zero p q
        have hminus := sub_ne_zero p q
        have h := numerators_onCurve p q
        field_simp
        linear_combination h }

instance : Zero (Point c) where
  zero := ⟨0, 1, by ring⟩

instance : Neg (Point c) where
  neg p := ⟨-p.x, p.y, by rw [neg_sq]; exact p.onCurve⟩

theorem add_x (p q : Point c) : (p + q).x = numeratorX p q / (1 + crossTerm p q) := rfl

theorem add_y (p q : Point c) : (p + q).y = numeratorY p q / (1 - crossTerm p q) := rfl

@[simp] theorem zero_x : (0 : Point c).x = 0 := rfl

@[simp] theorem zero_y : (0 : Point c).y = 1 := rfl

@[simp] theorem neg_x (p : Point c) : (-p).x = -p.x := rfl

@[simp] theorem neg_y (p : Point c) : (-p).y = p.y := rfl

/-! ## The laws that are seen at once -/

protected theorem add_comm (p q : Point c) : p + q = q + p := by
  have hx : numeratorX p q = numeratorX q p := by rw [numeratorX, numeratorX]; ring
  have hy : numeratorY p q = numeratorY q p := by rw [numeratorY, numeratorY]; ring
  have hcross : crossTerm p q = crossTerm q p := by rw [crossTerm, crossTerm]; ring
  ext
  · rw [add_x, add_x, hx, hcross]
  · rw [add_y, add_y, hy, hcross]

protected theorem zero_add (p : Point c) : 0 + p = p := by
  ext
  · simp [add_x, numeratorX, crossTerm]
  · simp [add_y, numeratorY, crossTerm]

protected theorem neg_add_cancel (p : Point c) : -p + p = 0 := by
  ext
  · have hx : numeratorX (-p) p = 0 := by
      rw [numeratorX, neg_x, neg_y]
      ring
    rw [add_x, hx, zero_div, zero_x]
  · have hy : numeratorY (-p) p = 1 - crossTerm (-p) p := by
      rw [numeratorY, crossTerm, neg_x, neg_y]
      linear_combination p.onCurve
    rw [add_y, hy, div_self (sub_ne_zero (-p) p), zero_y]

/-! ## Associativity -/

/-- A point turned by a quarter: its sum with a point of order four. -/
def turn (p : Point c) : Point c :=
  ⟨c.i * p.y, c.i * p.x, by
    linear_combination (p.x ^ 2 - p.y ^ 2 - c.d * p.x ^ 2 * p.y ^ 2 * (c.i * c.i - 1)) * c.i_mul_i +
      p.onCurve⟩

theorem turn_x (p : Point c) : p.turn.x = c.i * p.y := rfl

theorem turn_y (p : Point c) : p.turn.y = c.i * p.x := rfl

theorem crossTerm_turn (p q : Point c) : crossTerm p q.turn = -crossTerm p q := by
  rw [crossTerm, crossTerm, turn_x, turn_y]
  linear_combination c.d * p.x * p.y * q.x * q.y * c.i_mul_i

theorem add_turn (p q : Point c) : p + q.turn = (p + q).turn := by
  ext
  · have hx : numeratorX p q.turn = c.i * numeratorY p q := by
      rw [numeratorX, numeratorY, turn_x, turn_y]
      ring
    rw [add_x, turn_x, add_y, hx, crossTerm_turn, mul_div_assoc, sub_eq_add_neg]
  · have hy : numeratorY p q.turn = c.i * numeratorX p q := by
      rw [numeratorX, numeratorY, turn_x, turn_y]
      ring
    rw [add_y, turn_y, add_x, hy, crossTerm_turn, mul_div_assoc, sub_neg_eq_add]

/-- The two ways to add three points agree in the first coordinate, denominators cleared. -/
theorem numerator_assoc (p q r : Point c) :
    (numeratorX p q * (1 - crossTerm p q) * r.y + r.x * (numeratorY p q * (1 + crossTerm p q))) *
      ((1 + crossTerm q r) * (1 - crossTerm q r) +
        c.d * (p.x * numeratorX q r * p.y * numeratorY q r)) =
    (p.x * (numeratorY q r * (1 + crossTerm q r)) + numeratorX q r * (1 - crossTerm q r) * p.y) *
      ((1 + crossTerm p q) * (1 - crossTerm p q) +
        c.d * (numeratorX p q * r.x * numeratorY p q * r.y)) := by
  obtain ⟨x₁, y₁, h₁⟩ := p
  obtain ⟨x₂, y₂, h₂⟩ := q
  obtain ⟨x₃, y₃, h₃⟩ := r
  simp only [crossTerm, numeratorX, numeratorY]
  generalize c.d = d at *
  linear_combination
    d * x₂ * y₂ * (x₁ * (x₃ * y₃ ^ 2 * y₂ ^ 3 * (1 - d * x₂ ^ 2) -
        x₃ ^ 2 * y₃ * x₂ ^ 3 * (1 + d * y₂ ^ 2) -
        x₂ ^ 2 * y₂ * x₃ * (x₃ ^ 2 + 1) + x₂ * y₂ ^ 2 * y₃ * (y₃ ^ 2 - 1)) +
      y₁ * (x₃ * y₃ ^ 2 * x₂ ^ 3 * (1 + d * y₂ ^ 2) -
        x₃ ^ 2 * y₃ * y₂ ^ 3 * (1 - d * x₂ ^ 2) +
        x₂ ^ 2 * y₂ * y₃ * (y₃ ^ 2 - 1) - x₂ * y₂ ^ 2 * x₃ * (x₃ ^ 2 + 1))) * h₁ +
    d * x₂ * y₂ * (x₁ * (x₁ ^ 2 + 1) * x₃ * y₃ * (x₂ * x₃ + y₂ * y₃) +
      y₁ * (y₁ ^ 2 - 1) * x₃ * y₃ * (x₂ * y₃ + y₂ * x₃) -
      x₁ ^ 2 * y₁ * (x₂ * x₃ * (x₃ ^ 2 + 1) + y₂ * y₃ * (y₃ ^ 2 - 1)) -
      x₁ * y₁ ^ 2 * (x₂ * y₃ * (y₃ ^ 2 - 1) + y₂ * x₃ * (x₃ ^ 2 + 1))) * h₂ +
    d * x₂ * y₂ * (x₁ * (x₁ ^ 2 + 1) * x₂ * y₂ * (x₂ * x₃ + y₂ * y₃) -
      y₁ * (y₁ ^ 2 - 1) * x₂ * y₂ * (x₂ * y₃ + y₂ * x₃) +
      x₁ ^ 2 * y₁ * (x₂ ^ 3 * x₃ * (1 + d * y₂ ^ 2) + y₂ ^ 3 * y₃ * (1 - d * x₂ ^ 2)) -
      x₁ * y₁ ^ 2 * (x₂ ^ 3 * y₃ * (1 + d * y₂ ^ 2) + y₂ ^ 3 * x₃ * (1 - d * x₂ ^ 2))) * h₃

theorem add_add_x (p q r : Point c) :
    (p + q + r).x =
      (numeratorX p q * (1 - crossTerm p q) * r.y + r.x * (numeratorY p q * (1 + crossTerm p q))) /
        ((1 + crossTerm p q) * (1 - crossTerm p q) +
          c.d * (numeratorX p q * r.x * numeratorY p q * r.y)) := by
  have hplus := add_ne_zero p q
  have hminus := sub_ne_zero p q
  rw [add_x, numeratorX, crossTerm, add_x, add_y]
  field_simp

theorem add_x_assoc (p q r : Point c) : (p + q + r).x = (p + (q + r)).x := by
  have hdenominator (p q r : Point c) : (1 + crossTerm p q) * (1 - crossTerm p q) +
      c.d * (numeratorX p q * r.x * numeratorY p q * r.y) ≠ 0 := by
    have hplus := add_ne_zero p q
    have hminus := sub_ne_zero p q
    have hsum : (1 + crossTerm p q) * (1 - crossTerm p q) +
        c.d * (numeratorX p q * r.x * numeratorY p q * r.y) =
        (1 + crossTerm p q) * (1 - crossTerm p q) * (1 + crossTerm (p + q) r) := by
      rw [crossTerm.eq_1 (p + q) r, add_x, add_y]
      field_simp
    rw [hsum]
    exact mul_ne_zero (mul_ne_zero hplus hminus) (add_ne_zero (p + q) r)
  rw [Point.add_comm p (q + r), add_add_x, add_add_x,
    div_eq_div_iff (hdenominator p q r) (hdenominator q r p)]
  linear_combination numerator_assoc p q r

/-- The second coordinate is the first one of the turned point. -/
protected theorem add_assoc (p q r : Point c) : p + q + r = p + (q + r) := by
  ext
  · exact add_x_assoc p q r
  · have h := add_x_assoc p q r.turn
    rw [add_turn, add_turn, add_turn, turn_x, turn_x] at h
    exact mul_left_cancel₀ c.i_ne_zero h

instance : AddCommGroup (Point c) where
  add_assoc := Point.add_assoc
  zero_add := Point.zero_add
  add_zero p := by rw [Point.add_comm, Point.zero_add]
  add_comm := Point.add_comm
  neg_add_cancel := Point.neg_add_cancel
  nsmul := nsmulRec
  zsmul := zsmulRec

end Point

end EdwardsCurve

end Provenance

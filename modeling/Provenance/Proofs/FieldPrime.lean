import Mathlib.Data.List.Prime
import Mathlib.NumberTheory.LucasPrimality
import Mathlib.Tactic.NormNum.Prime
import Provenance.Curve.Field

/-!
# The field of the curves is a field

`fieldPrime_prime`: the modulus 2²⁵⁵ - 19 is prime. A number is certified by a witness that
generates the units modulo the number, which the prime factors of its predecessor are enough to see
(Lucas). The large factors are certified in the same way.

Powers, multiples of points and the ladder all go through the bits of a number from the top.
`Bytes.foldl_bits` says once what such a loop keeps.
-/

namespace Provenance

/-! ## Loops over the bits of a number -/

/-- What holds of the bits read so far, and is kept when one more is read, holds of the whole number
in the end. -/
theorem Bytes.foldl_bits {α : Type} (holds : Nat → α → Prop) (step : α → Bool → α)
    (hstep : ∀ n a b, holds n a → holds (2 * n + b.toNat) (step a b)) {start : α}
    (hstart : holds 0 start) {count n : Nat} (hn : n < 2 ^ count) :
    holds n ((bits count n).foldl step start) := by
  have hloop : ∀ (count read : Nat) (a : α), holds read a →
      holds (read * 2 ^ count + n % 2 ^ count) ((bits count n).foldl step a) := by
    intro count
    induction count with
    | zero =>
      intro read a ha
      rw [pow_zero, mul_one, Nat.mod_one, add_zero]
      exact ha
    | succ count ih =>
      intro read a ha
      have hread := ih _ _ (hstep read a (n.testBit count) ha)
      have hsplit : (2 * read + (n.testBit count).toNat) * 2 ^ count + n % 2 ^ count =
          read * 2 ^ (count + 1) + n % 2 ^ (count + 1) := by
        rw [Nat.mod_pow_succ, Nat.toNat_testBit]
        ring
      rwa [hsplit] at hread
  have h := hloop count 0 start hstart
  rwa [zero_mul, zero_add, Nat.mod_eq_of_lt hn] at h

/-! ## Certificates -/

namespace Primality

def powModStep (m a r : Nat) (b : Bool) : Nat := if b then r * r * a % m else r * r % m

def powMod (m a n : Nat) : Nat := (Bytes.bits 255 n).foldl (powModStep m a) 1

theorem cast_powMod (m a : Nat) {n : Nat} (hn : n < 2 ^ 255) :
    (powMod m a n : ZMod m) = (a : ZMod m) ^ n := by
  refine Bytes.foldl_bits (fun n (r : Nat) => (r : ZMod m) = (a : ZMod m) ^ n) (powModStep m a)
    ?_ ?_ hn
  · intro n r b h
    cases b <;> simp [powModStep, h, two_mul, pow_add]
  · rw [Nat.cast_one, pow_zero]

/-- The witness has the order of the units, if these are the prime factors of that order. -/
def certifies (p witness : Nat) (factors : List Nat) : Bool :=
  factors.prod = p - 1 && powMod p witness (p - 1) % p = 1 % p &&
    factors.all (fun q => powMod p witness ((p - 1) / q) % p ≠ 1 % p)

theorem prime_of_certifies {p : Nat} (witness : Nat) (factors : List Nat) (hp : p ≤ 2 ^ 255)
    (hfactors : ∀ q ∈ factors, q.Prime) (h : certifies p witness factors = true) : p.Prime := by
  simp only [certifies, Bool.and_eq_true, decide_eq_true_eq, List.all_eq_true] at h
  obtain ⟨⟨hproduct, hone⟩, hother⟩ := h
  have hsmall (n : Nat) (hn : n ≤ p - 1) : n < 2 ^ 255 := by
    have := Nat.two_pow_pos 255
    omega
  have hpow (n : Nat) (hn : n ≤ p - 1) :
      (witness : ZMod p) ^ n = 1 ↔ powMod p witness n % p = 1 % p := by
    rw [← cast_powMod p witness (hsmall n hn), ← ZMod.natCast_eq_natCast_iff', Nat.cast_one]
  apply lucas_primality p witness
  · exact (hpow (p - 1) le_rfl).mpr hone
  · intro q hq hdvd
    rw [← hproduct, (Nat.prime_iff.mp hq).dvd_prod_iff] at hdvd
    obtain ⟨r, hr, hqr⟩ := hdvd
    obtain rfl : q = r := (Nat.prime_dvd_prime_iff_eq hq (hfactors r hr)).mp hqr
    rw [ne_eq, hpow _ (Nat.div_le_self ..)]
    exact hother q hr

/-! ## The modulus -/

theorem prime_2773320623 : Nat.Prime 2773320623 := by
  apply prime_of_certifies 5 [2, 2437, 569003] (by decide) _ (by decide +kernel)
  simp only [List.forall_mem_cons]
  norm_num

theorem prime_72106336199 : Nat.Prime 72106336199 := by
  apply prime_of_certifies 7 [2, 13, 2773320623] (by decide) _ (by decide +kernel)
  simp only [List.forall_mem_cons]
  exact ⟨by norm_num, by norm_num, prime_2773320623, by simp⟩

theorem prime_1919519569386763 : Nat.Prime 1919519569386763 := by
  apply prime_of_certifies 2 [2, 3, 7, 19, 47, 47, 127, 8574133] (by decide) _ (by decide +kernel)
  simp only [List.forall_mem_cons]
  norm_num

theorem prime_31757755568855353 : Nat.Prime 31757755568855353 := by
  apply prime_of_certifies 10 [2, 2, 2, 3, 31, 107, 223, 4153, 430751] (by decide) _
    (by decide +kernel)
  simp only [List.forall_mem_cons]
  norm_num

theorem prime_75445702479781427272750846543864801 :
    Nat.Prime 75445702479781427272750846543864801 := by
  apply prime_of_certifies 7
    [2, 2, 2, 2, 2, 3, 3, 5, 5, 75707, 72106336199, 1919519569386763] (by decide) _
    (by decide +kernel)
  simp only [List.forall_mem_cons]
  refine ⟨?_, ?_, ?_, ?_, ?_, ?_, ?_, ?_, ?_, ?_, prime_72106336199, prime_1919519569386763, ?_⟩
  all_goals norm_num

theorem prime_74058212732561358302231226437062788676166966415465897661863160754340907 :
    Nat.Prime 74058212732561358302231226437062788676166966415465897661863160754340907 := by
  apply prime_of_certifies 2
    [2, 3, 353, 57467, 132049, 1923133, 31757755568855353, 75445702479781427272750846543864801]
    (by decide) _ (by decide +kernel)
  simp only [List.forall_mem_cons]
  refine ⟨?_, ?_, ?_, ?_, ?_, ?_, prime_31757755568855353,
    prime_75445702479781427272750846543864801, ?_⟩
  all_goals norm_num

end Primality

open Primality in
theorem fieldPrime_prime : fieldPrime.Prime := by
  apply prime_of_certifies 2
    [2, 2, 3, 65147, 74058212732561358302231226437062788676166966415465897661863160754340907]
    (by decide) _ (by decide +kernel)
  simp only [List.forall_mem_cons]
  refine ⟨?_, ?_, ?_, ?_,
    prime_74058212732561358302231226437062788676166966415465897661863160754340907, ?_⟩
  all_goals norm_num

instance : Fact fieldPrime.Prime := ⟨fieldPrime_prime⟩

end Provenance

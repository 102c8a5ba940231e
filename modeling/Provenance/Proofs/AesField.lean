import Mathlib.Algebra.CharP.Frobenius
import Mathlib.Algebra.CharP.Two
import Mathlib.Tactic.LinearCombination
import Provenance.Cipher.Aes
import Provenance.Proofs.FieldPrime

/-!
# The field of the block cipher

Bytes are a commutative ring under exclusive or and the multiplication of AES (`FieldByte`). A
product is made of additions and doublings alone, so a map that keeps these keeps products
(`Aes.map_multiply`), and the laws of multiplication follow. The ring has characteristic two:
raising to the power 256 is additive, and changes nothing as it does not change the eight bytes with
one binary digit (`FieldByte.pow_256`).

Main statement: `Aes.inverse_inverse`. Inversion, the 254th power, undoes itself.
-/

namespace Provenance

/-- Bytes one by one. -/
theorem Bytes.forall_byte {P : UInt8 → Prop} (h : ∀ n < 256, P (UInt8.ofNat n)) (b : UInt8) :
    P b := by
  have hb := h b.toNat b.toNat_lt
  rwa [UInt8.ofNat_toNat] at hb

namespace Aes

/-! ## Sums and doubles -/

theorem xor_xor_xor_comm (a b c d : UInt8) : a ^^^ b ^^^ (c ^^^ d) = a ^^^ c ^^^ (b ^^^ d) := by
  rw [UInt8.xor_assoc, UInt8.xor_assoc, ← UInt8.xor_assoc b, UInt8.xor_comm b, UInt8.xor_assoc]

/-- Bytes below 128 are those without the highest bit. -/
theorem lt_iff_msb (a : UInt8) : a < 0x80 ↔ a.toBitVec.msb = false := by
  rw [BitVec.msb_eq_decide, decide_eq_false_iff_not, Nat.not_le]
  exact UInt8.lt_iff_toNat_lt

theorem double_xor (a b : UInt8) : double (a ^^^ b) = double a ^^^ double b := by
  have hmsb : (a ^^^ b).toBitVec.msb = (a.toBitVec.msb ^^ b.toBitVec.msb) := by
    rw [UInt8.toBitVec_xor, BitVec.msb_xor]
  have hreduce : ∀ c : UInt8, double c = c <<< 1 ^^^ if c.toBitVec.msb then 0x1b else 0 := by
    intro c
    simp only [double, lt_iff_msb]
    cases c.toBitVec.msb <;> simp
  rw [hreduce, hreduce, hreduce, hmsb, UInt8.shiftLeft_xor, xor_xor_xor_comm]
  cases a.toBitVec.msb <;> cases b.toBitVec.msb <;> simp

/-! ## Products -/

/-- One binary digit of the second factor. -/
def multiplyStep (a acc : UInt8) (d : Bool) : UInt8 := if d then double acc ^^^ a else double acc

theorem multiply_eq (a b : UInt8) :
    multiply a b = (Bytes.bits 8 b.toNat).foldl (multiplyStep a) 0 := rfl

theorem multiplyStep_xor (a b x y : UInt8) (d : Bool) :
    multiplyStep (a ^^^ b) (x ^^^ y) d = multiplyStep a x d ^^^ multiplyStep b y d := by
  cases d with
  | false => exact double_xor x y
  | true =>
    show double (x ^^^ y) ^^^ (a ^^^ b) = double x ^^^ a ^^^ (double y ^^^ b)
    rw [double_xor, xor_xor_xor_comm]

theorem multiply_xor_left (a b c : UInt8) :
    multiply (a ^^^ b) c = multiply a c ^^^ multiply b c := by
  have hloop : ∀ (digits : List Bool) (x y : UInt8),
      digits.foldl (multiplyStep (a ^^^ b)) (x ^^^ y) =
        digits.foldl (multiplyStep a) x ^^^ digits.foldl (multiplyStep b) y := by
    intro digits
    induction digits with
    | nil => exact fun x y => rfl
    | cons d digits ih =>
      intro x y
      rw [List.foldl_cons, multiplyStep_xor, ih, List.foldl_cons, List.foldl_cons]
  exact hloop _ 0 0

/-- A map that keeps sums and doubles keeps products with any byte. -/
theorem map_multiply {f : UInt8 → UInt8} (hsum : ∀ a b, f (a ^^^ b) = f a ^^^ f b)
    (hdouble : ∀ a, f (double a) = double (f a)) (a b : UInt8) :
    f (multiply a b) = multiply (f a) b := by
  have hzero : f 0 = 0 := by
    have h := hsum 0 0
    rwa [UInt8.xor_self, UInt8.xor_self] at h
  have hstep : ∀ x d, f (multiplyStep a x d) = multiplyStep (f a) (f x) d := by
    intro x d
    cases d with
    | false => exact hdouble x
    | true => exact (hsum _ _).trans (by rw [hdouble]; rfl)
  have hloop : ∀ (digits : List Bool) (x : UInt8),
      f (digits.foldl (multiplyStep a) x) = digits.foldl (multiplyStep (f a)) (f x) := by
    intro digits
    induction digits with
    | nil => exact fun x => rfl
    | cons d digits ih =>
      intro x
      rw [List.foldl_cons, ih, hstep, List.foldl_cons]
  rw [multiply_eq, hloop, hzero, multiply_eq]

theorem double_multiply (a b : UInt8) : double (multiply a b) = multiply (double a) b :=
  map_multiply double_xor (fun _ => rfl) a b

theorem multiply_right_comm (a b c : UInt8) :
    multiply (multiply a b) c = multiply (multiply a c) b :=
  map_multiply (f := fun a => multiply a c) (fun a b => multiply_xor_left a b c)
    (fun a => (double_multiply a c).symm) a b

theorem one_multiply : ∀ a, multiply 1 a = a := Bytes.forall_byte (by decide +kernel)

theorem multiply_comm (a b : UInt8) : multiply a b = multiply b a := by
  have h := multiply_right_comm 1 a b
  rwa [one_multiply, one_multiply] at h

theorem multiply_assoc (a b c : UInt8) : multiply (multiply a b) c = multiply a (multiply b c) := by
  rw [multiply_comm a b, multiply_right_comm, multiply_comm a]

theorem zero_multiply (a : UInt8) : multiply 0 a = 0 := by
  have h := multiply_xor_left 0 0 a
  rwa [UInt8.xor_self, UInt8.xor_self] at h

theorem multiply_zero (a : UInt8) : multiply a 0 = 0 := by rw [multiply_comm, zero_multiply]

theorem multiply_xor_right (a b c : UInt8) :
    multiply a (b ^^^ c) = multiply a b ^^^ multiply a c := by
  rw [multiply_comm, multiply_xor_left, multiply_comm b, multiply_comm c]

end Aes

/-! ## The ring -/

/-- A byte as an element of the field. -/
@[ext]
structure FieldByte where
  byte : UInt8

namespace FieldByte

instance : Add FieldByte := ⟨fun a b => ⟨a.byte ^^^ b.byte⟩⟩

instance : Zero FieldByte := ⟨⟨0⟩⟩

instance : Neg FieldByte := ⟨id⟩

instance : Mul FieldByte := ⟨fun a b => ⟨Aes.multiply a.byte b.byte⟩⟩

instance : One FieldByte := ⟨⟨1⟩⟩

theorem byte_zero : (0 : FieldByte).byte = 0 := rfl

theorem byte_add (a b : FieldByte) : (a + b).byte = a.byte ^^^ b.byte := rfl

theorem byte_mul (a b : FieldByte) : (a * b).byte = Aes.multiply a.byte b.byte := rfl

instance : CommRing FieldByte where
  add_assoc a b c := FieldByte.ext (UInt8.xor_assoc a.byte b.byte c.byte)
  add_comm a b := FieldByte.ext (UInt8.xor_comm a.byte b.byte)
  zero_add _ := FieldByte.ext UInt8.zero_xor
  add_zero _ := FieldByte.ext UInt8.xor_zero
  neg_add_cancel _ := FieldByte.ext UInt8.xor_self
  mul_assoc a b c := FieldByte.ext (Aes.multiply_assoc a.byte b.byte c.byte)
  mul_comm a b := FieldByte.ext (Aes.multiply_comm a.byte b.byte)
  one_mul a := FieldByte.ext (Aes.one_multiply a.byte)
  mul_one a := FieldByte.ext ((Aes.multiply_comm a.byte 1).trans (Aes.one_multiply a.byte))
  zero_mul a := FieldByte.ext (Aes.zero_multiply a.byte)
  mul_zero a := FieldByte.ext (by rw [byte_mul, byte_zero, Aes.multiply_zero])
  left_distrib a b c := FieldByte.ext (Aes.multiply_xor_right a.byte b.byte c.byte)
  right_distrib a b c := FieldByte.ext (Aes.multiply_xor_left a.byte b.byte c.byte)
  nsmul := nsmulRec
  zsmul := zsmulRec

instance : CharP FieldByte 2 := by
  apply CharTwo.of_one_ne_zero_of_two_eq_zero
  · intro h
    exact absurd (congrArg byte h) (by decide)
  · rw [← one_add_one_eq_two]
    exact FieldByte.ext UInt8.xor_self

/-! ## Powers -/

theorem iterate_square (a : FieldByte) (n : Nat) : (fun a => a * a)^[n] a = a ^ 2 ^ n := by
  induction n with
  | zero => exact (pow_one a).symm
  | succ n ih => rw [Function.iterate_succ_apply', ih, pow_succ 2, mul_two, pow_add]

/-- The binary digit of a byte, at its place. -/
def digit (a : UInt8) (i : Nat) : FieldByte :=
  if a.toNat.testBit i then ⟨1 <<< UInt8.ofNat i⟩ else 0

theorem byte_sum_digit : ∀ a, ((List.range 8).map (digit a)).sum.byte = a :=
  Bytes.forall_byte (by decide +kernel)

theorem sum_digit (a : FieldByte) : ((List.range 8).map (digit a.byte)).sum = a :=
  FieldByte.ext (byte_sum_digit a.byte)

theorem iterate_square_digit : ∀ i < 8,
    ((fun a : FieldByte => a * a)^[8] ⟨1 <<< UInt8.ofNat i⟩).byte = 1 <<< UInt8.ofNat i := by
  decide +kernel

theorem digit_pow (a : UInt8) {i : Nat} (hi : i < 8) : digit a i ^ 2 ^ 8 = digit a i := by
  unfold digit
  split
  · rw [← iterate_square]
    exact FieldByte.ext (iterate_square_digit i hi)
  · exact zero_pow (pow_ne_zero 8 two_ne_zero)

/-- Every element is a root of the polynomial of the field. -/
theorem pow_256 (a : FieldByte) : a ^ 2 ^ 8 = a := by
  have hdigits : ((List.range 8).map (digit a.byte)).map (iterateFrobenius FieldByte 2 8) =
      (List.range 8).map (digit a.byte) := by
    rw [List.map_map]
    apply List.map_congr_left
    intro i hi
    rw [Function.comp_apply, iterateFrobenius_def, digit_pow _ (List.mem_range.mp hi)]
  calc a ^ 2 ^ 8 = iterateFrobenius FieldByte 2 8 ((List.range 8).map (digit a.byte)).sum := by
        rw [sum_digit, iterateFrobenius_def]
    _ = a := by rw [map_list_sum, hdigits, sum_digit]

theorem byte_pow_254 (a : FieldByte) : (a ^ 254).byte = Aes.inverse a.byte := by
  refine Bytes.foldl_bits (fun n (r : UInt8) => (a ^ n).byte = r) _ ?_ ?_
    (show 254 < 2 ^ 8 by decide)
  · rintro n r b rfl
    cases b with
    | false => rw [Bool.toNat_false, add_zero, two_mul, pow_add]; rfl
    | true => rw [Bool.toNat_true, pow_succ, two_mul, pow_add]; rfl
  · rw [pow_zero]; rfl

end FieldByte

namespace Aes

theorem inverse_inverse (a : UInt8) : inverse (inverse a) = a := by
  have h : ∀ b : FieldByte, (b ^ 254) ^ 254 = b := by
    intro b
    calc (b ^ 254) ^ 254 = (b ^ 2 ^ 8) ^ 252 * b ^ 4 := by ring
      _ = b ^ 252 * b ^ 4 := by rw [FieldByte.pow_256]
      _ = b ^ 2 ^ 8 := by ring
      _ = b := FieldByte.pow_256 b
  have ha := congrArg FieldByte.byte (h ⟨a⟩)
  rwa [FieldByte.byte_pow_254, FieldByte.byte_pow_254] at ha

end Aes

end Provenance

import Provenance.Proofs.AesField
import Provenance.Proofs.Gcm

/-!
# The block cipher is reversible

Each step of a round is undone by a step of decryption: substitution byte by byte, the moves of the
rows, and the mixing of the columns, whose two matrices are inverse to each other
(`Aes.InverseRows`). Decryption meets the round keys in the opposite order, so that the rounds
themselves are undone by induction over the round keys.

Main statements: `Aes.decrypt_encrypt`, `Aes.encrypt_decrypt`.
-/

namespace Provenance.Aes

/-! ## Substitution -/

/-- The affine map of substitution, and the one that undoes it. -/
def spread (b : UInt8) : UInt8 :=
  b ^^^ rotate b 1 ^^^ rotate b 2 ^^^ rotate b 3 ^^^ rotate b 4 ^^^ 0x63

def gather (a : UInt8) : UInt8 := rotate a 1 ^^^ rotate a 3 ^^^ rotate a 6 ^^^ 0x05

theorem gather_spread : ∀ b, gather (spread b) = b := Bytes.forall_byte (by decide +kernel)

theorem spread_gather : ∀ a, spread (gather a) = a := Bytes.forall_byte (by decide +kernel)

theorem unsubstitute_substitute (a : UInt8) : unsubstitute (substitute a) = a := by
  show inverse (gather (spread (inverse a))) = a
  rw [gather_spread, inverse_inverse]

theorem substitute_unsubstitute (a : UInt8) : substitute (unsubstitute a) = a := by
  show spread (inverse (inverse (gather a))) = a
  rw [inverse_inverse, spread_gather]

/-- What the table of a function of bytes holds. -/
theorem getD_table (f : UInt8 → UInt8) (a : UInt8) :
    (((List.range 256).map (fun n => f (UInt8.ofNat n))).toArray).getD a.toNat 0 = f a := by
  simp [a.toNat_lt]

theorem subBytes_eq (s : Bytes) : subBytes s = s.map substitute := by
  simp only [subBytes, substitutionTable, getD_table]

theorem unsubBytes_eq (s : Bytes) : unsubBytes s = s.map unsubstitute := by
  simp only [unsubBytes, unsubstitutionTable, getD_table]

theorem unsubBytes_subBytes (s : Bytes) : unsubBytes (subBytes s) = s := by
  simp only [subBytes_eq, unsubBytes_eq, List.map_map, Function.comp_def, unsubstitute_substitute,
    List.map_id']

theorem subBytes_unsubBytes (s : Bytes) : subBytes (unsubBytes s) = s := by
  simp only [subBytes_eq, unsubBytes_eq, List.map_map, Function.comp_def, substitute_unsubstitute,
    List.map_id']

/-! ## Rows -/

theorem unshiftRows_shiftRows {s : Bytes} (h : s.length = 16) : unshiftRows (shiftRows s) = s := by
  match s, h with
  | [_, _, _, _, _, _, _, _, _, _, _, _, _, _, _, _], _ => rfl

theorem shiftRows_unshiftRows {s : Bytes} (h : s.length = 16) : shiftRows (unshiftRows s) = s := by
  match s, h with
  | [_, _, _, _, _, _, _, _, _, _, _, _, _, _, _, _], _ => rfl

/-! ## Columns -/

/-- Circulant matrices with these first rows, the first one inverse to the second. -/
structure InverseRows (p' q' r' t' p q r t : FieldByte) : Prop where
  same : p' * p + q' * t + r' * r + t' * q = 1
  next : p' * q + q' * p + r' * t + t' * r = 0
  opposite : p' * r + q' * q + r' * p + t' * t = 0
  previous : p' * t + q' * r + r' * q + t' * p = 0

/-- Each element of a column comes back; the rows below the first one turn the column round. -/
theorem InverseRows.column {p' q' r' t' p q r t : FieldByte} (h : InverseRows p' q' r' t' p q r t)
    (a b c d : FieldByte) :
    let A := p * a + q * b + r * c + t * d
    let B := t * a + p * b + q * c + r * d
    let C := r * a + t * b + p * c + q * d
    let D := q * a + r * b + t * c + p * d
    p' * A + q' * B + r' * C + t' * D = a ∧ t' * A + p' * B + q' * C + r' * D = b ∧
      r' * A + t' * B + p' * C + q' * D = c ∧ q' * A + r' * B + t' * C + p' * D = d := by
  refine ⟨?_, ?_, ?_, ?_⟩
  · linear_combination a * h.same + b * h.next + c * h.opposite + d * h.previous
  · linear_combination b * h.same + c * h.next + d * h.opposite + a * h.previous
  · linear_combination c * h.same + d * h.next + a * h.opposite + b * h.previous
  · linear_combination d * h.same + a * h.next + b * h.opposite + c * h.previous

/-- The mixing of columns by the circulant matrix with this first row. -/
def mixBy (p q r t : FieldByte) (s : Bytes) : Bytes :=
  mixWith (multiply p.byte) (multiply q.byte) (multiply r.byte) (multiply t.byte) s

theorem mixBy_mixBy {p' q' r' t' p q r t : FieldByte} (h : InverseRows p' q' r' t' p q r t)
    {count : Nat} {s : Bytes} (hs : s.length = 4 * count) :
    mixBy p' q' r' t' (mixBy p q r t s) = s := by
  induction count generalizing s with
  | zero =>
    obtain rfl : s = [] := List.length_eq_zero_iff.mp hs
    rfl
  | succ count ih =>
    match s, hs with
    | a :: b :: c :: d :: rest, hs =>
      have hrest : mixBy p' q' r' t' (mixBy p q r t rest) = rest := by
        apply ih
        simp only [List.length_cons] at hs
        omega
      have hcolumn := h.column ⟨a⟩ ⟨b⟩ ⟨c⟩ ⟨d⟩
      simp only [FieldByte.ext_iff, FieldByte.byte_add, FieldByte.byte_mul] at hcolumn
      obtain ⟨ha, hb, hc, hd⟩ := hcolumn
      simp only [mixBy, mixWith] at hrest ⊢
      rw [ha, hb, hc, hd, hrest]

theorem double_eq (a : UInt8) : double a = multiply 2 a := by
  rw [← one_multiply a, double_multiply, one_multiply]
  rfl

theorem inverseRows_mix : InverseRows ⟨14⟩ ⟨11⟩ ⟨13⟩ ⟨9⟩ ⟨2⟩ ⟨3⟩ ⟨1⟩ ⟨1⟩ := by
  constructor <;> apply FieldByte.ext <;> decide +kernel

theorem inverseRows_unmix : InverseRows ⟨2⟩ ⟨3⟩ ⟨1⟩ ⟨1⟩ ⟨14⟩ ⟨11⟩ ⟨13⟩ ⟨9⟩ := by
  constructor <;> apply FieldByte.ext <;> decide +kernel

theorem mixColumns_eq (s : Bytes) : mixColumns s = mixBy ⟨2⟩ ⟨3⟩ ⟨1⟩ ⟨1⟩ s := by
  have hdouble : double = multiply 2 := funext double_eq
  have htriple : (fun a => double a ^^^ a) = multiply 3 := by
    funext a
    calc double a ^^^ a = multiply 2 a ^^^ multiply 1 a := by rw [double_eq, one_multiply]
      _ = multiply 3 a := (multiply_xor_left 2 1 a).symm
  have hone : id = multiply 1 := funext (fun a => (one_multiply a).symm)
  rw [mixColumns, htriple, hdouble, hone, mixBy]

theorem unmixColumns_mixColumns {s : Bytes} (h : s.length = 16) :
    unmixColumns (mixColumns s) = s := by
  rw [mixColumns_eq]
  exact mixBy_mixBy inverseRows_mix (show s.length = 4 * 4 from h)

theorem mixColumns_unmixColumns {s : Bytes} (h : s.length = 16) :
    mixColumns (unmixColumns s) = s := by
  rw [mixColumns_eq]
  exact mixBy_mixBy inverseRows_unmix (show s.length = 4 * 4 from h)

/-! ## Rounds -/

theorem length_subBytes (s : Bytes) : (subBytes s).length = s.length := List.length_map _

theorem length_unsubBytes (s : Bytes) : (unsubBytes s).length = s.length := List.length_map _

/-- A round without its key, and back. -/
def stir (s : Bytes) : Bytes := mixColumns (shiftRows (subBytes s))

def unstir (s : Bytes) : Bytes := unsubBytes (unshiftRows (unmixColumns s))

theorem length_stir (s : Bytes) : (stir s).length = 16 :=
  length_mixWith _ _ _ _ (length_shiftRows _)

theorem length_unstir (s : Bytes) : (unstir s).length = 16 := length_unsubBytes _

theorem unstir_stir {s : Bytes} (h : s.length = 16) : unstir (stir s) = s := by
  have hsub : (subBytes s).length = 16 := (length_subBytes s).trans h
  rw [unstir, stir, unmixColumns_mixColumns (length_shiftRows _), unshiftRows_shiftRows hsub,
    unsubBytes_subBytes]

theorem stir_unstir {s : Bytes} (h : s.length = 16) : stir (unstir s) = s := by
  have hmix : (unmixColumns s).length = 16 :=
    length_mixWith _ _ _ _ (show s.length = 4 * 4 from h)
  rw [stir, unstir, subBytes_unsubBytes, shiftRows_unshiftRows hmix, mixColumns_unmixColumns h]

theorem length_xor_key {s k : Bytes} (hs : s.length = 16) (hk : k.length = 16) :
    (Bytes.xor s k).length = 16 := by
  rw [Bytes.length_xor, hs, hk, Nat.min_self]

theorem xor_key_xor_key {s k : Bytes} (hs : s.length = 16) (hk : k.length = 16) :
    Bytes.xor (Bytes.xor s k) k = s :=
  Bytes.xor_xor_self (Nat.le_of_eq (hs.trans hk.symm))

theorem decryptRounds_cons {k : Bytes} {ks : List Bytes} (hks : ks ≠ []) (s : Bytes) :
    decryptRounds (k :: ks) s = unstir (Bytes.xor (decryptRounds ks s) k) := by
  rw [decryptRounds, unstir]
  exact hks

theorem encryptRounds_cons {k : Bytes} {ks : List Bytes} (hks : ks ≠ []) (s : Bytes) :
    encryptRounds (k :: ks) s = encryptRounds ks (Bytes.xor (stir s) k) := by
  rw [encryptRounds, stir]
  exact hks

section

variable {roundKeys : List Bytes} (hkeys : ∀ k ∈ roundKeys, k.length = 16)

include hkeys

theorem length_decryptRounds {s : Bytes} (h : s.length = 16) :
    (decryptRounds roundKeys s).length = 16 := by
  cases roundKeys with
  | nil => exact h
  | cons k ks =>
    by_cases hks : ks = []
    · subst hks
      exact length_unsubBytes _
    · rw [decryptRounds_cons hks, length_unstir]

theorem decryptRounds_encryptRounds {s : Bytes} (h : s.length = 16) :
    decryptRounds roundKeys (encryptRounds roundKeys s) = s := by
  -- Decryption starts with the last key: the later rounds cancel first, then this one.
  induction roundKeys generalizing s with
  | nil => rfl
  | cons k ks ih =>
    obtain ⟨hk, hks⟩ := List.forall_mem_cons.mp hkeys
    by_cases hlast : ks = []
    · subst hlast
      rw [decryptRounds, encryptRounds, xor_key_xor_key (length_shiftRows _) hk,
        unshiftRows_shiftRows ((length_subBytes s).trans h), unsubBytes_subBytes]
    · rw [decryptRounds_cons hlast, encryptRounds_cons hlast,
        ih hks (length_xor_key (length_stir s) hk), xor_key_xor_key (length_stir s) hk,
        unstir_stir h]

theorem encryptRounds_decryptRounds {s : Bytes} (h : s.length = 16) :
    encryptRounds roundKeys (decryptRounds roundKeys s) = s := by
  induction roundKeys generalizing s with
  | nil => rfl
  | cons k ks ih =>
    obtain ⟨hk, hks⟩ := List.forall_mem_cons.mp hkeys
    by_cases hlast : ks = []
    · subst hlast
      rw [decryptRounds, encryptRounds, subBytes_unsubBytes,
        shiftRows_unshiftRows (length_xor_key h hk), xor_key_xor_key h hk]
    · have hrest := length_decryptRounds hks h
      rw [decryptRounds_cons hlast, encryptRounds_cons hlast,
        stir_unstir (length_xor_key hrest hk), xor_key_xor_key hrest hk, ih hks h]

/-- A block that was encrypted is decrypted to itself. -/
theorem decrypt_encrypt {s : Bytes} (h : s.length = 16) :
    decrypt roundKeys (encrypt roundKeys s) = s := by
  cases roundKeys with
  | nil => rfl
  | cons k ks =>
    obtain ⟨hk, hks⟩ := List.forall_mem_cons.mp hkeys
    rw [decrypt, encrypt, decryptRounds_encryptRounds hks (length_xor_key h hk),
      xor_key_xor_key h hk]

/-- A block that was decrypted is encrypted to itself. -/
theorem encrypt_decrypt {s : Bytes} (h : s.length = 16) :
    encrypt roundKeys (decrypt roundKeys s) = s := by
  cases roundKeys with
  | nil => rfl
  | cons k ks =>
    obtain ⟨hk, hks⟩ := List.forall_mem_cons.mp hkeys
    rw [decrypt, encrypt, xor_key_xor_key (length_decryptRounds hks h) hk,
      encryptRounds_decryptRounds hks h]

theorem length_decrypt {s : Bytes} (h : s.length = 16) : (decrypt roundKeys s).length = 16 := by
  cases roundKeys with
  | nil => exact h
  | cons k ks =>
    obtain ⟨hk, hks⟩ := List.forall_mem_cons.mp hkeys
    exact length_xor_key (length_decryptRounds hks h) hk

end

end Provenance.Aes

import Provenance.Text.Numeral
import Mathlib.Data.List.Basic

/-!
# Numerals and their values

A numeral has a value if it is one or more digits, perhaps behind a plus sign (`Numeral.Denotes`).

* `Numeral.decode?_eq_some_iff`: exactly the numerals with a value are read, as that value;
* `Numeral.Denotes.zeros`: a numeral is the shortest one of its value, with zeros and perhaps a plus
  sign in front.
-/

namespace Provenance.Numeral

/-! ## Reading -/

/-- The characters are one or more ASCII digits of this value, perhaps with a plus sign in front. -/
def Denotes (cs : List Char) (n : Nat) : Prop :=
  ∃ ds, (cs = ds ∨ cs = '+' :: ds) ∧ ds ≠ [] ∧ (∀ c ∈ ds, c.isDigit = true) ∧
    Nat.ofDigitChars 10 ds 0 = n

theorem digitValue?_eq_some_iff {c : Char} {d : Nat} :
    digitValue? c = some d ↔ c.isDigit = true ∧ c.toNat - '0'.toNat = d := by
  have hrange : c.isDigit = true ↔ '0' ≤ c ∧ c ≤ '9' := Char.isDigit_iff_toNat
  rw [hrange]
  unfold digitValue?
  split
  · rename_i hc
    simp only [hc, and_self, true_and, Option.some.injEq]
  · rename_i hc
    simp only [hc, false_and, reduceCtorEq]

theorem valueFrom?_eq_some_iff {cs : List Char} {acc n : Nat} :
    valueFrom? acc cs = some n ↔
      (∀ c ∈ cs, c.isDigit = true) ∧ Nat.ofDigitChars 10 cs acc = n := by
  induction cs generalizing acc with
  | nil => simp [valueFrom?]
  | cons c cs ih =>
    simp only [valueFrom?, Option.bind_eq_bind, Option.bind_eq_some_iff, digitValue?_eq_some_iff,
      ih, List.forall_mem_cons, Nat.ofDigitChars_cons, Nat.mul_comm acc 10]
    constructor
    · rintro ⟨d, ⟨hc, rfl⟩, hcs, hn⟩
      exact ⟨⟨hc, hcs⟩, hn⟩
    · rintro ⟨⟨hc, hcs⟩, hn⟩
      exact ⟨_, ⟨hc, rfl⟩, hcs, hn⟩

theorem digitsValue?_eq_some_iff {cs : List Char} {n : Nat} :
    digitsValue? cs = some n ↔
      cs ≠ [] ∧ (∀ c ∈ cs, c.isDigit = true) ∧ Nat.ofDigitChars 10 cs 0 = n := by
  cases cs with
  | nil => simp [digitsValue?]
  | cons c cs =>
    simp only [digitsValue?, valueFrom?_eq_some_iff, ne_eq, reduceCtorEq, not_false_eq_true,
      true_and]

theorem decode?_eq_some_iff {cs : List Char} {n : Nat} : decode? cs = some n ↔ Denotes cs n := by
  unfold decode? Denotes
  split
  · rename_i cs
    rw [digitsValue?_eq_some_iff]
    constructor
    · exact fun h => ⟨cs, Or.inr rfl, h⟩
    · rintro ⟨ds, rfl | hds, h⟩
      · exact absurd (h.2.1 '+' (List.mem_cons_self ..)) (by decide)
      · cases hds
        exact h
  · rename_i hplus
    rw [digitsValue?_eq_some_iff]
    constructor
    · exact fun h => ⟨cs, Or.inl rfl, h⟩
    · rintro ⟨ds, rfl | hds, h⟩
      · exact h
      · exact absurd hds (hplus ds)

theorem denotes_digitsOf (n : Nat) : Denotes (digitsOf n) n :=
  ⟨digitsOf n, Or.inl rfl, Nat.toDigits_ne_nil,
    fun _ hc => Nat.isDigit_of_mem_toDigits (by decide) (by decide) hc, Nat.ofDigitChars_ten_toDigits⟩

theorem Denotes.not_mem {cs : List Char} {n : Nat} (h : Denotes cs n) {c : Char} (hplus : c ≠ '+')
    (hdigit : c.isDigit = false) : c ∉ cs := by
  obtain ⟨ds, hds, -, hdigits, -⟩ := h
  have hc : c ∉ ds := by
    intro hc
    rw [hdigits c hc] at hdigit
    cases hdigit
  rcases hds with rfl | rfl
  · exact hc
  · exact List.not_mem_cons_of_ne_of_not_mem hplus hc

/-! ## Zeros in front -/

theorem exists_digitChar {c : Char} (h : c.isDigit = true) : ∃ d < 10, d.digitChar = c := by
  have hrange : 48 ≤ c.toNat ∧ c.toNat ≤ 57 := Char.isDigit_iff_toNat.mp h
  have hlt : c.toNat - 48 < 10 := by omega
  refine ⟨c.toNat - 48, hlt, Char.toNat_inj.mp ?_⟩
  rw [Nat.toNat_digitChar_of_lt_ten hlt]
  omega

/-- Behind a number that is not zero every digit counts. -/
theorem digitsOf_ofDigitChars {cs : List Char} (h : ∀ c ∈ cs, c.isDigit = true) {acc : Nat}
    (hacc : 0 < acc) : digitsOf (Nat.ofDigitChars 10 cs acc) = digitsOf acc ++ cs := by
  induction cs generalizing acc with
  | nil => rw [Nat.ofDigitChars_nil, List.append_nil]
  | cons c cs ih =>
    obtain ⟨hc, hcs⟩ := List.forall_mem_cons.mp h
    obtain ⟨d, hd, rfl⟩ := exists_digitChar hc
    have hsplit : digitsOf (10 * acc + d) = digitsOf acc ++ [d.digitChar] := by
      rw [digitsOf, ← Nat.toDigits_append_toDigits (by decide) hacc hd,
        Nat.toDigits_of_lt_base hd, digitsOf]
    rw [Nat.ofDigitChars_cons_digitChar_of_lt_ten hd, ih hcs (by omega), hsplit, List.append_assoc,
      List.singleton_append]

/-- Digits are those of their value, with zeros in front. -/
theorem eq_zeros_append_digitsOf {ds : List Char} (hne : ds ≠ [])
    (h : ∀ c ∈ ds, c.isDigit = true) :
    ∃ zeros, ds = List.replicate zeros '0' ++ digitsOf (Nat.ofDigitChars 10 ds 0) := by
  induction ds with
  | nil => exact absurd rfl hne
  | cons c cs ih =>
    obtain ⟨hc, hcs⟩ := List.forall_mem_cons.mp h
    obtain ⟨d, hd, rfl⟩ := exists_digitChar hc
    rw [Nat.ofDigitChars_cons_digitChar_of_lt_ten hd, Nat.mul_zero, Nat.zero_add]
    rcases Nat.eq_zero_or_pos d with rfl | hpos
    · -- A zero in front is not needed, unless it is the whole numeral.
      cases cs with
      | nil => exact ⟨0, rfl⟩
      | cons c' cs =>
        obtain ⟨zeros, hzeros⟩ := ih (List.cons_ne_nil _ _) hcs
        refine ⟨zeros + 1, ?_⟩
        rw [List.replicate_succ, List.cons_append, ← hzeros]
        rfl
    · refine ⟨0, ?_⟩
      rw [digitsOf_ofDigitChars hcs hpos, digitsOf, Nat.toDigits_of_lt_base hd]
      rfl

/-- A numeral is the shortest one of its value, up to a plus sign and zeros in front. -/
theorem Denotes.zeros {cs : List Char} {n : Nat} (h : Denotes cs n) :
    ∃ plus zeros, (plus = [] ∨ plus = ['+']) ∧
      cs = plus ++ List.replicate zeros '0' ++ digitsOf n := by
  obtain ⟨ds, hds, hne, hdigits, rfl⟩ := h
  obtain ⟨zeros, hzeros⟩ := eq_zeros_append_digitsOf hne hdigits
  rcases hds with rfl | rfl
  · exact ⟨[], zeros, Or.inl rfl, hzeros⟩
  · exact ⟨['+'], zeros, Or.inr rfl, congrArg (List.cons '+') hzeros⟩

end Provenance.Numeral

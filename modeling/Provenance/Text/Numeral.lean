/-!
# Decimal numerals

Writing gives the shortest numeral (`Numeral.encode`). Reading (`Numeral.decode?`) also takes one
leading plus sign and any leading zeros; it wants at least one ASCII digit and nothing else.
-/

namespace Provenance.Numeral

def digitValue? (c : Char) : Option Nat :=
  if '0' ≤ c ∧ c ≤ '9' then some (c.toNat - '0'.toNat) else none

/-! ## Writing -/

def digitsOf (n : Nat) : List Char := Nat.toDigits 10 n

def encode (n : Nat) : String := String.ofList (digitsOf n)

/-! ## Reading -/

def valueFrom? (acc : Nat) : List Char → Option Nat
  | [] => some acc
  | c :: cs => do
    let d ← digitValue? c
    valueFrom? (acc * 10 + d) cs

def digitsValue? : List Char → Option Nat
  | [] => none
  | c :: cs => valueFrom? 0 (c :: cs)

def decode? : List Char → Option Nat
  | '+' :: cs => digitsValue? cs
  | cs => digitsValue? cs

end Provenance.Numeral

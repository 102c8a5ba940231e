import Provenance.Bytes

/-!
# Hexadecimal text

Two digits for each byte, the high half first. Writing comes in a lower-case and an upper-case form;
reading takes digits of either case and refuses an odd number of them.
-/

namespace Provenance.Hex

/-! ## Digits -/

def lowerDigits : List Char :=
  ['0', '1', '2', '3', '4', '5', '6', '7', '8', '9', 'a', 'b', 'c', 'd', 'e', 'f']

def upperDigits : List Char :=
  ['0', '1', '2', '3', '4', '5', '6', '7', '8', '9', 'A', 'B', 'C', 'D', 'E', 'F']

def digitValue? (c : Char) : Option Nat :=
  if '0' ≤ c ∧ c ≤ '9' then some (c.toNat - '0'.toNat)
  else if 'a' ≤ c ∧ c ≤ 'f' then some (c.toNat - 'a'.toNat + 10)
  else if 'A' ≤ c ∧ c ≤ 'F' then some (c.toNat - 'A'.toNat + 10)
  else none

/-! ## Writing and reading -/

def encodeWith (digits : List Char) : Bytes → List Char
  | [] => []
  | b :: bs =>
    digits.getD (b.toNat / 16) '0' :: digits.getD (b.toNat % 16) '0' :: encodeWith digits bs

def encode (bs : Bytes) : String := String.ofList (encodeWith lowerDigits bs)

def encodeUpper (bs : Bytes) : String := String.ofList (encodeWith upperDigits bs)

def decodeChars? : List Char → Option Bytes
  | [] => some []
  | [_] => none
  | c :: d :: rest => do
    let high ← digitValue? c
    let low ← digitValue? d
    let bs ← decodeChars? rest
    return UInt8.ofNat (high * 16 + low) :: bs

def decode? (s : String) : Option Bytes := decodeChars? s.toList

theorem length_encodeWith (digits : List Char) (bs : Bytes) :
    (encodeWith digits bs).length = 2 * bs.length := by
  induction bs with
  | nil => rfl
  | cons b bs ih => simp only [encodeWith, List.length_cons, ih]; omega

end Provenance.Hex

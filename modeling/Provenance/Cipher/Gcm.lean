import Provenance.Cipher.Aes

/-!
# AES in Galois/counter mode

The text is added to the cipher's images of a running counter; a tag of 16 bytes behind it is a
polynomial over the field of 2¹²⁸ elements, evaluated at the image of the zero block. The counter is
the nonce of 12 bytes and a block number, and number 1 hides the tag. No associated data is used.
-/

namespace Provenance.Gcm

/-! ## The hash over the field of 2¹²⁸ elements -/

abbrev Element := BitVec 128

/-- Multiplication by the polynomial `x`; the highest bit is the constant coefficient. -/
def shift (v : Element) : Element :=
  if v.toNat % 2 = 1 then (v >>> 1) ^^^ BitVec.ofNat 128 (0xe1 <<< 120) else v >>> 1

/-- Product: sum the multiples of the second factor that the digits of the first one pick. -/
def multiplyDigits : List Bool → Element → Element → Element
  | [], _, acc => acc
  | d :: ds, v, acc => multiplyDigits ds (shift v) (if d then acc ^^^ v else acc)

def multiply (x y : Element) : Element := multiplyDigits (Bytes.bits 128 x.toNat) y 0

def ofBlock (b : Bytes) : Element :=
  BitVec.ofNat 128 (Bytes.toNatBE (b ++ Bytes.zeros (16 - b.length)))

def ghash (key : Element) (blocks : List Bytes) : Element :=
  blocks.foldl (fun acc b => multiply (acc ^^^ ofBlock b) key) 0

/-! ## The counter -/

def counterBlock (nonce : Bytes) (number : Nat) : Bytes := nonce ++ Bytes.ofNatBE 4 number

def applyBlocks (roundKeys : List Bytes) (nonce : Bytes) (number : Nat) : List Bytes → Bytes
  | [] => []
  | b :: bs =>
    Bytes.xor b (Aes.encrypt roundKeys (counterBlock nonce number)) ++
      applyBlocks roundKeys nonce (number + 1) bs

def apply (roundKeys : List Bytes) (nonce text : Bytes) : Bytes :=
  applyBlocks roundKeys nonce 2 (Bytes.blocks 16 text)

/-! ## Locking and opening -/

def maxText : Nat := 1 <<< 36

def maxCiphertext : Nat := maxText + 16

def tagOf (roundKeys : List Bytes) (nonce ciphertext : Bytes) : Bytes :=
  let key := ofBlock (Aes.encrypt roundKeys (Bytes.zeros 16))
  let lengths := Bytes.ofNatBE 8 0 ++ Bytes.ofNatBE 8 (8 * ciphertext.length)
  let sum := ghash key (Bytes.blocks 16 ciphertext ++ [lengths])
  let mask := ofBlock (Aes.encrypt roundKeys (counterBlock nonce 1))
  Bytes.ofNatBE 16 (sum ^^^ mask).toNat

/-- Ciphertext and tag, or nothing when the text is too long. -/
def lock? (key nonce text : Bytes) : Option Bytes :=
  if text.length ≤ maxText then
    let roundKeys := Aes.schedule key
    let ciphertext := apply roundKeys nonce text
    some (ciphertext ++ tagOf roundKeys nonce ciphertext)
  else none

/-- The text, if the last 16 bytes are the tag of what stands before them. -/
def open? (key nonce locked : Bytes) : Option Bytes :=
  let roundKeys := Aes.schedule key
  let size := locked.length - 16
  let ciphertext := locked.take size
  if 16 ≤ locked.length ∧ ciphertext.length ≤ maxCiphertext ∧
      locked.drop size = tagOf roundKeys nonce ciphertext then
    some (apply roundKeys nonce ciphertext)
  else none

end Provenance.Gcm

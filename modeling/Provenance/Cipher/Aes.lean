import Provenance.Bytes

/-!
# The block cipher AES

A block is 16 bytes, a key 16, 24 or 32. `Aes.schedule` derives the round keys, `Aes.encrypt` and
`Aes.decrypt` run the rounds. Decryption is written as the mirror of encryption: both recurse over
the same list of round keys, and each step of the one undoes the step of the other.
-/

namespace Provenance.Aes

/-! ## The field of 256 elements -/

/-- Multiplication by the polynomial `x`. -/
def double (a : UInt8) : UInt8 := if a < 0x80 then a <<< 1 else (a <<< 1) ^^^ 0x1b

/-- Product, from the binary digits of the second factor. -/
def multiply (a b : UInt8) : UInt8 :=
  (Bytes.bits 8 b.toNat).foldl (fun acc d => if d then double acc ^^^ a else double acc) 0

/-- The inverse, and zero for zero: the 254th power. -/
def inverse (a : UInt8) : UInt8 :=
  (Bytes.bits 8 254).foldl (fun acc d => if d then multiply (multiply acc acc) a else multiply acc acc) 1

/-! ## Substitution -/

def rotate (a n : UInt8) : UInt8 := (a <<< n) ||| (a >>> (8 - n))

/-- Inversion followed by an affine map over the binary digits. -/
def substitute (a : UInt8) : UInt8 :=
  let b := inverse a
  b ^^^ rotate b 1 ^^^ rotate b 2 ^^^ rotate b 3 ^^^ rotate b 4 ^^^ 0x63

/-- The affine map undone, followed by inversion. -/
def unsubstitute (a : UInt8) : UInt8 := inverse (rotate a 1 ^^^ rotate a 3 ^^^ rotate a 6 ^^^ 0x05)

def substitutionTable : Array UInt8 :=
  ((List.range 256).map (fun n => substitute (UInt8.ofNat n))).toArray

def unsubstitutionTable : Array UInt8 :=
  ((List.range 256).map (fun n => unsubstitute (UInt8.ofNat n))).toArray

def subBytes (s : Bytes) : Bytes := s.map (fun b => substitutionTable.getD b.toNat 0)

def unsubBytes (s : Bytes) : Bytes := s.map (fun b => unsubstitutionTable.getD b.toNat 0)

/-! ## Rows and columns -/

/-- A block read as four columns: row `r` moves `r` columns to the left. -/
def shiftRows (s : Bytes) : Bytes :=
  [0, 5, 10, 15, 4, 9, 14, 3, 8, 13, 2, 7, 12, 1, 6, 11].map (fun i => s.getD i 0)

def unshiftRows (s : Bytes) : Bytes :=
  [0, 13, 10, 7, 4, 1, 14, 11, 8, 5, 2, 15, 12, 9, 6, 3].map (fun i => s.getD i 0)

/-- Each column times the circulant matrix with first row `p q r t`. -/
def mixWith (p q r t : UInt8 → UInt8) : Bytes → Bytes
  | a :: b :: c :: d :: rest =>
    (p a ^^^ q b ^^^ r c ^^^ t d) :: (t a ^^^ p b ^^^ q c ^^^ r d) ::
      (r a ^^^ t b ^^^ p c ^^^ q d) :: (q a ^^^ r b ^^^ t c ^^^ p d) :: mixWith p q r t rest
  | _ => []

def mixColumns (s : Bytes) : Bytes := mixWith double (fun a => double a ^^^ a) id id s

def unmixColumns (s : Bytes) : Bytes :=
  mixWith (multiply 14) (multiply 11) (multiply 13) (multiply 9) s

/-! ## Round keys -/

def roundConstant (n : Nat) : UInt8 := Nat.repeat double (n - 1) 1

/-- The word number `i` of the schedule from the words before it, newest first. -/
def nextWord (keyWords i : Nat) (words : List Bytes) : Bytes :=
  let last := words.headD []
  let stirred :=
    if i % keyWords = 0 then
      Bytes.xor (subBytes (last.drop 1 ++ last.take 1)) [roundConstant (i / keyWords), 0, 0, 0]
    else if 6 < keyWords ∧ i % keyWords = 4 then subBytes last
    else last
  Bytes.xor stirred (words.getD (keyWords - 1) [])

/-- Add `count` words, the first of them number `i`. -/
def extendWords (keyWords : Nat) : Nat → Nat → List Bytes → List Bytes
  | 0, _, words => words
  | count + 1, i, words =>
    extendWords keyWords count (i + 1) (nextWord keyWords i words :: words)

/-- The round keys: six more rounds than the key has words, and one key ahead of them. -/
def schedule (key : Bytes) : List Bytes :=
  let keyWords := key.length / 4
  let words := extendWords keyWords (4 * (keyWords + 7) - keyWords) keyWords (Bytes.blocks 4 key).reverse
  Bytes.blocks 16 words.reverse.flatten

/-! ## Rounds -/

def encryptRounds : List Bytes → Bytes → Bytes
  | [], s => s
  | [k], s => Bytes.xor (shiftRows (subBytes s)) k
  | k :: ks, s => encryptRounds ks (Bytes.xor (mixColumns (shiftRows (subBytes s))) k)

def decryptRounds : List Bytes → Bytes → Bytes
  | [], s => s
  | [k], s => unsubBytes (unshiftRows (Bytes.xor s k))
  | k :: ks, s => unsubBytes (unshiftRows (unmixColumns (Bytes.xor (decryptRounds ks s) k)))

/-- One block under the given round keys. -/
def encrypt : List Bytes → Bytes → Bytes
  | [], s => s
  | k :: ks, s => encryptRounds ks (Bytes.xor s k)

def decrypt : List Bytes → Bytes → Bytes
  | [], s => s
  | k :: ks, s => Bytes.xor (decryptRounds ks s) k

end Provenance.Aes

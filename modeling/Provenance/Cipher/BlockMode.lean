import Provenance.Cipher.Aes

/-!
# AES on texts of any length

A text is padded to whole blocks with bytes that each tell their number. The blocks are encrypted one
by one (`Ecb`), or each after mixing in the ciphertext block before it (`Cbc`). Decryption refuses a
text that is not a positive number of blocks, and padding that does not tell its own length.
-/

namespace Provenance

/-! ## Padding -/

namespace Padding

def pad (text : Bytes) : Bytes :=
  let n := 16 - text.length % 16
  text ++ List.replicate n (UInt8.ofNat n)

def unpad? (padded : Bytes) : Option Bytes :=
  match padded.getLast? with
  | none => none
  | some last =>
    let n := last.toNat
    let size := padded.length - n
    if 1 ≤ n ∧ n ≤ 16 ∧ padded.drop size = List.replicate n last then some (padded.take size) else none

end Padding

/-- Cut into blocks of 16 bytes, all of them full and at least one. -/
def wholeBlocks? (text : Bytes) : Option (List Bytes) :=
  if text.length % 16 = 0 ∧ text ≠ [] then some (Bytes.blocks 16 text) else none

/-! ## Block by block -/

namespace Ecb

def encrypt (key text : Bytes) : Bytes :=
  let roundKeys := Aes.schedule key
  ((Bytes.blocks 16 (Padding.pad text)).map (Aes.encrypt roundKeys)).flatten

def decrypt? (key text : Bytes) : Option Bytes := do
  let roundKeys := Aes.schedule key
  let blocks ← wholeBlocks? text
  Padding.unpad? (blocks.map (Aes.decrypt roundKeys)).flatten

end Ecb

/-! ## Chained blocks -/

namespace Cbc

def encryptBlocks (roundKeys : List Bytes) (last : Bytes) : List Bytes → List Bytes
  | [] => []
  | b :: bs =>
    let c := Aes.encrypt roundKeys (Bytes.xor b last)
    c :: encryptBlocks roundKeys c bs

def decryptBlocks (roundKeys : List Bytes) (last : Bytes) : List Bytes → List Bytes
  | [] => []
  | c :: cs => Bytes.xor (Aes.decrypt roundKeys c) last :: decryptBlocks roundKeys c cs

def encrypt (key start text : Bytes) : Bytes :=
  (encryptBlocks (Aes.schedule key) start (Bytes.blocks 16 (Padding.pad text))).flatten

def decrypt? (key start text : Bytes) : Option Bytes := do
  let blocks ← wholeBlocks? text
  Padding.unpad? (decryptBlocks (Aes.schedule key) start blocks).flatten

end Cbc

end Provenance

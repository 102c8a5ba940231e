import Provenance.Cipher.ChaCha20

/-!
# ChaCha20-Poly1305

Encryption under ChaCha20 with a one-time Poly1305 tag of 16 bytes behind the ciphertext. The tag key
is the first half of block 0 of the key stream; the text starts at block 1. Opening checks the tag
before it decrypts anything (`ChaChaPoly.open?`). No associated data is used.
-/

namespace Provenance

/-! ## Poly1305 -/

namespace Poly1305

def modulus : Nat := (1 <<< 130) - 5

/-- The bits of the multiplier that a key may set. -/
def clampMask : Nat := 0x0ffffffc0ffffffc0ffffffc0fffffff

/-- Each block counts with a one byte behind it. -/
def accumulate (r : Nat) (acc : Nat) (block : Bytes) : Nat :=
  (acc + Bytes.toNatLE (block ++ [1])) * r % modulus

def tag (key text : Bytes) : Bytes :=
  let r := Bytes.toNatLE (key.take 16) &&& clampMask
  let s := Bytes.toNatLE (key.drop 16)
  Bytes.ofNatLE 16 ((Bytes.blocks 16 text).foldl (accumulate r) 0 + s)

@[simp] theorem length_tag (key text : Bytes) : (tag key text).length = 16 := by
  simp [tag]

end Poly1305

/-! ## The authenticated cipher -/

namespace ChaChaPoly

/-- Block numbers have 32 bits, and block 0 is taken by the tag key. -/
def maxBlocks : Nat := UInt32.size - 1

def fits (text : Bytes) : Bool := text.length / 64 < maxBlocks

def tagOf (key nonce ciphertext : Bytes) : Bytes :=
  let padding := Bytes.zeros ((16 - ciphertext.length % 16) % 16)
  Poly1305.tag ((ChaCha20.block key nonce 0).take 32)
    (ciphertext ++ padding ++ Bytes.ofNatLE 8 0 ++ Bytes.ofNatLE 8 ciphertext.length)

/-- Ciphertext and tag, or nothing when the text is too long for the block numbers. -/
def lock? (key nonce text : Bytes) : Option Bytes :=
  if fits text then
    let ciphertext := ChaCha20.apply key nonce 1 text
    some (ciphertext ++ tagOf key nonce ciphertext)
  else none

/-- The text, if the last 16 bytes are the tag of what stands before them. -/
def open? (key nonce locked : Bytes) : Option Bytes :=
  let size := locked.length - 16
  let ciphertext := locked.take size
  if 16 ≤ locked.length ∧ fits ciphertext ∧ locked.drop size = tagOf key nonce ciphertext then
    some (ChaCha20.apply key nonce 1 ciphertext)
  else none

end ChaChaPoly

end Provenance

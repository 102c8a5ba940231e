/-!
# Byte strings

Every record, key, digest and ciphertext is a list of bytes. This module holds what the rest of the
library needs of them:

* integers of a fixed width in both byte orders (`Bytes.ofNatBE`, `Bytes.ofNatLE`) and back
  (`Bytes.toNatBE`, `Bytes.toNatLE`);
* `Bytes.xor` and `Bytes.blocks`, the cutting of a string into blocks, whose concatenation is the
  string again (`Bytes.flatten_blocks`).
-/

namespace Provenance

abbrev Bytes := List UInt8

namespace Bytes

/-! ## Integers of a fixed width -/

/-- The low `width` bytes of a number, most significant first. -/
def ofNatBE : Nat → Nat → Bytes
  | 0, _ => []
  | width + 1, n => UInt8.ofNat (n >>> (8 * width)) :: ofNatBE width n

/-- The low `width` bytes of a number, least significant first. -/
def ofNatLE : Nat → Nat → Bytes
  | 0, _ => []
  | width + 1, n => UInt8.ofNat n :: ofNatLE width (n / 256)

def toNatBE (bs : Bytes) : Nat := bs.foldl (fun n b => n * 256 + b.toNat) 0

def toNatLE (bs : Bytes) : Nat := bs.foldr (fun b n => n * 256 + b.toNat) 0

/-- The lowest `count` binary digits of a number, the highest first. -/
def bits : Nat → Nat → List Bool
  | 0, _ => []
  | count + 1, n => n.testBit count :: bits count n

@[simp] theorem length_ofNatBE (width n : Nat) : (ofNatBE width n).length = width := by
  induction width with
  | zero => rfl
  | succ width ih => simp [ofNatBE, ih]

@[simp] theorem length_ofNatLE (width n : Nat) : (ofNatLE width n).length = width := by
  induction width generalizing n with
  | zero => rfl
  | succ width ih => simp [ofNatLE, ih]

/-! ## Combining and cutting -/

def zeros (n : Nat) : Bytes := List.replicate n 0

/-- Bytewise exclusive or, as long as the shorter argument. -/
def xor (x y : Bytes) : Bytes := List.zipWith (· ^^^ ·) x y

/-- The first `count` blocks of `size` bytes. -/
def takeBlocks (size : Nat) : Nat → Bytes → List Bytes
  | 0, _ => []
  | count + 1, bs => bs.take size :: takeBlocks size count (bs.drop size)

/-- Cut into blocks of `size` bytes; only the last one may be shorter. -/
def blocks (size : Nat) (bs : Bytes) : List Bytes :=
  takeBlocks size ((bs.length + size - 1) / size) bs

theorem flatten_takeBlocks (size : Nat) (count : Nat) (bs : Bytes) (h : bs.length ≤ count * size) :
    (takeBlocks size count bs).flatten = bs := by
  induction count generalizing bs with
  | zero =>
    have : bs = [] := by simpa using h
    simp [takeBlocks, this]
  | succ count ih =>
    have hd : (bs.drop size).length ≤ count * size := by
      rw [List.length_drop, Nat.sub_le_iff_le_add]
      rw [Nat.succ_mul] at h
      exact h
    simp [takeBlocks, ih _ hd]

theorem flatten_blocks (size : Nat) (hs : 0 < size) (bs : Bytes) :
    (blocks size bs).flatten = bs := by
  apply flatten_takeBlocks
  have h := Nat.lt_div_mul_add (a := bs.length + size - 1) hs
  omega

end Bytes

end Provenance

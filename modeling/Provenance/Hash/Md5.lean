import Provenance.Bytes

/-!
# MD5

Four passes of sixteen steps over each block of 64 bytes, all words little-endian. Main statement:
`length_md5`.
-/

namespace Provenance.Md5

def rotateLeft (x : UInt32) (n : UInt32) : UInt32 := (x <<< n) ||| (x >>> (32 - n))

structure State where
  a : UInt32
  b : UInt32
  c : UInt32
  d : UInt32

def start : State := ⟨0x67452301, 0xefcdab89, 0x98badcfe, 0x10325476⟩

/-! ## Steps -/

/-- The integer part of 2³² times the absolute sine of 1, 2, …, 64. -/
def sines : List UInt32 := [
  0xd76aa478, 0xe8c7b756, 0x242070db, 0xc1bdceee, 0xf57c0faf, 0x4787c62a, 0xa8304613, 0xfd469501,
  0x698098d8, 0x8b44f7af, 0xffff5bb1, 0x895cd7be, 0x6b901122, 0xfd987193, 0xa679438e, 0x49b40821,
  0xf61e2562, 0xc040b340, 0x265e5a51, 0xe9b6c7aa, 0xd62f105d, 0x02441453, 0xd8a1e681, 0xe7d3fbc8,
  0x21e1cde6, 0xc33707d6, 0xf4d50d87, 0x455a14ed, 0xa9e3e905, 0xfcefa3f8, 0x676f02d9, 0x8d2a4c8a,
  0xfffa3942, 0x8771f681, 0x6d9d6122, 0xfde5380c, 0xa4beea44, 0x4bdecfa9, 0xf6bb4b60, 0xbebfbc70,
  0x289b7ec6, 0xeaa127fa, 0xd4ef3085, 0x04881d05, 0xd9d4d039, 0xe6db99e5, 0x1fa27cf8, 0xc4ac5665,
  0xf4292244, 0x432aff97, 0xab9423a7, 0xfc93a039, 0x655b59c3, 0x8f0ccc92, 0xffeff47d, 0x85845dd1,
  0x6fa87e4f, 0xfe2ce6e0, 0xa3014314, 0x4e0811a1, 0xf7537e82, 0xbd3af235, 0x2ad7d2bb, 0xeb86d391]

/-- One pass: its mixing function, the block word that step `i` takes, its four rotations. -/
structure Pass where
  mix : UInt32 → UInt32 → UInt32 → UInt32
  wordIndex : Nat → Nat
  rotations : List UInt32

def passes : List Pass := [
  ⟨fun b c d => (b &&& c) ||| (~~~b &&& d), fun i => i, [7, 12, 17, 22]⟩,
  ⟨fun b c d => (d &&& b) ||| (~~~d &&& c), fun i => (5 * i + 1) % 16, [5, 9, 14, 20]⟩,
  ⟨fun b c d => b ^^^ c ^^^ d, fun i => (3 * i + 5) % 16, [4, 11, 16, 23]⟩,
  ⟨fun b c d => c ^^^ (b ||| ~~~d), fun i => (7 * i) % 16, [6, 10, 15, 21]⟩]

def step (words : List UInt32) (s : State) (i : Nat) : State :=
  match passes[i / 16]? with
  | none => s
  | some pass =>
    let word := words.getD (pass.wordIndex (i % 16)) 0
    let sum := s.a + pass.mix s.b s.c s.d + sines.getD i 0 + word
    ⟨s.d, s.b + rotateLeft sum (pass.rotations.getD (i % 4) 0), s.b, s.c⟩

def compress (s : State) (block : Bytes) : State :=
  let words := (Bytes.blocks 4 block).map (fun w => UInt32.ofNat (Bytes.toNatLE w))
  let r := (List.range 64).foldl (step words) s
  ⟨s.a + r.a, s.b + r.b, s.c + r.c, s.d + r.d⟩

/-! ## The digest -/

/-- A one bit, zeros up to the last eight bytes of a block, and the length in bits. -/
def pad (bs : Bytes) : Bytes :=
  bs ++ 0x80 :: Bytes.zeros ((64 - (bs.length + 9) % 64) % 64) ++ Bytes.ofNatLE 8 (8 * bs.length)

def State.toBytes (s : State) : Bytes :=
  [s.a, s.b, s.c, s.d].flatMap (fun w => Bytes.ofNatLE 4 w.toNat)

end Md5

def md5 (bs : Bytes) : Bytes :=
  ((Bytes.blocks 64 (Md5.pad bs)).foldl Md5.compress Md5.start).toBytes

@[simp] theorem length_md5 (bs : Bytes) : (md5 bs).length = 16 := by
  simp [md5, Md5.State.toBytes]

end Provenance

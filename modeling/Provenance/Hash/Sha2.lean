import Provenance.Bytes

/-!
# SHA-256 and SHA-512

The two hashes share one construction and differ in the word they work on: its width, four rotation
patterns, the round constants and the start state. `Sha2.Family` holds what differs, `Sha2.digest`
is the construction. Main statement: a digest has eight words (`length_sha256`, `length_sha512`).
-/

namespace Provenance.Sha2

/-! ## The family -/

structure State (ω : Type) where
  a : ω
  b : ω
  c : ω
  d : ω
  e : ω
  f : ω
  g : ω
  h : ω

/-- What one member of the family fixes. `bigSigma` and `smallSigma` are the mixing functions of the
rounds and of the message schedule. -/
structure Family (ω : Type) where
  wordSize : Nat
  ofNat : Nat → ω
  toNat : ω → Nat
  bigSigma0 : ω → ω
  bigSigma1 : ω → ω
  smallSigma0 : ω → ω
  smallSigma1 : ω → ω
  constants : List ω
  start : State ω

variable {ω : Type} [Add ω] [AndOp ω] [XorOp ω] [Complement ω]

/-! ## Compression of one block -/

/-- The schedule word that follows the given ones, newest first. -/
def nextWord (fam : Family ω) (ws : List ω) : ω :=
  let at' (i : Nat) : ω := ws.getD i (fam.ofNat 0)
  fam.smallSigma1 (at' 1) + at' 6 + fam.smallSigma0 (at' 14) + at' 15

def extend (fam : Family ω) : Nat → List ω → List ω
  | 0, ws => ws
  | n + 1, ws => extend fam n (nextWord fam ws :: ws)

/-- One word for each round: the sixteen words of the block, then the derived ones. -/
def schedule (fam : Family ω) (block : Bytes) : List ω :=
  let words := (Bytes.blocks fam.wordSize block).map (fun w => fam.ofNat (Bytes.toNatBE w))
  (extend fam (fam.constants.length - 16) words.reverse).reverse

def choose (x y z : ω) : ω := (x &&& y) ^^^ (~~~x &&& z)

def majority (x y z : ω) : ω := (x &&& y) ^^^ (x &&& z) ^^^ (y &&& z)

def round (fam : Family ω) (s : State ω) (constant word : ω) : State ω :=
  let t1 := s.h + fam.bigSigma1 s.e + choose s.e s.f s.g + constant + word
  let t2 := fam.bigSigma0 s.a + majority s.a s.b s.c
  ⟨t1 + t2, s.a, s.b, s.c, s.d + t1, s.e, s.f, s.g⟩

def compress (fam : Family ω) (s : State ω) (block : Bytes) : State ω :=
  let r := (fam.constants.zip (schedule fam block)).foldl (fun r kw => round fam r kw.1 kw.2) s
  ⟨s.a + r.a, s.b + r.b, s.c + r.c, s.d + r.d, s.e + r.e, s.f + r.f, s.g + r.g, s.h + r.h⟩

/-! ## Padding and output -/

/-- A one bit, zeros up to the end of a block less two words, and the length in bits. -/
def pad (wordSize : Nat) (bs : Bytes) : Bytes :=
  let block := 16 * wordSize
  let used := (bs.length + 1 + 2 * wordSize) % block
  bs ++ 0x80 :: Bytes.zeros ((block - used) % block) ++ Bytes.ofNatBE (2 * wordSize) (8 * bs.length)

def State.toBytes (fam : Family ω) (s : State ω) : Bytes :=
  [s.a, s.b, s.c, s.d, s.e, s.f, s.g, s.h].flatMap
    (fun w => Bytes.ofNatBE fam.wordSize (fam.toNat w))

def digest (fam : Family ω) (bs : Bytes) : Bytes :=
  ((Bytes.blocks (16 * fam.wordSize) (pad fam.wordSize bs)).foldl (compress fam) fam.start).toBytes
    fam

theorem length_digest (fam : Family ω) (bs : Bytes) : (digest fam bs).length = 8 * fam.wordSize := by
  simp only [digest, State.toBytes, List.flatMap_cons, List.flatMap_nil, List.length_append,
    Bytes.length_ofNatBE, List.length_nil]
  omega

end Sha2

/-! ## SHA-256 -/

def rotateRight32 (x : UInt32) (n : UInt32) : UInt32 := (x >>> n) ||| (x <<< (32 - n))

def sha256Family : Sha2.Family UInt32 where
  wordSize := 4
  ofNat := UInt32.ofNat
  toNat := UInt32.toNat
  bigSigma0 x := rotateRight32 x 2 ^^^ rotateRight32 x 13 ^^^ rotateRight32 x 22
  bigSigma1 x := rotateRight32 x 6 ^^^ rotateRight32 x 11 ^^^ rotateRight32 x 25
  smallSigma0 x := rotateRight32 x 7 ^^^ rotateRight32 x 18 ^^^ (x >>> 3)
  smallSigma1 x := rotateRight32 x 17 ^^^ rotateRight32 x 19 ^^^ (x >>> 10)
  constants := [
    0x428a2f98, 0x71374491, 0xb5c0fbcf, 0xe9b5dba5, 0x3956c25b, 0x59f111f1, 0x923f82a4, 0xab1c5ed5,
    0xd807aa98, 0x12835b01, 0x243185be, 0x550c7dc3, 0x72be5d74, 0x80deb1fe, 0x9bdc06a7, 0xc19bf174,
    0xe49b69c1, 0xefbe4786, 0x0fc19dc6, 0x240ca1cc, 0x2de92c6f, 0x4a7484aa, 0x5cb0a9dc, 0x76f988da,
    0x983e5152, 0xa831c66d, 0xb00327c8, 0xbf597fc7, 0xc6e00bf3, 0xd5a79147, 0x06ca6351, 0x14292967,
    0x27b70a85, 0x2e1b2138, 0x4d2c6dfc, 0x53380d13, 0x650a7354, 0x766a0abb, 0x81c2c92e, 0x92722c85,
    0xa2bfe8a1, 0xa81a664b, 0xc24b8b70, 0xc76c51a3, 0xd192e819, 0xd6990624, 0xf40e3585, 0x106aa070,
    0x19a4c116, 0x1e376c08, 0x2748774c, 0x34b0bcb5, 0x391c0cb3, 0x4ed8aa4a, 0x5b9cca4f, 0x682e6ff3,
    0x748f82ee, 0x78a5636f, 0x84c87814, 0x8cc70208, 0x90befffa, 0xa4506ceb, 0xbef9a3f7, 0xc67178f2]
  start := ⟨0x6a09e667, 0xbb67ae85, 0x3c6ef372, 0xa54ff53a,
    0x510e527f, 0x9b05688c, 0x1f83d9ab, 0x5be0cd19⟩

def sha256 (bs : Bytes) : Bytes := Sha2.digest sha256Family bs

@[simp] theorem length_sha256 (bs : Bytes) : (sha256 bs).length = 32 :=
  Sha2.length_digest sha256Family bs

/-! ## SHA-512 -/

def rotateRight64 (x : UInt64) (n : UInt64) : UInt64 := (x >>> n) ||| (x <<< (64 - n))

def sha512Family : Sha2.Family UInt64 where
  wordSize := 8
  ofNat := UInt64.ofNat
  toNat := UInt64.toNat
  bigSigma0 x := rotateRight64 x 28 ^^^ rotateRight64 x 34 ^^^ rotateRight64 x 39
  bigSigma1 x := rotateRight64 x 14 ^^^ rotateRight64 x 18 ^^^ rotateRight64 x 41
  smallSigma0 x := rotateRight64 x 1 ^^^ rotateRight64 x 8 ^^^ (x >>> 7)
  smallSigma1 x := rotateRight64 x 19 ^^^ rotateRight64 x 61 ^^^ (x >>> 6)
  constants := [
    0x428a2f98d728ae22, 0x7137449123ef65cd, 0xb5c0fbcfec4d3b2f, 0xe9b5dba58189dbbc,
    0x3956c25bf348b538, 0x59f111f1b605d019, 0x923f82a4af194f9b, 0xab1c5ed5da6d8118,
    0xd807aa98a3030242, 0x12835b0145706fbe, 0x243185be4ee4b28c, 0x550c7dc3d5ffb4e2,
    0x72be5d74f27b896f, 0x80deb1fe3b1696b1, 0x9bdc06a725c71235, 0xc19bf174cf692694,
    0xe49b69c19ef14ad2, 0xefbe4786384f25e3, 0x0fc19dc68b8cd5b5, 0x240ca1cc77ac9c65,
    0x2de92c6f592b0275, 0x4a7484aa6ea6e483, 0x5cb0a9dcbd41fbd4, 0x76f988da831153b5,
    0x983e5152ee66dfab, 0xa831c66d2db43210, 0xb00327c898fb213f, 0xbf597fc7beef0ee4,
    0xc6e00bf33da88fc2, 0xd5a79147930aa725, 0x06ca6351e003826f, 0x142929670a0e6e70,
    0x27b70a8546d22ffc, 0x2e1b21385c26c926, 0x4d2c6dfc5ac42aed, 0x53380d139d95b3df,
    0x650a73548baf63de, 0x766a0abb3c77b2a8, 0x81c2c92e47edaee6, 0x92722c851482353b,
    0xa2bfe8a14cf10364, 0xa81a664bbc423001, 0xc24b8b70d0f89791, 0xc76c51a30654be30,
    0xd192e819d6ef5218, 0xd69906245565a910, 0xf40e35855771202a, 0x106aa07032bbd1b8,
    0x19a4c116b8d2d0c8, 0x1e376c085141ab53, 0x2748774cdf8eeb99, 0x34b0bcb5e19b48a8,
    0x391c0cb3c5c95a63, 0x4ed8aa4ae3418acb, 0x5b9cca4f7763e373, 0x682e6ff3d6b2b8a3,
    0x748f82ee5defb2fc, 0x78a5636f43172f60, 0x84c87814a1f0ab72, 0x8cc702081a6439ec,
    0x90befffa23631e28, 0xa4506cebde82bde9, 0xbef9a3f7b2c67915, 0xc67178f2e372532b,
    0xca273eceea26619c, 0xd186b8c721c0c207, 0xeada7dd6cde0eb1e, 0xf57d4f7fee6ed178,
    0x06f067aa72176fba, 0x0a637dc5a2c898a6, 0x113f9804bef90dae, 0x1b710b35131c471b,
    0x28db77f523047d84, 0x32caab7b40c72493, 0x3c9ebe0a15c9bebc, 0x431d67c49c100d4c,
    0x4cc5d4becb3e42b6, 0x597f299cfc657e2a, 0x5fcb6fab3ad6faec, 0x6c44198c4a475817]
  start := ⟨0x6a09e667f3bcc908, 0xbb67ae8584caa73b, 0x3c6ef372fe94f82b, 0xa54ff53a5f1d36f1,
    0x510e527fade682d1, 0x9b05688c2b3e6c1f, 0x1f83d9abfb41bd6b, 0x5be0cd19137e2179⟩

def sha512 (bs : Bytes) : Bytes := Sha2.digest sha512Family bs

@[simp] theorem length_sha512 (bs : Bytes) : (sha512 bs).length = 64 :=
  Sha2.length_digest sha512Family bs

end Provenance

import Provenance.Bytes

/-!
# Grids of sixteen words

The stream cipher ChaCha20 and the hash BLAKE3 both stir a four by four grid of 32-bit words: first
its columns, then its diagonals, each four words at a time. `Grid.doubleRound` takes the function
that stirs one such line; it is told which of the eight lines it works on.
-/

namespace Provenance

def rotateLeft32 (x : UInt32) (n : UInt32) : UInt32 := (x <<< n) ||| (x >>> (32 - n))

/-- Four words of a grid that are stirred together. -/
structure Line where
  a : UInt32
  b : UInt32
  c : UInt32
  d : UInt32

structure Grid where
  x0 : UInt32
  x1 : UInt32
  x2 : UInt32
  x3 : UInt32
  x4 : UInt32
  x5 : UInt32
  x6 : UInt32
  x7 : UInt32
  x8 : UInt32
  x9 : UInt32
  x10 : UInt32
  x11 : UInt32
  x12 : UInt32
  x13 : UInt32
  x14 : UInt32
  x15 : UInt32

namespace Grid

/-- A grid of the first sixteen words; missing ones are zero. -/
def ofList (ws : List UInt32) : Grid :=
  let word (i : Nat) : UInt32 := ws.getD i 0
  ⟨word 0, word 1, word 2, word 3, word 4, word 5, word 6, word 7,
    word 8, word 9, word 10, word 11, word 12, word 13, word 14, word 15⟩

def toList (g : Grid) : List UInt32 :=
  [g.x0, g.x1, g.x2, g.x3, g.x4, g.x5, g.x6, g.x7,
    g.x8, g.x9, g.x10, g.x11, g.x12, g.x13, g.x14, g.x15]

def onColumns (stir : Nat → Line → Line) (g : Grid) : Grid :=
  let p := stir 0 ⟨g.x0, g.x4, g.x8, g.x12⟩
  let q := stir 1 ⟨g.x1, g.x5, g.x9, g.x13⟩
  let r := stir 2 ⟨g.x2, g.x6, g.x10, g.x14⟩
  let s := stir 3 ⟨g.x3, g.x7, g.x11, g.x15⟩
  ⟨p.a, q.a, r.a, s.a, p.b, q.b, r.b, s.b, p.c, q.c, r.c, s.c, p.d, q.d, r.d, s.d⟩

def onDiagonals (stir : Nat → Line → Line) (g : Grid) : Grid :=
  let p := stir 4 ⟨g.x0, g.x5, g.x10, g.x15⟩
  let q := stir 5 ⟨g.x1, g.x6, g.x11, g.x12⟩
  let r := stir 6 ⟨g.x2, g.x7, g.x8, g.x13⟩
  let s := stir 7 ⟨g.x3, g.x4, g.x9, g.x14⟩
  ⟨p.a, q.a, r.a, s.a, s.b, p.b, q.b, r.b, r.c, s.c, p.c, q.c, q.d, r.d, s.d, p.d⟩

def doubleRound (stir : Nat → Line → Line) (g : Grid) : Grid :=
  (g.onColumns stir).onDiagonals stir

end Grid

/-- The words of a byte string, each four bytes with the least significant first. -/
def wordsLE (bs : Bytes) : List UInt32 :=
  (Bytes.blocks 4 bs).map (fun w => UInt32.ofNat (Bytes.toNatLE w))

def bytesLE (ws : List UInt32) : Bytes := ws.flatMap (fun w => Bytes.ofNatLE 4 w.toNat)

end Provenance

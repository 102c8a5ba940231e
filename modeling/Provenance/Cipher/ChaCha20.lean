import Provenance.Hash.Grid

/-!
# ChaCha20

A key of 32 bytes, a nonce of 12 bytes and a block number give 64 bytes of key stream. The cipher
adds the stream to the text, so applying it twice gives the text back.
-/

namespace Provenance.ChaCha20

def stir (_ : Nat) (l : Line) : Line :=
  let a := l.a + l.b
  let d := rotateLeft32 (l.d ^^^ a) 16
  let c := l.c + d
  let b := rotateLeft32 (l.b ^^^ c) 12
  let a := a + b
  let d := rotateLeft32 (d ^^^ a) 8
  let c := c + d
  ⟨a, rotateLeft32 (b ^^^ c) 7, c, d⟩

/-- The words of "expand 32-byte k". -/
def constants : List UInt32 := [0x61707865, 0x3320646e, 0x79622d32, 0x6b206574]

def block (key nonce : Bytes) (counter : Nat) : Bytes :=
  let start := Grid.ofList (constants ++ wordsLE key ++ UInt32.ofNat counter :: wordsLE nonce)
  let final := Nat.repeat (Grid.doubleRound stir) 10 start
  bytesLE (List.zipWith (· + ·) start.toList final.toList)

@[simp] theorem length_block (key nonce : Bytes) (counter : Nat) :
    (block key nonce counter).length = 64 := by
  simp [block, bytesLE, Grid.toList]

/-- The cipher on the given blocks of text, the first under number `counter`. -/
def applyBlocks (key nonce : Bytes) (counter : Nat) : List Bytes → Bytes
  | [] => []
  | b :: rest => Bytes.xor b (block key nonce counter) ++ applyBlocks key nonce (counter + 1) rest

def apply (key nonce : Bytes) (counter : Nat) (text : Bytes) : Bytes :=
  applyBlocks key nonce counter (Bytes.blocks 64 text)

end Provenance.ChaCha20

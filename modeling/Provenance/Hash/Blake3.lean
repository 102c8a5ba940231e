import Provenance.Hash.Grid

/-!
# BLAKE3 key derivation

Input is cut into chunks of 1024 bytes, a chunk into blocks of 64. The chunks are the leaves of a
binary tree whose left subtrees are full; the digest comes from its root. `Blake3.deriveKey` hashes a
context text to a key, and the key material under that key.
-/

namespace Provenance.Blake3

/-! ## Compression -/

def startWords : List UInt32 := [0x6a09e667, 0xbb67ae85, 0x3c6ef372, 0xa54ff53a,
  0x510e527f, 0x9b05688c, 0x1f83d9ab, 0x5be0cd19]

def chunkStart : UInt32 := 1
def chunkEnd : UInt32 := 2
def parentFlag : UInt32 := 4
def rootFlag : UInt32 := 8
def contextFlag : UInt32 := 32
def materialFlag : UInt32 := 64

/-- Stir line `i` of a grid with two of the message words. -/
def stir (words : List UInt32) (i : Nat) (l : Line) : Line :=
  let a := l.a + l.b + words.getD (2 * i) 0
  let d := rotateLeft32 (l.d ^^^ a) 16
  let c := l.c + d
  let b := rotateLeft32 (l.b ^^^ c) 20
  let a := a + b + words.getD (2 * i + 1) 0
  let d := rotateLeft32 (d ^^^ a) 24
  let c := c + d
  ⟨a, rotateLeft32 (b ^^^ c) 25, c, d⟩

/-- The order in which a round takes the words of the round before. -/
def permutation : List Nat := [2, 6, 3, 10, 7, 0, 4, 13, 1, 11, 12, 5, 9, 14, 15, 8]

def permute (words : List UInt32) : List UInt32 := permutation.map (fun i => words.getD i 0)

def rounds : Nat → List UInt32 → Grid → Grid
  | 0, _, g => g
  | n + 1, words, g => rounds n (permute words) (g.doubleRound (stir words))

/-- A node of the tree that still waits for its compression, because only the root is compressed
with the root flag. -/
structure Node where
  chain : List UInt32
  words : List UInt32
  counter : Nat
  size : Nat
  flags : UInt32

/-- The eight words that a node hands to its parent. -/
def Node.output (n : Node) : List UInt32 :=
  let tail := [UInt32.ofNat n.counter, UInt32.ofNat (n.counter >>> 32), UInt32.ofNat n.size, n.flags]
  let r := (rounds 7 n.words (Grid.ofList (n.chain ++ startWords.take 4 ++ tail))).toList
  List.zipWith (· ^^^ ·) (r.take 8) (r.drop 8)

/-! ## Chunks and the tree -/

def blockWords (block : Bytes) : List UInt32 :=
  wordsLE (block ++ Bytes.zeros (64 - block.length))

/-- Absorb the blocks of one chunk; the last one is left waiting. -/
def chunkBlocks (flags : UInt32) (index : Nat) (chain : List UInt32) (start : UInt32) :
    List Bytes → Node
  | [] => ⟨chain, blockWords [], index, 0, flags ||| start ||| chunkEnd⟩
  | [block] => ⟨chain, blockWords block, index, block.length, flags ||| start ||| chunkEnd⟩
  | block :: rest =>
    let node : Node := ⟨chain, blockWords block, index, block.length, flags ||| start⟩
    chunkBlocks flags index node.output 0 rest

def chunk (key : List UInt32) (flags : UInt32) (index : Nat) (bs : Bytes) : Node :=
  chunkBlocks flags index key chunkStart (Bytes.blocks 64 bs)

def parent (key : List UInt32) (flags : UInt32) (left right : Node) : Node :=
  ⟨key, left.output ++ right.output, 0, 64, flags ||| parentFlag⟩

/-- One level up: neighbours are joined, a last node without neighbour is carried over. -/
def pairUp (key : List UInt32) (flags : UInt32) : List Node → List Node
  | left :: right :: rest => parent key flags left right :: pairUp key flags rest
  | nodes => nodes

def chunksFrom (key : List UInt32) (flags : UInt32) : Nat → List Bytes → List Node
  | _, [] => []
  | index, bs :: rest => chunk key flags index bs :: chunksFrom key flags (index + 1) rest

def hashWith (key : List UInt32) (flags : UInt32) (bs : Bytes) : Bytes :=
  let leaves := chunksFrom key flags 0 (Bytes.blocks 1024 bs)
  let root := (Nat.repeat (pairUp key flags) leaves.length leaves).headD (chunk key flags 0 [])
  bytesLE { root with flags := root.flags ||| rootFlag }.output

/-- A key of 32 bytes for the purpose that the context names. -/
def deriveKey (context material : Bytes) : Bytes :=
  hashWith (wordsLE (hashWith startWords contextFlag context)) materialFlag material

end Provenance.Blake3

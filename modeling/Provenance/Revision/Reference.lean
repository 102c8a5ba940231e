import Provenance.Revision.Header
import Provenance.Text.Hex

/-!
# Reference digests

A digest is portable only if every node encodes a header to the same bytes. Four headers are fixed
here together with their canonical bytes and digests.
-/

namespace Provenance

structure ReferenceDigest where
  name : String
  header : Header
  body : Option Bytes
  /-- The canonical bytes in hexadecimal. -/
  canonical : String
  /-- The digest in hexadecimal. -/
  digest : String

namespace ReferenceDigest

/-- A header whose identifiers each repeat one byte. -/
def headerOf (id version : UInt8) (parent : Option UInt8) (payloadType : String)
    (signer recipient : Option String) (readers writers : List String) (immutable : Bool) :
    Header where
  id := ⟨Uuid.replicate id⟩
  version := ⟨Uuid.replicate version⟩
  parent := parent.map (fun b => ⟨Uuid.replicate b⟩)
  payloadType := payloadType
  signer := signer
  recipient := recipient
  readers := NameSet.ofList readers
  writers := NameSet.ofList writers
  immutable := immutable

def all : List ReferenceDigest := [
  { name := "anchor header"
    header := headerOf 0x01 0x02 none "Account" none none [] [] false
    body := none
    canonical := "a90050010101010101010101010101010101010150020202020202020202020202020202" ++
      "0202f603674163636f756e7404f605f60680078008f4"
    digest := "36d78d7ca1f13917eaa2d0cdd54b225895f8588656558efd94b2afa5605fdb58" },
  { name := "signed revision with body"
    header := headerOf 0x01 0x03 (some 0x02) "Account" (some "signer-hash") none [] ["w2", "w1"] false
    body := some (Utf8.encode "balance=10")
    canonical := "a90050010101010101010101010101010101010150030303030303030303030303030303" ++
      "0302500202020202020202020202020202020203674163636f756e74046b7369676e6572" ++
      "2d6861736805f60680078262773162773208f4"
    digest := "e65de8a331454c93a627bc6e9e726b578624934e280a7c7dfaec04bfcffd1478" },
  { name := "immutable tombstone"
    header := headerOf 0x11 0x12 (some 0x13) "Ledger" (some "k") none ["r"] [] true
    body := none
    canonical := "a90050111111111111111111111111111111110150121212121212121212121212121212" ++
      "1202501313131313131313131313131313131303664c656467657204616b05f606816172" ++
      "078008f5"
    digest := "829ae2d959983218d4dfe204b4ecc732159a01cbe29200d10fd9be66e6ad5329" },
  { name := "encrypted body"
    header := headerOf 0xaa 0xbb none "Secret" (some "s") (some "e") ["e"] ["public"] false
    body := some [0x00, 0x01, 0x02]
    canonical := "a90050aaaaaaaaaaaaaaaaaaaaaaaaaaaaaaaa0150bbbbbbbbbbbbbbbbbbbbbbbbbbbbbb" ++
      "bb02f60366536563726574046173056165068161650781667075626c696308f4"
    digest := "774bec2919f5be6ee7c6794c74e50c1e766207836f3cb6b7c7c3a2401096b263" }]

def canonicalHolds (v : ReferenceDigest) : Bool := Hex.encode v.header.canonicalBytes = v.canonical

def digestHolds (v : ReferenceDigest) : Bool := Hex.encode (v.header.digest v.body) = v.digest

end ReferenceDigest

end Provenance

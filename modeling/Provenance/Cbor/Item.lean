import Provenance.Text.Utf8

/-!
# CBOR items

An item is the tree of one CBOR value. Strings tell whether they stand in one piece or in several, as
some readings accept only the former; everything else about the spelling (widths of lengths, definite
or indefinite arrays and maps) is not kept. `Item.encode` writes the deterministic form: shortest
heads, definite lengths, entries in the order given.
-/

namespace Provenance

/-- The content of a byte or text string. -/
inductive Pieces
  | whole (content : Bytes)
  | parts (contents : List Bytes)
  deriving DecidableEq

def Pieces.toList : Pieces → List Bytes
  | .whole content => [content]
  | .parts contents => contents

def Pieces.content (p : Pieces) : Bytes := p.toList.flatten

inductive Item
  | unsigned (n : Nat)
  /-- The number `-1 - n`. -/
  | negative (n : Nat)
  | bytes (content : Pieces)
  | text (content : Pieces)
  | array (items : List Item)
  | map (entries : List (Item × Item))
  | tag (number : Nat) (item : Item)
  | simple (code : Nat)
  | float (bits : Bytes)

namespace Item

/-! ## Common values -/

def ofBytes (bs : Bytes) : Item := .bytes (.whole bs)

def ofText (s : String) : Item := .text (.whole (Utf8.encode s))

def ofBool (b : Bool) : Item := .simple (if b then 21 else 20)

def null : Item := .simple 22

def ofOption {α : Type} (f : α → Item) : Option α → Item
  | none => null
  | some x => f x

/-! ## Encoding -/

/-- A major type with its argument, in the fewest bytes. -/
def head (major n : Nat) : Bytes :=
  if n < 24 then [UInt8.ofNat (major * 32 + n)]
  else if n < 0x100 then UInt8.ofNat (major * 32 + 24) :: Bytes.ofNatBE 1 n
  else if n < 0x10000 then UInt8.ofNat (major * 32 + 25) :: Bytes.ofNatBE 2 n
  else if n < 0x100000000 then UInt8.ofNat (major * 32 + 26) :: Bytes.ofNatBE 4 n
  else UInt8.ofNat (major * 32 + 27) :: Bytes.ofNatBE 8 n

def encodePart (major : Nat) (bs : Bytes) : Bytes := head major bs.length ++ bs

def encodePieces (major : Nat) : Pieces → Bytes
  | .whole content => encodePart major content
  | .parts contents =>
    UInt8.ofNat (major * 32 + 31) :: (contents.map (encodePart major)).flatten ++ [0xff]

def floatHead (bits : Bytes) : UInt8 :=
  if bits.length = 2 then 0xf9 else if bits.length = 4 then 0xfa else 0xfb

mutual

def encode : Item → Bytes
  | .unsigned n => head 0 n
  | .negative n => head 1 n
  | .bytes content => encodePieces 2 content
  | .text content => encodePieces 3 content
  | .array items => head 4 items.length ++ encodeAll items
  | .map entries => head 5 entries.length ++ encodeEntries entries
  | .tag number item => head 6 number ++ encode item
  | .simple code => head 7 code
  | .float bits => floatHead bits :: bits

def encodeAll : List Item → Bytes
  | [] => []
  | item :: rest => encode item ++ encodeAll rest

def encodeEntries : List (Item × Item) → Bytes
  | [] => []
  | (key, value) :: rest => encode key ++ encode value ++ encodeEntries rest

end

end Item

end Provenance

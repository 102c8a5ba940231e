import Provenance.Text.Hex

/-!
# Identifiers

Objects, their versions and castles are named by identifiers of 16 bytes. The three are different
types, so that one cannot stand for another. An identifier is written in hyphenated lower-case
hexadecimal; the hyphens follow bytes 4, 6, 8 and 10.
-/

namespace Provenance

structure Uuid where
  bytes : Bytes
  size : bytes.length = 16
  deriving DecidableEq

namespace Uuid

def ofBytes? (bs : Bytes) : Option Uuid := if h : bs.length = 16 then some ⟨bs, h⟩ else none

theorem ofBytes?_bytes (u : Uuid) : ofBytes? u.bytes = some u := by simp [ofBytes?, u.size]

/-- The identifier whose bytes are all the same. -/
def replicate (b : UInt8) : Uuid := ⟨List.replicate 16 b, by simp⟩

/-! ## Text -/

def text (u : Uuid) : String :=
  String.intercalate "-" [Hex.encode (u.bytes.take 4), Hex.encode ((u.bytes.drop 4).take 2),
    Hex.encode ((u.bytes.drop 6).take 2), Hex.encode ((u.bytes.drop 8).take 2),
    Hex.encode (u.bytes.drop 10)]

/-- The identifier that a hexadecimal text spells, wherever its hyphens are. -/
def ofText? (s : String) : Option Uuid := do
  let bs ← Hex.decodeChars? (s.toList.filter (fun c => c ≠ '-'))
  ofBytes? bs

/-- The first four bytes, which stand for the identifier in messages to people. -/
def brief (u : Uuid) : String := Hex.encode (u.bytes.take 4)

/-- The order of the bytes, the first one counting most. -/
def precedes (u v : Uuid) : Bool := Bytes.toNatBE u.bytes ≤ Bytes.toNatBE v.bytes

end Uuid

/-! ## What is identified -/

/-- An object, across all of its revisions. -/
structure ObjectId where
  uuid : Uuid
  deriving DecidableEq

/-- One revision of an object. -/
structure VersionId where
  uuid : Uuid
  deriving DecidableEq

/-- A castle. -/
structure CastleId where
  uuid : Uuid
  deriving DecidableEq

def ObjectId.text (i : ObjectId) : String := i.uuid.text

def VersionId.text (i : VersionId) : String := i.uuid.text

def CastleId.text (i : CastleId) : String := i.uuid.text

def ObjectId.debugText (i : ObjectId) : String := "ObjectId(" ++ i.uuid.brief ++ ")"

def VersionId.debugText (i : VersionId) : String := "VersionId(" ++ i.uuid.brief ++ ")"

def CastleId.debugText (i : CastleId) : String := "CastleId(" ++ i.uuid.brief ++ ")"

end Provenance

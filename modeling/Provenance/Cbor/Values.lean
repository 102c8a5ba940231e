import Provenance.Cbor.Reader
import Provenance.Container.NameSet

/-!
# Values in CBOR items

Readings of an item as a value of the record format. Tags in front of a value are ignored; a value of
the wrong kind has no reading. A map read as a structure may have entries of other names: these are
passed over, but still have to be readable on their own (`Item.isReadable`), within the limit on
nesting.
-/

namespace Provenance

/-- The text of a string; each piece has to be valid on its own. -/
def Pieces.text? (p : Pieces) : Option String := (p.toList.mapM Utf8.decode?).map String.join

namespace Item

/-- The item behind any tags. -/
def untagged : Item → Item
  | .tag _ item => untagged item
  | item => item

/-! ## Strings -/

def text? (item : Item) : Option String :=
  match item.untagged with
  | .text content => content.text?
  | _ => none

def wholeBytes? (item : Item) : Option Bytes :=
  match item.untagged with
  | .bytes (.whole content) => some content
  | _ => none

/-- Longest name that is compared with the names of a structure's fields. -/
def maxFieldName : Nat := 4096

/-- The name of an entry, which stands in one piece as text or as bytes. -/
def fieldName? (item : Item) : Option Bytes :=
  match item.untagged with
  | .text (.whole name) => if name.length ≤ maxFieldName ∧ Utf8.isValid name then some name else none
  | .bytes (.whole name) => if name.length ≤ maxFieldName then some name else none
  | _ => none

/-! ## Numbers -/

def significant : Bytes → Bytes := List.dropWhile (fun b => b = 0)

/-- The number that a byte string of at most 16 significant bytes spells. -/
def bigNumber? (item : Item) : Option Nat :=
  match item with
  | .bytes content =>
    let digits := significant content.content
    if digits.length ≤ 16 then some (Bytes.toNatBE digits) else none
  | _ => none

/-- A number that is not negative; tag 2 marks one that is spelled by a byte string. -/
def natural? : Item → Option Nat
  | .unsigned n => some n
  | .tag 2 item => bigNumber? item
  | .tag 3 _ => none
  | .tag _ item => natural? item
  | _ => none

def byte? (item : Item) : Option UInt8 := do
  let n ← natural? item
  if n < 256 then some (UInt8.ofNat n) else none

/-! ## Composite values -/

def bytes? (item : Item) : Option Bytes :=
  match item.untagged with
  | .bytes content => some content.content
  | .array items => items.mapM byte?
  | _ => none

def bool? (item : Item) : Option Bool :=
  match item.untagged with
  | .simple 20 => some false
  | .simple 21 => some true
  | _ => none

/-- Null and undefined stand for no value. -/
def option? {α : Type} (read : Item → Option α) (item : Item) : Option (Option α) :=
  match item with
  | .simple 22 => some none
  | .simple 23 => some none
  | item => (read item).map some

/-- An array of names, or an empty byte string for the empty set. -/
def nameSet? (item : Item) : Option NameSet :=
  match item.untagged with
  | .array items => (items.mapM text?).map NameSet.ofList
  | .bytes content => if content.content = [] then some NameSet.empty else none
  | _ => none

def entries? (item : Item) : Option (List (Item × Item)) :=
  match item.untagged with
  | .map entries => some entries
  | _ => none

/-! ## Values that are passed over -/

/-- Arrays, maps and tags that may be open at once. -/
def maxNesting : Nat := 256

def isKnownSimple (code : Nat) : Bool := 20 ≤ code && code ≤ 23

/-- Tags 2 and 3 over at most 16 bytes spell a number; a negative one must fit 128 bits. -/
def spelledNumber? (number : Nat) (item : Item) : Option Bool :=
  match number, item with
  | 2, .bytes (.whole content) => if content.length ≤ 16 then some true else none
  | 3, .bytes (.whole content) =>
    if content.length ≤ 16 then some (Bytes.toNatBE content < 1 <<< 127) else none
  | _, _ => none

mutual

/-- Whether an item of any kind can be read with `room` more levels of nesting. -/
def isReadable (room : Nat) : Item → Bool
  | .unsigned _ => true
  | .negative _ => true
  | .bytes _ => true
  | .text content => content.text?.isSome
  | .array items => 0 < room && allReadable (room - 1) items
  | .map entries => 0 < room && entriesReadable (room - 1) entries
  | .tag number item =>
    (spelledNumber? number item).getD (0 < room && isReadable (room - 1) item)
  | .simple code => isKnownSimple code
  | .float _ => true

def allReadable (room : Nat) : List Item → Bool
  | [] => true
  | item :: rest => isReadable room item && allReadable room rest

def entriesReadable (room : Nat) : List (Item × Item) → Bool
  | [] => true
  | (key, value) :: rest =>
    isReadable room key && isReadable room value && entriesReadable room rest

end

end Item

/-! ## Structures -/

/-- The entries of a map under their names. -/
structure Fields where
  entries : List (Bytes × Item)

namespace Fields

def count (f : Fields) (name : String) : Nat :=
  (f.entries.filter (fun e => e.1 = Utf8.encode name)).length

/-- The value of a field, if the map has it. -/
def get? (f : Fields) (name : String) : Option Item :=
  (f.entries.find? (fun e => e.1 = Utf8.encode name)).map (·.2)

/-- The value of a field that has to be there. -/
def required {α : Type} (f : Fields) (name : String) (read : Item → Option α) : Option α :=
  match f.get? name with
  | some item => read item
  | none => none

/-- The value of a field that has a default. -/
def optional {α : Type} (f : Fields) (name : String) (default : α) (read : Item → Option α) :
    Option α :=
  match f.get? name with
  | some item => read item
  | none => some default

def isKnown (known : List String) (name : Bytes) : Bool :=
  known.any (fun k => Utf8.encode k = name)

def nameEntries? : List (Item × Item) → Option (List (Bytes × Item))
  | [] => some []
  | (key, value) :: rest => do
    let name ← Item.fieldName? key
    let named ← nameEntries? rest
    return (name, value) :: named

/-- A map as a structure with the given fields: none of them twice, every other entry readable with
`room` more levels of nesting. -/
def read (known : List String) (room : Nat) (item : Item) : Option Fields := do
  let entries ← item.entries?
  let named ← nameEntries? entries
  let fields : Fields := ⟨named⟩
  let single := known.all (fun name => fields.count name ≤ 1)
  let readable := named.all (fun e => isKnown known e.1 || e.2.isReadable room)
  if single && readable then some fields else none

end Fields

end Provenance

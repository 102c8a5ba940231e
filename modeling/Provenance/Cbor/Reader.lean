import Provenance.Cbor.Item

/-!
# Reading CBOR items

`Item.read` takes one item from the front of a byte string and gives back what follows it. Heads may
be longer than needed, and strings, arrays and maps may be of indefinite length; the pieces of an
indefinite string may nest. Every item takes at least one byte, so twice the number of bytes bounds
the depth of the recursion.
-/

namespace Provenance

/-! ## Heads -/

/-- The first bytes of an item. A size is absent when the length is indefinite. -/
inductive Head
  | unsigned (n : Nat)
  | negative (n : Nat)
  | bytes (size : Option Nat)
  | text (size : Option Nat)
  | array (size : Option Nat)
  | map (size : Option Nat)
  | tag (number : Nat)
  | simple (code : Nat)
  | float (bits : Bytes)
  | stop

def takeExactly (size : Nat) (bs : Bytes) : Option (Bytes × Bytes) :=
  if size ≤ bs.length then some (bs.take size, bs.drop size) else none

/-- The argument that follows a first byte with these low bits; no value for an indefinite length. -/
def readArgument (low : Nat) (bs : Bytes) : Option (Option Nat × Bytes) :=
  let wide (size : Nat) : Option (Option Nat × Bytes) :=
    (takeExactly size bs).map (fun r => (some (Bytes.toNatBE r.1), r.2))
  if low < 24 then some (some low, bs)
  else match low with
    | 24 => wide 1
    | 25 => wide 2
    | 26 => wide 4
    | 27 => wide 8
    | 31 => some (none, bs)
    | _ => none

def readFloat (size : Nat) (bs : Bytes) : Option (Head × Bytes) :=
  (takeExactly size bs).map (fun r => (Head.float r.1, r.2))

def Head.read : Bytes → Option (Head × Bytes)
  | [] => none
  | b :: bs =>
    let low := b.toNat % 32
    match b.toNat / 32, low with
    | 7, 25 => readFloat 2 bs
    | 7, 26 => readFloat 4 bs
    | 7, 27 => readFloat 8 bs
    | major, _ =>
      match readArgument low bs with
      | none => none
      | some (size, rest) =>
        match major, size with
        | 0, some n => some (.unsigned n, rest)
        | 1, some n => some (.negative n, rest)
        | 2, size => some (.bytes size, rest)
        | 3, size => some (.text size, rest)
        | 4, size => some (.array size, rest)
        | 5, size => some (.map size, rest)
        | 6, some n => some (.tag n, rest)
        | 7, some n => some (.simple n, rest)
        | 7, none => some (.stop, rest)
        | _, none => none
        | _, some _ => none

/-! ## Strings in pieces -/

/-- Whether a head starts a piece of a string of the given kind. -/
def Head.pieceSize? (isText : Bool) : Head → Option (Option Nat)
  | .bytes size => if isText then none else some size
  | .text size => if isText then some size else none
  | _ => none

/-- The pieces up to the stop that ends the string; `depth` more strings are open inside it. -/
def readParts (isText : Bool) : Nat → Nat → Bytes → Option (List Bytes × Bytes)
  | 0, _, _ => none
  | fuel + 1, depth, bs => do
    let (head, rest) ← Head.read bs
    match head, depth with
    | .stop, 0 => return ([], rest)
    | .stop, depth + 1 => readParts isText fuel depth rest
    | head, depth =>
      match head.pieceSize? isText with
      | none => none
      | some none => readParts isText fuel (depth + 1) rest
      | some (some size) =>
        let (part, rest) ← takeExactly size rest
        let (parts, rest) ← readParts isText fuel depth rest
        return (part :: parts, rest)

def readPieces (isText : Bool) (fuel : Nat) (size : Option Nat) (bs : Bytes) :
    Option (Pieces × Bytes) :=
  match size with
  | some size => (takeExactly size bs).map (fun r => (.whole r.1, r.2))
  | none => (readParts isText fuel 0 bs).map (fun r => (.parts r.1, r.2))

/-! ## Items -/

namespace Item

/-- The rest behind a stop, if one is next. -/
def stop? (bs : Bytes) : Option Bytes :=
  match bs with
  | 0xff :: rest => some rest
  | _ => none

mutual

def readItem : Nat → Bytes → Option (Item × Bytes)
  | 0, _ => none
  | fuel + 1, bs => do
    let (head, rest) ← Head.read bs
    match head with
    | .unsigned n => some (.unsigned n, rest)
    | .negative n => some (.negative n, rest)
    | .bytes size =>
      let (content, rest) ← readPieces false fuel size rest
      return (.bytes content, rest)
    | .text size =>
      let (content, rest) ← readPieces true fuel size rest
      return (.text content, rest)
    | .array (some size) =>
      let (items, rest) ← readItems fuel size rest
      return (.array items, rest)
    | .array none =>
      let (items, rest) ← readItemsToStop fuel rest
      return (.array items, rest)
    | .map (some size) =>
      let (entries, rest) ← readEntries fuel size rest
      return (.map entries, rest)
    | .map none =>
      let (entries, rest) ← readEntriesToStop fuel rest
      return (.map entries, rest)
    | .tag number =>
      let (item, rest) ← readItem fuel rest
      return (.tag number item, rest)
    | .simple code => some (.simple code, rest)
    | .float bits => some (.float bits, rest)
    | .stop => none

def readItems : Nat → Nat → Bytes → Option (List Item × Bytes)
  | _, 0, bs => some ([], bs)
  | 0, _ + 1, _ => none
  | fuel + 1, count + 1, bs => do
    let (item, rest) ← readItem fuel bs
    let (items, rest) ← readItems fuel count rest
    return (item :: items, rest)

def readItemsToStop : Nat → Bytes → Option (List Item × Bytes)
  | 0, _ => none
  | fuel + 1, bs =>
    match stop? bs with
    | some rest => some ([], rest)
    | none => do
      let (item, rest) ← readItem fuel bs
      let (items, rest) ← readItemsToStop fuel rest
      return (item :: items, rest)

def readEntries : Nat → Nat → Bytes → Option (List (Item × Item) × Bytes)
  | _, 0, bs => some ([], bs)
  | 0, _ + 1, _ => none
  | fuel + 1, count + 1, bs => do
    let (key, rest) ← readItem fuel bs
    let (value, rest) ← readItem fuel rest
    let (entries, rest) ← readEntries fuel count rest
    return ((key, value) :: entries, rest)

def readEntriesToStop : Nat → Bytes → Option (List (Item × Item) × Bytes)
  | 0, _ => none
  | fuel + 1, bs =>
    match stop? bs with
    | some rest => some ([], rest)
    | none => do
      let (key, rest) ← readItem fuel bs
      let (value, rest) ← readItem fuel rest
      let (entries, rest) ← readEntriesToStop fuel rest
      return ((key, value) :: entries, rest)

end

/-- The first item of a byte string, and what follows it. -/
def read (bs : Bytes) : Option (Item × Bytes) := readItem (2 * bs.length + 1) bs

end Item

end Provenance

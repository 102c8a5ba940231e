import Provenance.Text.Hex
import Provenance.Text.Utf8

/-!
# Reading JSON

Readers take the bytes ahead and give back the bytes that follow. Objects and arrays that only have
to be passed over are checked for their shape alone: any depth, any number, any bytes in a string but
control characters. A string that is wanted must decode: escapes of surrogates come in pairs, and the
result is valid UTF-8.
-/

namespace Provenance.Json

/-! ## Characters -/

def isBlank (b : UInt8) : Bool := b = 0x20 || b = 0x09 || b = 0x0a || b = 0x0d

def skipBlanks : Bytes → Bytes := List.dropWhile isBlank

def isDigit (b : UInt8) : Bool := 0x30 ≤ b && b ≤ 0x39

/-- The rest behind the given byte, if it is next. -/
def expect? (b : UInt8) : Bytes → Option Bytes
  | [] => none
  | c :: rest => if c = b then some rest else none

/-- The rest behind the given bytes. -/
def expectAll? : Bytes → Bytes → Option Bytes
  | [], bs => some bs
  | w :: ws, bs => (expect? w bs).bind (expectAll? ws)

def hexValue? (b : UInt8) : Option Nat := Hex.digitValue? (Char.ofNat b.toNat)

/-- The number that four hexadecimal digits spell. -/
def codeUnit? : Bytes → Option (Nat × Bytes)
  | a :: b :: c :: d :: rest => do
    let a ← hexValue? a
    let b ← hexValue? b
    let c ← hexValue? c
    let d ← hexValue? d
    return (((a * 16 + b) * 16 + c) * 16 + d, rest)
  | _ => none

/-! ## Strings -/

/-- The byte that a short escape stands for. -/
def shortEscape? (b : UInt8) : Option UInt8 :=
  match b with
  | 0x22 => some 0x22
  | 0x5c => some 0x5c
  | 0x2f => some 0x2f
  | 0x62 => some 0x08
  | 0x66 => some 0x0c
  | 0x6e => some 0x0a
  | 0x72 => some 0x0d
  | 0x74 => some 0x09
  | _ => none

def codePoint (n : Nat) : Bytes := Utf8.encode (String.singleton (Char.ofNat n))

def isHighSurrogate (n : Nat) : Bool := 0xd800 ≤ n && n < 0xdc00

def isLowSurrogate (n : Nat) : Bool := 0xdc00 ≤ n && n < 0xe000

/-- The code point of an escape by number, from behind its `u`. -/
def numberedEscape? (bs : Bytes) : Option (Bytes × Bytes) := do
  let (n, rest) ← codeUnit? bs
  if isLowSurrogate n then none
  else if isHighSurrogate n then
    let rest ← expectAll? [0x5c, 0x75] rest
    let (m, rest) ← codeUnit? rest
    if isLowSurrogate m then
      some (codePoint (0x10000 + (n - 0xd800) * 0x400 + (m - 0xdc00)), rest)
    else none
  else some (codePoint n, rest)

/-- The content of a string, from behind its first quote. -/
def stringContent? : Nat → Bytes → Option (Bytes × Bytes)
  | 0, _ => none
  | _ + 1, [] => none
  | fuel + 1, b :: rest =>
    if b = 0x22 then some ([], rest)
    else if b < 0x20 then none
    else if b = 0x5c then
      match rest with
      | [] => none
      | e :: rest => do
        let (piece, rest) ← if e = 0x75 then numberedEscape? rest
          else (shortEscape? e).map (fun c => ([c], rest))
        let (content, rest) ← stringContent? fuel rest
        return (piece ++ content, rest)
    else do
      let (content, rest) ← stringContent? fuel rest
      return (b :: content, rest)

/-- A string, from its first quote on. -/
def string? (bs : Bytes) : Option (String × Bytes) := do
  let rest ← expect? 0x22 bs
  let (content, rest) ← stringContent? (rest.length + 1) rest
  let s ← Utf8.decode? content
  return (s, rest)

/-- The rest behind a string that is passed over, from behind its first quote. -/
def skipContent? : Nat → Bytes → Option Bytes
  | 0, _ => none
  | _ + 1, [] => none
  | fuel + 1, b :: rest =>
    if b = 0x22 then some rest
    else if b < 0x20 then none
    else if b = 0x5c then
      match rest with
      | [] => none
      | e :: rest =>
        if e = 0x75 then (codeUnit? rest).bind (fun r => skipContent? fuel r.2)
        else if (shortEscape? e).isSome then skipContent? fuel rest
        else none
    else skipContent? fuel rest

/-! ## Numbers -/

/-- Digits, of which there must be at least one. -/
def digits? (bs : Bytes) : Option (Bytes × Bytes) :=
  let ds := bs.takeWhile isDigit
  if ds = [] then none else some (ds, bs.dropWhile isDigit)

/-- Digits without a leading zero in front of others. -/
def wholePart? (bs : Bytes) : Option (Bytes × Bytes) := do
  let (ds, rest) ← digits? bs
  if ds.head? = some 0x30 ∧ 1 < ds.length then none else some (ds, rest)

def skipExponent? : Bytes → Option Bytes
  | [] => some []
  | b :: rest =>
    if b = 0x65 || b = 0x45 then
      match rest with
      | [] => none
      | s :: more => (digits? (if s = 0x2b || s = 0x2d then more else rest)).map (·.2)
    else some (b :: rest)

def skipFraction? : Bytes → Option Bytes
  | [] => some []
  | b :: rest => if b = 0x2e then (digits? rest).map (·.2) else some (b :: rest)

/-- The rest behind a number, from behind its sign. -/
def skipNumber? (bs : Bytes) : Option Bytes := do
  let (_, rest) ← wholePart? bs
  let rest ← skipFraction? rest
  skipExponent? rest

def digitsValue (ds : Bytes) : Nat := ds.foldl (fun n b => n * 10 + (b.toNat - 0x30)) 0

/-- Whether a fraction or an exponent follows. -/
def continuesNumber : Bytes → Bool
  | b :: _ => b = 0x2e || b = 0x65 || b = 0x45
  | [] => false

/-- An integer of 64 bits. Fractions, exponents and minus zero are none. -/
def integer? (bs : Bytes) : Option (Int × Bytes) := do
  match bs with
  | 0x2d :: rest =>
    let (ds, rest) ← wholePart? rest
    let n := digitsValue ds
    if continuesNumber rest || n = 0 || 1 <<< 63 < n then none else some (-(n : Int), rest)
  | bs =>
    let (ds, rest) ← wholePart? bs
    let n := digitsValue ds
    if continuesNumber rest || 1 <<< 63 ≤ n then none else some ((n : Int), rest)

/-! ## Values that are passed over -/

mutual

/-- The rest behind a value. -/
def skipValue? : Nat → Bytes → Option Bytes
  | 0, _ => none
  | fuel + 1, bs =>
    match skipBlanks bs with
    | [] => none
    | b :: rest =>
      if b = 0x22 then skipContent? (rest.length + 1) rest
      else if b = 0x5b then
        match skipBlanks rest with
        | 0x5d :: rest => some rest
        | rest => skipElements? fuel rest
      else if b = 0x7b then
        match skipBlanks rest with
        | 0x7d :: rest => some rest
        | rest => skipMembers? fuel rest
      else if b = 0x2d then skipNumber? rest
      else if isDigit b then skipNumber? (b :: rest)
      else if b = 0x6e then expectAll? [0x75, 0x6c, 0x6c] rest
      else if b = 0x74 then expectAll? [0x72, 0x75, 0x65] rest
      else if b = 0x66 then expectAll? [0x61, 0x6c, 0x73, 0x65] rest
      else none

/-- The rest behind the elements of an array and its bracket. -/
def skipElements? : Nat → Bytes → Option Bytes
  | 0, _ => none
  | fuel + 1, bs => do
    let rest ← skipValue? fuel bs
    match skipBlanks rest with
    | 0x2c :: rest => skipElements? fuel rest
    | 0x5d :: rest => some rest
    | _ => none

/-- The rest behind the members of an object and its brace. -/
def skipMembers? : Nat → Bytes → Option Bytes
  | 0, _ => none
  | fuel + 1, bs => do
    let rest ← expect? 0x22 (skipBlanks bs)
    let rest ← skipContent? (rest.length + 1) rest
    let rest ← expect? 0x3a (skipBlanks rest)
    let rest ← skipValue? fuel rest
    match skipBlanks rest with
    | 0x2c :: rest => skipMembers? fuel rest
    | 0x7d :: rest => some rest
    | _ => none

end

/-- The rest behind a value of any kind. -/
def skip? (bs : Bytes) : Option Bytes := skipValue? (2 * bs.length + 1) bs

end Provenance.Json

import Provenance.Account.Json
import Provenance.Text.Numeral

/-!
# Accounts

The payload of an account revision: an owner and a balance, as a JSON object without blanks. Reading
takes the two members in any order among others, or an array of the two values.
-/

namespace Provenance

structure Account where
  owner : String
  balance : Int
  deriving DecidableEq

namespace Account

/-! ## Writing -/

/-- The escape of a character within a JSON string, if it needs one. -/
def escapeChar (c : Char) : List Char :=
  if c = '"' then ['\\', '"']
  else if c = '\\' then ['\\', '\\']
  else if c.toNat = 0x08 then ['\\', 'b']
  else if c.toNat = 0x09 then ['\\', 't']
  else if c.toNat = 0x0a then ['\\', 'n']
  else if c.toNat = 0x0c then ['\\', 'f']
  else if c.toNat = 0x0d then ['\\', 'r']
  else if c.toNat < 0x20 then
    ['\\', 'u', '0', '0'] ++ Hex.encodeWith Hex.lowerDigits [UInt8.ofNat c.toNat]
  else [c]

def quoted (s : String) : String := String.ofList ('"' :: s.toList.flatMap escapeChar ++ ['"'])

def integerText (n : Int) : String :=
  if n < 0 then "-" ++ Numeral.encode n.natAbs else Numeral.encode n.natAbs

def toBody (a : Account) : Bytes :=
  Utf8.encode ("\x7b\"owner\":" ++ quoted a.owner ++ ",\"balance\":" ++ integerText a.balance ++ "\x7d")

/-! ## Reading -/

/-- The members read so far. -/
structure Members where
  owner : Option String
  balance : Option Int

def readOwner (m : Members) (bs : Bytes) : Option (Members × Bytes) :=
  if m.owner.isSome then none
  else (Json.string? (Json.skipBlanks bs)).map (fun r => ({ m with owner := some r.1 }, r.2))

def readBalance (m : Members) (bs : Bytes) : Option (Members × Bytes) :=
  if m.balance.isSome then none
  else (Json.integer? (Json.skipBlanks bs)).map (fun r => ({ m with balance := some r.1 }, r.2))

/-- The value of a member with the given name. -/
def readMember (m : Members) (name : String) (bs : Bytes) : Option (Members × Bytes) :=
  if name = "owner" then readOwner m bs
  else if name = "balance" then readBalance m bs
  else (Json.skip? bs).map (fun rest => (m, rest))

/-- The members of an object up to its brace. -/
def readMembers : Nat → Members → Bytes → Option (Members × Bytes)
  | 0, _, _ => none
  | fuel + 1, m, bs => do
    let (name, rest) ← Json.string? (Json.skipBlanks bs)
    let rest ← Json.expect? 0x3a (Json.skipBlanks rest)
    let (m, rest) ← readMember m name rest
    match Json.skipBlanks rest with
    | 0x2c :: rest => readMembers fuel m rest
    | 0x7d :: rest => some (m, rest)
    | _ => none

def readObject (bs : Bytes) : Option (Members × Bytes) :=
  match Json.skipBlanks bs with
  | 0x7d :: rest => some (⟨none, none⟩, rest)
  | rest => readMembers (rest.length + 1) ⟨none, none⟩ rest

/-- The two values of an array, up to its bracket. -/
def readArray (bs : Bytes) : Option (Members × Bytes) := do
  let (m, rest) ← readOwner ⟨none, none⟩ bs
  let rest ← Json.expect? 0x2c (Json.skipBlanks rest)
  let (m, rest) ← readBalance m rest
  let rest ← Json.expect? 0x5d (Json.skipBlanks rest)
  return (m, rest)

def ofBody? (body : Bytes) : Option Account := do
  let (m, rest) ← match Json.skipBlanks body with
    | 0x7b :: rest => readObject rest
    | 0x5b :: rest => readArray rest
    | _ => none
  if Json.skipBlanks rest ≠ [] then none
  let owner ← m.owner
  let balance ← m.balance
  return ⟨owner, balance⟩

end Account

end Provenance

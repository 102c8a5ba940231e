import Provenance.Key.Profile
import Provenance.Secret

/-!
# Counts, one for each pool

There is a pool for each key profile, for each size of secret, and for salts. `PoolSizes` holds one
number for each; it serves for targets and for fill levels.
-/

namespace Provenance

/-- What the text pools hold. -/
inductive TextKind
  | salt
  | secret (size : Secret.Size)
  deriving DecidableEq, Repr

def TextKind.all : List TextKind := [.salt, .secret .bits128, .secret .bits256]

structure PoolSizes where
  sign64 : Nat
  sign128 : Nat
  sign256 : Nat
  encrypt128 : Nat
  encrypt256 : Nat
  aes128 : Nat
  aes256 : Nat
  salt : Nat
  deriving DecidableEq

namespace PoolSizes

def none : PoolSizes := ⟨0, 0, 0, 0, 0, 0, 0, 0⟩

/-- The counts in the order of the fields, each with its field's name. -/
def toList (s : PoolSizes) : List (String × Nat) :=
  [("sign64", s.sign64), ("sign128", s.sign128), ("sign256", s.sign256),
    ("encrypt128", s.encrypt128), ("encrypt256", s.encrypt256),
    ("aes128", s.aes128), ("aes256", s.aes256), ("salt", s.salt)]

def ofKey (s : PoolSizes) : Profile → Nat
  | .sign64 => s.sign64
  | .sign128 => s.sign128
  | .sign256 => s.sign256
  | .encrypt128 => s.encrypt128
  | .encrypt256 => s.encrypt256

def ofText (s : PoolSizes) : TextKind → Nat
  | .salt => s.salt
  | .secret .bits128 => s.aes128
  | .secret .bits256 => s.aes256

def total (s : PoolSizes) : Nat := s.toList.foldr (fun e n => e.2 + n) 0

/-- Whether no count is above the matching one. -/
def within (s bound : PoolSizes) : Bool :=
  (List.zip s.toList bound.toList).all (fun p => p.1.2 ≤ p.2.2)

def debugText (s : PoolSizes) : String :=
  let fields := s.toList.map (fun f => f.1 ++ ": " ++ Numeral.encode f.2)
  "PoolSizes \x7b " ++ String.intercalate ", " fields ++ " \x7d"

end PoolSizes

end Provenance

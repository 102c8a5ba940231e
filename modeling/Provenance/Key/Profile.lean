import Provenance.Hash.Sha2

/-!
# Key profiles

A profile fixes what a key is for and how strong: its use, its level in bits, the tag byte in front
of its encoded keys, the hash it mixes in and the text that separates its signatures and derived keys
from those of every other profile. There are five. Main statement: a tag belongs to one profile
(`Profile.ofTag?_tag`).
-/

namespace Provenance

inductive KeyUse
  | sign
  | encrypt
  deriving DecidableEq, Repr

def KeyUse.name : KeyUse → String
  | .sign => "Sign"
  | .encrypt => "Encrypt"

/-! ## Hashes -/

inductive DigestKind
  | sha256
  | sha512
  deriving DecidableEq, Repr

/-- The hash of the concatenated parts. -/
def DigestKind.digest (kind : DigestKind) (parts : List Bytes) : Bytes :=
  match kind with
  | .sha256 => Provenance.sha256 parts.flatten
  | .sha512 => Provenance.sha512 parts.flatten

/-! ## Profiles -/

inductive Profile
  | sign64
  | sign128
  | sign256
  | encrypt128
  | encrypt256
  deriving DecidableEq, Repr

namespace Profile

def all : List Profile := [sign64, sign128, sign256, encrypt128, encrypt256]

def use : Profile → KeyUse
  | sign64 | sign128 | sign256 => .sign
  | encrypt128 | encrypt256 => .encrypt

def level : Profile → Nat
  | sign64 => 64
  | sign128 | encrypt128 => 128
  | sign256 | encrypt256 => 256

def tag : Profile → UInt8
  | sign64 => 0x40
  | sign128 => 0x41
  | sign256 => 0x42
  | encrypt128 => 0x50
  | encrypt256 => 0x51

def digestKind : Profile → DigestKind
  | sign64 | sign128 | encrypt128 => .sha256
  | sign256 | encrypt256 => .sha512

def domain : Profile → String
  | sign64 => "trustlog-sign-64-v0"
  | sign128 => "trustlog-sign-128-v0"
  | sign256 => "trustlog-sign-256-v0"
  | encrypt128 => "trustlog-encrypt-128-v0"
  | encrypt256 => "trustlog-encrypt-256-v0"

def ofTag? (tag : UInt8) : Option Profile := all.find? (fun p => p.tag = tag)

/-- The profile of a use at a level, if there is one. -/
def ofLevel? (use : KeyUse) (level : Nat) : Option Profile :=
  all.find? (fun p => p.use = use ∧ p.level = level)

theorem ofTag?_tag (p : Profile) : ofTag? p.tag = some p := by cases p <;> rfl

end Profile

end Provenance

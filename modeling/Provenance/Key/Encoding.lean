import Provenance.Key.Error

/-!
# Encoded keys

An encoded key is the tag of its profile and 32 bytes of curve material, for the public and the
secret half alike. `Profile.detect` recovers the profile of any 33 bytes that start with a known tag.
-/

namespace Provenance.Profile

def encode (p : Profile) (raw : Bytes) : Bytes := p.tag :: raw

/-- The curve material of an encoded key. -/
def rawKey (key : Bytes) : Bytes := key.drop 1

def detect (key : Bytes) : Except KeyError Profile :=
  if key.length = encodedKeySize then
    let tag := key.headD 0
    match ofTag? tag with
    | some p => .ok p
    | none => .error (.invalidKey (.unknownTag tag))
  else .error (.invalidKey (.size key.length))

/-- The profile of a key that must be for the given use. -/
def detectFor (key : Bytes) (use : KeyUse) : Except KeyError Profile := do
  let p ← detect key
  if p.use = use then return p else throw (.invalidKey (.otherUse p.use use))

/-- The profile of a use at a level. -/
def forLevel (use : KeyUse) (level : Nat) : Except KeyError Profile :=
  match ofLevel? use level with
  | some p => .ok p
  | none => .error (.unsupportedLevel level)

theorem detect_encode (p : Profile) (raw : Bytes) (h : raw.length = 32) :
    detect (p.encode raw) = .ok p := by
  simp [detect, encode, encodedKeySize, h, ofTag?_tag]

theorem rawKey_encode (p : Profile) (raw : Bytes) : rawKey (p.encode raw) = raw := rfl

end Provenance.Profile

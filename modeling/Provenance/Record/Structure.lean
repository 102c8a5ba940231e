import Provenance.Record.Basic

/-!
# Checks of a record's structure

Some records can be decoded but never be valid. These checks find them without any state of a chain.
The first flaw found is the one reported. Trust anchors pass: they are no writes.
-/

namespace Provenance

def digestSize : Nat := 32

def Attestation.check (a : Attestation) (h : Header) : Except Flaw Unit :=
  if h.signer.getD "" = "" then .error .missingSigner
  else if a.digest.length ≠ digestSize then .error .digestLength
  else if a.signature = [] then .error .missingSignature
  else if h.recipient = some "" then .error .missingRecipient
  else .ok ()

def Revision.checkStructure (r : Revision) : Except Flaw Unit :=
  if r.header.payloadType = "" then .error .missingPayloadType
  else if r.header.parent = some r.header.version then .error .selfParent
  else match r.attestation with
    | none => .ok ()
    | some a => a.check r.header

def PublicKey.checkStructure (k : PublicKey) : Except Flaw Unit :=
  match k.profile with
  | .error _ => .error .invalidPublicKey
  | .ok _ => if k.hashMatches then .ok () else .error .keyHashMismatch

def Castle.checkStructure (c : Castle) : Except Flaw Unit :=
  if c.id = none then .error .missingId
  else if c.lookup.isEmpty || c.lookup.values.any List.isEmpty then .error .emptyCastle
  else .ok ()

def Record.checkStructure : Record → Except Flaw Unit
  | .data r => r.checkStructure
  | .publicKey k => k.checkStructure
  | .castle c => c.checkStructure

end Provenance

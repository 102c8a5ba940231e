import Provenance.Key.Error

/-!
# Errors of records

Causes of failure when records are made, encoded or decoded, and the flaws that the checks of a
record's structure find. The wording of a flaw is the reason that a dropped record is reported with.
-/

namespace Provenance

inductive RecordError
  | unknownKind (tag : UInt8)
  | missingHeader
  | emptyRecord
  /-- A key that a body was to be sealed to is not an encryption key. -/
  | notEncryptionKey (name : String)
  /-- A holder of a castle is not an encryption key. -/
  | notHolderKey (name : String)
  | malformed
  | invalidPartition (text : String)
  | key (error : KeyError)
  deriving DecidableEq

def RecordError.message : RecordError → String
  | .unknownKind tag => "unhandled message type: " ++ Numeral.encode tag.toNat
  | .missingHeader => "missing header"
  | .emptyRecord => "empty record"
  | .notEncryptionKey name => "encoding error: key " ++ name ++ " is not an encryption key"
  | .notHolderKey name => "encoding error: castle holder " ++ name ++ " is not an encryption key"
  | .malformed => "decoding error"
  | .invalidPartition text => "decoding error: invalid partition key: " ++ text
  | .key error => error.message

inductive Flaw
  | missingPayloadType
  | missingSigner
  | missingSignature
  | digestLength
  | selfParent
  | missingRecipient
  | invalidPublicKey
  | keyHashMismatch
  | aliasTaken (name : String)
  | emptyCastle
  | missingId
  deriving DecidableEq

def Flaw.message : Flaw → String
  | .missingPayloadType => "missing payload type"
  | .missingSigner => "missing signing key hash"
  | .missingSignature => "missing signature"
  | .digestLength => "digest has the wrong length"
  | .selfParent => "revision cannot be its own parent"
  | .missingRecipient => "encrypted body without an encryption key hash"
  | .invalidPublicKey => "invalid public key"
  | .keyHashMismatch => "public key hash mismatch"
  | .aliasTaken name => "alias already bound to another key: " ++ name
  | .emptyCastle => "castle has no holders"
  | .missingId => "missing id"

end Provenance

import Provenance.Revision.Basic
import Provenance.Record.Error
import Provenance.Key.Signing

/-!
# Building revisions

A draft is a header and a body on the way to a signed revision. Setting a plain body clears the
recipient; sealing a body names the recipient and lets it read. Permissions only accumulate.
-/

namespace Provenance

structure Draft where
  header : Header
  body : Option Bytes
  deriving DecidableEq

namespace Draft

/-- A draft of a revision that permits nothing in particular; its version is fresh. -/
def new (id : ObjectId) (version : VersionId) (payloadType : String) : Draft :=
  ⟨Header.anchor id version payloadType, none⟩

/-! ## Steps -/

def setVersion (d : Draft) (version : VersionId) : Draft :=
  { d with header := { d.header with version := version } }

def setParent (d : Draft) (parent : VersionId) : Draft :=
  { d with header := { d.header with parent := some parent } }

def setImmutable (d : Draft) (immutable : Bool) : Draft :=
  { d with header := { d.header with immutable := immutable } }

def allowWriters (d : Draft) (names : List String) : Draft :=
  { d with header := { d.header with writers := d.header.writers.insertAll names } }

def allowReaders (d : Draft) (names : List String) : Draft :=
  { d with header := { d.header with readers := d.header.readers.insertAll names } }

/-- A body that anyone can read. -/
def setBody (d : Draft) (body : Bytes) : Draft :=
  { header := { d.header with recipient := none }, body := some body }

/-- A body sealed to an encryption key. -/
def sealBody (d : Draft) (key : PublicKey) (text : Bytes) (fresh : SealEntropy) :
    Except RecordError Draft :=
  if key.use? = some .encrypt then
    match Sealing.sealTo key.bytes text fresh with
    | .error e => .error (.key e)
    | .ok sealedText => .ok {
        header := { d.header with
          recipient := some key.hash
          readers := d.header.readers.insert key.hash }
        body := some sealedText }
  else .error (.notEncryptionKey key.displayName)

/-! ## Finishing -/

/-- A trust anchor: the header alone. -/
def toAnchor (d : Draft) : Revision := Revision.ofHeader d.header

def sign (d : Draft) (key : PrivateKey) : Except KeyError Revision := do
  let header := { d.header with signer := some key.hash }
  let digest := header.digest d.body
  let signature ← Signing.sign key.secretBytes digest
  return ⟨header, some ⟨digest, signature⟩, d.body⟩

end Draft

end Provenance

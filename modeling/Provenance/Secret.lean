import Provenance.Cipher.BlockMode
import Provenance.Cipher.Gcm
import Provenance.Hash.Md5
import Provenance.Entropy

/-!
# Shared secrets and what is done with them

Salted hashes; authenticated encryption under a key of 16 or 32 bytes (`Secret.encryptGcm`) and its
text form under a written secret (`Secret.encryptText`); the two unauthenticated modes, keyed by a
text (`Secret.encryptCbc`) or by raw bytes (`Secret.encryptRaw`); fresh secrets and salts. A start
text of any length is hashed down to the nonce or start block that a mode needs.
-/

namespace Provenance.Secret

/-! ## Salted hashes -/

def hashSha (salt : Option Bytes) (data : Bytes) : Bytes := sha256 (salt.getD [] ++ data)

def hashMd5 (salt : Option Bytes) (data : Bytes) : Bytes := md5 (salt.getD [] ++ data)

def hashShaText (salt : Option Bytes) (data : Bytes) : String := Base64Url.encode (hashSha salt data)

def hashMd5Text (salt : Option Bytes) (data : Bytes) : String := Base64Url.encode (hashMd5 salt data)

/-- The first bytes of the hash of a text. -/
def textHash (text : String) (size : Nat) : Bytes := (sha256 (Utf8.encode text)).take size

/-! ## Authenticated encryption -/

def isGcmKey (key : Bytes) : Bool := key.length = 16 || key.length = 32

def encryptGcm (key : Bytes) (start : String) (text : Bytes) : Except KeyError Bytes :=
  if isGcmKey key then
    match Gcm.lock? key (textHash start 12) text with
    | some locked => .ok locked
    | none => .error .encryption
  else .error (.invalidKey (.cipherSize "AES-GCM" key.length))

def decryptGcm (key : Bytes) (start : String) (locked : Bytes) : Except KeyError Bytes :=
  if isGcmKey key then
    match Gcm.open? key (textHash start 12) locked with
    | some text => .ok text
    | none => .error (.decryption .authentication)
  else .error (.invalidKey (.cipherSize "AES-GCM" key.length))

/-! ## Texts under a written secret -/

def readBase64 (text : String) : Except KeyError Bytes :=
  match Base64Url.decode? text with
  | some bs => .ok bs
  | none => .error .malformedText

/-- The key bytes of a written secret. -/
def decode (secret : String) : Except KeyError Bytes := readBase64 secret

def encryptText (secret start text : String) : Except KeyError String := do
  let key ← decode secret
  let locked ← encryptGcm key start (Utf8.encode text)
  return Base64Url.encode locked

def decryptText (secret start ciphertext : String) : Except KeyError String := do
  let key ← decode secret
  let locked ← readBase64 ciphertext
  let text ← decryptGcm key start locked
  match Utf8.decode? text with
  | some s => return s
  | none => throw .malformedText

/-! ## Unauthenticated modes -/

/-- Chained blocks under hashes of a key text and a start text; an absent start text counts as the
empty one. -/
def encryptCbc (key : String) (start : Option String) (text : Bytes) : String :=
  Base64Url.encode (Cbc.encrypt (textHash key 16) (textHash (start.getD "") 16) text)

def decryptCbc (key : String) (start : Option String) (ciphertext : String) :
    Except KeyError Bytes := do
  let bs ← readBase64 ciphertext
  match Cbc.decrypt? (textHash key 16) (textHash (start.getD "") 16) bs with
  | some text => return text
  | none => throw (.decryption (.blockPadding "CBC"))

def isAesKey (key : Bytes) : Bool := key.length = 16 || key.length = 24 || key.length = 32

def encryptRaw (key text : Bytes) : Except KeyError Bytes :=
  if isAesKey key then .ok (Ecb.encrypt key text)
  else .error (.invalidKey (.cipherSize "AES" key.length))

def decryptRaw (key ciphertext : Bytes) : Except KeyError Bytes :=
  if isAesKey key then
    match Ecb.decrypt? key ciphertext with
    | some text => .ok text
    | none => .error (.decryption (.blockPadding "AES"))
  else .error (.invalidKey (.cipherSize "AES" key.length))

/-! ## Fresh secrets and salts -/

inductive Size
  | bits128
  | bits256
  deriving DecidableEq, Repr

def Size.byteCount : Size → Nat
  | .bits128 => 16
  | .bits256 => 32

def Size.ofBits (bits : Nat) : Except KeyError Size :=
  match bits with
  | 128 => .ok .bits128
  | 256 => .ok .bits256
  | other => .error (.unsupportedLevel other)

/-- A fresh key in written form. -/
def generate (size : Size) (e : Entropy) : String × Entropy :=
  let (bs, e) := e.draw size.byteCount
  (Base64Url.encode bs, e)

def saltSize : Nat := 40

/-- A fresh salt: 320 bits in upper-case hexadecimal. -/
def generateSalt (e : Entropy) : String × Entropy :=
  let (bs, e) := e.draw saltSize
  (Hex.encodeUpper bs, e)

end Provenance.Secret

import Provenance.Proofs.Base64Text
import Provenance.Proofs.Codec
import Provenance.Proofs.Gcm
import Provenance.Secret

/-!
# Encryption under a shared secret

Authenticated encryption and its text form can be reversed, and a text has one ciphertext under a
given secret and start text (`Secret.encryption_reversible`). The text form writes the text as UTF-8
and the ciphertext in base64; both readings are strict, so that neither adds a second form.
-/

namespace Provenance

/-- Encryption of all that fits, and decryption that gives it back from its one ciphertext. -/
structure Reversible {Text Locked : Type} (encrypt : Text → Except KeyError Locked)
    (decrypt : Locked → Except KeyError Text) (fits : Text → Prop) : Prop where
  total : ∀ {text}, fits text → ∃ locked, encrypt text = .ok locked
  iff : ∀ {text locked}, encrypt text = .ok locked ↔ fits text ∧ decrypt locked = .ok text

namespace Secret

/-! ## Bytes -/

theorem length_textHash (text : String) {size : Nat} (h : size ≤ 32) :
    (textHash text size).length = size := by
  rw [textHash, List.length_take, length_sha256]
  exact Nat.min_eq_left h

theorem isGcmKey_iff {key : Bytes} : isGcmKey key = true ↔ key.length = 16 ∨ key.length = 32 := by
  simp [isGcmKey]

section

variable {key : Bytes} (h : isGcmKey key = true) (start : String)

include h

theorem encryptGcm_eq_ok_iff {text locked : Bytes} :
    encryptGcm key start text = .ok locked ↔
      Gcm.lock? key (textHash start 12) text = some locked := by
  rw [encryptGcm, if_pos h]
  cases Gcm.lock? key (textHash start 12) text <;> simp

theorem decryptGcm_eq_ok_iff {text locked : Bytes} :
    decryptGcm key start locked = .ok text ↔
      Gcm.open? key (textHash start 12) locked = some text := by
  rw [decryptGcm, if_pos h]
  cases Gcm.open? key (textHash start 12) locked <;> simp

theorem gcm_reversible :
    Reversible (encryptGcm key start) (decryptGcm key start) (fun text => text.length ≤ 2 ^ 36) where
  total := fun hfits =>
    ⟨_, (encryptGcm_eq_ok_iff h start).mpr (Gcm.lock?_eq_some_iff.mpr ⟨hfits, rfl⟩)⟩
  iff := by
    intro text locked
    rw [encryptGcm_eq_ok_iff h, decryptGcm_eq_ok_iff h,
      Gcm.lock?_iff_open? (isGcmKey_iff.mp h) (length_textHash start (by decide))]
    exact Iff.rfl

end

/-! ## Texts -/

theorem readBase64_eq_ok_iff {text : String} {bs : Bytes} :
    readBase64 text = .ok bs ↔ text = Base64Url.encode bs := by
  constructor
  · intro h
    unfold readBase64 at h
    split at h
    · rename_i bs' hread
      cases h
      exact (Base64Url.encode_of_decode? hread).symm
    · cases h
  · rintro rfl
    rw [readBase64, Base64Url.decode?_encode]

section

variable {secret : String} {key : Bytes} (h : decode secret = .ok key) (start : String)

include h

theorem encryptText_eq_ok_iff {text ciphertext : String} :
    encryptText secret start text = .ok ciphertext ↔
      ∃ locked, encryptGcm key start (Utf8.encode text) = .ok locked ∧
        ciphertext = Base64Url.encode locked := by
  simp only [encryptText, h, bind, Except.bind, pure, Except.pure]
  cases encryptGcm key start (Utf8.encode text) with
  | error error => simp
  | ok locked => simp [eq_comm]

theorem decryptText_eq_ok_iff {text ciphertext : String} :
    decryptText secret start ciphertext = .ok text ↔
      ∃ locked, decryptGcm key start locked = .ok (Utf8.encode text) ∧
        ciphertext = Base64Url.encode locked := by
  simp only [← readBase64_eq_ok_iff, decryptText, h, bind, Except.bind, pure, Except.pure]
  cases hread : readBase64 ciphertext with
  | error error => simp
  | ok locked =>
    cases hopen : decryptGcm key start locked with
    | error error => simp [hopen]
    | ok bs =>
      have htext : Utf8.decode? bs = some text ↔ bs = Utf8.encode text :=
        Utf8.decode?_eq_some_iff
      cases hutf : Utf8.decode? bs with
      | none =>
        rw [hutf] at htext
        simp [hopen, hutf, ← htext, throw, throwThe, MonadExceptOf.throw]
      | some s =>
        rw [hutf] at htext
        simp [hopen, hutf, ← htext]

theorem text_reversible (hkey : isGcmKey key = true) :
    Reversible (encryptText secret start) (decryptText secret start)
      (fun text => (Utf8.encode text).length ≤ 2 ^ 36) where
  total := by
    intro text hfits
    obtain ⟨locked, hlocked⟩ := (gcm_reversible hkey start).total hfits
    exact ⟨_, (encryptText_eq_ok_iff h start).mpr ⟨locked, hlocked, rfl⟩⟩
  iff := by
    intro text ciphertext
    simp only [encryptText_eq_ok_iff h, decryptText_eq_ok_iff h, (gcm_reversible hkey start).iff,
      and_assoc, exists_and_left]

end

/-! ## Keys of other lengths -/

section

variable {key : Bytes} (h : ¬ isGcmKey key = true) (start : String)

include h

theorem encryptGcm_refused (text : Bytes) : encryptGcm key start text =
    .error (.invalidKey (.cipherSize "AES-GCM" key.length)) := by
  rw [encryptGcm, if_neg h]

theorem decryptGcm_refused (locked : Bytes) : decryptGcm key start locked =
    .error (.invalidKey (.cipherSize "AES-GCM" key.length)) := by
  rw [decryptGcm, if_neg h]

variable {secret : String} (hkey : decode secret = .ok key)

include hkey

theorem encryptText_refused (text : String) : encryptText secret start text =
    .error (.invalidKey (.cipherSize "AES-GCM" key.length)) := by
  simp only [encryptText, hkey, bind, Except.bind, encryptGcm_refused h]

/-- A ciphertext that is no base64 is refused before the key is looked at. -/
theorem decryptText_refused (ciphertext : String) :
    ∃ error, decryptText secret start ciphertext = .error error := by
  simp only [decryptText, hkey, bind, Except.bind]
  cases readBase64 ciphertext with
  | error error => exact ⟨error, rfl⟩
  | ok locked =>
    exact ⟨.invalidKey (.cipherSize "AES-GCM" key.length), by simp only [decryptGcm_refused h]⟩

end

/-- **Encryption under a shared secret.** With a key of 16 or 32 bytes and any start text, every text
of up to 2³⁶ bytes is encrypted, and the ciphertexts that are decrypted to it are just the one that
encryption gives. The same holds of the text form under each secret that is written for such a key.
A key of any other length is refused on both sides. -/
theorem encryption_reversible :
    (∀ (key : Bytes) (start : String), key.length = 16 ∨ key.length = 32 →
      Reversible (encryptGcm key start) (decryptGcm key start)
        (fun text => text.length ≤ 2 ^ 36)) ∧
    (∀ (secret : String) (key : Bytes) (start : String), decode secret = .ok key →
      key.length = 16 ∨ key.length = 32 →
        Reversible (encryptText secret start) (decryptText secret start)
          (fun text => (Utf8.encode text).length ≤ 2 ^ 36)) ∧
    ∀ (key : Bytes) (start : String), ¬ (key.length = 16 ∨ key.length = 32) →
      let refusal := KeyError.invalidKey (.cipherSize "AES-GCM" key.length)
      (∀ text, encryptGcm key start text = .error refusal) ∧
      (∀ locked, decryptGcm key start locked = .error refusal) ∧
      ∀ secret, decode secret = .ok key →
        (∀ text, encryptText secret start text = .error refusal) ∧
        ∀ ciphertext, ∃ error, decryptText secret start ciphertext = .error error := by
  refine ⟨fun key start hsize => gcm_reversible (isGcmKey_iff.mpr hsize) start,
    fun secret key start hkey hsize => text_reversible hkey start (isGcmKey_iff.mpr hsize), ?_⟩
  intro key start hsize
  have hother : ¬ isGcmKey key = true := fun h => hsize (isGcmKey_iff.mp h)
  exact ⟨encryptGcm_refused hother start, decryptGcm_refused hother start, fun secret hkey =>
    ⟨encryptText_refused hother start hkey, decryptText_refused hother start hkey⟩⟩

/-- Under the secret of 16 zero bytes a text has one ciphertext, and no other is read as it. -/
theorem encryption_reversible_zero :
    let secret := Base64Url.encode (Bytes.zeros 16)
    ∃ ciphertext, encryptText secret "start" "text" = .ok ciphertext ∧
      ∀ other, decryptText secret "start" other = .ok "text" ↔ other = ciphertext := by
  intro secret
  have hkey : decode secret = .ok (Bytes.zeros 16) := readBase64_eq_ok_iff.mpr rfl
  have hfits : (Utf8.encode "text").length ≤ 2 ^ 36 := by decide
  have hreverse := encryption_reversible.2.1 secret _ "start" hkey (.inl rfl)
  obtain ⟨ciphertext, hciphertext⟩ := hreverse.total hfits
  refine ⟨ciphertext, hciphertext, fun other => ⟨fun hother => ?_, ?_⟩⟩
  · have hsame := hciphertext.symm.trans (hreverse.iff.mpr ⟨hfits, hother⟩)
    exact (Except.ok.inj hsame).symm
  · rintro rfl
    exact (hreverse.iff.mp hciphertext).2

end Secret

end Provenance

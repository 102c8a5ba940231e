import Mathlib.Tactic.Set
import Provenance.Key.Derivation
import Provenance.Proofs.KeyHashes
import Provenance.Proofs.KeyStream
import Provenance.Proofs.X25519

/-!
# What is sealed can be opened

* `ChaChaPoly.open?_lock?`: the cipher opens what it locked, under the same key and nonce;
* `Sealing.openSealed_sealTo`: the secret half of an encryption pair opens what was sealed to the
  public half.

Sealing finds the key of the cipher from the ephemeral secret and the recipient's public bytes,
opening from the ephemeral public bytes and the recipient's secret. Both need the same 32 bytes of
agreement, which is where `X25519.agree_comm` comes in.
-/

namespace Provenance

/-! ## The key stream -/

namespace ChaCha20

theorem applyBlocks_eq (key nonce : Bytes) (counter : Nat) (blocks : List Bytes) :
    applyBlocks key nonce counter blocks = Bytes.addStream (block key nonce) counter blocks := by
  induction blocks generalizing counter with
  | nil => rfl
  | cons b blocks ih => rw [applyBlocks, Bytes.addStream, ih]

theorem length_apply (key nonce : Bytes) (counter : Nat) (text : Bytes) :
    (apply key nonce counter text).length = text.length := by
  rw [apply, applyBlocks_eq]
  exact Bytes.length_addStream (length_block key nonce) (by decide) counter text

/-- The cipher is its own inverse. -/
theorem apply_apply (key nonce : Bytes) (counter : Nat) (text : Bytes) :
    apply key nonce counter (apply key nonce counter text) = text := by
  simp only [apply, applyBlocks_eq]
  exact Bytes.addStream_addStream (length_block key nonce) (by decide) counter text

end ChaCha20

/-! ## The authenticated cipher -/

namespace ChaChaPoly

theorem lock?_eq_some {key nonce text : Bytes} (h : fits text = true) :
    lock? key nonce text = some (ChaCha20.apply key nonce 1 text ++
      tagOf key nonce (ChaCha20.apply key nonce 1 text)) := by
  rw [lock?, if_pos h]

@[simp] theorem length_tagOf (key nonce ciphertext : Bytes) :
    (tagOf key nonce ciphertext).length = 16 := Poly1305.length_tag _ _

theorem length_lock? {key nonce text locked : Bytes} (h : lock? key nonce text = some locked) :
    locked.length = text.length + 16 := by
  unfold lock? at h
  split at h
  · cases h
    rw [List.length_append, ChaCha20.length_apply, length_tagOf]
  · cases h

/-- What the cipher locks it opens again. -/
theorem open?_lock? {key nonce text locked : Bytes} (h : lock? key nonce text = some locked) :
    open? key nonce locked = some text := by
  unfold lock? at h
  split at h
  · rename_i hfits
    cases h
    set ciphertext := ChaCha20.apply key nonce 1 text with hciphertext
    have hlength : ciphertext.length = text.length := ChaCha20.length_apply key nonce 1 text
    have hsize : (ciphertext ++ tagOf key nonce ciphertext).length - 16 = ciphertext.length := by
      simp
    have hfits' : fits ciphertext = true := by rw [fits, hlength]; exact hfits
    have htag : 16 ≤ (ciphertext ++ tagOf key nonce ciphertext).length := by simp
    simp only [open?, hsize, List.take_left, List.drop_left]
    rw [if_pos ⟨htag, hfits', trivial⟩, hciphertext, ChaCha20.apply_apply]
  · cases h

end ChaChaPoly

/-! ## Pairs for encryption -/

/-- The two halves of a key for encryption belong together: the public half is the public point of
the secret half. -/
structure PrivateKey.SealPair (k : PrivateKey) (p : Profile) (secret : Bytes) : Prop where
  publicHalf : k.publicKey.bytes = p.encode (X25519.publicPoint secret)
  secretHalf : k.secretBytes = p.encode secret
  size : secret.length = 32
  forEncryption : p.use = .encrypt

/-- Every secret of 32 bytes makes such a pair. -/
theorem PrivateKey.sealPair_ofSecret {p : Profile} (hp : p.use = .encrypt) {secret : Bytes}
    (h : secret.length = 32) : (ofSecret p secret).SealPair p secret where
  publicHalf := by
    rw [ofSecret, PublicKey.ofBytes, Profile.publicPoint, hp]
  secretHalf := rfl
  size := h
  forEncryption := hp

theorem PrivateKey.SealPair.use? {k : PrivateKey} {p : Profile} {secret : Bytes}
    (h : k.SealPair p secret) : k.publicKey.use? = some .encrypt := by
  have hdetect := Profile.detect_encode p _ (X25519.length_publicPoint secret)
  rw [← h.publicHalf] at hdetect
  exact PublicKey.use?_eq_some.mpr ⟨p, hdetect, h.forEncryption⟩

theorem Profile.detectFor_encode {p : Profile} {raw : Bytes} (h : raw.length = 32) :
    detectFor (p.encode raw) p.use = .ok p := by
  simp only [detectFor, detect_encode p raw h, bind, Except.bind, pure, Except.pure, if_true]

namespace Sealing

/-- What a sealed text consists of. -/
theorem sealTo_eq_ok {publicKey text sealedText : Bytes} {fresh : SealEntropy}
    (h : sealTo publicKey text fresh = .ok sealedText) :
    ∃ p locked, Profile.detectFor publicKey .encrypt = .ok p ∧
      ChaChaPoly.lock?
        (wrapKey p (X25519.agree fresh.ephemeral (Profile.rawKey publicKey))
          (X25519.publicPoint fresh.ephemeral) (Profile.rawKey publicKey)) fresh.nonce text =
        some locked ∧
      sealedText = X25519.publicPoint fresh.ephemeral ++ fresh.nonce ++ locked := by
  unfold sealTo at h
  simp only [bind, Except.bind] at h
  split at h
  · cases h
  · rename_i p hdetect
    split at h
    · rename_i locked hlock
      cases h
      exact ⟨p, locked, hdetect, hlock, rfl⟩
    · cases h

theorem sealTo_isOk {publicKey text : Bytes} {p : Profile} (fresh : SealEntropy)
    (hdetect : Profile.detectFor publicKey .encrypt = .ok p)
    (hfits : ChaChaPoly.fits text = true) :
    ∃ sealedText, sealTo publicKey text fresh = .ok sealedText := by
  unfold sealTo
  simp only [hdetect, bind, Except.bind, ChaChaPoly.lock?_eq_some hfits]
  exact ⟨_, rfl⟩

theorem length_sealTo {publicKey text sealedText : Bytes} {fresh : SealEntropy}
    (h : sealTo publicKey text fresh = .ok sealedText) :
    sealedText.length = overhead + text.length + 16 := by
  obtain ⟨p, locked, -, hlock, rfl⟩ := sealTo_eq_ok h
  have hlocked := ChaChaPoly.length_lock? hlock
  simp only [List.length_append, X25519.length_publicPoint, fresh.nonce_size, hlocked, overhead]
  omega

/-- The secret half of a pair opens what was sealed to the public half. -/
theorem openSealed_sealTo {k : PrivateKey} {p : Profile} {secret : Bytes} (hk : k.SealPair p secret)
    {text sealedText : Bytes} {fresh : SealEntropy}
    (h : sealTo k.publicKey.bytes text fresh = .ok sealedText) :
    openSealed k.secretBytes sealedText = .ok text := by
  have hlength := length_sealTo h
  obtain ⟨p', locked, hdetect, hlock, rfl⟩ := sealTo_eq_ok h
  have hpublic := Profile.detectFor_encode (p := p) (X25519.length_publicPoint secret)
  have hsecret := Profile.detectFor_encode (p := p) hk.size
  rw [hk.forEncryption] at hpublic hsecret
  rw [hk.publicHalf, hpublic] at hdetect
  obtain rfl : p = p' := Except.ok.inj hdetect
  rw [hk.publicHalf, Profile.rawKey_encode, X25519.agree_comm] at hlock
  have hlong :
      ¬ (X25519.publicPoint fresh.ephemeral ++ fresh.nonce ++ locked).length < overhead := by
    omega
  have hpoint : (X25519.publicPoint fresh.ephemeral).length = 32 := X25519.length_publicPoint _
  have hephemeral : (X25519.publicPoint fresh.ephemeral ++ fresh.nonce ++ locked).take 32 =
      X25519.publicPoint fresh.ephemeral := by
    rw [List.append_assoc, List.take_left' hpoint]
  have hnonce : ((X25519.publicPoint fresh.ephemeral ++ fresh.nonce ++ locked).drop 32).take 12 =
      fresh.nonce := by
    rw [List.append_assoc, List.drop_left' hpoint, List.take_left' fresh.nonce_size]
  have hlocked : (X25519.publicPoint fresh.ephemeral ++ fresh.nonce ++ locked).drop overhead =
      locked := by
    apply List.drop_left'
    rw [List.length_append, hpoint, fresh.nonce_size]
    rfl
  unfold openSealed
  rw [hk.secretHalf, hsecret]
  simp only [bind, Except.bind, if_neg hlong, Profile.rawKey_encode, hephemeral, hnonce, hlocked,
    ChaChaPoly.open?_lock? hlock]
  rfl

end Sealing

end Provenance

import Provenance.Key.Derivation

/-!
# Hashes of keys

* `Base64Url.decode?_encode`: the bytes behind a base64 text are read back from it;
* `sha256_eq_of_keyHash_eq`: two keys of one name have the same SHA-256, so that, barring a
  collision, a name stands for one key;
* `length_keyHash`: a key hash has 43 characters. It is no empty name and not the alias of the
  public writer.
-/

namespace Provenance

/-! ## Base64 -/

namespace Base64Url

theorem value?_symbol_all : ∀ n ∈ List.range 64, value? (symbol n) = some n := by
  decide

theorem value?_symbol {n : Nat} (h : n < 64) : value? (symbol n) = some n :=
  value?_symbol_all n (List.mem_range.mpr h)

/-- The numbers of the symbols that `encodeChars` writes. -/
def sextets : Bytes → List Nat
  | [] => []
  | [a] => [a.toNat / 4, a.toNat % 4 * 16]
  | [a, b] => [a.toNat / 4, a.toNat % 4 * 16 + b.toNat / 16, b.toNat % 16 * 4]
  | a :: b :: c :: rest =>
    a.toNat / 4 :: (a.toNat % 4 * 16 + b.toNat / 16) :: (b.toNat % 16 * 4 + c.toNat / 64) ::
      c.toNat % 64 :: sextets rest

theorem mapM_encodeChars (bs : Bytes) : (encodeChars bs).mapM value? = some (sextets bs) := by
  induction bs using encodeChars.induct with
  | case1 => rfl
  | case2 a =>
    have ha : a.toNat < 256 := a.toNat_lt
    have h1 := value?_symbol (show a.toNat / 4 < 64 by omega)
    have h2 := value?_symbol (show a.toNat % 4 * 16 < 64 by omega)
    simp [encodeChars, sextets, h1, h2]
  | case3 a b =>
    have ha : a.toNat < 256 := a.toNat_lt
    have hb : b.toNat < 256 := b.toNat_lt
    have h1 := value?_symbol (show a.toNat / 4 < 64 by omega)
    have h2 := value?_symbol (show a.toNat % 4 * 16 + b.toNat / 16 < 64 by omega)
    have h3 := value?_symbol (show b.toNat % 16 * 4 < 64 by omega)
    simp [encodeChars, sextets, h1, h2, h3]
  | case4 a b c rest ih =>
    have ha : a.toNat < 256 := a.toNat_lt
    have hb : b.toNat < 256 := b.toNat_lt
    have hc : c.toNat < 256 := c.toNat_lt
    have h1 := value?_symbol (show a.toNat / 4 < 64 by omega)
    have h2 := value?_symbol (show a.toNat % 4 * 16 + b.toNat / 16 < 64 by omega)
    have h3 := value?_symbol (show b.toNat % 16 * 4 + c.toNat / 64 < 64 by omega)
    have h4 := value?_symbol (show c.toNat % 64 < 64 by omega)
    simp [encodeChars, sextets, h1, h2, h3, h4, ih]

theorem decodeValues?_sextets (bs : Bytes) : decodeValues? (sextets bs) = some bs := by
  induction bs using sextets.induct with
  | case1 => rfl
  | case2 a =>
    have ha : a.toNat < 256 := a.toNat_lt
    have h0 : a.toNat % 4 * 16 % 16 = 0 := by omega
    have h1 : a.toNat / 4 * 4 + a.toNat % 4 * 16 / 16 = a.toNat := by omega
    simp only [sextets, decodeValues?, h0, h1, if_true, UInt8.ofNat_toNat]
  | case3 a b =>
    have ha : a.toNat < 256 := a.toNat_lt
    have hb : b.toNat < 256 := b.toNat_lt
    have h0 : b.toNat % 16 * 4 % 4 = 0 := by omega
    have h1 : a.toNat / 4 * 4 + (a.toNat % 4 * 16 + b.toNat / 16) / 16 = a.toNat := by omega
    have h2 : (a.toNat % 4 * 16 + b.toNat / 16) % 16 * 16 + b.toNat % 16 * 4 / 4 = b.toNat := by
      omega
    simp only [sextets, decodeValues?, h0, h1, h2, if_true, UInt8.ofNat_toNat]
  | case4 a b c rest ih =>
    have ha : a.toNat < 256 := a.toNat_lt
    have hb : b.toNat < 256 := b.toNat_lt
    have hc : c.toNat < 256 := c.toNat_lt
    have h1 : a.toNat / 4 * 4 + (a.toNat % 4 * 16 + b.toNat / 16) / 16 = a.toNat := by omega
    have h2 : (a.toNat % 4 * 16 + b.toNat / 16) % 16 * 16 +
        (b.toNat % 16 * 4 + c.toNat / 64) / 4 = b.toNat := by omega
    have h3 : (b.toNat % 16 * 4 + c.toNat / 64) % 4 * 64 + c.toNat % 64 = c.toNat := by omega
    simp only [sextets, decodeValues?, ih, Option.bind_eq_bind, Option.bind_some, h1, h2, h3,
      UInt8.ofNat_toNat]
    rfl

theorem decode?_encode (bs : Bytes) : decode? (encode bs) = some bs := by
  unfold decode? encode
  rw [String.toList_ofList, mapM_encodeChars]
  exact decodeValues?_sextets bs

theorem encode_injective {bs bs' : Bytes} (h : encode bs = encode bs') : bs = bs' :=
  Option.some.inj (by rw [← decode?_encode bs, ← decode?_encode bs', h])

theorem length_encodeChars (bs : Bytes) :
    (encodeChars bs).length = (4 * bs.length + 2) / 3 := by
  induction bs using encodeChars.induct with
  | case1 => rfl
  | case2 a => simp [encodeChars]
  | case3 a b => simp [encodeChars]
  | case4 a b c rest ih =>
    simp only [encodeChars, List.length_cons, ih]
    omega

theorem length_encode (bs : Bytes) : (encode bs).length = (4 * bs.length + 2) / 3 := by
  rw [encode, String.length_ofList, length_encodeChars]

end Base64Url

/-! ## Key hashes -/

theorem sha256_eq_of_keyHash_eq {bytes bytes' : Bytes} (h : keyHash bytes = keyHash bytes') :
    sha256 bytes = sha256 bytes' :=
  Base64Url.encode_injective h

@[simp] theorem length_keyHash (bytes : Bytes) : (keyHash bytes).length = 43 := by
  rw [keyHash, Base64Url.length_encode, length_sha256]

theorem keyHash_ne_empty (bytes : Bytes) : keyHash bytes ≠ "" := by
  intro h
  have hl := length_keyHash bytes
  rw [h] at hl
  exact absurd hl (by decide)

theorem keyHash_ne_seed (bytes : Bytes) : keyHash bytes ≠ Anchor.seed := by
  intro h
  have hl := length_keyHash bytes
  rw [h] at hl
  exact absurd hl (by decide)

/-! ## What a key carries -/

namespace PublicKey

theorem use?_eq_some {k : PublicKey} {use : KeyUse} :
    k.use? = some use ↔ ∃ p, Profile.detect k.bytes = .ok p ∧ p.use = use := by
  unfold use? profile
  cases Profile.detect k.bytes with
  | ok p => simp
  | error e => simp

/-- The bytes of a key are taken for the use that the key has. -/
theorem detectFor_of_use? {k : PublicKey} {use : KeyUse} (h : k.use? = some use) :
    ∃ p, Profile.detectFor k.bytes use = .ok p := by
  obtain ⟨p, hdetect, rfl⟩ := use?_eq_some.mp h
  refine ⟨p, ?_⟩
  simp only [Profile.detectFor, hdetect, bind, Except.bind, if_true]
  rfl

theorem hashMatches_iff {k : PublicKey} : k.hashMatches = true ↔ keyHash k.bytes = k.hash := by
  simp only [hashMatches, decide_eq_true_eq]

end PublicKey

end Provenance

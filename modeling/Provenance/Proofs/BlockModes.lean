import Provenance.Proofs.AesRounds
import Provenance.Proofs.SharedSecrets

/-!
# The two modes without authentication

A mode maps the blocks of a padded text to as many blocks, and back (`BlockMode`): one by one under
the block cipher, or each mixed with the ciphertext block before it. Padding tells its own length,
and a text that is padded to whole blocks is padded in one way (`Padding.unpad?_eq_some_iff`). So
whatever the mode, a ciphertext is decrypted to a text exactly if it is the one that the text is
encrypted to (`BlockMode.decrypt?_eq_some_iff`).

Main statement: `Secret.blockModes_reversible`.
-/

namespace Provenance

/-! ## Whole blocks -/

/-- All of these are blocks of the cipher. -/
def Whole (blocks : List Bytes) : Prop := ∀ b ∈ blocks, b.length = 16

namespace Bytes

theorem takeBlocks_flatten {size : Nat} {bs : List Bytes} (h : ∀ b ∈ bs, b.length = size) :
    takeBlocks size bs.length bs.flatten = bs := by
  induction bs with
  | nil => rfl
  | cons b bs ih =>
    obtain ⟨hb, hbs⟩ := List.forall_mem_cons.mp h
    rw [List.length_cons, List.flatten_cons, takeBlocks, List.take_left' hb, List.drop_left' hb,
      ih hbs]

/-- Blocks are cut where they were joined. -/
theorem blocks_flatten {bs : List Bytes} (h : Whole bs) : blocks 16 bs.flatten = bs := by
  rw [blocks_eq_takeBlocks (by decide) (length_flatten h), takeBlocks_flatten h]

theorem blocks_whole {text : Bytes} {count : Nat} (h : text.length = count * 16) :
    Whole (blocks 16 text) ∧ (blocks 16 text).length = count := by
  rw [blocks_eq_takeBlocks (by decide) h]
  exact ⟨length_of_mem_takeBlocks h, length_takeBlocks 16 count text⟩

end Bytes

theorem wholeBlocks?_eq_some_iff {text : Bytes} {blocks : List Bytes} :
    wholeBlocks? text = some blocks ↔ Whole blocks ∧ blocks ≠ [] ∧ text = blocks.flatten := by
  unfold wholeBlocks?
  constructor
  · intro h
    split at h
    · rename_i hwhole
      cases h
      obtain ⟨count, hcount⟩ := Nat.dvd_of_mod_eq_zero hwhole.1
      have hblocks := (Bytes.blocks_whole (hcount.trans (Nat.mul_comm ..))).1
      have hjoin := Bytes.flatten_blocks 16 (by decide) text
      refine ⟨hblocks, fun hnil => hwhole.2 ?_, hjoin.symm⟩
      rw [← hjoin, hnil, List.flatten_nil]
    · cases h
  · rintro ⟨hblocks, hne, rfl⟩
    have hlength := Bytes.length_flatten hblocks
    rw [if_pos, Bytes.blocks_flatten hblocks]
    refine ⟨by rw [hlength, Nat.mul_mod_left], fun hnil => hne ?_⟩
    rw [hnil, List.length_nil] at hlength
    exact List.length_eq_zero_iff.mp (by omega)

/-! ## Padding -/

namespace Padding

theorem length_pad (text : Bytes) : (pad text).length = (text.length / 16 + 1) * 16 := by
  simp only [pad, List.length_append, List.length_replicate]
  omega

/-- Of the texts of whole blocks, the padded ones lose their padding, and no others. -/
theorem unpad?_eq_some_iff {padded text : Bytes} (hwhole : padded.length % 16 = 0) :
    unpad? padded = some text ↔ padded = pad text := by
  constructor
  · intro h
    unfold unpad? at h
    split at h
    · cases h
    · rename_i last hlast
      simp only at h
      split at h
      · rename_i hchecks
        obtain ⟨hpos, hle, htail⟩ := hchecks
        cases h
        have hlength := congrArg List.length htail
        rw [List.length_drop, List.length_replicate] at hlength
        have hsize : 16 - (padded.take (padded.length - last.toNat)).length % 16 = last.toNat := by
          rw [List.length_take]
          omega
        rw [pad, hsize, UInt8.ofNat_toNat, ← htail, List.take_append_drop]
      · cases h
  · rintro rfl
    have hlast : (pad text).getLast? = some (UInt8.ofNat (16 - text.length % 16)) := by
      rw [pad, List.getLast?_append, List.getLast?_replicate, if_neg (by omega)]
      rfl
    have hnumber : (UInt8.ofNat (16 - text.length % 16)).toNat = 16 - text.length % 16 := by
      rw [UInt8.toNat_ofNat']
      omega
    have hsize : (pad text).length - (16 - text.length % 16) = text.length := by
      rw [length_pad]
      omega
    unfold unpad?
    rw [hlast]
    simp only [hnumber, hsize]
    rw [if_pos, pad, List.take_left]
    refine ⟨by omega, by omega, ?_⟩
    rw [pad, List.drop_left]

end Padding

/-! ## Modes -/

/-- Two functions of blocks that undo each other, the first of which keeps their number. -/
structure BlockMode (encrypt decrypt : List Bytes → List Bytes) : Prop where
  count_encrypt : ∀ bs, (encrypt bs).length = bs.length
  whole_encrypt : ∀ {bs}, Whole bs → Whole (encrypt bs)
  whole_decrypt : ∀ {bs}, Whole bs → Whole (decrypt bs)
  decrypt_encrypt : ∀ {bs}, Whole bs → decrypt (encrypt bs) = bs
  encrypt_decrypt : ∀ {bs}, Whole bs → encrypt (decrypt bs) = bs

namespace BlockMode

variable {encrypt decrypt : List Bytes → List Bytes} (mode : BlockMode encrypt decrypt)

include mode

/-- What is decrypted to a text is what the text is encrypted to. -/
theorem decrypt?_eq_some_iff {text ciphertext : Bytes} :
    (wholeBlocks? ciphertext).bind (fun bs => Padding.unpad? (decrypt bs).flatten) = some text ↔
      ciphertext = (encrypt (Bytes.blocks 16 (Padding.pad text))).flatten := by
  simp only [Option.bind_eq_some_iff, wholeBlocks?_eq_some_iff]
  constructor
  · rintro ⟨bs, ⟨hbs, -, rfl⟩, hunpad⟩
    have hwhole := mode.whole_decrypt hbs
    have hlength : (decrypt bs).flatten.length % 16 = 0 := by
      rw [Bytes.length_flatten hwhole, Nat.mul_mod_left]
    rw [Padding.unpad?_eq_some_iff hlength] at hunpad
    rw [← hunpad, Bytes.blocks_flatten hwhole, mode.encrypt_decrypt hbs]
  · rintro rfl
    obtain ⟨hblocks, hcount⟩ := Bytes.blocks_whole (Padding.length_pad text)
    refine ⟨_, ⟨mode.whole_encrypt hblocks, ?_, rfl⟩, ?_⟩
    · intro hnil
      have hlength := mode.count_encrypt (Bytes.blocks 16 (Padding.pad text))
      rw [hnil, hcount] at hlength
      cases hlength
    · rw [mode.decrypt_encrypt hblocks, Bytes.flatten_blocks 16 (by decide),
        Padding.unpad?_eq_some_iff (by rw [Padding.length_pad, Nat.mul_mod_left])]

theorem length_encrypt (text : Bytes) :
    (encrypt (Bytes.blocks 16 (Padding.pad text))).flatten.length =
      (text.length / 16 + 1) * 16 := by
  obtain ⟨hblocks, hcount⟩ := Bytes.blocks_whole (Padding.length_pad text)
  rw [Bytes.length_flatten (mode.whole_encrypt hblocks), mode.count_encrypt, hcount]

end BlockMode

section

variable {roundKeys : List Bytes} (hkeys : ∀ k ∈ roundKeys, k.length = 16)

include hkeys

theorem Ecb.blockMode : BlockMode (List.map (Aes.encrypt roundKeys))
    (List.map (Aes.decrypt roundKeys)) where
  count_encrypt _ := List.length_map _
  whole_encrypt hbs := List.forall_mem_map.mpr (fun b hb => Aes.length_encrypt hkeys (hbs b hb))
  whole_decrypt hbs := List.forall_mem_map.mpr (fun b hb => Aes.length_decrypt hkeys (hbs b hb))
  decrypt_encrypt {bs} hbs := by
    rw [List.map_map]
    exact (List.map_congr_left (fun b hb => Aes.decrypt_encrypt hkeys (hbs b hb))).trans
      (List.map_id bs)
  encrypt_decrypt {bs} hbs := by
    rw [List.map_map]
    exact (List.map_congr_left (fun b hb => Aes.encrypt_decrypt hkeys (hbs b hb))).trans
      (List.map_id bs)

namespace Cbc

omit hkeys in
theorem length_encryptBlocks (start : Bytes) (bs : List Bytes) :
    (encryptBlocks roundKeys start bs).length = bs.length := by
  induction bs generalizing start with
  | nil => rfl
  | cons b bs ih => rw [encryptBlocks, List.length_cons, ih, List.length_cons]

theorem encryptBlocks_spec {bs : List Bytes} (hbs : Whole bs) {start : Bytes}
    (hstart : start.length = 16) : Whole (encryptBlocks roundKeys start bs) ∧
      decryptBlocks roundKeys start (encryptBlocks roundKeys start bs) = bs := by
  induction bs generalizing start with
  | nil => exact ⟨hbs, rfl⟩
  | cons b bs ih =>
    obtain ⟨hb, hbs⟩ := List.forall_mem_cons.mp hbs
    have hmixed := Aes.length_xor_key hb hstart
    have hblock := Aes.length_encrypt hkeys hmixed
    obtain ⟨hwhole, hrest⟩ := ih hbs hblock
    refine ⟨List.forall_mem_cons.mpr ⟨hblock, hwhole⟩, ?_⟩
    rw [encryptBlocks, decryptBlocks, Aes.decrypt_encrypt hkeys hmixed,
      Aes.xor_key_xor_key hb hstart, hrest]

theorem decryptBlocks_spec {bs : List Bytes} (hbs : Whole bs) {start : Bytes}
    (hstart : start.length = 16) : Whole (decryptBlocks roundKeys start bs) ∧
      encryptBlocks roundKeys start (decryptBlocks roundKeys start bs) = bs := by
  induction bs generalizing start with
  | nil => exact ⟨hbs, rfl⟩
  | cons c bs ih =>
    obtain ⟨hc, hbs⟩ := List.forall_mem_cons.mp hbs
    have hblock := Aes.length_decrypt hkeys hc
    obtain ⟨hwhole, hrest⟩ := ih hbs hc
    refine ⟨List.forall_mem_cons.mpr ⟨Aes.length_xor_key hblock hstart, hwhole⟩, ?_⟩
    rw [decryptBlocks, encryptBlocks, Aes.xor_key_xor_key hblock hstart,
      Aes.encrypt_decrypt hkeys hc, hrest]

theorem blockMode {start : Bytes} (hstart : start.length = 16) :
    BlockMode (encryptBlocks roundKeys start) (decryptBlocks roundKeys start) where
  count_encrypt := length_encryptBlocks start
  whole_encrypt hbs := (encryptBlocks_spec hkeys hbs hstart).1
  whole_decrypt hbs := (decryptBlocks_spec hkeys hbs hstart).1
  decrypt_encrypt hbs := (encryptBlocks_spec hkeys hbs hstart).2
  encrypt_decrypt hbs := (decryptBlocks_spec hkeys hbs hstart).2

end Cbc

end

/-! ## Secrets -/

namespace Secret

/-- The keys of the block cipher. -/
theorem isAesKey_iff {key : Bytes} :
    isAesKey key = true ↔ key.length = 16 ∨ key.length = 24 ∨ key.length = 32 := by
  simp [isAesKey, or_assoc]

theorem length_of_mem_schedule {key : Bytes} (h : isAesKey key = true) :
    ∀ k ∈ Aes.schedule key, k.length = 16 := by
  rcases isAesKey_iff.mp h with h | h | h
  · exact Aes.length_of_mem_schedule (show 0 < 4 by decide) h
  · exact Aes.length_of_mem_schedule (show 0 < 6 by decide) h
  · exact Aes.length_of_mem_schedule (show 0 < 8 by decide) h

theorem decryptRaw_eq_ok_iff {key text ciphertext : Bytes} (h : isAesKey key = true) :
    decryptRaw key ciphertext = .ok text ↔ ciphertext = Ecb.encrypt key text := by
  have hmode : Ecb.decrypt? key ciphertext = some text ↔ ciphertext = Ecb.encrypt key text :=
    (Ecb.blockMode (length_of_mem_schedule h)).decrypt?_eq_some_iff
  rw [decryptRaw, if_pos h, ← hmode]
  cases Ecb.decrypt? key ciphertext <;> simp

theorem decryptCbc_eq_ok_iff {key ciphertext : String} {start : Option String} {text : Bytes} :
    decryptCbc key start ciphertext = .ok text ↔ ciphertext = encryptCbc key start text := by
  have hkey : isAesKey (textHash key 16) = true :=
    isAesKey_iff.mpr (.inl (length_textHash key (by decide)))
  have hmode : ∀ bs, Cbc.decrypt? (textHash key 16) (textHash (start.getD "") 16) bs = some text ↔
      bs = Cbc.encrypt (textHash key 16) (textHash (start.getD "") 16) text := fun bs =>
    (Cbc.blockMode (length_of_mem_schedule hkey)
      (length_textHash _ (by decide))).decrypt?_eq_some_iff
  rw [encryptCbc, ← readBase64_eq_ok_iff]
  simp only [decryptCbc, bind, Except.bind]
  cases readBase64 ciphertext with
  | error error => simp
  | ok bs =>
    simp only [Except.ok.injEq, ← hmode]
    cases Cbc.decrypt? (textHash key 16) (textHash (start.getD "") 16) bs <;>
      simp [throw, throwThe, MonadExceptOf.throw, pure, Except.pure]

/-- A ciphertext is a positive number of blocks, which are those of the padded text. -/
theorem encryptRaw_blocks {key : Bytes} (h : isAesKey key = true) (text : Bytes) :
    (Ecb.encrypt key text).length = (text.length / 16 + 1) * 16 ∧
      ((Bytes.blocks 16 (Ecb.encrypt key text)).map (Aes.decrypt (Aes.schedule key))).flatten =
        Padding.pad text := by
  have hmode := Ecb.blockMode (length_of_mem_schedule h)
  have hblocks := (Bytes.blocks_whole (Padding.length_pad text)).1
  refine ⟨hmode.length_encrypt text, ?_⟩
  rw [Ecb.encrypt, Bytes.blocks_flatten (hmode.whole_encrypt hblocks),
    hmode.decrypt_encrypt hblocks, Bytes.flatten_blocks 16 (by decide)]

/-- **The modes without authentication.** Under a key of 16, 24 or 32 bytes every text is encrypted
block by block, and it is decrypted from just the one ciphertext that encryption gives: a positive
number of blocks, behind which stand the text and bytes that each tell their number. With chained
blocks the same holds of the written ciphertexts, under every key text and start text, where an
absent start text counts as the empty one. -/
theorem blockModes_reversible :
    (∀ key : Bytes, key.length = 16 ∨ key.length = 24 ∨ key.length = 32 →
      Reversible (encryptRaw key) (decryptRaw key) (fun _ => True) ∧
      ∀ text ciphertext, decryptRaw key ciphertext = .ok text →
        ciphertext ≠ [] ∧ 16 ∣ ciphertext.length ∧ ∃ n, 1 ≤ n ∧ n ≤ 16 ∧
          ((Bytes.blocks 16 ciphertext).map (Aes.decrypt (Aes.schedule key))).flatten =
            text ++ List.replicate n (UInt8.ofNat n)) ∧
    (∀ (key : String) (start : Option String) (text : Bytes) (ciphertext : String),
      decryptCbc key start ciphertext = .ok text ↔ ciphertext = encryptCbc key start text) ∧
    ∀ key : String, encryptCbc key none = encryptCbc key (some "") ∧
      decryptCbc key none = decryptCbc key (some "") := by
  refine ⟨fun key hsize => ?_, fun _ _ _ _ => decryptCbc_eq_ok_iff, fun key => ⟨rfl, rfl⟩⟩
  have hkey := isAesKey_iff.mpr hsize
  have hencrypt : ∀ text, encryptRaw key text = .ok (Ecb.encrypt key text) := fun text => by
    rw [encryptRaw, if_pos hkey]
  refine ⟨⟨fun {text} _ => ⟨_, hencrypt text⟩, fun {text ciphertext} => ?_⟩, ?_⟩
  · rw [hencrypt, decryptRaw_eq_ok_iff hkey, Except.ok.injEq, eq_comm, true_and]
  · intro text ciphertext hdecrypt
    obtain rfl := (decryptRaw_eq_ok_iff hkey).mp hdecrypt
    obtain ⟨hlength, hblocks⟩ := encryptRaw_blocks hkey text
    refine ⟨?_, hlength ▸ Nat.dvd_mul_left 16 _, 16 - text.length % 16, by omega, by omega, hblocks⟩
    intro hnil
    rw [hnil, List.length_nil] at hlength
    omega

/-- Under a key of 24 zero bytes a text of one block takes whole blocks, and no others are read as
it. -/
theorem blockModes_reversible_zero :
    let key := Bytes.zeros 24
    let text := Bytes.zeros 16
    ∃ ciphertext, encryptRaw key text = .ok ciphertext ∧ 16 ∣ ciphertext.length ∧
      ∀ other, decryptRaw key other = .ok text ↔ other = ciphertext := by
  intro key text
  obtain ⟨hreverse, hpadding⟩ := blockModes_reversible.1 key (.inr (.inl rfl))
  obtain ⟨ciphertext, hciphertext⟩ := hreverse.total trivial
  have hdecrypt := (hreverse.iff.mp hciphertext).2
  refine ⟨ciphertext, hciphertext, (hpadding text ciphertext hdecrypt).2.1, fun other => ⟨?_, ?_⟩⟩
  · intro hother
    have hsame := hciphertext.symm.trans (hreverse.iff.mpr ⟨trivial, hother⟩)
    exact (Except.ok.inj hsame).symm
  · rintro rfl
    exact hdecrypt

end Secret

end Provenance

import Mathlib.Data.List.GetD
import Provenance.Cipher.Gcm
import Provenance.Proofs.KeyStream

/-!
# The authenticated cipher

Counter mode adds a key stream of AES blocks, so that locking and opening undo each other. For a
given key, nonce and text there is one ciphertext: it is cut where the text was, and the tag behind
it is determined by it.

* `Aes.length_encrypt`: AES has blocks of 16 bytes, under the round keys of any key of whole words;
* `Gcm.lock?_iff_open?`: a ciphertext is what the cipher makes of a text exactly if the cipher
  opens it to that text, which is not too long.
-/

namespace Provenance

namespace Aes

/-! ## Lengths of blocks -/

/-- Whole columns are mixed into as many columns. -/
theorem length_mixWith (p q r t : UInt8 → UInt8) {count : Nat} {s : Bytes}
    (h : s.length = 4 * count) : (mixWith p q r t s).length = 4 * count := by
  induction count generalizing s with
  | zero =>
    obtain rfl : s = [] := List.length_eq_zero_iff.mp h
    rfl
  | succ count ih =>
    match s, h with
    | a :: b :: c :: d :: rest, h =>
      have hrest : rest.length = 4 * count := by
        simp only [List.length_cons] at h
        omega
      simp only [mixWith, List.length_cons, ih hrest]
      omega

theorem length_shiftRows (s : Bytes) : (shiftRows s).length = 4 * 4 := rfl

/-- Every step of a round gives 16 bytes. -/
theorem length_encryptRounds {roundKeys : List Bytes} (hkeys : ∀ k ∈ roundKeys, k.length = 16)
    {s : Bytes} (h : s.length = 16) : (encryptRounds roundKeys s).length = 16 := by
  induction roundKeys, s using encryptRounds.induct with
  | case1 s => exact h
  | case2 k s =>
    rw [encryptRounds, Bytes.length_xor, length_shiftRows, hkeys k (List.mem_singleton_self k),
      Nat.min_self]
  | case3 k ks s hks ih =>
    rw [encryptRounds]
    · refine ih (fun k' hk' => hkeys k' (List.mem_cons_of_mem k hk')) ?_
      rw [Bytes.length_xor, mixColumns, length_mixWith _ _ _ _ (length_shiftRows _),
        hkeys k List.mem_cons_self, Nat.min_self]
    · exact hks

theorem length_encrypt {roundKeys : List Bytes} (hkeys : ∀ k ∈ roundKeys, k.length = 16)
    {s : Bytes} (h : s.length = 16) : (encrypt roundKeys s).length = 16 := by
  cases roundKeys with
  | nil => exact h
  | cons k ks =>
    refine length_encryptRounds (fun k' hk' => hkeys k' (List.mem_cons_of_mem k hk')) ?_
    rw [Bytes.length_xor, h, hkeys k List.mem_cons_self, Nat.min_self]

/-! ## The schedule -/

/-- From words of four bytes, as many as the key has at least, the next word has four bytes. -/
theorem length_nextWord {keyWords : Nat} (hpos : 0 < keyWords) (i : Nat) {words : List Bytes}
    (hwords : ∀ w ∈ words, w.length = 4) (hcount : keyWords ≤ words.length) :
    (nextWord keyWords i words).length = 4 := by
  have hlast : (words.headD []).length = 4 := by
    cases words with
    | nil => exact absurd hcount (Nat.not_le.mpr hpos)
    | cons w words => exact hwords w List.mem_cons_self
  have hbefore : (words.getD (keyWords - 1) []).length = 4 := by
    have hlt : keyWords - 1 < words.length := by omega
    rw [List.getD_eq_getElem _ _ hlt]
    exact hwords _ (List.getElem_mem hlt)
  have hsub : ∀ w : Bytes, (subBytes w).length = w.length := fun w => List.length_map _
  have hturned : ((words.headD []).drop 1 ++ (words.headD []).take 1).length = 4 := by
    rw [List.length_append, List.length_drop, List.length_take]
    omega
  rw [nextWord, Bytes.length_xor, hbefore]
  split
  · rw [Bytes.length_xor, hsub, hturned]
    rfl
  · split
    · rw [hsub, hlast, Nat.min_self]
    · rw [hlast, Nat.min_self]

theorem extendWords_words {keyWords : Nat} (hpos : 0 < keyWords) (count i : Nat)
    {words : List Bytes} (hwords : ∀ w ∈ words, w.length = 4) (hcount : keyWords ≤ words.length) :
    (extendWords keyWords count i words).length = words.length + count ∧
      ∀ w ∈ extendWords keyWords count i words, w.length = 4 := by
  induction count generalizing i words with
  | zero => exact ⟨rfl, hwords⟩
  | succ count ih =>
    have hnext := length_nextWord hpos i hwords hcount
    obtain ⟨hlength, hall⟩ := ih (i + 1) (List.forall_mem_cons.mpr ⟨hnext, hwords⟩)
      (Nat.le_succ_of_le hcount)
    refine ⟨?_, hall⟩
    rw [extendWords, hlength, List.length_cons]
    omega

/-- The round keys of a key of whole words have the size of a block. -/
theorem length_of_mem_schedule {key : Bytes} {keyWords : Nat} (hpos : 0 < keyWords)
    (h : key.length = keyWords * 4) : ∀ k ∈ schedule key, k.length = 16 := by
  have hkey : Bytes.blocks 4 key = Bytes.takeBlocks 4 keyWords key :=
    Bytes.blocks_eq_takeBlocks (by decide) h
  have hcount : (Bytes.blocks 4 key).reverse.length = keyWords := by
    rw [List.length_reverse, hkey, Bytes.length_takeBlocks]
  have hfirst : ∀ w ∈ (Bytes.blocks 4 key).reverse, w.length = 4 := fun w hw =>
    Bytes.length_of_mem_takeBlocks h w (hkey ▸ List.mem_reverse.mp hw)
  obtain ⟨hlength, hwords⟩ :=
    extendWords_words hpos (4 * (keyWords + 7) - keyWords) keyWords hfirst (Nat.le_of_eq hcount.symm)
  have hflat : (extendWords keyWords (4 * (keyWords + 7) - keyWords) keyWords
      (Bytes.blocks 4 key).reverse).reverse.flatten.length = (keyWords + 7) * 16 := by
    rw [Bytes.length_flatten (fun w hw => hwords w (List.mem_reverse.mp hw)), List.length_reverse,
      hlength, hcount]
    omega
  rw [schedule, h, Nat.mul_div_cancel _ (by decide), Bytes.blocks_eq_takeBlocks (by decide) hflat]
  exact Bytes.length_of_mem_takeBlocks hflat

end Aes

namespace Gcm

/-! ## What is locked and what is opened -/

theorem length_tagOf (roundKeys : List Bytes) (nonce ciphertext : Bytes) :
    (tagOf roundKeys nonce ciphertext).length = 16 := Bytes.length_ofNatBE ..

theorem lock?_eq_some_iff {key nonce text locked : Bytes} :
    lock? key nonce text = some locked ↔ text.length ≤ maxText ∧
      locked = apply (Aes.schedule key) nonce text ++
        tagOf (Aes.schedule key) nonce (apply (Aes.schedule key) nonce text) := by
  unfold lock?
  split
  · rename_i hfits
    exact ⟨fun h => ⟨hfits, (Option.some.inj h).symm⟩, fun h => congrArg some h.2.symm⟩
  · rename_i hlong
    exact ⟨fun h => (Option.some_ne_none _ h.symm).elim, fun h => absurd h.1 hlong⟩

theorem open?_eq_some_iff {key nonce text locked : Bytes} :
    open? key nonce locked = some text ↔
      ∃ ciphertext, locked = ciphertext ++ tagOf (Aes.schedule key) nonce ciphertext ∧
        ciphertext.length ≤ maxCiphertext ∧ text = apply (Aes.schedule key) nonce ciphertext := by
  constructor
  · intro h
    simp only [open?] at h
    split at h
    · rename_i hchecks
      obtain ⟨-, hfits, htag⟩ := hchecks
      refine ⟨locked.take (locked.length - 16), ?_, hfits, (Option.some.inj h).symm⟩
      rw [← htag, List.take_append_drop]
    · cases h
  · rintro ⟨ciphertext, rfl, hfits, rfl⟩
    have hlength : (ciphertext ++ tagOf (Aes.schedule key) nonce ciphertext).length =
        ciphertext.length + 16 := by
      rw [List.length_append, length_tagOf]
    simp only [open?, hlength, Nat.add_sub_cancel, List.take_left, List.drop_left]
    rw [if_pos ⟨Nat.le_add_left .., hfits, trivial⟩]

/-! ## Counter mode -/

theorem applyBlocks_eq (roundKeys : List Bytes) (nonce : Bytes) (number : Nat)
    (blocks : List Bytes) :
    applyBlocks roundKeys nonce number blocks =
      Bytes.addStream (fun n => Aes.encrypt roundKeys (counterBlock nonce n)) number blocks := by
  induction blocks generalizing number with
  | nil => rfl
  | cons b blocks ih => rw [applyBlocks, Bytes.addStream, ih]

section

variable {key nonce : Bytes} (hkey : key.length = 16 ∨ key.length = 32) (hnonce : nonce.length = 12)

include hkey hnonce

theorem length_stream (n : Nat) :
    (Aes.encrypt (Aes.schedule key) (counterBlock nonce n)).length = 16 := by
  have hcounter : (counterBlock nonce n).length = 16 := by
    rw [counterBlock, List.length_append, hnonce, Bytes.length_ofNatBE]
  have hround : ∀ k ∈ Aes.schedule key, k.length = 16 := by
    rcases hkey with h | h
    · exact Aes.length_of_mem_schedule (show 0 < 4 by decide) h
    · exact Aes.length_of_mem_schedule (show 0 < 8 by decide) h
  exact Aes.length_encrypt hround hcounter

theorem length_apply (text : Bytes) :
    (apply (Aes.schedule key) nonce text).length = text.length := by
  rw [apply, applyBlocks_eq]
  exact Bytes.length_addStream (length_stream hkey hnonce) (by decide) 2 text

/-- Counter mode is its own inverse. -/
theorem apply_apply (text : Bytes) :
    apply (Aes.schedule key) nonce (apply (Aes.schedule key) nonce text) = text := by
  simp only [apply, applyBlocks_eq]
  exact Bytes.addStream_addStream (length_stream hkey hnonce) (by decide) 2 text

/-- Locking is opening turned round. The bound is that of locking: opening still takes texts that
are up to 16 bytes longer. -/
theorem lock?_iff_open? {text locked : Bytes} :
    lock? key nonce text = some locked ↔
      text.length ≤ maxText ∧ open? key nonce locked = some text := by
  rw [lock?_eq_some_iff, open?_eq_some_iff]
  constructor
  · rintro ⟨hfits, rfl⟩
    refine ⟨hfits, _, rfl, ?_, (apply_apply hkey hnonce text).symm⟩
    rw [length_apply hkey hnonce]
    exact Nat.le_add_right_of_le hfits
  · rintro ⟨hfits, ciphertext, rfl, -, rfl⟩
    exact ⟨hfits, by rw [apply_apply hkey hnonce]⟩

end

end Gcm

end Provenance

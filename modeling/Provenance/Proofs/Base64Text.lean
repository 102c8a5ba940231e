import Provenance.Proofs.KeyHashes

/-!
# Base64 texts are strict

A text that is read stands for the bytes that were read, and it is the only one that does: it is
the text that writing gives for these bytes (`Base64Url.encode_of_decode?`). Reading refuses foreign
characters, so each character is the symbol of its value, and non-zero bits behind the last byte, so
each list of values is the one of some bytes.
-/

namespace Provenance.Base64Url

/-! ## Symbols and their values -/

theorem symbol_of_value?_all :
    ∀ i < 128, ∀ n ∈ value? (Char.ofNat i), n < 64 ∧ symbol n = Char.ofNat i := by
  decide +kernel

/-- All symbols are among the first 128 characters. -/
theorem toNat_lt_of_value? {c : Char} {n : Nat} (h : value? c = some n) : c.toNat < 128 := by
  have hrange : ∀ {lower upper : Char}, lower ≤ c ∧ c ≤ upper → c.toNat ≤ upper.toNat :=
    fun hc => hc.2
  unfold value? at h
  split at h
  · rename_i hc
    exact Nat.lt_of_le_of_lt (hrange hc) (by decide)
  split at h
  · rename_i hc
    exact Nat.lt_of_le_of_lt (hrange hc) (by decide)
  split at h
  · rename_i hc
    exact Nat.lt_of_le_of_lt (hrange hc) (by decide)
  split at h
  · rename_i hc
    rw [hc]
    decide
  split at h
  · rename_i hc
    rw [hc]
    decide
  · cases h

theorem symbol_of_value? {c : Char} {n : Nat} (h : value? c = some n) : n < 64 ∧ symbol n = c := by
  have hall := symbol_of_value?_all c.toNat (toNat_lt_of_value? h) n
  rw [Char.ofNat_toNat] at hall
  exact hall h

theorem symbols_of_values {cs : List Char} {values : List Nat} (h : cs.mapM value? = some values) :
    (∀ n ∈ values, n < 64) ∧ values.map symbol = cs := by
  induction cs generalizing values with
  | nil =>
    cases h
    exact ⟨fun n hn => absurd hn List.not_mem_nil, rfl⟩
  | cons c cs ih =>
    simp only [List.mapM_cons, Option.bind_eq_bind, Option.bind_eq_some_iff] at h
    obtain ⟨n, hn, rest, hrest, h⟩ := h
    cases h
    obtain ⟨hlt, hsymbol⟩ := symbol_of_value? hn
    obtain ⟨hall, hmap⟩ := ih hrest
    exact ⟨List.forall_mem_cons.mpr ⟨hlt, hall⟩, by rw [List.map_cons, hsymbol, hmap]⟩

/-! ## Values and bytes -/

theorem map_symbol_sextets (bs : Bytes) : (sextets bs).map symbol = encodeChars bs := by
  induction bs using encodeChars.induct with
  | case1 => rfl
  | case2 a => rfl
  | case3 a b => rfl
  | case4 a b c rest ih => simp only [sextets, List.map_cons, ih, encodeChars]

/-- The values that give some bytes are those of the bytes. -/
theorem sextets_of_decodeValues? {values : List Nat} {bs : Bytes} (hvalues : ∀ n ∈ values, n < 64)
    (h : decodeValues? values = some bs) : sextets bs = values := by
  induction values using decodeValues?.induct generalizing bs with
  | case1 =>
    cases h
    rfl
  | case2 w => cases h
  -- the bits that are checked to be zero are those that writing fills up with zeros
  | case3 w x hzero =>
    simp only [List.forall_mem_cons] at hvalues
    rw [decodeValues?, if_pos hzero] at h
    cases h
    simp only [sextets, UInt8.toNat_ofNat', List.cons.injEq, and_true]
    omega
  | case4 w x hzero =>
    rw [decodeValues?, if_neg hzero] at h
    cases h
  | case5 w x y hzero =>
    simp only [List.forall_mem_cons] at hvalues
    rw [decodeValues?, if_pos hzero] at h
    cases h
    simp only [sextets, UInt8.toNat_ofNat', List.cons.injEq, and_true]
    omega
  | case6 w x y hzero =>
    rw [decodeValues?, if_neg hzero] at h
    cases h
  | case7 w x y z rest ih =>
    simp only [List.forall_mem_cons] at hvalues
    simp only [decodeValues?, Option.bind_eq_bind, Option.bind_eq_some_iff] at h
    obtain ⟨bs', hrest, h⟩ := h
    cases h
    simp only [sextets, ih hvalues.2.2.2.2 hrest, UInt8.toNat_ofNat', List.cons.injEq, and_true]
    omega

/-- Only what is written for some bytes is read as these. -/
theorem encode_of_decode? {text : String} {bs : Bytes} (h : decode? text = some bs) :
    encode bs = text := by
  simp only [decode?, Option.bind_eq_bind, Option.bind_eq_some_iff] at h
  obtain ⟨values, hvalues, hbytes⟩ := h
  obtain ⟨hlt, hmap⟩ := symbols_of_values hvalues
  rw [encode, ← map_symbol_sextets, sextets_of_decodeValues? hlt hbytes, hmap, String.ofList_toList]

end Provenance.Base64Url

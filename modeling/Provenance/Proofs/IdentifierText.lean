import Provenance.Identifier

/-!
# The text of identifiers

* `Hex.decodeChars?_encodeWith`: bytes are read back from their hexadecimal digits;
* `Uuid.ofText?_text`: an identifier is read back from its text, so that a text stands for one
  identifier (`ObjectId.text_inj`);
* `Uuid.length_text`: the text has 36 characters.
-/

namespace Provenance

/-! ## Digits -/

namespace Hex

theorem digitValue?_lowerDigits_all :
    ∀ n ∈ List.range 16, digitValue? (lowerDigits.getD n '0') = some n := by
  decide

theorem digitValue?_lowerDigits {n : Nat} (h : n < 16) :
    digitValue? (lowerDigits.getD n '0') = some n :=
  digitValue?_lowerDigits_all n (List.mem_range.mpr h)

theorem decodeChars?_encodeWith (bs : Bytes) :
    decodeChars? (encodeWith lowerDigits bs) = some bs := by
  induction bs with
  | nil => rfl
  | cons b bs ih =>
    have hb : b.toNat < 256 := b.toNat_lt
    have hsplit : b.toNat / 16 * 16 + b.toNat % 16 = b.toNat := by omega
    simp only [encodeWith, decodeChars?, digitValue?_lowerDigits (show b.toNat / 16 < 16 by omega),
      digitValue?_lowerDigits (show b.toNat % 16 < 16 by omega), ih, Option.bind_eq_bind,
      Option.bind_some, hsplit, UInt8.ofNat_toNat]
    rfl

theorem encodeWith_append (digits : List Char) (bs bs' : Bytes) :
    encodeWith digits (bs ++ bs') = encodeWith digits bs ++ encodeWith digits bs' := by
  induction bs with
  | nil => rfl
  | cons b bs ih => simp only [List.cons_append, encodeWith, ih]

theorem lowerDigits_ne_hyphen_all : ∀ n ∈ List.range 16, lowerDigits.getD n '0' ≠ '-' := by
  decide

/-- Digits are no hyphens. -/
theorem filter_encodeWith (bs : Bytes) :
    (encodeWith lowerDigits bs).filter (fun c => c ≠ '-') = encodeWith lowerDigits bs := by
  induction bs with
  | nil => rfl
  | cons b bs ih =>
    have hb : b.toNat < 256 := b.toNat_lt
    have hhigh := lowerDigits_ne_hyphen_all (b.toNat / 16) (List.mem_range.mpr (by omega))
    have hlow := lowerDigits_ne_hyphen_all (b.toNat % 16) (List.mem_range.mpr (by omega))
    rw [encodeWith, List.filter_cons, List.filter_cons, ih]
    simp only [hhigh, hlow, ne_eq, not_false_eq_true, decide_true, if_true]

end Hex

/-! ## Identifiers -/

namespace Uuid

theorem toList_text (u : Uuid) : u.text.toList =
    Hex.encodeWith Hex.lowerDigits (u.bytes.take 4) ++ '-' ::
      Hex.encodeWith Hex.lowerDigits ((u.bytes.drop 4).take 2) ++ '-' ::
      Hex.encodeWith Hex.lowerDigits ((u.bytes.drop 6).take 2) ++ '-' ::
      Hex.encodeWith Hex.lowerDigits ((u.bytes.drop 8).take 2) ++ '-' ::
      Hex.encodeWith Hex.lowerDigits (u.bytes.drop 10) := by
  rw [text, String.toList_intercalate]
  simp [Hex.encode]

/-- The five parts of the text are the digits of all the bytes. -/
theorem parts_text (u : Uuid) : u.bytes.take 4 ++ ((u.bytes.drop 4).take 2 ++
    ((u.bytes.drop 6).take 2 ++ ((u.bytes.drop 8).take 2 ++ u.bytes.drop 10))) = u.bytes := by
  have hjoin : ∀ start size, (u.bytes.drop start).take size ++ u.bytes.drop (start + size) =
      u.bytes.drop start := by
    intro start size
    rw [← List.drop_drop, List.take_append_drop]
  rw [hjoin 8 2, hjoin 6 2, hjoin 4 2, List.take_append_drop]

/-- **The text of an identifier** is read back. -/
theorem ofText?_text (u : Uuid) : ofText? u.text = some u := by
  have hdigits : u.text.toList.filter (fun c => c ≠ '-') =
      Hex.encodeWith Hex.lowerDigits u.bytes := by
    have hhyphen : ∀ cs : List Char, ('-' :: cs).filter (fun c => c ≠ '-') =
        cs.filter (fun c => c ≠ '-') := fun _ => rfl
    rw [toList_text]
    simp only [List.append_assoc, List.cons_append, List.filter_append, hhyphen,
      Hex.filter_encodeWith]
    simp only [← Hex.encodeWith_append, parts_text]
  unfold ofText?
  rw [hdigits, Hex.decodeChars?_encodeWith]
  exact ofBytes?_bytes u

theorem length_text (u : Uuid) : u.text.length = 36 := by
  rw [← String.length_toList, toList_text]
  simp [Hex.length_encodeWith, u.size]

end Uuid

theorem ObjectId.text_inj {i j : ObjectId} : i.text = j.text ↔ i = j := by
  constructor
  · intro h
    have huuid : some i.uuid = some j.uuid := by
      rw [← i.uuid.ofText?_text, ← j.uuid.ofText?_text]
      exact congrArg Uuid.ofText? h
    cases i
    cases j
    exact congrArg ObjectId.mk (Option.some.inj huuid)
  · exact congrArg ObjectId.text

end Provenance

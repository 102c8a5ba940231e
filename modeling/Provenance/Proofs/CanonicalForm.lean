import Provenance.Revision.Header
import Provenance.Proofs.ItemRoundTrip

/-!
# The canonical form of headers

A digest covers the canonical bytes of a header and, right behind them, the bytes of a body. Nothing
marks where the one ends and the other begins.

* `Header.canonicalItem_injective`: the item of a header determines the header;
* `Header.read_canonicalBytes`: canonical bytes end by themselves, if all sizes in the header fit a
  CBOR head;
* `Header.digestInput_eq_iff`: what a digest covers determines the header and the bytes of the body.
  It does not tell an empty body from none.
-/

namespace Provenance

/-- Two byte strings share their SHA-256. -/
def Bytes.Collide (x y : Bytes) : Prop := x ≠ y ∧ sha256 x = sha256 y

/-! ## Parts of a header -/

theorem Uuid.eq_of_bytes {u v : Uuid} (h : u.bytes = v.bytes) : u = v := by
  cases u
  cases v
  simp only at h
  simp only [h]

theorem VersionId.eq_of_bytes {u v : VersionId} (h : u.uuid.bytes = v.uuid.bytes) : u = v :=
  congrArg VersionId.mk (Uuid.eq_of_bytes h)

namespace Item

theorem ofBytes_injective {bs bs' : Bytes} (h : ofBytes bs = ofBytes bs') : bs = bs' := by
  simp only [ofBytes, Item.bytes.injEq, Pieces.whole.injEq] at h
  exact h

theorem ofText_injective {s t : String} (h : ofText s = ofText t) : s = t := by
  simp only [ofText, Item.text.injEq, Pieces.whole.injEq] at h
  exact Utf8.encode_injective h

theorem ofBool_injective {b b' : Bool} (h : ofBool b = ofBool b') : b = b' := by
  cases b <;> cases b' <;> first | rfl | cases h

/-- An optional value is determined by its item, as no value is written as null. -/
theorem ofOption_injective {α : Type} {f : α → Item} (hf : ∀ x y, f x = f y → x = y)
    (hnull : ∀ x, f x ≠ null) {o o' : Option α} (h : ofOption f o = ofOption f o') : o = o' := by
  cases o with
  | none =>
    cases o' with
    | none => rfl
    | some y => exact absurd h.symm (hnull y)
  | some x =>
    cases o' with
    | none => exact absurd h (hnull x)
    | some y => exact congrArg some (hf x y h)

theorem ofOption_ofText_injective {o o' : Option String}
    (h : ofOption ofText o = ofOption ofText o') : o = o' :=
  ofOption_injective (fun _ _ => ofText_injective) (fun _ e => nomatch e) h

end Item

namespace Header

theorem nameSetItem_injective {s t : NameSet} (h : nameSetItem s = nameSetItem t) : s = t := by
  simp only [nameSetItem, Item.array.injEq] at h
  have hn : s.names = t.names := (List.map_inj_right (fun _ _ => Item.ofText_injective)).mp h
  cases s
  cases t
  simp only at hn
  simp only [hn]

/-! ## Headers -/

theorem canonicalItem_injective {h h' : Header} (e : h.canonicalItem = h'.canonicalItem) :
    h = h' := by
  simp only [canonicalItem, Item.map.injEq, List.cons.injEq, Prod.mk.injEq, true_and,
    and_true] at e
  obtain ⟨hid, hversion, hparent, htype, hsigner, hrecipient, hreaders, hwriters, himmutable⟩ := e
  obtain ⟨⟨id⟩, version, parent, payloadType, signer, recipient, readers, writers, immutable⟩ := h
  obtain ⟨⟨id'⟩, version', parent', payloadType', signer', recipient', readers', writers',
    immutable'⟩ := h'
  obtain rfl : id = id' := Uuid.eq_of_bytes (Item.ofBytes_injective hid)
  obtain rfl : version = version' := VersionId.eq_of_bytes (Item.ofBytes_injective hversion)
  obtain rfl : parent = parent' :=
    Item.ofOption_injective (fun _ _ h => VersionId.eq_of_bytes (Item.ofBytes_injective h))
      (fun _ e => nomatch e) hparent
  obtain rfl : payloadType = payloadType' := Item.ofText_injective htype
  obtain rfl : signer = signer' := Item.ofOption_ofText_injective hsigner
  obtain rfl : recipient = recipient' := Item.ofOption_ofText_injective hrecipient
  obtain rfl : readers = readers' := nameSetItem_injective hreaders
  obtain rfl : writers = writers' := nameSetItem_injective hwriters
  obtain rfl : immutable = immutable' := Item.ofBool_injective himmutable
  rfl

/-- Canonical bytes end by themselves: reading one item takes exactly them. -/
theorem read_canonicalBytes {h : Header} (hs : h.canonicalItem.isSized = true) (rest : Bytes) :
    Item.read (h.canonicalBytes ++ rest) = some (h.canonicalItem, rest) :=
  Item.read_encode hs rest

/-- The header and what stands behind it can be told apart. -/
theorem canonicalBytes_append_inj {h h' : Header} (hs : h.canonicalItem.isSized = true)
    (hs' : h'.canonicalItem.isSized = true) {x y : Bytes}
    (heq : h.canonicalBytes ++ x = h'.canonicalBytes ++ y) : h = h' ∧ x = y := by
  have hread := read_canonicalBytes hs x
  rw [heq, read_canonicalBytes hs' y, Option.some.injEq, Prod.mk.injEq] at hread
  exact ⟨canonicalItem_injective hread.1.symm, hread.2.symm⟩

/-- What a digest covers, in terms of the parts. -/
theorem digestInput_eq_iff {h h' : Header} (hs : h.canonicalItem.isSized = true)
    (hs' : h'.canonicalItem.isSized = true) (body body' : Option Bytes) :
    h.digestInput body = h'.digestInput body' ↔ h = h' ∧ body.getD [] = body'.getD [] := by
  constructor
  · exact canonicalBytes_append_inj hs hs'
  · rintro ⟨rfl, hb⟩
    rw [digestInput, digestInput, hb]

end Header

end Provenance

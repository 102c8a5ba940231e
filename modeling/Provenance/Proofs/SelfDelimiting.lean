import Provenance.Proofs.CanonicalForm
import Provenance.Proofs.Codec

/-!
# Headers end by themselves

Canonical bytes say where they end: whatever stands behind them, the header and the rest can be told
apart. Main statement `Header.canonicalBytes_selfDelimiting`, for all headers whose texts and sets
have sizes of 64 bits (`Header.Sized`).

The proof reads one item from the bytes (`Header.read_canonicalBytes`) and gets the item of the
header back, which determines the header.
-/

namespace Provenance.Header

/-- Every length in the canonical item of a sized header fits a CBOR head. -/
theorem Sized.canonicalItem {h : Header} (hs : h.Sized) : h.canonicalItem.isSized = true := by
  have hentry : ∀ (key : Nat) (value : Item), key < 9 → value.isSized = true →
      (Item.unsigned key).isSized = true ∧ value.isSized = true := by
    intro key value hkey hvalue
    refine ⟨?_, hvalue⟩
    rw [Item.isSized, decide_eq_true_eq]
    omega
  apply Item.isSized_map (by show 9 < 2 ^ 64; decide)
  simp only [List.forall_mem_cons, List.not_mem_nil, false_implies, implies_true, and_true]
  exact ⟨hentry 0 _ (by decide) (Item.isSized_ofUuid _),
    hentry 1 _ (by decide) (Item.isSized_ofUuid _),
    hentry 2 _ (by decide) (Item.isSized_ofOption (fun v _ => Item.isSized_ofUuid v.uuid)),
    hentry 3 _ (by decide) (Item.isSized_ofText hs.payloadType),
    hentry 4 _ (by decide)
      (Item.isSized_ofOption (fun s h => Item.isSized_ofText (hs.signer s h))),
    hentry 5 _ (by decide)
      (Item.isSized_ofOption (fun s h => Item.isSized_ofText (hs.recipient s h))),
    hentry 6 _ (by decide) (Item.isSized_nameSetItem hs.readers),
    hentry 7 _ (by decide) (Item.isSized_nameSetItem hs.writers),
    hentry 8 _ (by decide) (Item.isSized_ofBool _)⟩

/-- **Headers end by themselves.** Two headers and what stands behind them can only make the same
bytes if both are the same. So a digest input determines the header and the bytes of the body: none
of them is read as a part of the other. -/
theorem canonicalBytes_selfDelimiting {h h' : Header} (hs : h.Sized) (hs' : h'.Sized) :
    (∀ x y, h.canonicalBytes ++ x = h'.canonicalBytes ++ y → h = h' ∧ x = y) ∧
      ∀ body body', h.digestInput body = h'.digestInput body' →
        h = h' ∧ body.getD [] = body'.getD [] :=
  ⟨fun _ _ => canonicalBytes_append_inj hs.canonicalItem hs'.canonicalItem,
    fun body body' => (digestInput_eq_iff hs.canonicalItem hs'.canonicalItem body body').mp⟩

/-- Two headers that differ in whether there is a signer, with a text of 256 characters. -/
def unsignedHeader : Header :=
  .anchor ⟨.replicate 1⟩ ⟨.replicate 2⟩ (String.ofList (List.replicate 256 'a'))

def namelessHeader : Header := { unsignedHeader with signer := some "" }

theorem sized_unsignedHeader : unsignedHeader.Sized where
  payloadType := by
    have hlength : (Utf8.encode unsignedHeader.payloadType).length = 256 := by decide +kernel
    omega
  signer := fun _ hs => nomatch hs
  recipient := fun _ hs => nomatch hs
  readers := NameSet.sized_empty
  writers := NameSet.sized_empty

theorem sized_namelessHeader : namelessHeader.Sized :=
  { sized_unsignedHeader with
    signer := by
      rintro s hs
      cases hs
      decide }

/-- No body makes up for the difference. -/
theorem namelessHeader_distinguished :
    (∀ x y, unsignedHeader.canonicalBytes ++ x ≠ namelessHeader.canonicalBytes ++ y) ∧
      ∀ body body', unsignedHeader.digestInput body ≠ namelessHeader.digestInput body' := by
  have hne : unsignedHeader ≠ namelessHeader := by
    intro h
    have hsigner : unsignedHeader.signer = namelessHeader.signer := by rw [← h]
    cases hsigner
  obtain ⟨hbytes, hinput⟩ := canonicalBytes_selfDelimiting sized_unsignedHeader sized_namelessHeader
  exact ⟨fun x y h => hne (hbytes x y h).1, fun body body' h => hne (hinput body body' h).1⟩

end Provenance.Header

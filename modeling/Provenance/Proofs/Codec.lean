import Provenance.Proofs.ItemExtent
import Provenance.Proofs.KeyHashes
import Provenance.Proofs.RecordRoundTrip

/-!
# Records on the wire

A record is `Sized` if all lengths in it are numbers of 64 bits, so that a CBOR head can announce
them. Every sized record can be read back (`Record.decode_encode`), and every record that was read
is sized (`Record.sized_of_decode`), unless its bytes are themselves too many.

Main statement `Record.codec`: reading undoes writing, whatever follows; no record is written as the
beginning of another one; and whatever spelling a record was read from, it is written in one that
does not change any more.
-/

namespace Provenance

/-! ## Lengths -/

def NameSet.Sized (s : NameSet) : Prop :=
  s.names.length < 2 ^ 64 ∧ ∀ name ∈ s, (Utf8.encode name).length < 2 ^ 64

structure Header.Sized (h : Header) : Prop where
  payloadType : (Utf8.encode h.payloadType).length < 2 ^ 64
  signer : ∀ s ∈ h.signer, (Utf8.encode s).length < 2 ^ 64
  recipient : ∀ s ∈ h.recipient, (Utf8.encode s).length < 2 ^ 64
  readers : h.readers.Sized
  writers : h.writers.Sized

structure Attestation.Sized (a : Attestation) : Prop where
  digest : a.digest.length < 2 ^ 64
  signature : a.signature.length < 2 ^ 64

structure Revision.Sized (r : Revision) : Prop where
  header : r.header.Sized
  attestation : ∀ a ∈ r.attestation, a.Sized
  body : ∀ b ∈ r.body, b.length < 2 ^ 64

structure PublicKey.Sized (k : PublicKey) : Prop where
  bytes : k.bytes.length < 2 ^ 64
  hash : (Utf8.encode k.hash).length < 2 ^ 64
  label : ∀ s ∈ k.label, (Utf8.encode s).length < 2 ^ 64

structure Castle.Sized (c : Castle) : Prop where
  count : c.lookup.entries.length < 2 ^ 64
  entries : ∀ e ∈ c.lookup.entries, (Utf8.encode e.1).length < 2 ^ 64 ∧ e.2.length < 2 ^ 64

def Record.Sized : Record → Prop
  | .data r => r.Sized
  | .publicKey k => k.Sized
  | .castle c => c.Sized

theorem Utf8.length_encode_le (s : String) : (encode s).length ≤ 4 * s.length := by
  have hchars : ∀ cs : List Char, (cs.flatMap String.utf8EncodeChar).length ≤ 4 * cs.length := by
    intro cs
    induction cs with
    | nil => exact Nat.le_refl 0
    | cons c cs ih =>
      have hc : (String.utf8EncodeChar c).length ≤ 4 := by
        rw [String.length_utf8EncodeChar]
        exact c.utf8Size_le_four
      rw [List.flatMap_cons, List.length_append, List.length_cons]
      omega
  have hencode : encode s = s.toList.flatMap String.utf8EncodeChar := by
    have hbytes : s.toUTF8 = s.toList.utf8Encode := by simp [String.toUTF8]
    rw [encode, hbytes, List.utf8Encode, List.toList_data_toByteArray]
  rw [hencode, ← String.length_toList]
  exact hchars s.toList

theorem length_encode_keyHash_lt (bytes : Bytes) :
    (Utf8.encode (keyHash bytes)).length < 2 ^ 64 := by
  have h := Utf8.length_encode_le (keyHash bytes)
  rw [length_keyHash] at h
  omega

theorem NameSet.sized_singleton {name : String} (h : (Utf8.encode name).length < 2 ^ 64) :
    (ofList [name]).Sized := by
  refine ⟨?_, fun other hother => ?_⟩
  · have hcount := length_ofList_le [name]
    simp only [List.length_singleton] at hcount
    omega
  · rw [mem_ofList, List.mem_singleton] at hother
    rw [hother]
    exact h

/-! ## The items of sized records -/

namespace Item

theorem isSized_ofText {s : String} (h : (Utf8.encode s).length < 2 ^ 64) :
    (ofText s).isSized = true := by
  simp only [ofText, isSized, Pieces.isSized, h, decide_true]

theorem isSized_ofBytes {bs : Bytes} (h : bs.length < 2 ^ 64) : (ofBytes bs).isSized = true := by
  simp only [ofBytes, isSized, Pieces.isSized, h, decide_true]

theorem isSized_ofUuid (u : Uuid) : (ofBytes u.bytes).isSized = true := by
  apply isSized_ofBytes
  rw [u.size]
  decide

theorem isSized_ofBool (b : Bool) : (ofBool b).isSized = true := by
  cases b <;> decide

theorem isSized_ofOption {α : Type} {f : α → Item} {o : Option α}
    (h : ∀ x ∈ o, (f x).isSized = true) : (ofOption f o).isSized = true := by
  cases o with
  | none => rfl
  | some x => exact h x rfl

theorem isSized_array {items : List Item} (hcount : items.length < 2 ^ 64)
    (h : ∀ item ∈ items, item.isSized = true) : (array items).isSized = true := by
  have hall : allSized items = true := by
    clear hcount
    induction items with
    | nil => rfl
    | cons item items ih =>
      rw [allSized, h item (List.mem_cons_self ..), Bool.true_and]
      exact ih (fun x hx => h x (List.mem_cons_of_mem item hx))
  simp only [isSized, hcount, decide_true, hall, Bool.and_self]

theorem isSized_map {entries : List (Item × Item)} (hcount : entries.length < 2 ^ 64)
    (h : ∀ e ∈ entries, e.1.isSized = true ∧ e.2.isSized = true) :
    (map entries).isSized = true := by
  have hall : entriesSized entries = true := by
    clear hcount
    induction entries with
    | nil => rfl
    | cons e entries ih =>
      obtain ⟨hkey, hvalue⟩ := h e (List.mem_cons_self ..)
      rw [entriesSized, hkey, hvalue, Bool.true_and, Bool.true_and]
      exact ih (fun x hx => h x (List.mem_cons_of_mem e hx))
  simp only [isSized, hcount, decide_true, hall, Bool.and_self]

theorem isSized_ofFields (known : List String) {fields : List (String × Item)}
    (hnames : fields.map (fun f => f.1) = known) (hcount : known.length < 2 ^ 64)
    (hshort : ∀ name ∈ known, (Utf8.encode name).length ≤ maxFieldName)
    (h : ∀ f ∈ fields, f.2.isSized = true) : (ofFields fields).isSized = true := by
  subst hnames
  rw [List.length_map] at hcount
  apply isSized_map
  · rw [List.length_map]
    exact hcount
  · intro e he
    obtain ⟨f, hf, rfl⟩ := List.mem_map.mp he
    have hname := hshort f.1 (List.mem_map_of_mem hf)
    have hlong : maxFieldName < 2 ^ 64 := by decide
    exact ⟨isSized_ofText (by omega), h f hf⟩

theorem isSized_nameSetItem {s : NameSet} (h : s.Sized) :
    (Header.nameSetItem s).isSized = true := by
  apply isSized_array
  · rw [List.length_map]
    exact h.1
  · intro item hitem
    obtain ⟨name, hname, rfl⟩ := List.mem_map.mp hitem
    exact isSized_ofText (h.2 name hname)

end Item

theorem Header.Sized.toItem {h : Header} (hs : h.Sized) : h.toItem.isSized = true := by
  apply Item.isSized_ofFields fieldNames rfl (by decide)
  · intro name hn
    apply length_fieldName_le
    simp [hn]
  · simp only [List.forall_mem_cons, List.not_mem_nil, false_implies, implies_true, and_true]
    exact ⟨Item.isSized_ofUuid _, Item.isSized_ofUuid _,
      Item.isSized_ofOption (fun v _ => Item.isSized_ofUuid v.uuid),
      Item.isSized_ofText hs.payloadType,
      Item.isSized_ofOption (fun s h => Item.isSized_ofText (hs.signer s h)),
      Item.isSized_ofOption (fun s h => Item.isSized_ofText (hs.recipient s h)),
      Item.isSized_nameSetItem hs.readers, Item.isSized_nameSetItem hs.writers,
      Item.isSized_ofBool _⟩

theorem Attestation.Sized.toItem {a : Attestation} (hs : a.Sized) : a.toItem.isSized = true := by
  apply Item.isSized_ofFields fieldNames rfl (by decide)
  · intro name hn
    apply length_fieldName_le
    simp [hn]
  · simp only [List.forall_mem_cons, List.not_mem_nil, false_implies, implies_true, and_true]
    exact ⟨Item.isSized_ofBytes hs.digest, Item.isSized_ofBytes hs.signature⟩

theorem Revision.Sized.toItem {r : Revision} (hs : r.Sized) : r.toItem.isSized = true := by
  apply Item.isSized_ofFields fieldNames rfl (by decide)
  · intro name hn
    apply length_fieldName_le
    simp [hn]
  · simp only [List.forall_mem_cons, List.not_mem_nil, false_implies, implies_true, and_true]
    exact ⟨hs.header.toItem, Item.isSized_ofOption (fun a h => (hs.attestation a h).toItem),
      Item.isSized_ofOption (fun b h => Item.isSized_ofBytes (hs.body b h))⟩

theorem PublicKey.Sized.toItem {k : PublicKey} (hs : k.Sized) : k.toItem.isSized = true := by
  apply Item.isSized_ofFields fieldNames rfl (by decide)
  · intro name hn
    apply length_fieldName_le
    simp [hn]
  · simp only [List.forall_mem_cons, List.not_mem_nil, false_implies, implies_true, and_true]
    refine ⟨Item.isSized_array ?_ ?_, Item.isSized_ofText hs.hash,
      Item.isSized_ofOption (fun s h => Item.isSized_ofText (hs.label s h))⟩
    · rw [List.length_map]
      exact hs.bytes
    · intro item hitem
      obtain ⟨b, -, rfl⟩ := List.mem_map.mp hitem
      have hb := b.toNat_lt
      simp only [Item.isSized, decide_eq_true_eq]
      omega

theorem Castle.Sized.toItem {c : Castle} (hs : c.Sized) : c.toItem.isSized = true := by
  apply Item.isSized_ofFields ["id", "lookup"] rfl (by decide)
  · intro name hn
    apply length_fieldName_le
    exact List.mem_append_right _ (List.mem_append_left ["key"] hn)
  · simp only [List.forall_mem_cons, List.not_mem_nil, false_implies, implies_true, and_true]
    refine ⟨Item.isSized_ofOption (fun i _ => Item.isSized_ofUuid i.uuid),
      Item.isSized_map ?_ ?_⟩
    · rw [List.length_map]
      exact hs.count
    · intro e he
      obtain ⟨entry, hentry, rfl⟩ := List.mem_map.mp he
      obtain ⟨hname, hvalue⟩ := hs.entries entry hentry
      exact ⟨Item.isSized_ofText hname, Item.isSized_ofBytes hvalue⟩

theorem Record.Sized.toItem {r : Record} (hs : r.Sized) : r.toItem.isSized = true := by
  cases r with
  | data r => exact Revision.Sized.toItem hs
  | publicKey k =>
    apply Item.isSized_ofFields ["key"] rfl (by decide)
    · intro name hn
      apply length_fieldName_le
      exact List.mem_append_right _ (List.mem_append_right ["id", "lookup"] hn)
    · simp only [List.forall_mem_cons, List.not_mem_nil, false_implies, implies_true, and_true]
      exact PublicKey.Sized.toItem hs
  | castle c => exact Castle.Sized.toItem hs

/-! ## What was read -/

theorem Utf8.encode_of_decode? {bs : Bytes} {s : String} (h : decode? bs = some s) :
    encode s = bs := by
  unfold decode? String.fromUTF8? at h
  split at h
  · cases h
    simp [encode, String.fromUTF8, String.toUTF8]
  · cases h

theorem Utf8.decode?_eq_some_iff {bs : Bytes} {s : String} :
    decode? bs = some s ↔ bs = encode s := by
  constructor
  · exact fun h => (encode_of_decode? h).symm
  · rintro rfl
    exact decode?_encode s

theorem Utf8.encode_join {parts : List Bytes} {texts : List String}
    (h : parts.mapM decode? = some texts) : encode (String.join texts) = parts.flatten := by
  induction parts generalizing texts with
  | nil =>
    cases h
    rfl
  | cons part parts ih =>
    simp only [List.mapM_cons, Option.bind_eq_bind, Option.bind_eq_some_iff] at h
    obtain ⟨text, htext, texts', htexts, h⟩ := h
    cases h
    have happend : ∀ s t : String, encode (s ++ t) = encode s ++ encode t := by
      intro s t
      simp [encode]
    rw [String.join_cons, happend, ih htexts, encode_of_decode? htext, List.flatten_cons]

/-- Reading each item of a list gives as many values, each of them from one of the items. -/
theorem mapM_eq_some {α β : Type} {read : α → Option β} {xs : List α} {ys : List β}
    (h : xs.mapM read = some ys) :
    ys.length = xs.length ∧ ∀ y ∈ ys, ∃ x ∈ xs, read x = some y := by
  induction xs generalizing ys with
  | nil =>
    cases h
    exact ⟨rfl, fun y hy => absurd hy List.not_mem_nil⟩
  | cons x xs ih =>
    simp only [List.mapM_cons, Option.bind_eq_bind, Option.bind_eq_some_iff] at h
    obtain ⟨y, hy, ys', hys, h⟩ := h
    cases h
    obtain ⟨hlength, hmem⟩ := ih hys
    refine ⟨congrArg (· + 1) hlength, fun z hz => ?_⟩
    rcases List.mem_cons.mp hz with rfl | hz
    · exact ⟨x, List.mem_cons_self .., hy⟩
    · obtain ⟨x', hx', hread⟩ := hmem z hz
      exact ⟨x', List.mem_cons_of_mem x hx', hread⟩

namespace Item

theorem extent_untagged (item : Item) : item.untagged.extent ≤ item.extent := by
  induction item using untagged.induct with
  | case1 number item ih =>
    rw [untagged, extent]
    omega
  | case2 item h =>
    have heq : item.untagged = item := by
      unfold untagged
      split
      · exact absurd rfl (h _ _)
      · rfl
    rw [heq]

theorem length_text? {item : Item} {s : String} (h : item.text? = some s) :
    (Utf8.encode s).length < item.extent := by
  have hextent := extent_untagged item
  unfold text? at h
  split at h
  · rename_i content heq
    obtain ⟨texts, htexts, rfl⟩ := Option.map_eq_some_iff.mp h
    rw [heq, extent] at hextent
    rw [Utf8.encode_join htexts]
    show content.content.length < item.extent
    omega
  · cases h

theorem length_bytes? {item : Item} {bs : Bytes} (h : item.bytes? = some bs) :
    bs.length < item.extent := by
  have hextent := extent_untagged item
  unfold bytes? at h
  split at h
  · rename_i content heq
    cases h
    rw [heq, extent] at hextent
    omega
  · rename_i items heq
    have hlength := (mapM_eq_some h).1
    have hcount := length_le_extentAll items
    rw [heq, extent] at hextent
    omega
  · cases h

theorem sized_nameSet? {item : Item} {s : NameSet} (hitem : item.extent < 2 ^ 64)
    (h : item.nameSet? = some s) : s.Sized := by
  have hextent := extent_untagged item
  unfold nameSet? at h
  split at h
  · rename_i items heq
    obtain ⟨names, hnames, rfl⟩ := Option.map_eq_some_iff.mp h
    obtain ⟨hlength, hmem⟩ := mapM_eq_some hnames
    have hcount := length_le_extentAll items
    rw [heq, extent] at hextent
    constructor
    · have hle := NameSet.length_ofList_le names
      omega
    · intro name hname
      obtain ⟨x, hx, hread⟩ := hmem name (NameSet.mem_ofList.mp hname)
      have hl := length_text? hread
      have hle := extent_le_extentAll hx
      omega
  · split at h
    · cases h
      exact ⟨by decide, fun name hname => absurd hname (NameSet.not_mem_empty name)⟩
    · cases h
  · cases h

/-- A value that is there was read from the item itself. -/
theorem option?_eq_some {α : Type} {read : Item → Option α} {item : Item} {x : α}
    (h : option? read item = some (some x)) : read item = some x := by
  unfold option? at h
  split at h
  · cases h
  · cases h
  · obtain ⟨y, hy, heq⟩ := Option.map_eq_some_iff.mp h
    cases heq
    exact hy

end Item

namespace Fields

/-- The values of all fields have extents of 64 bits. -/
def Bounded (f : Fields) : Prop := ∀ name item, f.get? name = some item → item.extent < 2 ^ 64

theorem mem_of_nameEntries? {entries : List (Item × Item)} {named : List (Bytes × Item)}
    (h : nameEntries? entries = some named) {name : Bytes} {value : Item}
    (hmem : (name, value) ∈ named) : ∃ key, (key, value) ∈ entries := by
  induction entries generalizing named with
  | nil =>
    cases h
    exact absurd hmem List.not_mem_nil
  | cons e entries ih =>
    obtain ⟨key, value'⟩ := e
    simp only [nameEntries?, Option.bind_eq_bind, Option.bind_eq_some_iff] at h
    obtain ⟨name', -, named', hnamed, h⟩ := h
    cases h
    rcases List.mem_cons.mp hmem with heq | hmem
    · cases heq
      exact ⟨key, List.mem_cons_self ..⟩
    · obtain ⟨key', hkey⟩ := ih hnamed hmem
      exact ⟨key', List.mem_cons_of_mem _ hkey⟩

/-- A field's value is a part of the item that has the field. -/
theorem bounded_of_read {known : List String} {room : Nat} {item : Item} {f : Fields}
    (hitem : item.extent < 2 ^ 64) (h : read known room item = some f) : f.Bounded := by
  simp only [read, Option.bind_eq_bind, Option.bind_eq_some_iff] at h
  obtain ⟨entries, hentries, named, hnamed, h⟩ := h
  split at h
  · cases h
    intro name value hget
    obtain ⟨e, he, rfl⟩ := Option.map_eq_some_iff.mp hget
    obtain ⟨key, hkey⟩ := mem_of_nameEntries? hnamed (List.mem_of_find?_eq_some he)
    have hextent := Item.extent_untagged item
    unfold Item.entries? at hentries
    split at hentries
    · rename_i entries' heq
      cases hentries
      have hle := Item.extent_le_extentEntries hkey
      rw [heq, Item.extent] at hextent
      omega
    · cases hentries
  · cases h

section

variable {α : Type} {f : Fields} {name : String} {read : Item → Option α} {P : α → Prop} {x : α}

/-- What holds of every value that is read from a small item holds of the value of a field. -/
theorem Bounded.required (hf : f.Bounded) (h : f.required name read = some x)
    (hread : ∀ item y, item.extent < 2 ^ 64 → read item = some y → P y) : P x := by
  unfold Fields.required at h
  split at h
  · rename_i item hget
    exact hread item x (hf name item hget) h
  · cases h

theorem Bounded.optional {default : α} (hf : f.Bounded)
    (h : f.optional name default read = some x) (hdefault : P default)
    (hread : ∀ item y, item.extent < 2 ^ 64 → read item = some y → P y) : P x := by
  unfold Fields.optional at h
  split at h
  · rename_i item hget
    exact hread item x (hf name item hget) h
  · cases h
    exact hdefault

/-- The same for a field whose value may be null. -/
theorem Bounded.option {o : Option α} (hf : f.Bounded)
    (h : f.optional name none (Item.option? read) = some o)
    (hread : ∀ item y, item.extent < 2 ^ 64 → read item = some y → P y) : ∀ x ∈ o, P x := by
  apply hf.optional (P := fun o => ∀ x ∈ o, P x) h
  · intro x hx
    cases hx
  · intro item o' hitem ho' x hx
    rw [Option.mem_def] at hx
    subst hx
    exact hread item x hitem (Item.option?_eq_some ho')

end

end Fields

theorem Item.text_lt {item : Item} {s : String} (hitem : item.extent < 2 ^ 64)
    (h : item.text? = some s) : (Utf8.encode s).length < 2 ^ 64 :=
  Nat.lt_trans (length_text? h) hitem

theorem Item.bytes_lt {item : Item} {bs : Bytes} (hitem : item.extent < 2 ^ 64)
    (h : item.bytes? = some bs) : bs.length < 2 ^ 64 :=
  Nat.lt_trans (length_bytes? h) hitem

theorem NameSet.sized_empty : empty.Sized :=
  ⟨by decide, fun name hname => absurd hname (not_mem_empty name)⟩

theorem Header.sized_ofItem? {item : Item} {h : Header} (hitem : item.extent < 2 ^ 64)
    (hread : ofItem? item = some h) : h.Sized := by
  simp only [ofItem?, Option.bind_eq_bind, Option.bind_eq_some_iff] at hread
  obtain ⟨f, hf, id, -, version, -, parent, -, payloadType, htype, signer, hsigner, recipient,
    hrecipient, readers, hreaders, writers, hwriters, immutable, -, heq⟩ := hread
  cases heq
  have hbounded := Fields.bounded_of_read hitem hf
  exact {
    payloadType := hbounded.optional (P := fun s => (Utf8.encode s).length < 2 ^ 64) htype
      (by decide) (fun _ _ => Item.text_lt)
    signer := hbounded.option hsigner (fun _ _ => Item.text_lt)
    recipient := hbounded.option hrecipient (fun _ _ => Item.text_lt)
    readers := hbounded.optional hreaders NameSet.sized_empty (fun _ _ => Item.sized_nameSet?)
    writers := hbounded.optional hwriters NameSet.sized_empty (fun _ _ => Item.sized_nameSet?) }

theorem Attestation.sized_ofItem? {item : Item} {a : Attestation} (hitem : item.extent < 2 ^ 64)
    (hread : ofItem? item = some a) : a.Sized := by
  simp only [ofItem?, Option.bind_eq_bind, Option.bind_eq_some_iff] at hread
  obtain ⟨f, hf, digest, hdigest, signature, hsignature, heq⟩ := hread
  cases heq
  have hbounded := Fields.bounded_of_read hitem hf
  exact {
    digest := hbounded.required (P := fun bs => bs.length < 2 ^ 64) hdigest
      (fun _ _ => Item.bytes_lt)
    signature := hbounded.required (P := fun bs => bs.length < 2 ^ 64) hsignature
      (fun _ _ => Item.bytes_lt) }

theorem Revision.sized_ofItem? {item : Item} {h : Header} {attestation : Option Attestation}
    {body : Option Bytes} (hitem : item.extent < 2 ^ 64)
    (hread : ofItem? item = some (some h, attestation, body)) :
    Sized ⟨h, attestation, body⟩ := by
  simp only [ofItem?, Option.bind_eq_bind, Option.bind_eq_some_iff] at hread
  obtain ⟨f, hf, header, hheader, attestation', hattestation, body', hbody, heq⟩ := hread
  cases heq
  have hbounded := Fields.bounded_of_read hitem hf
  exact {
    header := hbounded.option hheader (fun _ _ => Header.sized_ofItem?) h rfl
    attestation := hbounded.option hattestation (fun _ _ => Attestation.sized_ofItem?)
    body := hbounded.option hbody (fun _ _ => Item.bytes_lt) }

theorem PublicKey.sized_ofItem? {item : Item} {k : PublicKey} (hitem : item.extent < 2 ^ 64)
    (hread : ofItem? item = some k) : k.Sized := by
  simp only [ofItem?, Option.bind_eq_bind, Option.bind_eq_some_iff] at hread
  obtain ⟨f, hf, bytes, hbytes, hash, hhash, label, hlabel, heq⟩ := hread
  cases heq
  have hbounded := Fields.bounded_of_read hitem hf
  exact {
    bytes := hbounded.required (P := fun bs => bs.length < 2 ^ 64) hbytes
      (fun _ _ => Item.bytes_lt)
    hash := hbounded.required (P := fun s => (Utf8.encode s).length < 2 ^ 64) hhash
      (fun _ _ => Item.text_lt)
    label := hbounded.option hlabel (fun _ _ => Item.text_lt) }

theorem PublicKey.sized_ofRecordItem? {item : Item} {k : PublicKey} (hitem : item.extent < 2 ^ 64)
    (hread : ofRecordItem? item = some k) : k.Sized := by
  simp only [ofRecordItem?, Option.bind_eq_bind, Option.bind_eq_some_iff] at hread
  obtain ⟨f, hf, hkey⟩ := hread
  exact (Fields.bounded_of_read hitem hf).required hkey (fun _ _ => sized_ofItem?)

/-- The entries of a castle before they are put in order. -/
theorem Castle.mem_of_lookupOfEntries? {entries : List (Item × Item)}
    {named : List (String × Bytes)} (h : lookupOfEntries? entries = some named) :
    named.length = entries.length ∧ ∀ e ∈ named, ∃ key value, (key, value) ∈ entries ∧
      key.text? = some e.1 ∧ value.bytes? = some e.2 := by
  induction entries generalizing named with
  | nil =>
    cases h
    exact ⟨rfl, fun e he => absurd he List.not_mem_nil⟩
  | cons entry entries ih =>
    obtain ⟨key, value⟩ := entry
    simp only [lookupOfEntries?, Option.bind_eq_bind, Option.bind_eq_some_iff] at h
    obtain ⟨name, hname, sealedSecret, hsecret, named', hnamed, h⟩ := h
    cases h
    obtain ⟨hlength, hmem⟩ := ih hnamed
    refine ⟨congrArg (· + 1) hlength, fun e he => ?_⟩
    rcases List.mem_cons.mp he with rfl | he
    · exact ⟨key, value, List.mem_cons_self .., hname, hsecret⟩
    · obtain ⟨key', value', hin, htext, hbytes⟩ := hmem e he
      exact ⟨key', value', List.mem_cons_of_mem _ hin, htext, hbytes⟩

theorem Castle.sized_lookup {item : Item} {lookup : NameMap Bytes} (id : Option CastleId)
    (hitem : item.extent < 2 ^ 64) (h : lookupOfItem? item = some lookup) :
    Sized ⟨id, lookup⟩ := by
  have hextent := Item.extent_untagged item
  simp only [lookupOfItem?, Option.bind_eq_bind, Option.bind_eq_some_iff] at h
  obtain ⟨entries, hentries, named, hnamed, heq⟩ := h
  cases heq
  unfold Item.entries? at hentries
  split at hentries
  · rename_i entries' hmap
    cases hentries
    rw [hmap, Item.extent] at hextent
    obtain ⟨hlength, hmem⟩ := mem_of_lookupOfEntries? hnamed
    obtain ⟨hcount, hsub⟩ := NameMap.entries_ofList named
    have hle := Item.length_le_extentEntries entries
    refine ⟨by show (NameMap.ofList named).entries.length < 2 ^ 64; omega, fun e he => ?_⟩
    obtain ⟨key, value, hin, htext, hbytes⟩ := hmem e (hsub e he)
    have hpart := Item.extent_le_extentEntries hin
    exact ⟨Item.text_lt (by omega) htext, Item.bytes_lt (by omega) hbytes⟩
  · cases hentries

theorem Castle.sized_ofItem? {item : Item} {c : Castle} (hitem : item.extent < 2 ^ 64)
    (hread : ofItem? item = some c) : c.Sized := by
  simp only [ofItem?, Option.bind_eq_bind, Option.bind_eq_some_iff] at hread
  obtain ⟨f, hf, id, -, lookup, hlookup, heq⟩ := hread
  cases heq
  have hempty : Sized ⟨id.map CastleId.mk, NameMap.empty⟩ :=
    ⟨show 0 < 2 ^ 64 by decide, fun e he => absurd he List.not_mem_nil⟩
  exact (Fields.bounded_of_read hitem hf).optional (P := fun l => Sized ⟨id.map CastleId.mk, l⟩)
    hlookup hempty (fun _ _ => sized_lookup _)

/-- A record that was read from fewer than 2^64 bytes has no length that needs more than 64 bits. -/
theorem Record.sized_of_decode {raw : Bytes} {r : Record} (hraw : raw.length < 2 ^ 64)
    (h : decode raw = .ok r) : r.Sized := by
  cases raw with
  | nil => cases h
  | cons tag rest =>
    simp only [decode] at h
    split at h
    · cases h
    · rename_i kind hkind
      split at h
      · cases h
      · rename_i item following hread
        have hitem : item.extent < 2 ^ 64 := by
          have hl := Item.extent_read hread
          rw [List.length_cons] at hraw
          omega
        cases kind with
        | data =>
          simp only [ofItem] at h
          split at h <;> cases h
          rename_i hrevision
          exact Revision.sized_ofItem? hitem hrevision
        | publicKey =>
          simp only [ofItem] at h
          split at h <;> cases h
          rename_i hkey
          exact PublicKey.sized_ofRecordItem? hitem hkey
        | castle =>
          simp only [ofItem] at h
          split at h <;> cases h
          rename_i hcastle
          exact Castle.sized_ofItem? hitem hcastle

/-! ## The codec -/

namespace Record

/-- Writing gives the beginning of what is written of another record only if the two are the same. -/
theorem encode_prefix_iff {r r' : Record} (h : r.Sized) (h' : r'.Sized) :
    r.encode <+: r'.encode ↔ r = r' := by
  constructor
  · rintro ⟨rest, heq⟩
    have hread := decode_encode h.toItem rest
    have hread' := decode_encode h'.toItem []
    rw [List.append_nil, ← heq, hread] at hread'
    exact Except.ok.inj hread'
  · rintro rfl
    exact List.prefix_refl _

/-- **Codec.** A sized record is read back from what was written of it, whatever follows. So records
that differ are written differently, and none is written as the beginning of another. A record that
was read, in whatever spelling, is read back from what is written of it, which reading and writing
leave as it is. -/
theorem codec :
    (∀ r : Record, r.Sized → ∀ rest, decode (r.encode ++ rest) = .ok r) ∧
      (∀ r r' : Record, r.Sized → r'.Sized →
        (r.encode = r'.encode → r = r') ∧ (r.encode <+: r'.encode → r.encode = r'.encode)) ∧
      ∀ raw r, raw.length < 2 ^ 64 → decode raw = .ok r →
        decode r.encode = .ok r ∧ (decode r.encode).map encode = .ok r.encode := by
  refine ⟨fun r h rest => decode_encode h.toItem rest, fun r r' h h' => ⟨?_, ?_⟩, ?_⟩
  · intro heq
    exact (encode_prefix_iff h h').mp (heq ▸ List.prefix_refl _)
  · intro hprefix
    rw [(encode_prefix_iff h h').mp hprefix]
  · intro raw r hraw hdecode
    have hagain := decode_encode (sized_of_decode hraw hdecode).toItem []
    rw [List.append_nil] at hagain
    refine ⟨hagain, ?_⟩
    rw [hagain]
    rfl

/-- A castle without id, in a map of no definite length with a secret in two pieces and an unknown
field, and a byte that does not belong to it. -/
def spelled : Bytes :=
  [3, 0xbf, 0x66, 0x6c, 0x6f, 0x6f, 0x6b, 0x75, 0x70, 0xa1, 0x61, 0x61, 0x5f, 0x41, 7, 0x41, 8,
    0xff, 0x61, 0x78, 0xf5, 0xff, 0]

def unnamed : Record := .castle ⟨none, NameMap.empty.insert "a" [7, 8]⟩

def anchorOnly : Record :=
  .data (.ofHeader (.anchor ⟨.replicate 1⟩ ⟨.replicate 2⟩ "Account"))

theorem spelled_facts :
    decode spelled = .ok unnamed ∧ unnamed.encode.length ≠ spelled.length ∧
      anchorOnly.encode ≠ unnamed.encode := by
  decide +kernel

theorem sized_unnamed : unnamed.Sized :=
  sized_of_decode (show spelled.length < 2 ^ 64 by decide) spelled_facts.1

theorem sized_anchorOnly : anchorOnly.Sized :=
  sized_of_decode (show anchorOnly.encode.length < 2 ^ 64 by decide +kernel) (by decide +kernel)

/-- It is written in one piece, and that is how it stays. -/
theorem spelled_rewritten :
    decode spelled = .ok unnamed ∧ unnamed.encode ≠ spelled ∧
      decode (unnamed.encode ++ [0xff]) = .ok unnamed ∧
        (decode unnamed.encode).map encode = .ok unnamed.encode ∧
          ¬ anchorOnly.encode <+: unnamed.encode := by
  obtain ⟨hdecode, hlength, hne⟩ := spelled_facts
  obtain ⟨hread, hapart, hfixed⟩ := codec
  refine ⟨hdecode, fun h => hlength (congrArg List.length h), hread unnamed sized_unnamed [0xff],
    (hfixed spelled unnamed (by decide) hdecode).2, fun hprefix => hne ?_⟩
  exact (hapart anchorOnly unnamed sized_anchorOnly sized_unnamed).2 hprefix

end Record

end Provenance

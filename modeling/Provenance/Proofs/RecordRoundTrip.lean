import Provenance.Record.Decode
import Provenance.Proofs.Containers
import Provenance.Proofs.ItemRoundTrip

/-!
# Decoding what was encoded

* each value of the record format is read back from its item;
* `Fields.read_ofFields`: a map of known fields, in any order and none of them twice, is read as a
  structure with these fields;
* `Record.decode_encode`: a record whose sizes fit a CBOR head is decoded from its bytes, whatever
  follows.
-/

namespace Provenance

/-! ## Values -/

namespace Item

theorem text?_ofText (s : String) : text? (ofText s) = some s := by
  have h : Pieces.text? (.whole (Utf8.encode s)) = some s := by
    simp [Pieces.text?, Pieces.toList, Utf8.decode?_encode, String.join]
  exact h

theorem bytes?_ofBytes (bs : Bytes) : bytes? (ofBytes bs) = some bs := by
  have h : Pieces.content (.whole bs) = bs := by
    simp [Pieces.content, Pieces.toList]
  exact congrArg some h

theorem bool?_ofBool (b : Bool) : bool? (ofBool b) = some b := by
  cases b <;> rfl

theorem ofItem?_ofBytes (u : Uuid) : Uuid.ofItem? (ofBytes u.bytes) = some u :=
  Uuid.ofBytes?_bytes u

/-- An optional value, written by `f` as an item that is not taken for null. -/
theorem option?_ofOption {α β : Type} {f : α → Item} {read : Item → Option β} {g : α → β}
    (hread : ∀ x, option? read (f x) = (read (f x)).map some) (hf : ∀ x, read (f x) = some (g x))
    (o : Option α) : option? read (ofOption f o) = some (o.map g) := by
  cases o with
  | none => rfl
  | some x =>
    show option? read (f x) = some (some (g x))
    rw [hread x, hf x]
    rfl

theorem option?_ofText (o : Option String) : option? text? (ofOption ofText o) = some o := by
  have h := option?_ofOption (g := id) (fun _ => rfl) text?_ofText o
  rw [h, Option.map_id]
  rfl

theorem option?_ofBytes (o : Option Bytes) : option? bytes? (ofOption ofBytes o) = some o := by
  have h := option?_ofOption (g := id) (fun _ => rfl) bytes?_ofBytes o
  rw [h, Option.map_id]
  rfl

theorem option?_ofVersion (o : Option VersionId) :
    option? Uuid.ofItem? (ofOption (fun v => ofBytes v.uuid.bytes) o) =
      some (o.map VersionId.uuid) :=
  option?_ofOption (g := VersionId.uuid) (fun _ => rfl) (fun v => ofItem?_ofBytes v.uuid) o

/-- A byte string that is written as an array of numbers. -/
theorem bytes?_array (bs : Bytes) :
    bytes? (.array (bs.map (fun b => .unsigned b.toNat))) = some bs := by
  show (bs.map (fun b : UInt8 => Item.unsigned b.toNat)).mapM byte? = some bs
  induction bs with
  | nil => rfl
  | cons b bs ih =>
    have hb : byte? (.unsigned b.toNat) = some b := by
      simp only [byte?, natural?, Option.bind_eq_bind, Option.bind_some, b.toNat_lt, if_true,
        UInt8.ofNat_toNat]
    simp [hb, ih]

theorem nameSet?_array (names : List String) :
    nameSet? (.array (names.map ofText)) = some (NameSet.ofList names) := by
  have h : (names.map ofText).mapM text? = some names := by
    induction names with
    | nil => rfl
    | cons name names ih => simp [text?_ofText, ih]
  show ((names.map ofText).mapM text?).map NameSet.ofList = some (NameSet.ofList names)
  rw [h, Option.map_some]

theorem nameSet?_nameSetItem (s : NameSet) : nameSet? (Header.nameSetItem s) = some s := by
  rw [Header.nameSetItem, nameSet?_array, NameSet.ofList_names]

end Item

/-! ## Structures -/

namespace Fields

/-- The structure that has the given fields. -/
def ofList (fields : List (String × Item)) : Fields :=
  ⟨fields.map (fun f => (Utf8.encode f.1, f.2))⟩

theorem nameEntries?_map {fields : List (String × Item)}
    (h : ∀ f ∈ fields, (Utf8.encode f.1).length ≤ Item.maxFieldName) :
    nameEntries? (fields.map (fun f => (Item.ofText f.1, f.2))) = some (ofList fields).entries := by
  induction fields with
  | nil => rfl
  | cons f fields ih =>
    have hname : Item.fieldName? (Item.ofText f.1) = some (Utf8.encode f.1) := by
      have hvalid : Utf8.isValid (Utf8.encode f.1) = true := by
        rw [Utf8.isValid, Utf8.decode?_encode]
        rfl
      exact if_pos ⟨h f (List.mem_cons_self ..), hvalid⟩
    have ih' := ih (fun g hg => h g (List.mem_cons_of_mem f hg))
    simp only [List.map_cons, nameEntries?, hname, ih', Option.bind_eq_bind, Option.bind_some]
    rfl

theorem count_ofList_le {fields : List (String × Item)} (h : (fields.map (fun f => f.1)).Nodup)
    (name : String) : (ofList fields).count name ≤ 1 := by
  have hcount : (ofList fields).count name = (fields.map (fun f => f.1)).count name := by
    clear h
    induction fields with
    | nil => rfl
    | cons f fields ih =>
      simp only [count, ofList, List.map_cons, List.filter_cons] at ih ⊢
      rw [List.count_cons, ← ih]
      by_cases hf : f.1 = name
      · simp [hf]
      · have hne : ¬ Utf8.encode f.1 = Utf8.encode name := fun e => hf (Utf8.encode_injective e)
        simp [hf, hne]
  rw [hcount]
  exact List.nodup_iff_count_le_one.mp h name

theorem get?_ofList (fields : List (String × Item)) (name : String) :
    (ofList fields).get? name = (fields.find? (fun f => f.1 = name)).map (fun f => f.2) := by
  induction fields with
  | nil => rfl
  | cons f fields ih =>
    simp only [get?, ofList, List.map_cons, List.find?_cons] at ih ⊢
    by_cases hf : f.1 = name
    · simp [hf]
    · have hne : ¬ Utf8.encode f.1 = Utf8.encode name := fun e => hf (Utf8.encode_injective e)
      simp only [hf, hne, decide_false]
      exact ih

/-- A map of known fields, none of them twice, is the structure that has these fields. -/
theorem read_ofFields {known : List String} {fields : List (String × Item)}
    (hknown : ∀ f ∈ fields, f.1 ∈ known) (hnodup : (fields.map (fun f => f.1)).Nodup)
    (hshort : ∀ name ∈ known, (Utf8.encode name).length ≤ Item.maxFieldName) (room : Nat) :
    read known room (Item.ofFields fields) = some (ofList fields) := by
  have hnamed := nameEntries?_map (fun f hf => hshort f.1 (hknown f hf))
  have hsingle : known.all (fun name => (ofList fields).count name ≤ 1) = true := by
    simp only [List.all_eq_true, decide_eq_true_eq]
    exact fun name _ => count_ofList_le hnodup name
  have hreadable :
      (ofList fields).entries.all (fun e => isKnown known e.1 || e.2.isReadable room) = true := by
    simp only [ofList, List.all_map, List.all_eq_true, Function.comp_apply, Bool.or_eq_true]
    intro f hf
    exact Or.inl (List.any_eq_true.mpr ⟨f.1, hknown f hf, by simp⟩)
  unfold read
  simp only [Item.ofFields, Item.entries?, Item.untagged, Option.bind_eq_bind, Option.bind_some,
    hnamed]
  exact if_pos (Bool.and_eq_true_iff.mpr ⟨hsingle, hreadable⟩)

end Fields

/-! ## Records -/

/-- Every field of a record has a name that is short enough to be recognized. -/
theorem length_fieldName_le : ∀ name ∈ Header.fieldNames ++ Attestation.fieldNames ++
    Revision.fieldNames ++ PublicKey.fieldNames ++ ["id", "lookup", "key"],
      (Utf8.encode name).length ≤ Item.maxFieldName := by
  decide +kernel

theorem Header.ofItem?_toItem (h : Header) : ofItem? h.toItem = some h := by
  have hversion : h.parent.map (VersionId.mk ∘ VersionId.uuid) = h.parent := by
    cases h.parent <;> rfl
  unfold ofItem? toItem
  rw [Fields.read_ofFields]
  · simp [Fields.required, Fields.optional, Fields.get?_ofList, Item.ofItem?_ofBytes,
      Item.option?_ofVersion, hversion, Item.text?_ofText, Item.option?_ofText,
      Item.nameSet?_nameSetItem, Item.bool?_ofBool]
  · simp [fieldNames]
  · simp
  · intro name hn
    apply length_fieldName_le
    simp [hn]

theorem Attestation.ofItem?_toItem (a : Attestation) : ofItem? a.toItem = some a := by
  unfold ofItem? toItem
  rw [Fields.read_ofFields]
  · simp [Fields.required, Fields.get?_ofList, Item.bytes?_ofBytes]
  · simp [fieldNames]
  · simp
  · intro name hn
    apply length_fieldName_le
    simp [hn]

theorem Revision.ofItem?_toItem (r : Revision) :
    ofItem? r.toItem = some (some r.header, r.attestation, r.body) := by
  have hheader : Item.option? Header.ofItem? r.header.toItem = some (some r.header) := by
    show (Header.ofItem? r.header.toItem).map some = some (some r.header)
    rw [Header.ofItem?_toItem]
    rfl
  have hattestation : Item.option? Attestation.ofItem?
      (.ofOption Attestation.toItem r.attestation) = some (r.attestation.map (fun a => a)) :=
    Item.option?_ofOption (fun _ => rfl) Attestation.ofItem?_toItem r.attestation
  unfold ofItem? toItem
  rw [Fields.read_ofFields]
  · simp [Fields.optional, Fields.get?_ofList, hheader, hattestation,
      Item.option?_ofBytes]
  · simp [fieldNames]
  · simp
  · intro name hn
    apply length_fieldName_le
    simp [hn]

theorem PublicKey.ofItem?_toItem (k : PublicKey) : ofItem? k.toItem = some k := by
  unfold ofItem? toItem
  rw [Fields.read_ofFields]
  · simp [Fields.required, Fields.optional, Fields.get?_ofList, Item.bytes?_array,
      Item.text?_ofText, Item.option?_ofText]
  · simp [fieldNames]
  · simp
  · intro name hn
    apply length_fieldName_le
    simp [hn]

theorem PublicKey.ofRecordItem?_toItem (k : PublicKey) :
    ofRecordItem? (Record.publicKey k).toItem = some k := by
  unfold ofRecordItem? Record.toItem
  simp only
  rw [Fields.read_ofFields]
  · simp [Fields.required, Fields.get?_ofList, ofItem?_toItem]
  · simp
  · simp
  · intro name hn
    apply length_fieldName_le
    exact List.mem_append_right _ (List.mem_append_right ["id", "lookup"] hn)

theorem Castle.lookupOfEntries?_map (entries : List (String × Bytes)) :
    lookupOfEntries? (entries.map (fun e => (.ofText e.1, .ofBytes e.2))) = some entries := by
  induction entries with
  | nil => rfl
  | cons e entries ih =>
    simp only [List.map_cons, lookupOfEntries?, Item.text?_ofText, Item.bytes?_ofBytes, ih,
      Option.bind_eq_bind, Option.bind_some]
    rfl

theorem Castle.ofItem?_toItem (c : Castle) : ofItem? c.toItem = some c := by
  have hid : Item.option? Uuid.ofItem? (.ofOption (fun i => .ofBytes i.uuid.bytes) c.id) =
      some (c.id.map CastleId.uuid) :=
    Item.option?_ofOption (g := CastleId.uuid) (fun _ => rfl)
      (fun i => Item.ofItem?_ofBytes i.uuid) c.id
  have hmap : c.id.map (CastleId.mk ∘ CastleId.uuid) = c.id := by
    cases c.id <;> rfl
  have hlookup : lookupOfItem?
      (.map (c.lookup.entries.map (fun e => (.ofText e.1, .ofBytes e.2)))) = some c.lookup := by
    simp only [lookupOfItem?, Item.entries?, Item.untagged, lookupOfEntries?_map,
      NameMap.ofList_entries, Option.bind_eq_bind, Option.bind_some]
    rfl
  unfold ofItem? toItem
  rw [Fields.read_ofFields]
  · simp [Fields.optional, Fields.get?_ofList, hid, hmap, hlookup]
  · simp
  · simp
  · intro name hn
    apply length_fieldName_le
    exact List.mem_append_right _ (List.mem_append_left ["key"] hn)

theorem Record.ofItem_toItem (r : Record) : ofItem r.kind r.toItem = .ok r := by
  cases r with
  | data r => simp only [kind, toItem, ofItem, Revision.ofItem?_toItem]
  | publicKey k => simp only [kind, ofItem, PublicKey.ofRecordItem?_toItem]
  | castle c => simp only [kind, toItem, ofItem, Castle.ofItem?_toItem]

/-- **Round trip of records.** -/
theorem Record.decode_encode {r : Record} (h : r.toItem.isSized = true) (rest : Bytes) :
    decode (encode r ++ rest) = .ok r := by
  rw [encode, List.cons_append, decode, RecordKind.ofTag?_tag]
  simp only [Item.read_encode h rest, ofItem_toItem]

theorem Record.decode_encode_data {r : Revision} (h : r.toItem.isSized = true) (rest : Bytes) :
    decode (encode (.data r) ++ rest) = .ok (.data r) :=
  decode_encode (r := .data r) h rest

theorem Record.decode_encode_self {r : Record} (h : r.toItem.isSized = true) :
    decode (encode r) = .ok r := by
  have hdecode := decode_encode h []
  rw [List.append_nil] at hdecode
  exact hdecode

theorem Record.decode_data {r : Revision} (h : r.toItem.isSized = true) :
    decode (encode (.data r)) = .ok (.data r) :=
  decode_encode_self (r := .data r) h

end Provenance

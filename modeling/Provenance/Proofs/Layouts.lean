import Provenance.Chain.Receive
import Provenance.Proofs.Codec

/-!
# The layout of a record does not matter

The record of a revision is a map of maps, and there are many maps that give the same fields
(`LaidOut`): in any order, with the names of a permission set in any order and number, and without
the fields that have a default, as far as the revision has it there. All of them are read as the one
revision, since what is read of a field depends on its value only (`FieldForm.FoundIn`). The map that
a revision is written as is one of them (`Revision.laidOut_toItem`).

Main statement: `Record.decode_laidOut`.
-/

namespace Provenance

/-! ## Forms of fields -/

/-- How a map gives one field: its name, the items that may stand under it, and when the field may
be left out. -/
structure FieldForm where
  name : String
  Given : Item → Prop
  Omissible : Prop

/-- These fields have the forms, in any order but none of them twice, and only fields that may be
left out are missing. -/
structure Lays (forms : List FieldForm) (fields : List (String × Item)) : Prop where
  nodup : (fields.map (·.1)).Nodup
  sound : ∀ f ∈ fields, ∃ form ∈ forms, form.name = f.1 ∧ form.Given f.2
  complete : ∀ form ∈ forms, form.Omissible ∨ form.name ∈ fields.map (·.1)

def LaidOut (forms : List FieldForm) (item : Item) : Prop :=
  ∃ fields, Lays forms fields ∧ item = .ofFields fields

/-- A map is not taken for null. -/
theorem option?_of_laidOut {α : Type} {forms : List FieldForm} {item : Item}
    (hl : LaidOut forms item) {read : Item → Option α} {value : α}
    (hread : read item = some value) : Item.option? read item = some (some value) := by
  obtain ⟨fields, -, rfl⟩ := hl
  exact congrArg (Option.map some) hread

/-- What is found of a field is one of its items, or nothing where it may be left out. -/
def FieldForm.FoundIn (form : FieldForm) (f : Fields) : Prop :=
  match f.get? form.name with
  | some item => form.Given item
  | none => form.Omissible

namespace FieldForm.FoundIn

variable {α : Type} {form : FieldForm} {f : Fields} {read : Item → Option α} {value : α}

theorem required (h : form.FoundIn f) (hneeded : ¬ form.Omissible)
    (hread : ∀ item, form.Given item → read item = some value) :
    f.required form.name read = some value := by
  unfold FoundIn at h
  unfold Fields.required
  cases hitem : f.get? form.name with
  | some item =>
    rw [hitem] at h
    exact hread item h
  | none =>
    rw [hitem] at h
    exact absurd h hneeded

theorem optional {default : α} (h : form.FoundIn f) (hdefault : form.Omissible → default = value)
    (hread : ∀ item, form.Given item → read item = some value) :
    f.optional form.name default read = some value := by
  unfold FoundIn at h
  unfold Fields.optional
  cases hitem : f.get? form.name with
  | some item =>
    rw [hitem] at h
    exact hread item h
  | none =>
    rw [hitem] at h
    exact congrArg some (hdefault h)

end FieldForm.FoundIn

section

variable {forms : List FieldForm} {known : List String} (hnames : forms.map (·.name) = known)
  {fields : List (String × Item)} (hl : Lays forms fields)

include hnames hl

theorem Lays.foundIn (hnodup : known.Nodup) :
    ∀ form ∈ forms, form.FoundIn (Fields.ofList fields) := by
  intro form hform
  unfold FieldForm.FoundIn
  rw [Fields.get?_ofList]
  cases hfind : fields.find? (fun f => f.1 = form.name) with
  | none =>
    rcases hl.complete form hform with homissible | hmem
    · exact homissible
    · obtain ⟨f, hf, hname⟩ := List.mem_map.mp hmem
      exact absurd (decide_eq_true hname) (List.find?_eq_none.mp hfind f hf)
  | some f =>
    obtain ⟨form', hform', hname, hgiven⟩ := hl.sound f (List.mem_of_find?_eq_some hfind)
    -- No name has two forms, so the one that the field has is the one in question.
    have hfound := List.find?_some hfind
    simp only [decide_eq_true_eq] at hfound
    have hsame : form'.name = form.name := hname.trans hfound
    obtain rfl := List.inj_on_of_nodup_map (hnames ▸ hnodup) hform' hform hsame
    exact hgiven

theorem Lays.read (hshort : ∀ name ∈ known, (Utf8.encode name).length ≤ Item.maxFieldName)
    (room : Nat) : Fields.read known room (.ofFields fields) = some (Fields.ofList fields) := by
  apply Fields.read_ofFields ?_ hl.nodup hshort
  intro f hf
  obtain ⟨form, hform, hname, -⟩ := hl.sound f hf
  rw [← hnames, ← hname]
  exact List.mem_map_of_mem hform

end

/-! ## Parts of a revision -/

/-- The item lists the names of the set, in any order and any number of times. -/
def NameSet.ListedBy (s : NameSet) (item : Item) : Prop :=
  ∃ names : List String, item = .array (names.map .ofText) ∧ ∀ name, name ∈ names ↔ name ∈ s

theorem NameSet.ListedBy.nameSet? {s : NameSet} {item : Item} (h : s.ListedBy item) :
    Item.nameSet? item = some s := by
  obtain ⟨names, rfl, hnames⟩ := h
  rw [Item.nameSet?_array]
  exact congrArg some (NameSet.ext_mem (fun name => NameSet.mem_ofList.trans (hnames name)))

/-- Of a header, only the two identifiers have to be there. -/
def Header.forms (h : Header) : List FieldForm := [
  ⟨"id", (· = .ofBytes h.id.uuid.bytes), False⟩,
  ⟨"version", (· = .ofBytes h.version.uuid.bytes), False⟩,
  ⟨"previous_version", (· = .ofOption (fun v => .ofBytes v.uuid.bytes) h.parent), h.parent = none⟩,
  ⟨"payload_type", (· = .ofText h.payloadType), h.payloadType = ""⟩,
  ⟨"signing_key_hash", (· = .ofOption .ofText h.signer), h.signer = none⟩,
  ⟨"encrypt_key_hash", (· = .ofOption .ofText h.recipient), h.recipient = none⟩,
  ⟨"allow_read", h.readers.ListedBy, h.readers = NameSet.empty⟩,
  ⟨"allow_write", h.writers.ListedBy, h.writers = NameSet.empty⟩,
  ⟨"immutable", (· = .ofBool h.immutable), h.immutable = false⟩]

theorem Header.ofItem?_laidOut {h : Header} {item : Item} (hl : LaidOut h.forms item) :
    ofItem? item = some h := by
  obtain ⟨fields, hl, rfl⟩ := hl
  have hnames : h.forms.map (·.name) = fieldNames := rfl
  have hread := hl.read hnames (fun name hn => length_fieldName_le name (by simp [hn]))
    (Item.maxNesting - 2)
  have hfound := hl.foundIn hnames (by decide)
  generalize Fields.ofList fields = f at hread hfound
  simp only [forms, List.forall_mem_cons] at hfound
  obtain ⟨hid, hversion, hparent, htype, hsigner, hrecipient, hreaders, hwriters, himmutable, -⟩ :=
    hfound
  have hid : f.required "id" Uuid.ofItem? = some h.id.uuid :=
    hid.required not_false (by rintro _ rfl; exact Item.ofItem?_ofBytes h.id.uuid)
  have hversion : f.required "version" Uuid.ofItem? = some h.version.uuid :=
    hversion.required not_false (by rintro _ rfl; exact Item.ofItem?_ofBytes h.version.uuid)
  have hparent : f.optional "previous_version" none (Item.option? Uuid.ofItem?) =
      some (h.parent.map VersionId.uuid) :=
    hparent.optional (fun hnone => (congrArg (Option.map VersionId.uuid) hnone).symm)
      (by rintro _ rfl; exact Item.option?_ofVersion h.parent)
  have htype : f.optional "payload_type" "" Item.text? = some h.payloadType :=
    htype.optional Eq.symm (by rintro _ rfl; exact Item.text?_ofText h.payloadType)
  have hsigner : f.optional "signing_key_hash" none (Item.option? Item.text?) = some h.signer :=
    hsigner.optional Eq.symm (by rintro _ rfl; exact Item.option?_ofText h.signer)
  have hrecipient : f.optional "encrypt_key_hash" none (Item.option? Item.text?) =
      some h.recipient :=
    hrecipient.optional Eq.symm (by rintro _ rfl; exact Item.option?_ofText h.recipient)
  have hreaders : f.optional "allow_read" NameSet.empty Item.nameSet? = some h.readers :=
    hreaders.optional Eq.symm (fun _ => NameSet.ListedBy.nameSet?)
  have hwriters : f.optional "allow_write" NameSet.empty Item.nameSet? = some h.writers :=
    hwriters.optional Eq.symm (fun _ => NameSet.ListedBy.nameSet?)
  have himmutable : f.optional "immutable" false Item.bool? = some h.immutable :=
    himmutable.optional Eq.symm (by rintro _ rfl; exact Item.bool?_ofBool h.immutable)
  have hparent' : (h.parent.map VersionId.uuid).map VersionId.mk = h.parent := by
    cases h.parent <;> rfl
  simp only [ofItem?, hread, Option.bind_eq_bind, Option.bind_some, hid, hversion, hparent, htype,
    hsigner, hrecipient, hreaders, hwriters, himmutable, hparent']
  rfl

def Attestation.forms (a : Attestation) : List FieldForm := [
  ⟨"digest", (· = .ofBytes a.digest), False⟩,
  ⟨"signature", (· = .ofBytes a.signature), False⟩]

theorem Attestation.ofItem?_laidOut {a : Attestation} {item : Item} (hl : LaidOut a.forms item) :
    ofItem? item = some a := by
  obtain ⟨fields, hl, rfl⟩ := hl
  have hnames : a.forms.map (·.name) = fieldNames := rfl
  have hread := hl.read hnames (fun name hn => length_fieldName_le name (by simp [hn]))
    (Item.maxNesting - 2)
  have hfound := hl.foundIn hnames (by decide)
  generalize Fields.ofList fields = f at hread hfound
  simp only [forms, List.forall_mem_cons] at hfound
  obtain ⟨hdigest, hsignature, -⟩ := hfound
  have hdigest : f.required "digest" Item.bytes? = some a.digest :=
    hdigest.required not_false (by rintro _ rfl; exact Item.bytes?_ofBytes a.digest)
  have hsignature : f.required "signature" Item.bytes? = some a.signature :=
    hsignature.required not_false (by rintro _ rfl; exact Item.bytes?_ofBytes a.signature)
  simp only [ofItem?, hread, Option.bind_eq_bind, Option.bind_some, hdigest, hsignature]
  rfl

/-! ## Revisions -/

/-- The item is null, or a map that lays out the attestation. -/
def Attestation.GivenBy (o : Option Attestation) (item : Item) : Prop :=
  match o with
  | none => item = .null
  | some a => LaidOut a.forms item

theorem Attestation.GivenBy.option? {o : Option Attestation} {item : Item} (h : GivenBy o item) :
    Item.option? ofItem? item = some o := by
  cases o with
  | none =>
    obtain rfl : item = .null := h
    rfl
  | some a => exact option?_of_laidOut h (ofItem?_laidOut h)

/-- Of a revision, only the header has to be there. -/
def Revision.forms (r : Revision) : List FieldForm := [
  ⟨"header", LaidOut r.header.forms, False⟩,
  ⟨"digest", Attestation.GivenBy r.attestation, r.attestation = none⟩,
  ⟨"body", (· = .ofOption .ofBytes r.body), r.body = none⟩]

theorem Revision.ofItem?_laidOut {r : Revision} {item : Item} (hl : LaidOut r.forms item) :
    ofItem? item = some (some r.header, r.attestation, r.body) := by
  obtain ⟨fields, hl, rfl⟩ := hl
  have hnames : r.forms.map (·.name) = fieldNames := rfl
  have hread := hl.read hnames (fun name hn => length_fieldName_le name (by simp [hn]))
    (Item.maxNesting - 1)
  have hfound := hl.foundIn hnames (by decide)
  generalize Fields.ofList fields = f at hread hfound
  simp only [forms, List.forall_mem_cons] at hfound
  obtain ⟨hheader, hattestation, hbody, -⟩ := hfound
  have hheader : f.optional "header" none (Item.option? Header.ofItem?) = some (some r.header) := by
    refine hheader.optional False.elim (fun item hitem => ?_)
    exact option?_of_laidOut hitem (Header.ofItem?_laidOut hitem)
  have hattestation : f.optional "digest" none (Item.option? Attestation.ofItem?) =
      some r.attestation :=
    hattestation.optional Eq.symm (fun _ => Attestation.GivenBy.option?)
  have hbody : f.optional "body" none (Item.option? Item.bytes?) = some r.body :=
    hbody.optional Eq.symm (by rintro _ rfl; exact Item.option?_ofBytes r.body)
  simp only [ofItem?, hread, Option.bind_eq_bind, Option.bind_some, hheader, hattestation, hbody]
  rfl

/-- What a revision is written as is one of its layouts. -/
theorem Revision.laidOut_toItem (r : Revision) : LaidOut r.forms r.toItem := by
  have hset : ∀ s : NameSet, s.ListedBy (Header.nameSetItem s) :=
    fun s => ⟨s.names, rfl, fun _ => Iff.rfl⟩
  have hheader : LaidOut r.header.forms r.header.toItem := by
    refine ⟨_, ⟨?_, ?_, ?_⟩, rfl⟩
    · simp
    · simp [Header.forms, hset]
    · simp [Header.forms]
  have hattestation : Attestation.GivenBy r.attestation
      (.ofOption Attestation.toItem r.attestation) := by
    cases r.attestation with
    | none => rfl
    | some a =>
      refine ⟨_, ⟨?_, ?_, ?_⟩, rfl⟩
      · simp
      · simp [Attestation.forms]
      · simp [Attestation.forms]
  refine ⟨_, ⟨?_, ?_, ?_⟩, rfl⟩
  · simp
  · simp [forms, hheader, hattestation]
  · simp [forms]

/-! ## Records -/

namespace Record

theorem decode_of_laidOut {r : Revision} {item : Item} (hl : LaidOut r.forms item)
    {raw rest : Bytes} (hread : Item.read raw = some (item, rest)) :
    decode (RecordKind.data.tag :: raw) = .ok (.data r) := by
  rw [decode, RecordKind.ofTag?_tag]
  simp only [hread, ofItem, Revision.ofItem?_laidOut hl]

/-- **Layouts.** Whatever bytes spell a map that lays out the fields of a revision, behind the tag
of its kind they are decoded to this revision, and what follows them is ignored. So they are decoded
as the revision's own record is, and every chain treats the two alike. -/
theorem decode_laidOut {r : Revision} {item : Item} (hl : LaidOut r.forms item) :
    (item.isSized = true → ∀ rest,
      decode (RecordKind.data.tag :: (item.encode ++ rest)) = .ok (.data r)) ∧
    ∀ raw rest, Item.read raw = some (item, rest) →
      decode (RecordKind.data.tag :: raw) = .ok (.data r) ∧
      ((RecordKind.data.tag :: raw).length < 2 ^ 64 →
        decode (RecordKind.data.tag :: raw) = decode (encode (.data r)) ∧
          ∀ (c : TrustChain) (d : Delivery),
            c.receive (RecordKind.data.tag :: raw) d = c.receive (encode (.data r)) d) := by
  refine ⟨fun hitem rest => decode_of_laidOut hl (Item.read_encode hitem rest),
    fun raw rest hread => ?_⟩
  have hlaid := decode_of_laidOut hl hread
  refine ⟨hlaid, fun hsize => ?_⟩
  -- The revision's own record is decoded for the same reason: it has one of the layouts.
  have hsized : r.Sized := sized_of_decode hsize hlaid
  have hread' := Item.read_encode hsized.toItem []
  rw [List.append_nil] at hread'
  have hown : decode (encode (.data r)) = .ok (.data r) :=
    decode_of_laidOut r.laidOut_toItem hread'
  refine ⟨hlaid.trans hown.symm, fun c d => ?_⟩
  simp only [TrustChain.receive, hlaid, hown]

/-- A tombstone, and a map that has its fields in another order, one reader twice, and nothing of
what the revision has not. -/
def tombstone : Revision where
  header := { Header.anchor ⟨.replicate 1⟩ ⟨.replicate 2⟩ "Account" with
    signer := some "alice"
    readers := NameSet.ofList ["bob", "carol"] }
  attestation := some ⟨[3], [4]⟩
  body := none

def scatteredHeader : List (String × Item) := [
  ("allow_read", .array [.ofText "carol", .ofText "bob", .ofText "carol"]),
  ("version", .ofBytes (Uuid.replicate 2).bytes),
  ("signing_key_hash", .ofText "alice"),
  ("payload_type", .ofText "Account"),
  ("id", .ofBytes (Uuid.replicate 1).bytes)]

def scattered : Item := .ofFields [
  ("digest", .ofFields [("signature", .ofBytes [4]), ("digest", .ofBytes [3])]),
  ("header", .ofFields scatteredHeader)]

theorem laidOut_scattered : LaidOut tombstone.forms scattered := by
  have hreaders : (NameSet.ofList ["bob", "carol"]).ListedBy
      (.array [.ofText "carol", .ofText "bob", .ofText "carol"]) := by
    refine ⟨["carol", "bob", "carol"], rfl, fun name => ?_⟩
    rw [NameSet.mem_ofList]
    grind
  have hheader : LaidOut tombstone.header.forms (.ofFields scatteredHeader) := by
    refine ⟨_, ⟨by decide, ?_, ?_⟩, rfl⟩
    · simp [scatteredHeader, Header.forms, tombstone, Header.anchor, Item.ofOption, hreaders]
    · simp [scatteredHeader, Header.forms, tombstone, Header.anchor]
  have hattestation : Attestation.GivenBy tombstone.attestation
      (.ofFields [("signature", .ofBytes [4]), ("digest", .ofBytes [3])]) := by
    refine ⟨_, ⟨by decide, ?_, ?_⟩, rfl⟩
    · simp [Attestation.forms]
    · simp [Attestation.forms]
  refine ⟨_, ⟨by decide, ?_, ?_⟩, rfl⟩
  · simp [Revision.forms, hheader, hattestation]
  · simp [Revision.forms, tombstone]

theorem scattered_facts : scattered.isSized = true ∧
    (RecordKind.data.tag :: scattered.encode).length < 2 ^ 64 ∧
      scattered.encode.length ≠ tombstone.toItem.encode.length := by
  decide +kernel

/-- No chain tells it from the tombstone's own record, which is longer. -/
theorem decode_scattered :
    decode (RecordKind.data.tag :: scattered.encode) = .ok (.data tombstone) ∧
      RecordKind.data.tag :: scattered.encode ≠ encode (.data tombstone) ∧
        ∀ (c : TrustChain) (d : Delivery),
          c.receive (RecordKind.data.tag :: scattered.encode) d =
            c.receive (encode (.data tombstone)) d := by
  obtain ⟨hsized, hsize, hlength⟩ := scattered_facts
  have hread := Item.read_encode hsized []
  rw [List.append_nil] at hread
  obtain ⟨hdecode, hsame⟩ := (decode_laidOut laidOut_scattered).2 _ _ hread
  refine ⟨hdecode, fun heq => hlength ?_, (hsame hsize).2⟩
  exact congrArg List.length (List.cons.inj heq).2

end Record

end Provenance

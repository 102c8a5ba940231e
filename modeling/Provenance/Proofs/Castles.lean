import Provenance.Proofs.Codec
import Provenance.Proofs.Sealing
import Provenance.Proofs.Strictness

/-!
# Castles open for their holders

A castle is built from one entry for each listed holder, in which the secret is sealed to the
holder's key (`Castle.enclose_eq_ok`). A holder that is listed twice has the later entry. The castle
passes the checks of every chain, which stores it under its identifier.

Main statement: `Castle.opens_for_holders`.
-/

namespace Provenance

/-! ## The entries of a castle -/

/-- In this entry the secret is sealed to the holder. -/
structure Holder.SealedIn (holder : Holder) (secret : Bytes) (e : String × Bytes) : Prop where
  use : holder.key.use? = some .encrypt
  name : e.1 = holder.key.hash
  value : Sealing.sealTo holder.key.bytes secret holder.fresh = .ok e.2

/-- The entries are those of the holders. -/
structure Castle.EntriesOf (secret : Bytes) (holders : List Holder)
    (entries : List (String × Bytes)) : Prop where
  length : entries.length = holders.length
  holder : ∀ e ∈ entries, ∃ holder ∈ holders, holder.SealedIn secret e
  entry : ∀ holder ∈ holders, ∃ e ∈ entries, holder.SealedIn secret e

theorem Castle.EntriesOf.cons {secret : Bytes} {holder : Holder} {holders : List Holder}
    {e : String × Bytes} {entries : List (String × Bytes)} (he : holder.SealedIn secret e)
    (h : EntriesOf secret holders entries) :
    EntriesOf secret (holder :: holders) (e :: entries) where
  length := congrArg (· + 1) h.length
  holder := by
    rw [List.forall_mem_cons]
    refine ⟨⟨holder, List.mem_cons_self .., he⟩, fun e' he' => ?_⟩
    obtain ⟨holder', hmem, hsealed⟩ := h.holder e' he'
    exact ⟨holder', List.mem_cons_of_mem _ hmem, hsealed⟩
  entry := by
    rw [List.forall_mem_cons]
    refine ⟨⟨e, List.mem_cons_self .., he⟩, fun holder' hmem => ?_⟩
    obtain ⟨e', he', hsealed⟩ := h.entry holder' hmem
    exact ⟨e', List.mem_cons_of_mem _ he', hsealed⟩

/-- The text that the cipher takes, sealed to a key for encryption. -/
theorem Holder.exists_sealedIn {holder : Holder} (huse : holder.key.use? = some .encrypt)
    {secret : Bytes} (hfits : ChaChaPoly.fits secret = true) : ∃ e, holder.SealedIn secret e := by
  obtain ⟨p, hdetect⟩ := PublicKey.detectFor_of_use? huse
  obtain ⟨sealedSecret, hsealed⟩ := Sealing.sealTo_isOk holder.fresh hdetect hfits
  exact ⟨(holder.key.hash, sealedSecret), huse, rfl, hsealed⟩

namespace Castle

/-- Enclosing succeeds by making an entry for each holder, and inserting them in their order. -/
theorem enclose_eq_ok {secret : Bytes} {holders : List Holder} {lookup lookup' : NameMap Bytes}
    (h : enclose secret holders lookup = .ok lookup') :
    ∃ entries, EntriesOf secret holders entries ∧
      lookup' = entries.foldl (fun m e => m.insert e.1 e.2) lookup := by
  induction holders generalizing lookup with
  | nil =>
    cases h
    exact ⟨[], ⟨rfl, by simp, by simp⟩, rfl⟩
  | cons holder holders ih =>
    simp only [enclose] at h
    split at h
    · rename_i huse
      split at h
      · cases h
      · rename_i sealedSecret hsealed
        obtain ⟨entries, hentries, rfl⟩ := ih h
        exact ⟨(holder.key.hash, sealedSecret) :: entries, hentries.cons ⟨huse, rfl, hsealed⟩, rfl⟩
    · cases h

theorem enclose_isOk {secret : Bytes} (hfits : ChaChaPoly.fits secret = true)
    {holders : List Holder} (huse : ∀ holder ∈ holders, holder.key.use? = some .encrypt)
    (lookup : NameMap Bytes) : ∃ lookup', enclose secret holders lookup = .ok lookup' := by
  induction holders generalizing lookup with
  | nil => exact ⟨lookup, rfl⟩
  | cons holder holders ih =>
    rw [List.forall_mem_cons] at huse
    obtain ⟨e, he⟩ := Holder.exists_sealedIn huse.1 hfits
    obtain ⟨lookup', hrest⟩ := ih huse.2 (lookup.insert holder.key.hash e.2)
    refine ⟨lookup', ?_⟩
    rw [enclose, if_pos huse.1, he.value]
    exact hrest

theorem build_eq_ok {id : CastleId} {secret : Bytes} {holders : List Holder} {castle : Castle}
    (h : build id secret holders = .ok castle) :
    ∃ entries, EntriesOf secret holders entries ∧ castle = ⟨some id, NameMap.ofList entries⟩ := by
  unfold build at h
  cases henclose : enclose secret holders NameMap.empty with
  | error e =>
    rw [henclose] at h
    cases h
  | ok lookup =>
    rw [henclose] at h
    cases h
    obtain ⟨entries, hentries, rfl⟩ := enclose_eq_ok henclose
    exact ⟨entries, hentries, rfl⟩

theorem build_isOk (id : CastleId) {secret : Bytes} (hfits : ChaChaPoly.fits secret = true)
    {holders : List Holder} (huse : ∀ holder ∈ holders, holder.key.use? = some .encrypt) :
    ∃ castle, build id secret holders = .ok castle := by
  obtain ⟨lookup, henclose⟩ := enclose_isOk hfits huse NameMap.empty
  refine ⟨⟨some id, lookup⟩, ?_⟩
  rw [build, henclose]
  rfl

/-- No castle is built for a key that is not for encryption. -/
theorem build_eq_error (id : CastleId) (secret : Bytes) {holders : List Holder} {holder : Holder}
    (hmem : holder ∈ holders) (huse : holder.key.use? ≠ some .encrypt) :
    ∃ e, build id secret holders = .error e := by
  cases hbuild : build id secret holders with
  | error e => exact ⟨e, rfl⟩
  | ok castle =>
    obtain ⟨entries, hentries, -⟩ := build_eq_ok hbuild
    obtain ⟨e, -, he⟩ := hentries.entry holder hmem
    exact absurd he.use huse

/-! ## The entry that counts -/

/-- Under the hash of a listed key stands the secret, sealed to a listed key of that hash, and
nothing under any other name. -/
theorem find?_build {id : CastleId} {secret : Bytes} {holders : List Holder} {castle : Castle}
    (h : build id secret holders = .ok castle) (name : String) :
    (∃ holder ∈ holders, holder.key.hash = name ∧ ∃ sealedSecret,
      Sealing.sealTo holder.key.bytes secret holder.fresh = .ok sealedSecret ∧
        castle.lookup.find? name = some sealedSecret) ∨
      (∀ holder ∈ holders, holder.key.hash ≠ name) ∧ castle.lookup.find? name = none := by
  obtain ⟨entries, hentries, rfl⟩ := build_eq_ok h
  obtain ⟨e, he, hname, hfind⟩ | ⟨hnone, hfind⟩ := NameMap.find?_ofList entries name
  · obtain ⟨holder, hmem, hsealed⟩ := hentries.holder e he
    exact Or.inl ⟨holder, hmem, hsealed.name.symm.trans hname, e.2, hsealed.value, hfind⟩
  · refine Or.inr ⟨fun holder hmem hhash => ?_, hfind⟩
    obtain ⟨e, he, hsealed⟩ := hentries.entry holder hmem
    exact hnone e he (hsealed.name.trans hhash)

/-! ## On the wire and in a chain -/

/-- The secret is within the cipher's own limit, and the holders are so many, under such names, as a
record of CBOR can announce. -/
structure Fitting (secret : Bytes) (holders : List Holder) : Prop where
  secret : ChaChaPoly.fits secret = true
  count : holders.length < 2 ^ 64
  names : ∀ holder ∈ holders, (Utf8.encode holder.key.hash).length < 2 ^ 64

theorem length_lt_of_fits {text : Bytes} (h : ChaChaPoly.fits text = true) :
    text.length < 2 ^ 38 := by
  have hblocks : text.length / 64 < UInt32.size - 1 := of_decide_eq_true h
  rw [UInt32.size] at hblocks
  omega

theorem sized_build {id : CastleId} {secret : Bytes} {holders : List Holder} {castle : Castle}
    (h : build id secret holders = .ok castle) (hfitting : Fitting secret holders) :
    castle.Sized := by
  obtain ⟨entries, hentries, rfl⟩ := build_eq_ok h
  obtain ⟨hlength, hmem⟩ := NameMap.entries_ofList entries
  have hcount := hfitting.count
  have hsecret := length_lt_of_fits hfitting.secret
  constructor
  · rw [hentries.length] at hlength
    exact Nat.lt_of_le_of_lt hlength hcount
  · intro e he
    obtain ⟨holder, hholder, hsealed⟩ := hentries.holder e (hmem e he)
    have hvalue := Sealing.length_sealTo hsealed.value
    rw [Sealing.overhead] at hvalue
    refine ⟨?_, by omega⟩
    rw [hsealed.name]
    exact hfitting.names holder hholder

theorem proper_build {id : CastleId} {secret : Bytes} {holders : List Holder} {castle : Castle}
    (h : build id secret holders = .ok castle) (hne : holders ≠ []) : castle.Proper := by
  constructor
  · intro hnil
    obtain ⟨holder, hmem⟩ := List.exists_mem_of_ne_nil holders hne
    obtain ⟨-, -, -, sealedSecret, -, hfind⟩ | ⟨hnone, -⟩ := find?_build h holder.key.hash
    · rw [NameMap.find?, hnil] at hfind
      cases hfind
    · exact hnone holder hmem rfl
  · obtain ⟨entries, hentries, rfl⟩ := build_eq_ok h
    obtain ⟨-, hmem⟩ := NameMap.entries_ofList entries
    intro e he hnil
    obtain ⟨holder, -, hsealed⟩ := hentries.holder e (hmem e he)
    have hvalue := Sealing.length_sealTo hsealed.value
    rw [hnil, Sealing.overhead] at hvalue
    exact absurd hvalue (by simp only [List.length_nil]; omega)

end Castle

/-- A proper castle is accepted by every chain, strict or not, and stands under its identifier. -/
theorem TrustChain.receive_castle {castle : Castle} {id : CastleId} (hid : castle.id = some id)
    (hsized : castle.Sized) (hproper : castle.Proper) (c : TrustChain) (d : Delivery) :
    (c.receive (Record.encode (.castle castle)) d).2 = true ∧
      (c.receive (Record.encode (.castle castle)) d).1.castle? id = some castle := by
  have hreceive : c.receive (Record.encode (.castle castle)) d = c.receiveCastle castle d := by
    rw [receive, Record.decode_encode_self (Record.Sized.toItem (r := .castle castle) hsized)]
    rfl
  have hchecked : c.checkWhenStrict castle.checkStructure = .ok () := by
    rw [checkWhenStrict, (Castle.checkStructure_eq_ok (by rw [hid]; simp)).mpr hproper, ite_self]
  have hadd : ∃ c', c.addCastle castle = .ok c' := by
    rw [addCastle, hid]
    exact ⟨_, rfl⟩
  rw [hreceive]
  have haccepted := (receiveCastle_accepted c d castle).mpr ⟨hchecked, hadd⟩
  obtain ⟨id', hid', heq⟩ := receiveCastle_eq c d haccepted
  obtain rfl : id = id' := Option.some.inj (hid.symm.trans hid')
  refine ⟨haccepted, ?_⟩
  rw [heq, castle?, Table.find?_insert, if_pos rfl]

/-! ## Holders with both halves of their keys -/

/-- A holder that has the secret half of its key as well. -/
structure KeyHolder where
  key : PrivateKey
  fresh : SealEntropy
  pair : ∃ p secret, key.SealPair p secret

namespace KeyHolder

/-- What is listed of it. -/
def holder (h : KeyHolder) : Holder := ⟨h.key.publicKey, h.fresh⟩

theorem use?_holder (h : KeyHolder) : h.holder.key.use? = some .encrypt := by
  obtain ⟨p, secret, hpair⟩ := h.pair
  exact hpair.use?

/-- Keys of one hash are one key. -/
def Distinct (listed : List KeyHolder) : Prop :=
  ∀ h ∈ listed, ∀ h' ∈ listed,
    h.key.hash = h'.key.hash → h.key.publicKey.bytes = h'.key.publicKey.bytes

end KeyHolder

namespace Castle

theorem recover_build {id : CastleId} {secret : Bytes} {listed : List KeyHolder}
    (hdistinct : KeyHolder.Distinct listed) {castle : Castle}
    (hbuild : build id secret (listed.map KeyHolder.holder) = .ok castle) {h : KeyHolder}
    (hmem : h ∈ listed) : castle.recover h.key = .ok (some secret) := by
  obtain ⟨holder, hholder, hhash, sealedSecret, hsealed, hfind⟩ | ⟨hnone, -⟩ :=
    find?_build hbuild h.key.hash
  · obtain ⟨h', hmem', rfl⟩ := List.mem_map.mp hholder
    obtain ⟨p, s, hpair⟩ := h.pair
    have hbytes : h'.holder.key.bytes = h.key.publicKey.bytes := hdistinct h' hmem' h hmem hhash
    rw [hbytes] at hsealed
    rw [recover, hfind]
    simp only [Sealing.openSealed_sealTo hpair hsealed, Except.map]
  · exact absurd rfl (hnone h.holder (List.mem_map_of_mem hmem))

theorem recover_stranger {id : CastleId} {secret : Bytes} {holders : List Holder} {castle : Castle}
    (hbuild : build id secret holders = .ok castle) {k : PrivateKey}
    (hstranger : ∀ holder ∈ holders, holder.key.hash ≠ k.hash) :
    castle.recover k = .ok none := by
  obtain ⟨holder, hholder, hhash, -⟩ | ⟨-, hfind⟩ := find?_build hbuild k.hash
  · exact absurd hhash (hstranger holder hholder)
  · rw [recover, hfind]

/-- **Castles.** A castle can be built for every list of key pairs for encryption, and every chain
accepts it and finds it under its identifier. What the chain finds gives the secret to each holder,
and nothing to a key whose hash is not a holder's. If a listed key is not for encryption, there is
an error and no castle.

The limits are those of `Fitting`: the secret is one that the cipher takes, which numbers blocks of
64 bytes with 32 bits, and the number of holders and the length of each name are below `2 ^ 64`. -/
theorem opens_for_holders (id : CastleId) (secret : Bytes) :
    (∀ listed : List KeyHolder, listed ≠ [] → KeyHolder.Distinct listed →
      Fitting secret (listed.map KeyHolder.holder) →
      ∃ castle, build id secret (listed.map KeyHolder.holder) = .ok castle ∧
        ∀ (c : TrustChain) (d : Delivery),
          (c.receive (Record.encode (.castle castle)) d).2 = true ∧
          ∃ found, (c.receive (Record.encode (.castle castle)) d).1.castle? id = some found ∧
            (∀ h ∈ listed, found.recover h.key = .ok (some secret)) ∧
            ∀ k : PrivateKey, (∀ h ∈ listed, h.key.hash ≠ k.hash) → found.recover k = .ok none) ∧
    ∀ holders : List Holder, (∃ holder ∈ holders, holder.key.use? ≠ some .encrypt) →
      ∃ e, build id secret holders = .error e := by
  constructor
  · intro listed hne hdistinct hfitting
    have huse : ∀ holder ∈ listed.map KeyHolder.holder, holder.key.use? = some .encrypt := by
      intro holder hholder
      obtain ⟨h, -, rfl⟩ := List.mem_map.mp hholder
      exact h.use?_holder
    obtain ⟨castle, hbuild⟩ := build_isOk id hfitting.secret huse
    refine ⟨castle, hbuild, fun c d => ?_⟩
    have hid : castle.id = some id := by
      obtain ⟨entries, -, rfl⟩ := build_eq_ok hbuild
      rfl
    obtain ⟨haccepted, hfound⟩ := TrustChain.receive_castle hid (sized_build hbuild hfitting)
      (proper_build hbuild (by simpa using hne)) c d
    refine ⟨haccepted, castle, hfound, fun h hmem => recover_build hdistinct hbuild hmem, ?_⟩
    intro k hstranger
    apply recover_stranger hbuild
    intro holder hholder
    obtain ⟨h, hmem, rfl⟩ := List.mem_map.mp hholder
    exact hstranger h hmem
  · rintro holders ⟨holder, hmem, huse⟩
    exact build_eq_error id secret hmem huse

def plainFresh : SealEntropy := ⟨Bytes.zeros 32, Bytes.zeros 12, rfl⟩

def firstHolder : KeyHolder :=
  ⟨PrivateKey.ofSecret .encrypt128 (Bytes.zeros 32), plainFresh, .encrypt128, Bytes.zeros 32,
    PrivateKey.sealPair_ofSecret rfl rfl⟩

def secondHolder : KeyHolder :=
  ⟨PrivateKey.ofSecret .encrypt256 (Bytes.zeros 32), plainFresh, .encrypt256, Bytes.zeros 32,
    PrivateKey.sealPair_ofSecret rfl rfl⟩

/-- One holder of each level, the first one listed again at the end. -/
def twoHolders : List KeyHolder := [firstHolder, secondHolder, firstHolder]

theorem mem_twoHolders {h : KeyHolder} (hmem : h ∈ twoHolders) :
    h = firstHolder ∨ h = secondHolder := by
  simp only [twoHolders, List.mem_cons, List.not_mem_nil, or_false] at hmem
  exact hmem.elim Or.inl (fun h => h.symm)

theorem hashes_twoHolders : firstHolder.key.hash ≠ secondHolder.key.hash ∧
    firstHolder.key.hash ≠ Anchor.read.hash ∧ secondHolder.key.hash ≠ Anchor.read.hash := by
  decide +kernel

theorem distinct_twoHolders : KeyHolder.Distinct twoHolders := by
  intro h hmem h' hmem' heq
  obtain rfl | rfl := mem_twoHolders hmem <;> obtain rfl | rfl := mem_twoHolders hmem'
  · rfl
  · exact absurd heq hashes_twoHolders.1
  · exact absurd heq.symm hashes_twoHolders.1
  · rfl

theorem fitting_twoHolders : Fitting [1, 2, 3] (twoHolders.map KeyHolder.holder) where
  secret := by decide
  count := by decide
  names := by
    intro holder hholder
    obtain ⟨h, hmem, rfl⟩ := List.mem_map.mp hholder
    obtain rfl | rfl := mem_twoHolders hmem <;> exact length_encode_keyHash_lt _

theorem opens_for_twoHolders :
    let id : CastleId := ⟨⟨Bytes.zeros 16, rfl⟩⟩
    twoHolders ≠ [] ∧ KeyHolder.Distinct twoHolders ∧
    Fitting [1, 2, 3] (twoHolders.map KeyHolder.holder) ∧
    (∃ castle, build id [1, 2, 3] (twoHolders.map KeyHolder.holder) = .ok castle ∧
      ∀ (c : TrustChain) (d : Delivery),
        (c.receive (Record.encode (.castle castle)) d).2 = true ∧
        ∃ found, (c.receive (Record.encode (.castle castle)) d).1.castle? id = some found ∧
          found.recover firstHolder.key = .ok (some [1, 2, 3]) ∧
          found.recover secondHolder.key = .ok (some [1, 2, 3]) ∧
          found.recover Anchor.read = .ok none) ∧
    ∃ e, build id [1, 2, 3] [firstHolder.holder, ⟨Anchor.write.publicKey, plainFresh⟩] =
      .error e := by
  intro id
  have hne : twoHolders ≠ [] := List.cons_ne_nil _ _
  refine ⟨hne, distinct_twoHolders, fitting_twoHolders, ?_, ?_⟩
  · obtain ⟨castle, hbuild, hcastle⟩ := (opens_for_holders id [1, 2, 3]).1 twoHolders hne
      distinct_twoHolders fitting_twoHolders
    refine ⟨castle, hbuild, fun c d => ?_⟩
    obtain ⟨haccepted, found, hfound, hholders, hothers⟩ := hcastle c d
    refine ⟨haccepted, found, hfound, hholders firstHolder (List.mem_cons_self ..),
      hholders secondHolder (List.mem_cons_of_mem _ (List.mem_cons_self ..)),
      hothers Anchor.read ?_⟩
    intro h hmem
    obtain rfl | rfl := mem_twoHolders hmem
    · exact hashes_twoHolders.2.1
    · exact hashes_twoHolders.2.2
  · apply (opens_for_holders id [1, 2, 3]).2
    refine ⟨⟨Anchor.write.publicKey, plainFresh⟩,
      List.mem_cons_of_mem _ (List.mem_cons_self ..), ?_⟩
    decide +kernel

end Castle

end Provenance

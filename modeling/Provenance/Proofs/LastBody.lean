import Provenance.Proofs.Codec
import Provenance.Proofs.Drafts
import Provenance.Proofs.Sealing

/-!
# The last body is the one that is read

Many steps may set the body of a draft, in the plain or sealed, and each of them sets the mark of
the recipient with it. So the body and the mark of a finished draft are those of the last such step
(`Draft.build_bears`); signing covers both, and the codec keeps both.

Main statement: `Draft.build_readsBack`.
-/

namespace Provenance.Draft

/-! ## The last choice -/

/-- What the last of the steps that choose something has chosen. -/
def lastOf {β : Type} (choose : Step → Option β) (steps : List Step) : Option β :=
  (steps.filterMap choose).getLast?

theorem lastOf_singleton {β : Type} (choose : Step → Option β) (step : Step) :
    lastOf choose [step] = choose step := by
  cases hchoose : choose step <;> simp [lastOf, hchoose]

theorem lastOf_append {β : Type} (choose : Step → Option β) (steps later : List Step) :
    lastOf choose (steps ++ later) = (lastOf choose later).or (lastOf choose steps) := by
  rw [lastOf, List.filterMap_append, List.getLast?_append, lastOf, lastOf]

/-! ## Bodies -/

/-- The step itself, if it sets the body. -/
def Step.bodySetter? : Step → Option Step
  | .setBody body => some (.setBody body)
  | .sealBody key text fresh => some (.sealBody key text fresh)
  | _ => none

/-- The body of a draft, with the mark that belongs to it, is the one that this step sets. -/
inductive Bears (d : Draft) : Option Step → Prop
  | nothing (body : d.body = none) (recipient : d.header.recipient = none) : Bears d none
  | plain {text : Bytes} (body : d.body = some text) (recipient : d.header.recipient = none) :
    Bears d (some (.setBody text))
  | sealed {key : PublicKey} {text sealedText : Bytes} {fresh : SealEntropy}
    (sealing : Sealing.sealTo key.bytes text fresh = .ok sealedText)
    (body : d.body = some sealedText) (recipient : d.header.recipient = some key.hash)
    (reader : key.hash ∈ d.header.readers) : Bears d (some (.sealBody key text fresh))

/-- It is so as long as the body and the mark stay, and no reader is lost. -/
theorem Bears.frame {d d' : Draft} {last : Option Step} (h : d.Bears last)
    (hbody : d'.body = d.body) (hrecipient : d'.header.recipient = d.header.recipient)
    (hreaders : ∀ name, name ∈ d.header.readers → name ∈ d'.header.readers) : d'.Bears last := by
  cases h with
  | nothing body recipient => exact .nothing (hbody.trans body) (hrecipient.trans recipient)
  | plain body recipient => exact .plain (hbody.trans body) (hrecipient.trans recipient)
  | sealed sealing body recipient reader =>
    exact .sealed sealing (hbody.trans body) (hrecipient.trans recipient) (hreaders _ reader)

theorem Bears.perform {d d' : Draft} {step : Step} {last : Option Step} (h : d.Bears last)
    (hs : d.perform step = .ok d') : d'.Bears (step.bodySetter?.or last) := by
  cases step with
  | setBody text =>
    cases hs
    exact .plain rfl rfl
  | sealBody key text fresh =>
    obtain ⟨sealedText, hsealed, rfl⟩ := sealBody_eq_ok hs
    exact .sealed hsealed rfl rfl (NameSet.mem_insert.mpr (Or.inl rfl))
  | allowReaders names =>
    cases hs
    exact h.frame rfl rfl (fun name hname => NameSet.mem_insertAll.mpr (Or.inr hname))
  | _ =>
    cases hs
    exact h.frame rfl rfl (fun _ hname => hname)

theorem Bears.build {d d' : Draft} {steps : List Step} {last : Option Step} (h : d.Bears last)
    (hb : d.build steps = .ok d') : d'.Bears ((lastOf Step.bodySetter? steps).or last) := by
  -- What the first step leaves is where the rest start, so the start is any draft.
  induction steps generalizing d last with
  | nil =>
    cases hb
    exact h
  | cons step steps ih =>
    rw [Draft.build] at hb
    split at hb
    · rename_i d₁ hd₁
      have hrest := ih (h.perform hd₁) hb
      rw [← List.singleton_append, lastOf_append, lastOf_singleton, Option.or_assoc]
      exact hrest
    · cases hb

/-- The body of a draft that was built is that of the last step that sets one. -/
theorem build_bears {id : ObjectId} {version : VersionId} {payloadType : String} {steps : List Step}
    {d : Draft} (h : (new id version payloadType).build steps = .ok d) :
    d.Bears (lastOf Step.bodySetter? steps) := by
  have hstart : (new id version payloadType).Bears none := .nothing rfl rfl
  have hbears := hstart.build h
  rwa [Option.or_none] at hbears

/-- A text that the cipher takes can be sealed to every key for encryption. -/
theorem sealBody_isOk {key : PublicKey} (huse : key.use? = some .encrypt) {text : Bytes}
    (hfits : ChaChaPoly.fits text = true) (d : Draft) (fresh : SealEntropy) :
    ∃ d', d.sealBody key text fresh = .ok d' := by
  obtain ⟨p, hdetect⟩ := PublicKey.detectFor_of_use? huse
  obtain ⟨sealedText, hsealed⟩ := Sealing.sealTo_isOk fresh hdetect hfits
  rw [sealBody, if_pos huse, hsealed]
  exact ⟨_, rfl⟩

/-! ## Reading -/

/-- Signing keeps the body and the header, up to the signer, and attests to what it keeps. -/
theorem sign_keeps {d : Draft} {k : PrivateKey} {r : Revision} (h : d.sign k = .ok r) :
    r.header = { d.header with signer := some k.hash } ∧ r.body = d.body ∧
      ∃ signature, r.attestation = some ⟨r.header.digest r.body, signature⟩ := by
  simp only [sign, bind, Except.bind] at h
  split at h
  · cases h
  · cases h
    exact ⟨rfl, rfl, _, rfl⟩

theorem sized_sign {d : Draft} {k : PrivateKey} {p : Profile} (hk : k.SignPair p) {r : Revision}
    (hsign : d.sign k = .ok r) (hheader : { d.header with signer := some k.hash }.Sized)
    (hbody : ∀ body ∈ d.body, body.length < 2 ^ 64) : r.Sized := by
  obtain ⟨hr, hrbody, hattestation⟩ := (sign_eq_ok hk d r).mp hsign
  refine ⟨hr ▸ hheader, ?_, hrbody ▸ hbody⟩
  intro a ha
  rw [hattestation] at ha
  obtain rfl := Option.mem_some_iff.mp ha
  refine ⟨?_, ?_⟩
  · show (sha256 _).length < 2 ^ 64
    rw [length_sha256]
    decide
  · rw [Ed25519.length_sign]
    decide

/-- The digest of the revision holds, it is marked for a recipient exactly if this step has sealed
the body to one, who may then read, and what is read of the body is what this step has set it to:
nothing without a step, a plain text with any key, and a sealed text with the secret half of the key
that it was sealed to. -/
structure ReadsBack (r : Revision) (last : Option Step) : Prop where
  digest : r.digestMatches = true
  recipient : ∀ hash, r.header.recipient = some hash ↔
    ∃ key text fresh, last = some (.sealBody key text fresh) ∧ key.hash = hash
  reader : ∀ hash, r.header.recipient = some hash → hash ∈ r.header.readers
  nothing : last = none → ∀ secretKey, r.plaintext secretKey = .ok none
  plain : ∀ text, last = some (.setBody text) →
    ∀ secretKey, r.plaintext secretKey = .ok (some text)
  sealed : ∀ key text fresh, last = some (.sealBody key text fresh) →
    ∀ (k : PrivateKey) (p : Profile) (secret : Bytes), k.SealPair p secret →
      k.publicKey.bytes = key.bytes → r.plaintext k.secretBytes = .ok (some text)

theorem Bears.readsBack {d : Draft} {last : Option Step} (h : d.Bears last) {k : PrivateKey}
    {r : Revision} (hsign : d.sign k = .ok r) : ReadsBack r last := by
  obtain ⟨hheader, hbody, signature, hattestation⟩ := sign_keeps hsign
  have hdigest : r.digestMatches = true := by
    simp only [Revision.digestMatches, hattestation, decide_eq_true_eq]
  have hmark : r.header.recipient = d.header.recipient := by rw [hheader]
  have hreaders : r.header.readers = d.header.readers := by rw [hheader]
  cases h with
  | nothing body recipient =>
    rw [recipient] at hmark
    rw [body] at hbody
    exact {
      digest := hdigest
      recipient := by simp [hmark]
      reader := by simp [hmark]
      nothing := fun _ secretKey => by simp only [Revision.plaintext, hbody]
      plain := fun _ h => by cases h
      sealed := fun _ _ _ h => by cases h }
  | @plain text body recipient =>
    rw [recipient] at hmark
    rw [body] at hbody
    exact {
      digest := hdigest
      recipient := by simp [hmark]
      reader := by simp [hmark]
      nothing := fun h => by cases h
      plain := fun _ h secretKey => by
        cases h
        simp only [Revision.plaintext, hbody, hmark]
      sealed := fun _ _ _ h => by cases h }
  | @sealed key text sealedText fresh sealing body recipient reader =>
    rw [recipient] at hmark
    rw [body] at hbody
    exact {
      digest := hdigest
      recipient := fun hash => by
        rw [hmark, Option.some.injEq]
        constructor
        · exact fun h => ⟨key, text, fresh, rfl, h⟩
        · rintro ⟨key', text', fresh', h, rfl⟩
          cases h
          rfl
      reader := fun hash h => by
        rw [hmark] at h
        cases h
        rw [hreaders]
        exact reader
      nothing := fun h => by cases h
      plain := fun _ h => by cases h
      sealed := fun key' text' fresh' h k' p secret hpair hbytes => by
        cases h
        rw [← hbytes] at sealing
        have hopen := Sealing.openSealed_sealTo hpair sealing
        simp only [Revision.plaintext, hbody, hmark, hopen, Except.map] }

/-- **The last body.** Whatever the steps that a revision was built in, in any order and number, it
reads back as the last of them that sets the body has it, and so does the revision that is decoded
from its record. All sizes in the record are numbers of 64 bits. -/
theorem build_readsBack {id : ObjectId} {version : VersionId} {payloadType : String}
    {steps : List Step} {d : Draft} (hbuild : (new id version payloadType).build steps = .ok d)
    {k : PrivateKey} {r : Revision} (hsign : d.sign k = .ok r) :
    ReadsBack r (lastOf Step.bodySetter? steps) ∧
      (r.Sized → ∀ rest, ∃ r', Record.decode (Record.encode (.data r) ++ rest) = .ok (.data r') ∧
        ReadsBack r' (lastOf Step.bodySetter? steps)) := by
  have hreads := (build_bears hbuild).readsBack hsign
  refine ⟨hreads, fun hsized rest => ⟨r, ?_, hreads⟩⟩
  exact Record.decode_encode_data hsized.toItem rest

/-- A plain body that is replaced by a sealed one leaves no trace in the record. -/
theorem build_readsBack_sealed :
    let key := PrivateKey.ofSecret .encrypt128 (Bytes.zeros 32)
    let fresh : SealEntropy := ⟨Bytes.zeros 32, Bytes.zeros 12, rfl⟩
    let steps : List Step :=
      [.setBody [1, 2, 3], .sealBody key.publicKey [4, 5] fresh, .setImmutable true]
    ∃ d r, (new ⟨.replicate 1⟩ ⟨.replicate 2⟩ "Account").build steps = .ok d ∧
      d.sign (PrivateKey.ofSecret .sign64 (Bytes.zeros 32)) = .ok r ∧
        ∃ r', Record.decode (Record.encode (.data r)) = .ok (.data r') ∧ r'.digestMatches = true ∧
          r'.header.recipient = some key.hash ∧
            r'.plaintext key.secretBytes = .ok (some [4, 5]) := by
  intro key fresh steps
  have hpair : key.SealPair .encrypt128 (Bytes.zeros 32) := PrivateKey.sealPair_ofSecret rfl rfl
  have hsigner : (PrivateKey.ofSecret .sign64 (Bytes.zeros 32)).SignPair .sign64 :=
    PrivateKey.signPair_ofSecret rfl rfl
  obtain ⟨d, hd⟩ := sealBody_isOk hpair.use? (show ChaChaPoly.fits [4, 5] = true by decide)
    ((new ⟨.replicate 1⟩ ⟨.replicate 2⟩ "Account").setBody [1, 2, 3]) fresh
  have hbuild : (new ⟨.replicate 1⟩ ⟨.replicate 2⟩ "Account").build steps =
      .ok (d.setImmutable true) := by
    show build _ [_, _, _] = _
    simp only [build, perform, hd]
  obtain ⟨r, hr⟩ := sign_isOk hsigner (d.setImmutable true)
  obtain ⟨sealedText, hsealed, rfl⟩ := sealBody_eq_ok hd
  have hlast : lastOf Step.bodySetter? steps = some (.sealBody key.publicKey [4, 5] fresh) := rfl
  have hsized : r.Sized := by
    apply sized_sign hsigner hr
    · refine ⟨show (Utf8.encode "Account").length < 2 ^ 64 by decide, fun hash hhash => ?_,
        fun hash hhash => ?_, ?_, NameSet.sized_empty⟩
      · obtain rfl : (PrivateKey.ofSecret .sign64 (Bytes.zeros 32)).hash = hash :=
          Option.some.inj hhash
        exact length_encode_keyHash_lt _
      · obtain rfl : key.hash = hash := Option.some.inj hhash
        exact length_encode_keyHash_lt _
      · exact NameSet.sized_singleton (length_encode_keyHash_lt _)
    · intro body hbody
      obtain rfl : sealedText = body := Option.some.inj hbody
      rw [Sealing.length_sealTo hsealed]
      decide
  obtain ⟨r', hdecode, hreads⟩ := (build_readsBack hbuild hr).2 hsized []
  rw [List.append_nil] at hdecode
  rw [hlast] at hreads
  refine ⟨_, r, hbuild, hr, r', hdecode, hreads.digest, ?_, ?_⟩
  · exact (hreads.recipient key.hash).mpr ⟨_, _, _, rfl, rfl⟩
  · exact hreads.sealed _ _ _ rfl key _ _ hpair rfl

end Provenance.Draft

import Provenance.Proofs.LastBody
import Provenance.Proofs.SelfDelimiting

/-!
# It does not matter how a revision is put together

Steps that seal nothing never fail, and the draft that they end in can be written down at once
(`Draft.build_assembled`): each field with one value has the last one that was chosen, and each
permission set has the names that were given to it. So two lists of steps lead to the same draft
exactly if they agree in these (`Draft.Agree`).

Main statement: `Draft.sign_agree`.
-/

namespace Provenance

theorem NameSet.ofList_append (names later : List String) :
    ofList (names ++ later) = (ofList names).insertAll later :=
  List.foldl_append

/-- It is one set of names, whatever the order and the number of times that they are given. -/
theorem NameSet.ofList_eq_iff {names others : List String} :
    ofList names = ofList others ↔ ∀ name, name ∈ names ↔ name ∈ others := by
  constructor
  · intro h name
    rw [← mem_ofList, h, mem_ofList]
  · intro h
    apply ext_mem
    intro name
    rw [mem_ofList, mem_ofList, h name]

namespace Draft

/-! ## What a step chooses -/

namespace Step

/-- A step that does not depend on a key. -/
def isPlain : Step → Bool
  | .sealBody _ _ _ => false
  | _ => true

def version? : Step → Option VersionId
  | .setVersion version => some version
  | _ => none

def parent? : Step → Option VersionId
  | .setParent parent => some parent
  | _ => none

def immutable? : Step → Option Bool
  | .setImmutable immutable => some immutable
  | _ => none

def body? : Step → Option Bytes
  | .setBody body => some body
  | _ => none

/-- The names that the step lets write. -/
def writers : Step → List String
  | .allowWriters names => names
  | _ => []

/-- The names that the step lets read. -/
def readers : Step → List String
  | .allowReaders names => names
  | _ => []

end Step

/-! ## The draft in one piece -/

/-- The draft that has, of every field, what the steps say about it as a whole. -/
def assembled (id : ObjectId) (fresh : VersionId) (payloadType : String) (steps : List Step) :
    Draft where
  header := {
    id := id
    version := (lastOf Step.version? steps).getD fresh
    parent := lastOf Step.parent? steps
    payloadType := payloadType
    signer := none
    recipient := none
    readers := NameSet.ofList (steps.flatMap Step.readers)
    writers := NameSet.ofList (steps.flatMap Step.writers)
    immutable := (lastOf Step.immutable? steps).getD false }
  body := lastOf Step.body? steps

section

variable (id : ObjectId) (fresh fresh' : VersionId) (payloadType : String)

theorem perform_assembled {step : Step} (h : step.isPlain = true) (steps : List Step) :
    (assembled id fresh payloadType steps).perform step =
      .ok (assembled id fresh payloadType (steps ++ [step])) := by
  simp only [assembled, lastOf_append, lastOf_singleton, List.flatMap_append,
    List.flatMap_singleton, NameSet.ofList_append]
  cases step with
  | sealBody key text fresh => cases h
  | _ => rfl

theorem build_assembled_from {later : List Step} (h : ∀ step ∈ later, step.isPlain = true)
    (steps : List Step) :
    (assembled id fresh payloadType steps).build later =
      .ok (assembled id fresh payloadType (steps ++ later)) := by
  induction later generalizing steps with
  | nil => rw [build, List.append_nil]
  | cons step later ih =>
    obtain ⟨hstep, hlater⟩ := List.forall_mem_cons.mp h
    rw [build, perform_assembled id fresh payloadType hstep]
    simp only [ih hlater, List.append_assoc, List.singleton_append]

/-- Steps that seal nothing all succeed. -/
theorem build_assembled {steps : List Step} (h : ∀ step ∈ steps, step.isPlain = true) :
    (new id fresh payloadType).build steps = .ok (assembled id fresh payloadType steps) :=
  build_assembled_from id fresh payloadType h []

/-! ## Agreement -/

/-- The steps choose the same values in the end, where the version is fresh unless one is chosen,
and give the same names. -/
structure Agree (fresh fresh' : VersionId) (steps steps' : List Step) : Prop where
  version : (lastOf Step.version? steps).getD fresh = (lastOf Step.version? steps').getD fresh'
  parent : lastOf Step.parent? steps = lastOf Step.parent? steps'
  immutable : (lastOf Step.immutable? steps).getD false = (lastOf Step.immutable? steps').getD false
  body : lastOf Step.body? steps = lastOf Step.body? steps'
  readers : ∀ name, name ∈ steps.flatMap Step.readers ↔ name ∈ steps'.flatMap Step.readers
  writers : ∀ name, name ∈ steps.flatMap Step.writers ↔ name ∈ steps'.flatMap Step.writers

variable {fresh fresh'} {steps steps' : List Step}

theorem Agree.assembled_eq (h : Agree fresh fresh' steps steps') :
    assembled id fresh payloadType steps = assembled id fresh' payloadType steps' := by
  have hreaders := NameSet.ofList_eq_iff.mpr h.readers
  have hwriters := NameSet.ofList_eq_iff.mpr h.writers
  simp only [assembled, h.version, h.parent, h.immutable, h.body, hreaders, hwriters]

/-- Nothing that the steps say is lost in a signed header with its body. -/
theorem agree_of_signed {signer : String}
    (hheader : { (assembled id fresh payloadType steps).header with signer := some signer } =
      { (assembled id fresh' payloadType steps').header with signer := some signer })
    (hbody : (assembled id fresh payloadType steps).body =
      (assembled id fresh' payloadType steps').body) : Agree fresh fresh' steps steps' where
  version := congrArg Header.version hheader
  parent := congrArg Header.parent hheader
  immutable := congrArg Header.immutable hheader
  body := hbody
  readers := NameSet.ofList_eq_iff.mp (congrArg Header.readers hheader)
  writers := NameSet.ofList_eq_iff.mp (congrArg Header.writers hheader)

end

/-- **Assembly.** Two builders of an object that seal nothing both succeed. If their steps agree
then every key gives the same result for both, and with a key pair that is one revision, with its
header, its canonical bytes, its digest and its signature. If they do not agree, then a key pair
signs two revisions, which already differ in the canonical bytes or in the body. -/
theorem sign_agree (id : ObjectId) (fresh fresh' : VersionId) (payloadType : String)
    {steps steps' : List Step} (hplain : ∀ step ∈ steps, step.isPlain = true)
    (hplain' : ∀ step ∈ steps', step.isPlain = true) :
    ∃ d d', (new id fresh payloadType).build steps = .ok d ∧
      (new id fresh' payloadType).build steps' = .ok d' ∧
      (Agree fresh fresh' steps steps' → ∀ k, d.sign k = d'.sign k) ∧
      ∀ (k : PrivateKey) (p : Profile), k.SignPair p →
        ∃ r r', d.sign k = .ok r ∧ d'.sign k = .ok r' ∧
          (Agree fresh fresh' steps steps' ↔ r = r') ∧
          (r.header.Sized → r'.header.Sized → (r = r' ↔
            r.header.canonicalBytes = r'.header.canonicalBytes ∧ r.body = r'.body)) := by
  refine ⟨_, _, build_assembled id fresh payloadType hplain,
    build_assembled id fresh' payloadType hplain', fun h k => ?_, fun k p hk => ?_⟩
  · rw [h.assembled_eq id payloadType]
  · obtain ⟨r, hr⟩ := sign_isOk hk (assembled id fresh payloadType steps)
    obtain ⟨r', hr'⟩ := sign_isOk hk (assembled id fresh' payloadType steps')
    obtain ⟨hheader, hbody, -⟩ := sign_keeps hr
    obtain ⟨hheader', hbody', -⟩ := sign_keeps hr'
    have hagree : r.header = r'.header → r.body = r'.body → Agree fresh fresh' steps steps' := by
      intro hh hb
      rw [hheader, hheader'] at hh
      rw [hbody, hbody'] at hb
      exact agree_of_signed id payloadType hh hb
    have hsame : Agree fresh fresh' steps steps' → r = r' := by
      intro h
      rw [h.assembled_eq id payloadType, hr'] at hr
      exact (Except.ok.inj hr).symm
    refine ⟨r, r', hr, hr', ⟨hsame, ?_⟩, fun hsized hsized' => ⟨?_, ?_⟩⟩
    · rintro rfl
      exact hagree rfl rfl
    · rintro rfl
      exact ⟨rfl, rfl⟩
    · rintro ⟨hbytes, hb⟩
      have hh := (Header.canonicalBytes_append_inj hsized.canonicalItem hsized'.canonicalItem
        (congrArg (· ++ []) hbytes)).1
      exact hsame (hagree hh hb)

/-- The same names in other orders and numbers, and values that are replaced later on. -/
theorem sign_agree_shuffled :
    let steps : List Step := [.setVersion ⟨.replicate 4⟩, .allowWriters ["b", "a"], .setBody [1],
      .allowReaders ["c"], .setParent ⟨.replicate 5⟩]
    let steps' : List Step := [.setBody [9], .allowWriters ["a"], .setParent ⟨.replicate 5⟩,
      .setVersion ⟨.replicate 6⟩, .allowReaders ["c", "c"], .setImmutable false, .setBody [1],
      .allowWriters ["a", "b"], .setVersion ⟨.replicate 4⟩]
    ∃ d d' r, (new ⟨.replicate 1⟩ ⟨.replicate 2⟩ "Account").build steps = .ok d ∧
      (new ⟨.replicate 1⟩ ⟨.replicate 3⟩ "Account").build steps' = .ok d' ∧
        d.sign Anchor.write = .ok r ∧ d'.sign Anchor.write = .ok r := by
  intro steps steps'
  have hplain : ∀ step ∈ steps, step.isPlain = true := by decide
  have hplain' : ∀ step ∈ steps', step.isPlain = true := by decide
  obtain ⟨d, d', hd, hd', -, hpair⟩ := sign_agree ⟨.replicate 1⟩ ⟨.replicate 2⟩ ⟨.replicate 3⟩
    "Account" hplain hplain'
  obtain ⟨r, r', hr, hr', hagree, -⟩ := hpair Anchor.write .sign64 Anchor.signPair_write
  have hsame : Agree ⟨.replicate 2⟩ ⟨.replicate 3⟩ steps steps' := by
    refine ⟨rfl, rfl, rfl, rfl, fun name => ?_, fun name => ?_⟩
    · simp [steps, steps', Step.readers]
    · simp [steps, steps', Step.writers, or_comm]
  obtain rfl := hagree.mp hsame
  exact ⟨d, d', r, hd, hd', hr, hr'⟩

end Draft

end Provenance

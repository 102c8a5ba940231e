import Provenance.Proofs.Redelivery
import Provenance.Proofs.Separation

/-!
# Batches

A batch of revisions is validated before it is committed: one validator judges each member, with
the members before it staged (`Validator.AcceptsBatch`). The validator keeps one staged revision of
an object, where the chain has the whole history to go by. Main statement `promoted_batch`: what the
validator accepts, the chain commits.

`Foresees` is what ties the two sides together in the middle of a batch. A staged revision that was
replaced by a later one is missing from the view of the validator, but as the later one passed, it
was not immutable, and a parent or a write set is not taken from it any more.
-/

namespace Provenance

/-- The validator accepts the revisions in their order, each staged for those behind it. -/
def Validator.AcceptsBatch (v : Validator) : List Revision → Prop
  | [] => True
  | r :: batch => v.check r = .ok () ∧ (v.stage r).AcceptsBatch batch

/-- No object has two of the entries under one version. -/
def Entry.DistinctVersions (batch : List Entry) : Prop :=
  batch.Pairwise (fun e e' => e.revision.id = e'.revision.id →
    e.revision.version ≠ e'.revision.version)

/-- To validate and commit the revision of an entry. -/
def Entry.promotion (e : Entry) : Operation := .promote e.revision e.delivery

theorem Validator.key?_stage (v : Validator) (r : Revision) : (v.stage r).key? = v.key? := rfl

namespace TrustChain

/-! ## In the middle of a batch -/

/-- What the validator reads of an object is what the chain has of it, where the validator has the
last revision of the object staged and the chain has it committed. -/
structure Foresees (v : Validator) (c : TrustChain) : Prop where
  key : v.key? = c.key?
  resolve : v.resolve? = c.resolve?
  publicWriter : v.publicWriter = c.publicWriter
  root : v.root? = c.root?
  committed : ∀ id h, v.history? id = some h → ∀ e ∈ h.entries, e ∈ c.entries id
  unstaged : ∀ id, v.staged.find? id = none → v.history? id = c.history? id
  staged : ∀ id s, v.staged.find? id = some s → Entry.latestSigned? (c.entries id) = some s
  immutable : ∀ id, c.isImmutable id = ((v.root? id).any (fun root => root.immutable) ||
    (v.history? id).any (fun h => h.isImmutable) ||
      (v.staged.find? id).any (fun s => s.header.immutable))

theorem foresees_validator (c : TrustChain) : Foresees c.validator c where
  key := rfl
  resolve := rfl
  publicWriter := rfl
  root := rfl
  committed id h hh e he := by
    rw [entries_of_history? hh]
    exact he
  unstaged _ _ := rfl
  staged _ _ hs := nomatch hs
  immutable id := by
    have hnone : c.validator.staged.find? id = none := rfl
    rw [hnone, Option.any_none, Bool.or_false, Bool.or_comm]
    rfl

section

variable {v : Validator} {c : TrustChain} {r : Revision} {d : Delivery}

theorem Foresees.writeSet (h : Foresees v c) {header : Header}
    (hfresh : ∀ s, v.staged.find? header.id = some s → s.version ≠ header.version) :
    v.writeSet header = c.writersFor header := by
  have hpredecessor := Validator.stagedPredecessor?_eq hfresh
  cases hs : v.staged.find? header.id with
  | none =>
    rw [← writeSet_validator, Validator.writeSet, Validator.writeSet, hpredecessor, hs, h.root,
      h.unstaged header.id hs]
    rfl
  | some s =>
    rw [Validator.writeSet, writersFor, hpredecessor, hs, h.staged header.id s hs]
    rfl

theorem Foresees.admits (h : Foresees v c) (writers : NameSet) (hash : String) :
    v.admits writers hash = true ↔ c.Admits writers hash := by
  rw [Validator.admits_eq_true, h.publicWriter, h.resolve]
  rfl

theorem Foresees.acceptable (h : Foresees v c)
    (hfresh : ∀ s, v.staged.find? r.id = some s → s.version ≠ r.version)
    (hcheck : v.check r = .ok ()) : ∃ a k, c.Acceptable r a k := by
  obtain ⟨a, k, ha, hsigner, hattests, hparent, himmutable, hadmits⟩ :=
    (Validator.check_eq_ok v r).mp hcheck
  obtain ⟨hsigner, hkey, hmatches⟩ := Validator.signerKey?_eq_some.mp hsigner
  have hpredecessor : v.stagedPredecessor? r.header = v.staged.find? r.id :=
    Validator.stagedPredecessor?_eq hfresh
  refine ⟨a, k, ⟨ha, hsigner, ?_, hmatches, hattests, ?_, ?_⟩, ?_⟩
  · rw [← h.key]
    exact hkey
  · intro parent hp
    rcases Validator.parentImmutable?_eq_some (Validator.checkParent_eq_ok hparent parent hp) with
      ⟨history, hhistory, e, he, hversion⟩ | ⟨s, hs, hversion⟩
    · exact ⟨e, h.committed r.id history hhistory e he, hversion⟩
    · rw [hpredecessor] at hs
      obtain ⟨e, he, rfl⟩ := Entry.mem_of_latestSigned? (h.staged r.id s hs)
      exact ⟨e, he, hversion⟩
  · rw [h.immutable, ← hpredecessor]
    exact himmutable
  · rw [h.writeSet hfresh, h.admits] at hadmits
    exact hadmits

/-- To stage an accepted revision keeps up with the chain that commits it. -/
theorem Foresees.stage (h : Foresees v c) {a : Attestation} {k : PublicKey}
    (hacc : c.Acceptable r a k) {c' : TrustChain} {js : List Journal}
    (hc' : c' = { c.append r d with listeners := js }) : Foresees (v.stage r) c' := by
  have hsigned : r.isSigned = true := by
    rw [Revision.isSigned, hacc.attestation]
    rfl
  have hentries := entries_of_append hc'
  have himmutable := isImmutable_of_append hc'
  have hstaged : ∀ id, (v.stage r).staged.find? id = _ := Table.find?_insert r.id r v.staged
  subst hc'
  refine ⟨h.key, h.resolve, h.publicWriter, h.root, ?_, ?_, ?_, ?_⟩
  · intro id history hold e he
    rw [hentries]
    have hmem := h.committed id history hold e he
    split
    · exact List.mem_append_left _ hmem
    · exact hmem
  · intro id hnone
    rw [hstaged] at hnone
    -- Another object, of which the commit leaves the history as it is.
    split at hnone
    · cases hnone
    · rename_i hid
      exact (h.unstaged id hnone).trans (Table.find?_insert_of_ne hid _ _).symm
  · intro id s hs
    rw [hstaged] at hs
    rw [hentries]
    split at hs
    · obtain rfl := Option.some.inj hs
      rw [if_pos ‹_›]
      exact Entry.latestSigned?_append hsigned
    · rw [if_neg ‹_›]
      exact h.staged id s hs
  · intro id
    have hbefore := h.immutable id
    rw [himmutable, hstaged]
    split
    · -- The staged revision that is replaced was not immutable, so that nothing is lost.
      rename_i hid
      subst hid
      rw [hacc.notImmutable, eq_comm, Bool.or_eq_false_iff] at hbefore
      rw [hacc.notImmutable, Validator.stage, hbefore.1]
      rfl
    · exact hbefore

/-! ## Whole batches -/

theorem Foresees.promoted (h : Foresees v c) {batch : List Entry}
    (hdistinct : Entry.DistinctVersions batch)
    (hfresh : ∀ e ∈ batch, ∀ s, v.staged.find? e.revision.id = some s →
      s.version ≠ e.revision.version)
    (hvalid : v.AcceptsBatch (batch.map Entry.revision)) :
    c.trace (batch.map Entry.promotion) = batch.map (fun e => (e.promotion, true)) ∧
      ∀ id, (c.run (batch.map Entry.promotion)).entries id =
        c.entries id ++ batch.filter (fun e => e.revision.id = id) := by
  induction batch generalizing v c with
  | nil => exact ⟨rfl, fun id => (List.append_nil _).symm⟩
  | cons e batch ih =>
    obtain ⟨hcheck, hvalid⟩ := hvalid
    obtain ⟨hother, hdistinct⟩ := List.pairwise_cons.mp hdistinct
    obtain ⟨a, k, hacc⟩ := h.acceptable (hfresh e (List.mem_cons_self ..)) hcheck
    have haccepted : (c.perform e.promotion).2 = true :=
      (promote_accepted c e.revision e.delivery).mpr ⟨a, k, hacc⟩
    have hrecord : e.promotion.record? = some (.data e.revision) := rfl
    obtain ⟨js, hjs⟩ := perform_append rfl hrecord rfl haccepted
    have hfresh' : ∀ e' ∈ batch, ∀ s,
        (v.stage e.revision).staged.find? e'.revision.id = some s →
          s.version ≠ e'.revision.version := by
      intro e' he' s hs
      rw [Validator.stage, Table.find?_insert] at hs
      split at hs
      · obtain rfl := Option.some.inj hs
        exact hother e' he' ‹_›
      · exact hfresh e' (List.mem_cons_of_mem e he') s hs
    obtain ⟨htrace, hentries⟩ := ih (h.stage hacc hjs) hdistinct hfresh' hvalid
    constructor
    · rw [List.map_cons, trace, haccepted, htrace]
      rfl
    · intro id
      rw [List.map_cons, run, hentries, entries_of_append hjs, List.filter_cons]
      by_cases hid : e.revision.id = id
      · simp only [hid, if_true, decide_true, List.append_assoc, List.singleton_append]
      · simp only [hid, if_false, decide_false, Bool.false_eq_true]

end

/-- **Batches.** Let one validator of a chain accept the revisions of a batch, each with the ones
before it staged, where no object has two of them under one version. Then the chain accepts every
one of them when they are promoted in this order, and the history of each object has its revisions
of the batch behind what it had before. -/
theorem promoted_batch (c : TrustChain) {batch : List Entry}
    (hdistinct : Entry.DistinctVersions batch)
    (hvalid : c.validator.AcceptsBatch (batch.map Entry.revision)) :
    c.trace (batch.map Entry.promotion) = batch.map (fun e => (e.promotion, true)) ∧
      ∀ id, (c.run (batch.map Entry.promotion)).entries id =
        c.entries id ++ batch.filter (fun e => e.revision.id = id) :=
  (foresees_validator c).promoted hdistinct (fun _ _ _ hs => nomatch hs) hvalid

/-- The first revision of the parcel and the next one, whose parent is the first. -/
def parcelBatch : List Entry := [⟨original, .direct 0 0⟩, ⟨edited, .direct 0 0⟩]

theorem acceptsBatch_parcelBatch :
    informed.validator.AcceptsBatch (parcelBatch.map Entry.revision) := by
  have hfirst := acceptable_original
  have hopened : (opened []).key? courier.hash = some courier := key?_informed
  obtain ⟨a, k, hsecond⟩ := acceptable_signNeutral (c := opened []) keyed_informed rfl
    hopened (entitled_edited [])
  have hhash : courier.hash = k.hash := Option.some.inj hsecond.signer
  have hknown := hsecond.known
  rw [← hhash, hopened] at hknown
  obtain rfl : courier = k := Option.some.inj hknown
  have hstaged : (informed.validator.stage original).key? courier.hash = some courier := by
    rw [Validator.key?_stage, (foresees_validator informed).key]
    exact key?_informed
  have hkey : (informed.validator.stage original).signerKey? edited.header = some courier :=
    Validator.signerKey?_eq_some.mpr ⟨hsecond.signer, hstaged, hsecond.hashMatches⟩
  have hparent : (informed.validator.stage original).parentImmutable? edited.header
      original.version = some false := by
    decide +kernel
  have hcheck : (informed.validator.stage original).checkParent edited.header = .ok () := by
    rw [Validator.checkParent, show edited.header.parent = some original.version from rfl]
    simp only [hparent]
  refine ⟨(check_validator informed original).mpr hfirst, ?_, trivial⟩
  refine (Validator.check_eq_ok _ edited).mpr
    ⟨a, courier, hsecond.attestation, hkey, hsecond.attests, hcheck, rfl, ?_⟩
  rw [Validator.admits_eq_true]
  exact Or.inr (Or.inl (NameSet.mem_ofList.mpr (List.mem_singleton_self _)))

theorem parcelBatch_promoted :
    Entry.DistinctVersions parcelBatch ∧
      (informed.run (parcelBatch.map Entry.promotion)).entries parcel.id = parcelBatch := by
  have hdistinct : Entry.DistinctVersions parcelBatch := by
    unfold Entry.DistinctVersions
    decide
  obtain ⟨-, hentries⟩ := promoted_batch informed hdistinct acceptsBatch_parcelBatch
  exact ⟨hdistinct, hentries parcel.id⟩

end TrustChain

end Provenance

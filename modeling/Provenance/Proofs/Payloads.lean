import Provenance.Proofs.Redelivery

/-!
# Payloads

Whether an object has a payload is found by replaying its history, and a history has entries of
three sorts: with a body, with a digest alone, and anchors.

* `Entry.hasPayload_eq`: in every list of entries the last one with a body or a digest decides;
* `TrustChain.hasObject_addRoot`: an anchor leaves every payload as it is;
* `TrustChain.run_payload`: after a run that receives records and anchors objects, an object exists
  exactly if its latest signed revision has a body.

The replay looks at bodies first, and the latest signed revision is found by its digest. The two
agree as no run of this kind commits a body without a digest (`TrustChain.BodiesSigned`).
-/

namespace Provenance

/-! ## The last write -/

namespace Entry

/-- Whether an entry says anything about the payload: it has a body or a digest. -/
def isWrite (e : Entry) : Bool := e.revision.hasBody || e.revision.isSigned

def latestWrite? (entries : List Entry) : Option Entry := (entries.filter isWrite).getLast?

theorem liveAfter_eq (live : Bool) (e : Entry) :
    liveAfter live e = if e.isWrite then e.revision.hasBody else live := by
  unfold liveAfter isWrite Revision.isTombstone
  cases e.revision.hasBody <;> cases e.revision.isSigned <;> rfl

theorem latestWrite?_append (entries : List Entry) (e : Entry) :
    latestWrite? (entries ++ [e]) = if e.isWrite then some e else latestWrite? entries := by
  unfold latestWrite?
  rw [List.filter_append, List.filter_singleton]
  cases e.isWrite with
  | true => exact List.getLast?_concat
  | false => exact congrArg List.getLast? (List.append_nil _)

/-- The last write decides, and without a write there is no payload. -/
theorem hasPayload_eq (entries : List Entry) :
    hasPayload entries = (latestWrite? entries).any (fun e => e.revision.hasBody) := by
  induction entries using List.reverseRecOn with
  | nil => rfl
  | append_singleton entries e ih =>
    rw [hasPayload_append, liveAfter_eq, latestWrite?_append, ih]
    split <;> rfl

/-- Where every body comes with a digest, the last write is the latest signed revision. -/
theorem latestSigned?_eq {entries : List Entry}
    (h : ∀ e ∈ entries, e.revision.hasBody = true → e.revision.isSigned = true) :
    latestSigned? entries = (latestWrite? entries).map (fun e => e.revision) := by
  induction entries using List.reverseRecOn with
  | nil => rfl
  | append_singleton entries e ih =>
    have he : e.isWrite = e.revision.isSigned := by
      have hbody := h e (List.mem_append_right _ (List.mem_singleton_self e))
      unfold isWrite
      cases hb : e.revision.hasBody with
      | false => rfl
      | true => rw [hbody hb]; rfl
    rw [latestSigned?_concat, latestWrite?_append, he,
      ih (fun e he => h e (List.mem_append_left _ he))]
    split <;> rfl

theorem latestSigned?_eq_none {entries : List Entry} :
    latestSigned? entries = none ↔ ∀ e ∈ entries, e.revision.isSigned = false := by
  simp [latestSigned?]

end Entry

namespace TrustChain

/-! ## Anchors -/

/-- An anchor, also a second one, leaves every payload as it is. -/
theorem hasObject_addRoot (c : TrustChain) (h : Header) (d : Delivery) (id : ObjectId) :
    (c.addRoot h d).hasObject id = c.hasObject id := by
  have hentries : (c.addRoot h d).entries id =
      if h.id = id then c.entries id ++ [⟨Revision.ofHeader h, d⟩] else c.entries id :=
    (perform_addRoot c h d id).2
  have hanchor : ∀ live, Entry.liveAfter live ⟨Revision.ofHeader h, d⟩ = live := fun _ => rfl
  rw [hasObject_eq, hasObject_eq, hentries]
  split
  · rw [Entry.hasPayload_append, hanchor]
  · rfl

/-! ## Runs -/

/-- Every body in a history came with a digest. -/
def BodiesSigned (c : TrustChain) : Prop :=
  ∀ id, ∀ e ∈ c.entries id, e.revision.hasBody = true → e.revision.isSigned = true

theorem BodiesSigned.perform {c : TrustChain} (hc : BodiesSigned c) {op : Operation}
    (hop : op.isReceive = true ∨ op.isAnchor = true) : BodiesSigned (c.perform op).1 := by
  intro id e he hbody
  rcases perform_entries c op id with heq | ⟨r, d, hrecord, -, heq, hvalid⟩
  · rw [heq] at he
    exact hc id e he hbody
  · rw [heq, List.mem_append, List.mem_singleton] at he
    rcases he with he | rfl
    · exact hc id e he hbody
    · rcases hop with hop | hop
      · obtain ⟨a, k, hacc⟩ := hvalid (Operation.isValidated_of_isReceive hop)
        simp only [Revision.isSigned, hacc.attestation, Option.isSome_some]
      · -- An anchor has no body.
        obtain ⟨h, d', rfl⟩ := Operation.eq_addRoot_of_isAnchor hop
        cases hrecord
        cases hbody

/-- **Payloads follow the last write.** After every run that receives records and anchors objects,
an object with a history exists exactly if the latest signed revision of the history has a body; if
only anchors were recorded, it does not exist. In a list of entries of any kind, written with or
without authorization, the last entry with a body or a digest decides. A further anchor changes the
existence of no object, whatever the chain. -/
theorem run_payload (partition : PartitionKey) (strict : Bool) (journals : List Journal)
    (ops : List Operation) (hops : ∀ op ∈ ops, op.isReceive = true ∨ op.isAnchor = true) :
    let c := (start partition strict journals).run ops
    (∀ id h, c.history? id = some h →
      (c.hasObject id = true ↔ ∃ r, h.latestSigned? = some r ∧ r.hasBody = true) ∧
        ((∀ e ∈ h.entries, e.revision.isSigned = false) → c.hasObject id = false)) ∧
      (∀ entries, Entry.hasPayload entries = true ↔
        ∃ e, Entry.latestWrite? entries = some e ∧ e.revision.hasBody = true) ∧
        ∀ (c' : TrustChain) (root : Header) (d : Delivery) (id : ObjectId),
          (c'.addRoot root d).hasObject id = c'.hasObject id := by
  intro c
  have hsigned : BodiesSigned c :=
    run_invariant (P := BodiesSigned) (fun c op hop h => h.perform (hops op hop))
      (fun _ _ he => absurd he List.not_mem_nil)
  refine ⟨fun id h hh => ?_, fun entries => ?_, hasObject_addRoot⟩
  · have hobject : c.hasObject id = h.latestSigned?.any Revision.hasBody := by
      rw [hasObject_eq, Entry.hasPayload_eq, History.latestSigned?, ← entries_of_history? hh,
        Entry.latestSigned?_eq (hsigned id), Option.any_map]
    refine ⟨?_, fun hanchors => ?_⟩
    · rw [hobject, Option.any_eq_true]
    · rw [hobject, History.latestSigned?, Entry.latestSigned?_eq_none.mpr hanchors]
      rfl
  · rw [Entry.hasPayload_eq, Option.any_eq_true]

/-- An object that is anchored and nothing else. -/
def bareRoot : Header := Header.anchor ⟨.replicate 4⟩ ⟨.replicate 5⟩ "Account"

/-- An object gets a payload and is anchored, and another one is anchored. -/
def anchoring : List Operation :=
  [.receive (Record.encode (.publicKey courier)) (.direct 0 0),
    .receive (Record.encode (.data original)) (.direct 0 0), .addRoot parcel (.direct 0 0),
    .addRoot bareRoot (.direct 0 0)]

theorem run_anchoring : ∃ js, (start ⟨"accounts", 0, .data⟩ true []).run anchoring =
    ((opened js).addRoot parcel (.direct 0 0)).addRoot bareRoot (.direct 0 0) := by
  obtain ⟨-, js, hfirst⟩ := receive_signed (c := informed) (r := original) rfl rfl
    isSized_original checkStructure_original entitled_original (.direct 0 0)
  have hkey : ((start ⟨"accounts", 0, .data⟩ true []).receive
      (Record.encode (.publicKey courier)) (.direct 0 0)).1 = informed :=
    congrArg Prod.fst (receive_courier _)
  refine ⟨js, ?_⟩
  simp only [anchoring, run, perform, hkey, hfirst]
  rfl

/-- The payload outlasts the anchor behind it, and an anchor alone is none. -/
theorem anchoring_payload :
    let c := (start ⟨"accounts", 0, .data⟩ true []).run anchoring
    (∀ op ∈ anchoring, op.isReceive = true ∨ op.isAnchor = true) ∧
      (c.hasObject parcel.id = true ∧ ∃ h, c.history? parcel.id = some h ∧
        h.latestSigned? = some original ∧ h.size = 2) ∧
        (∃ h, c.history? bareRoot.id = some h) ∧ c.hasObject bareRoot.id = false := by
  intro c
  have hops : ∀ op ∈ anchoring, op.isReceive = true ∨ op.isAnchor = true := by
    intro op hop
    simp only [anchoring, List.mem_cons, List.not_mem_nil, or_false] at hop
    rcases hop with rfl | rfl | rfl | rfl
    · exact Or.inl rfl
    · exact Or.inl rfl
    · exact Or.inr rfl
    · exact Or.inr rfl
  obtain ⟨hobjects, -, -⟩ := run_payload ⟨"accounts", 0, .data⟩ true [] anchoring hops
  obtain ⟨js, hrun⟩ := run_anchoring
  have hparcel : ∃ h, c.history? parcel.id = some h ∧ h.latestSigned? = some original ∧
      h.size = 2 := by
    rw [show c = _ from hrun]
    exact ⟨_, rfl, rfl, rfl⟩
  have hbare : ∃ h, c.history? bareRoot.id = some h ∧
      ∀ e ∈ h.entries, e.revision.isSigned = false := by
    rw [show c = _ from hrun]
    refine ⟨History.singleton _ ⟨Revision.ofHeader bareRoot, .direct 0 0⟩, rfl, fun e he => ?_⟩
    rw [List.mem_singleton.mp he]
    rfl
  obtain ⟨h, hh, hlatest, hsize⟩ := hparcel
  obtain ⟨h', hh', hanchors⟩ := hbare
  exact ⟨hops, ⟨(hobjects _ h hh).1.mpr ⟨original, hlatest, rfl⟩, h, hh, hlatest, hsize⟩,
    ⟨h', hh'⟩, (hobjects _ h' hh').2 hanchors⟩

end TrustChain

end Provenance

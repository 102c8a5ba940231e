import Provenance.Proofs.Judgement
import Provenance.Proofs.Redelivery

/-!
# Objects do not interfere

An operation concerns an object if it brings a revision of that object or a key. What a chain shows
of an object (`TrustChain.SameView`) is decided by the operations that concern it: any other leaves
it as it is (`sameView_perform`), and two chains of one view take the same of those that do
(`SameView.perform`).

Main statement `run_separate`: a run without the operations that do not concern an object treats the
others as before and ends in the same view of the object. So the revisions of different objects may
change places.
-/

namespace Provenance

def Operation.concerns (id : ObjectId) (op : Operation) : Bool :=
  match op.record? with
  | some (.data r) => r.id = id
  | some (.publicKey _) => true
  | _ => false

namespace TrustChain

/-- The operations of a run, each with whether it was accepted. -/
def trace (c : TrustChain) : List Operation → List (Operation × Bool)
  | [] => []
  | op :: ops => (op, (c.perform op).2) :: (c.perform op).1.trace ops

/-! ## Views -/

/-- Two chains that show the same of an object and of the keys. -/
structure SameView (id : ObjectId) (c c' : TrustChain) : Prop extends SameRules c c' where
  partition : c.partition = c'.partition
  root : c.root? id = c'.root? id
  history : c.history? id = c'.history? id

section

variable {c c' c'' : TrustChain} {id : ObjectId} {op : Operation}

theorem SameView.refl (id : ObjectId) (c : TrustChain) : SameView id c c :=
  ⟨⟨rfl, rfl, rfl, rfl⟩, rfl, rfl, rfl⟩

theorem SameView.symm (h : SameView id c c') : SameView id c' c :=
  ⟨h.toSameRules.symm, h.partition.symm, h.root.symm, h.history.symm⟩

theorem SameView.trans (h : SameView id c c') (h' : SameView id c' c'') : SameView id c c'' where
  strict := h.strict.trans h'.strict
  publicWriter := h.publicWriter.trans h'.publicWriter
  keys := h.keys.trans h'.keys
  aliases := h.aliases.trans h'.aliases
  partition := h.partition.trans h'.partition
  root := h.root.trans h'.root
  history := h.history.trans h'.history

theorem SameView.object (h : SameView id c c') : SameObject id c c' where
  root := h.root
  revisions := by
    unfold entries
    rw [h.history]

/-- Journals are no part of a view. -/
theorem SameView.withListeners (h : SameView id c c') (js js' : List Journal) :
    SameView id { c with listeners := js } { c' with listeners := js' } :=
  ⟨⟨h.strict, h.publicWriter, h.keys, h.aliases⟩, h.partition, h.root, h.history⟩

/-! ## One operation -/

/-- What does not concern the object changes neither it nor the keys. -/
theorem sameView_applied (c : TrustChain) (hop : op.concerns id = false) :
    SameView id c (c.applied op) := by
  unfold Operation.concerns at hop
  unfold applied
  cases hrecord : op.record? with
  | none => exact .refl id c
  | some record =>
    rw [hrecord] at hop
    cases record with
    | data r =>
      have hid : r.id ≠ id := of_decide_eq_false hop
      refine ⟨⟨rfl, rfl, rfl, rfl⟩, rfl, ?_, (Table.find?_insert_of_ne hid _ _).symm⟩
      cases op.isAnchor with
      | false => rfl
      | true => exact (Table.find?_insert_of_ne hid _ _).symm
    | publicKey k => cases hop
    | castle castle => exact ⟨⟨rfl, rfl, rfl, rfl⟩, rfl, rfl, rfl⟩

theorem SameView.applied (h : SameView id c c') (hop : op.concerns id = true) :
    SameView id (c.applied op) (c'.applied op) := by
  unfold Operation.concerns at hop
  unfold TrustChain.applied
  cases hrecord : op.record? with
  | none =>
    rw [hrecord] at hop
    cases hop
  | some record =>
    rw [hrecord] at hop
    cases record with
    | data r =>
      obtain rfl : r.id = id := of_decide_eq_true hop
      refine ⟨⟨h.strict, h.publicWriter, h.keys, h.aliases⟩, h.partition, ?_, ?_⟩
      · cases op.isAnchor with
        | false => exact h.root
        | true => exact (Table.find?_insert_self _ _ _).trans (Table.find?_insert_self _ _ _).symm
      · have hhistory : c.histories.find? r.id = c'.histories.find? r.id := h.history
        simp only [append, history?, Table.find?_insert_self, hhistory, h.partition]
    | publicKey k =>
      refine ⟨⟨h.strict, h.publicWriter, ?_, ?_⟩, h.partition, h.root, h.history⟩
      · simp only [h.keys]
      · simp only [h.aliases]
    | castle castle => cases hop

theorem sameView_perform (c : TrustChain) (hop : op.concerns id = false) :
    SameView id c (c.perform op).1 := by
  obtain ⟨js, hjs⟩ := perform_applied c op
  rw [hjs]
  split
  · exact (sameView_applied c hop).withListeners c.listeners js
  · exact (SameView.refl id c).withListeners c.listeners js

/-- What concerns the object is judged alike in one view of it, and leads to one view. -/
theorem SameView.perform (h : SameView id c c') (hop : op.concerns id = true) :
    (c.perform op).2 = (c'.perform op).2 ∧ SameView id (c.perform op).1 (c'.perform op).1 := by
  have haccepted : (c.perform op).2 = (c'.perform op).2 := by
    refine accepted_congr (.refl op) h.toSameRules (fun r hr => ?_)
    have hid : r.id = id := by
      unfold Operation.concerns at hop
      rw [hr] at hop
      exact of_decide_eq_true hop
    exact hid ▸ h.object
  refine ⟨haccepted, ?_⟩
  obtain ⟨js, hjs⟩ := perform_applied c op
  obtain ⟨js', hjs'⟩ := perform_applied c' op
  rw [hjs, hjs', ← haccepted]
  split
  · exact (h.applied hop).withListeners js js'
  · exact h.withListeners js js'

theorem SameView.performed (h : SameView id c c') (op : Operation) :
    SameView id (c.perform op).1 (c'.perform op).1 := by
  cases hop : op.concerns id with
  | true => exact (h.perform hop).2
  | false => exact (sameView_perform c hop).symm.trans (h.trans (sameView_perform c' hop))

theorem sameView_refused {op : Operation} (h : (c.perform op).2 = false) :
    SameView id c (c.perform op).1 := by
  obtain ⟨js, hjs⟩ := perform_applied c op
  rw [hjs, h]
  exact (SameView.refl id c).withListeners c.listeners js

/-! ## Runs -/

/-- A run, and the same run without what does not concern the object. -/
theorem SameView.run (h : SameView id c c') (ops : List Operation) :
    SameView id (c.run ops) (c'.run (ops.filter (Operation.concerns id))) ∧
      c'.trace (ops.filter (Operation.concerns id)) =
        (c.trace ops).filter (fun s => s.1.concerns id) := by
  induction ops generalizing c c' with
  | nil => exact ⟨h, rfl⟩
  | cons op ops ih =>
    rw [TrustChain.run, trace, List.filter_cons, List.filter_cons]
    cases hop : op.concerns id with
    | false =>
      simp only [Bool.false_eq_true, if_false]
      exact ih ((sameView_perform c hop).symm.trans h)
    | true =>
      obtain ⟨haccepted, hview⟩ := h.perform hop
      obtain ⟨hrun, htrace⟩ := ih hview
      simp only [if_true, TrustChain.run, trace, htrace, haccepted]
      exact ⟨hrun, trivial⟩

end

/-- **Separation.** Leave out of a run on a new chain all operations that bring neither a key nor a
revision of some object: every other operation is accepted or dropped as before, and the history and
the root of the object, the keys and the aliases are the same in the end. So two runs that have the
same operations for each object, in the same order, do the same to each object, however the
operations for different objects follow each other. -/
theorem run_separate (partition : PartitionKey) (strict : Bool) (journals journals' : List Journal)
    (ops : List Operation) :
    let c := start partition strict journals
    let c' := start partition strict journals'
    (∀ id, c'.trace (ops.filter (Operation.concerns id)) =
        (c.trace ops).filter (fun s => s.1.concerns id) ∧
      SameView id (c'.run (ops.filter (Operation.concerns id))) (c.run ops)) ∧
      ∀ ops', (∀ id, ops'.filter (Operation.concerns id) = ops.filter (Operation.concerns id)) →
        ∀ id, (c'.trace ops').filter (fun s => s.1.concerns id) =
            (c.trace ops).filter (fun s => s.1.concerns id) ∧
          SameView id (c'.run ops') (c.run ops) := by
  intro c c'
  have hstart : ∀ id, SameView id c c' := fun id => (SameView.refl id c).withListeners _ _
  constructor
  · intro id
    obtain ⟨hview, htrace⟩ := (hstart id).run ops
    exact ⟨htrace, hview.symm⟩
  · intro ops' hsame id
    -- Both runs agree with what is left of them, which is the same.
    obtain ⟨hview, htrace⟩ := (hstart id).run ops
    obtain ⟨hview', htrace'⟩ := (SameView.refl id c').run ops'
    rw [hsame id] at hview' htrace'
    exact ⟨htrace'.symm.trans htrace, hview'.trans hview.symm⟩

/-! ## Two objects that change places -/

/-- Another object than the parcel. -/
def secondHeader : Header := .anchor ⟨.replicate 4⟩ ⟨.replicate 5⟩ "Account"

def receiveNoise : Operation := .receive [0] (.direct 0 0)

def receiveCourier : Operation := .receive (Record.encode (.publicKey courier)) (.direct 0 1)

def anchorParcel : Operation := .addRoot parcel (.direct 0 2)

def commitSecond : Operation := .commit (.ofHeader secondHeader) (.direct 0 3)

def receiveEdited : Operation := .receive (Record.encode (.data edited)) (.direct 0 4)

/-- The courier's revision of the parcel arrives, which is judged by the courier's key, the anchor
and the history. What happens to the other object stands in between, and so do bytes that are no
record. -/
def interleaved : List Operation :=
  [receiveNoise, receiveCourier, anchorParcel, commitSecond, receiveEdited]

def regrouped : List Operation := [receiveCourier, commitSecond, anchorParcel, receiveEdited]

theorem concerns_receiveEdited (id : ObjectId) :
    receiveEdited.concerns id = decide (parcel.id = id) := by
  rw [Operation.concerns, receiveEdited,
    Operation.record?_receive (Record.decode_data isSized_edited)]
  rfl

theorem filter_regrouped (id : ObjectId) :
    regrouped.filter (Operation.concerns id) = interleaved.filter (Operation.concerns id) := by
  have hdistinct : parcel.id ≠ secondHeader.id := by decide
  have hnoise : receiveNoise.concerns id = false := rfl
  have hcourier : receiveCourier.concerns id = true := by
    rw [Operation.concerns, receiveCourier, Operation.record?_receive decode_courier]
  have hparcel : anchorParcel.concerns id = decide (parcel.id = id) := rfl
  have hsecond : commitSecond.concerns id = decide (secondHeader.id = id) := rfl
  simp only [regrouped, interleaved, List.filter_cons, List.filter_nil, hnoise, hcourier, hparcel,
    hsecond, concerns_receiveEdited]
  -- Only the two operations that changed places are in another order, and no object has both.
  by_cases hid : parcel.id = id
  · simp [← hid, hdistinct.symm]
  · simp [hid]

/-- The chain that the revision arrives at. -/
def prepared : TrustChain :=
  (informed.addRoot parcel (.direct 0 2)).commit (.ofHeader secondHeader) (.direct 0 3)

theorem entitled_prepared : Entitled prepared edited courier.hash :=
  ⟨rfl, fun _ h => ⟨⟨.ofHeader parcel, .direct 0 2⟩, List.mem_singleton_self _, Option.some.inj h⟩,
    Or.inr (Or.inl (NameSet.mem_ofList.mpr (List.mem_singleton_self _)))⟩

theorem accepted_edited :
    (receiveEdited, true) ∈ (start ⟨"accounts", 0, .data⟩ true []).trace interleaved ∧
      ∃ js, (start ⟨"accounts", 0, .data⟩ true []).run interleaved =
        { prepared.append edited (.direct 0 4) with listeners := js } := by
  obtain ⟨haccepted, hrun⟩ := receive_signed (c := prepared) (r := edited) rfl rfl isSized_edited
    checkStructure_edited entitled_prepared (.direct 0 4)
  have hnoise : ((start ⟨"accounts", 0, .data⟩ true []).perform receiveNoise).1 =
      start ⟨"accounts", 0, .data⟩ true [] := rfl
  have hcourier : (start ⟨"accounts", 0, .data⟩ true []).perform receiveCourier = (informed, true) :=
    receive_courier (.direct 0 1)
  have hprepared : ((informed.perform anchorParcel).1.perform commitSecond).1 = prepared := rfl
  have hreceive : prepared.perform receiveEdited =
      prepared.receive (Record.encode (.data edited)) (.direct 0 4) := rfl
  constructor
  · simp [interleaved, trace, hnoise, hcourier, hprepared, hreceive, haccepted]
  · rw [interleaved, run, hnoise, run, hcourier, run, run, hprepared, run, hreceive, run]
    exact hrun

/-- The two objects change places, and the bytes are gone. The courier's key and the parcel's root
are known as before, the arriving revision is accepted as before, and neither object shows a
difference. -/
theorem separate_swapped :
    let c := start ⟨"accounts", 0, .data⟩ true []
    let c' := start ⟨"accounts", 0, .data⟩ true [[]]
    (c'.run regrouped).history? parcel.id = (c.run interleaved).history? parcel.id ∧
      (c'.run regrouped).history? secondHeader.id = (c.run interleaved).history? secondHeader.id ∧
      (c'.run regrouped).root? parcel.id = some parcel ∧
      (c'.run regrouped).key? courier.hash = some courier ∧
      (receiveEdited, true) ∈ c'.trace regrouped ∧
      ((c'.run regrouped).entries parcel.id).map Entry.revision = [.ofHeader parcel, edited] := by
  intro c c'
  obtain ⟨-, hreordered⟩ := run_separate ⟨"accounts", 0, .data⟩ true [] [[]] interleaved
  obtain ⟨htrace, hview⟩ := hreordered _ filter_regrouped parcel.id
  obtain ⟨-, hview'⟩ := hreordered _ filter_regrouped secondHeader.id
  obtain ⟨hmem, js, hrun⟩ := accepted_edited
  refine ⟨hview.history, hview'.history, ?_, ?_, ?_, ?_⟩
  · rw [hview.root, hrun]
    rfl
  · rw [key?, hview.keys, hrun]
    exact key?_informed
  · have hkept : (receiveEdited, true) ∈
        (c.trace interleaved).filter (fun s => s.1.concerns parcel.id) :=
      List.mem_filter.mpr ⟨hmem, (concerns_receiveEdited parcel.id).trans (decide_eq_true rfl)⟩
    rw [← htrace] at hkept
    exact (List.mem_filter.mp hkept).1
  · rw [hview.object.revisions, hrun]
    rfl

end TrustChain

end Provenance

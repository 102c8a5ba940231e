import Provenance.Proofs.Feeds
import Provenance.Proofs.Judgement

/-!
# Replicas

A replica is a new chain that loads the log of another one. Main statement `Feed.run_replayed`: it
becomes the chain that was fed through the log, but for the times of the deliveries.

To say so, `TrustChain.timeless` forgets these times. No chain goes by them: what a record does to a
chain and what it does to the timeless chain is the same (`TrustChain.receive_timeless`).
-/

namespace Provenance

/-! ## Forgetting times -/

def Delivery.timeless (d : Delivery) : Delivery := { d with timestamp := 0 }

def Entry.timeless (e : Entry) : Entry := { e with delivery := e.delivery.timeless }

def History.timeless (h : History) : History :=
  ⟨h.partition, h.entries.map Entry.timeless, fun hnil => h.nonempty (List.map_eq_nil_iff.mp hnil)⟩

theorem History.timeless_extend (partition : PartitionKey) (h : Option History) (e : Entry) :
    (extend partition h e).timeless = extend partition (h.map timeless) e.timeless := by
  cases h with
  | none => rfl
  | some h =>
    simp only [extend, append, timeless, Option.map_some, List.map_append, List.map_singleton]

namespace TrustChain

/-- A chain without the times of its deliveries, and without what its listeners heard. -/
def timeless (c : TrustChain) : TrustChain :=
  { c with histories := c.histories.map History.timeless, listeners := [] }

theorem timeless_append (c : TrustChain) (r : Revision) (d : Delivery) :
    (c.append r d).timeless = c.timeless.append r d.timeless := by
  simp only [timeless, append, Table.map_insert, Table.find?_map, History.timeless_extend]
  rfl

theorem entries_timeless (c : TrustChain) (id : ObjectId) :
    c.timeless.entries id = (c.entries id).map Entry.timeless := by
  simp only [entries, timeless, history?, Table.find?_map]
  cases c.histories.find? id <;> rfl

theorem timeless_applied (c : TrustChain) (raw : Bytes) (d : Delivery) :
    (c.applied (.receive raw d)).timeless = c.timeless.applied (.receive raw d.timeless) := by
  simp only [applied, Operation.record?, Operation.delivery?, Option.getD_some]
  cases Record.decode raw with
  | error e => rfl
  | ok record =>
    cases record with
    | data r => exact timeless_append c r d
    | publicKey k => rfl
    | castle castle => rfl

/-- Whether a record is accepted, and what it does, has nothing to do with times. -/
theorem receive_timeless (c : TrustChain) (raw : Bytes) (d : Delivery) :
    (c.receive raw d).2 = (c.timeless.receive raw d.timeless).2 ∧
      (c.receive raw d).1.timeless =
        if (c.timeless.receive raw d.timeless).2 then c.timeless.applied (.receive raw d.timeless)
        else c.timeless := by
  have haccepted : (c.perform (.receive raw d)).2 =
      (c.timeless.perform (.receive raw d.timeless)).2 := by
    refine accepted_congr ⟨rfl, rfl, rfl⟩ ⟨rfl, rfl, rfl, rfl⟩ (fun r _ => ⟨rfl, ?_⟩)
    rw [entries_timeless, List.map_map]
    rfl
  refine ⟨haccepted, ?_⟩
  obtain ⟨js, hjs⟩ := perform_applied c (.receive raw d)
  simp only [perform] at haccepted hjs
  rw [← haccepted]
  cases h : (c.receive raw d).2 with
  | true =>
    simp only [h, if_true] at hjs
    rw [hjs]
    exact timeless_applied c raw d
  | false =>
    simp only [h, Bool.false_eq_true, if_false] at hjs
    rw [hjs]
    rfl

theorem receive_alike {c c' : TrustChain} (h : c.timeless = c'.timeless) {d d' : Delivery}
    (hd : d.timeless = d'.timeless) (raw : Bytes) :
    (c.receive raw d).2 = (c'.receive raw d').2 ∧
      (c.receive raw d).1.timeless = (c'.receive raw d').1.timeless := by
  obtain ⟨haccepted, htimeless⟩ := receive_timeless c raw d
  obtain ⟨haccepted', htimeless'⟩ := receive_timeless c' raw d'
  rw [h, hd] at haccepted htimeless
  exact ⟨haccepted.trans haccepted'.symm, htimeless.trans htimeless'.symm⟩

/-- One more bundle behind those that are loaded. -/
theorem receiveBundles_concat (now : Int) (bundles : List Bundle) (b : Bundle) (c : TrustChain) :
    receiveBundles now (bundles ++ [b]) c =
      let loaded := receiveBundles now bundles c
      let received := loaded.1.receiveBundle b now
      (received.1, if received.2 then loaded.2 + 1 else loaded.2) := by
  induction bundles generalizing c with
  | nil => rfl
  | cons first bundles ih =>
    simp only [List.cons_append, receiveBundles, ih]
    cases (c.receiveBundle first now).2 with
    | true =>
      simp only [if_true]
      split <;> rfl
    | false => rfl

end TrustChain

/-! ## Loading the log of a feed -/

namespace Feed

variable {f : Feed} {c : TrustChain} {now : Int}

/-- To load the log of a feed makes another chain the chain of the feed, times aside. -/
structure Replays (c : TrustChain) (f : Feed) (now : Int) : Prop where
  partition : c.partition = f.chain.partition
  chain : (c.loadFrom f.log now).1.timeless = f.chain.timeless
  accepted : (c.loadFrom f.log now).2 = f.accepted

theorem Replays.submit (h : Replays c f now) (b : Submission) : Replays c (f.submit b) now := by
  have hread : (f.submit b).log.read c.partition = f.log.read c.partition ++
      [⟨c.partition, b.key, f.log.lastOffset c.partition + 1, b.payload⟩] := by
    rw [h.partition, RecordLog.read, Feed.submit, RecordLog.partition_write, if_pos rfl]
  have hloaded : (c.loadFrom f.log now).1.timeless.partition = f.chain.timeless.partition :=
    congrArg TrustChain.partition h.chain
  have hdelivery : Delivery.timeless ⟨(c.loadFrom f.log now).1.timeless.partition.index,
      f.log.lastOffset c.partition + 1, now⟩ = (f.nextDelivery b.timestamp).timeless := by
    rw [hloaded, h.partition]
    rfl
  obtain ⟨haccepted, hchain⟩ := TrustChain.receive_alike h.chain hdelivery b.payload
  have hload := TrustChain.receiveBundles_concat now (f.log.read c.partition)
    ⟨c.partition, b.key, f.log.lastOffset c.partition + 1, b.payload⟩ c
  rw [← hread] at hload
  refine ⟨h.partition.trans (submit_partition f b).symm, ?_, ?_⟩
  · rw [TrustChain.loadFrom, hload]
    exact hchain
  · rw [TrustChain.loadFrom, hload, Feed.submit, ← haccepted, ← h.accepted]
    rfl

theorem Replays.edit (h : Replays c f now) {e : LogEdit} (he : e.partition ≠ f.chain.partition) :
    Replays c { f with log := f.log.edit e } now := by
  have hread : (f.log.edit e).read c.partition = f.log.read c.partition := by
    rw [RecordLog.read, h.partition, RecordLog.partition_edit_of_ne he]
    rfl
  refine ⟨h.partition, ?_, ?_⟩
  · rw [TrustChain.loadFrom, hread]
    exact h.chain
  · rw [TrustChain.loadFrom, hread]
    exact h.accepted

theorem Replays.run (h : Replays c f now) {steps : List FeedStep}
    (helsewhere : ∀ e, .edit e ∈ steps → e.partition ≠ f.chain.partition) :
    Replays c (f.run steps) now := by
  induction steps generalizing f with
  | nil => exact h
  | cons s steps ih =>
    have hstep : Replays c (f.step s) now := by
      rcases step_cases f s with ⟨b, -, hstep⟩ | ⟨e, rfl, hstep⟩
      · rw [hstep]
        exact h.submit b
      · rw [hstep]
        exact h.edit (helsewhere e (List.mem_cons_self ..))
    apply ih hstep
    intro e he
    rw [step_partition]
    exact helsewhere e (List.mem_cons_of_mem s he)

/-- **Replay.** Let records of any kind reach a new chain through an empty log, while only other
partitions of the log are changed otherwise. A new chain of the same partition and strictness that
loads the log is the fed chain, but for the times of the deliveries and what the listeners heard, and
it accepts as many records. -/
theorem run_replayed (partition : PartitionKey) (strict : Bool) (journals journals' : List Journal)
    {steps : List FeedStep} (helsewhere : ∀ e, .edit e ∈ steps → e.partition ≠ partition)
    (now : Int) :
    let f := (start partition strict journals).run steps
    let replica := (TrustChain.start partition strict journals').loadFrom f.log now
    replica.1.timeless = f.chain.timeless ∧ replica.2 = f.accepted := by
  have hstart : Replays (TrustChain.start partition strict journals')
      (start partition strict journals) now := ⟨rfl, rfl, rfl⟩
  have hrun := hstart.run helsewhere
  exact ⟨hrun.chain, hrun.accepted⟩

open TrustChain

/-- The parcel, then noise, and a write to another partition. -/
def noisySteps : List FeedStep :=
  parcelSteps ++ [.submitRaw "noise" [0] 3, .edit (.write ⟨"accounts", 1, .data⟩ "parcel" [1])]

theorem elsewhere_noisySteps (e : LogEdit) (he : .edit e ∈ noisySteps) : e.partition ≠ desk := by
  simp only [noisySteps, parcelSteps, publishCourier, submitParcel, List.cons_append,
    List.nil_append, List.mem_cons, List.not_mem_nil, or_false, reduceCtorEq, false_or,
    FeedStep.edit.injEq] at he
  subst he
  decide

theorem run_noisySteps :
    ((start desk true []).run noisySteps).chain.entries parcel.id = [⟨original, ⟨0, 2, 2⟩⟩] ∧
      ((start desk true []).run noisySteps).accepted = 2 := by
  have hquiet : ∀ (f : Feed) (e : LogEdit),
      (f.run [.submitRaw "noise" [0] 3, .edit e]).chain.entries parcel.id =
        f.chain.entries parcel.id ∧
          (f.run [.submitRaw "noise" [0] 3, .edit e]).accepted = f.accepted :=
    fun f e => ⟨rfl, rfl⟩
  obtain ⟨hentries, haccepted⟩ := hquiet ((start desk true []).run parcelSteps) _
  rw [noisySteps, run_append]
  exact ⟨hentries.trans run_parcelSteps.1, haccepted.trans run_parcelSteps.2⟩

/-- The replica accepts the key and the parcel, and has the parcel under the same offset. -/
theorem parcel_replayed :
    let f := (start desk true []).run noisySteps
    ((TrustChain.start desk true []).loadFrom f.log 9).2 = 2 ∧
      (((TrustChain.start desk true []).loadFrom f.log 9).1.entries parcel.id).map Entry.timeless =
        [⟨original, ⟨0, 2, 0⟩⟩] := by
  obtain ⟨hchain, hcount⟩ := run_replayed desk true [] [] elsewhere_noisySteps 9
  refine ⟨hcount.trans run_noisySteps.2, ?_⟩
  rw [← entries_timeless, hchain, entries_timeless, run_noisySteps.1]
  rfl

end Feed

end Provenance

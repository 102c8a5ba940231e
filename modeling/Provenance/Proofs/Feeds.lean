import Provenance.Chain.Replay
import Provenance.Proofs.Offsets
import Provenance.Proofs.Redelivery

/-!
# A chain that is fed from a log

A `Feed` is a chain with its log. A `FeedStep` is a record or raw bytes that reach the chain through
the log, or another call on the log. `Feed.step_cases` says what a step can do: it makes a
submission (`Feed.submit`), or it changes the log only.

* `Feed.run_log`: the log after a run is the log after the calls that the steps make on it;
* `TrustChain.receive_entries`: a received record adds at most one entry, which was delivered from
  where the record was.
-/

namespace Provenance

/-! ## Steps -/

/-- Bytes that go to the log under a key, and from there to the chain. -/
structure Submission where
  key : String
  payload : Bytes
  timestamp : Int

inductive FeedStep
  | submit (key : String) (r : Record) (now : Int)
  | submitRaw (key : String) (raw : Bytes) (timestamp : Int)
  | edit (e : LogEdit)

namespace FeedStep

def submission? : FeedStep → Option Submission
  | submit key r now => some ⟨key, r.encode, now⟩
  | submitRaw key raw timestamp => some ⟨key, raw, timestamp⟩
  | edit _ => none

/-- The call that a step makes on the log of a chain of the partition. -/
def logEdit (p : PartitionKey) : FeedStep → LogEdit
  | submit key r _ => .write p key r.encode
  | submitRaw key raw _ => .write p key raw
  | edit e => e

/-- Whether the step deletes what a partition holds under a key. -/
def deletes (p : PartitionKey) (key : String) : FeedStep → Bool
  | edit e => e.deletes p key
  | _ => false

theorem deletes_logEdit (p q : PartitionKey) (key : String) (s : FeedStep) :
    (s.logEdit p).deletes q key = s.deletes q key := by
  cases s <;> rfl

end FeedStep

/-! ## Feeds -/

/-- A chain, its log, and how many submissions the chain has accepted. -/
structure Feed where
  chain : TrustChain
  log : RecordLog
  accepted : Nat

namespace Feed

/-- A new chain and an empty log. -/
def start (partition : PartitionKey) (strict : Bool) (journals : List Journal) : Feed :=
  ⟨TrustChain.start partition strict journals, RecordLog.empty, 0⟩

def step (f : Feed) : FeedStep → Feed
  | .submit key r now =>
    let (chain, log, accepted) := f.chain.writeThrough f.log key r now
    ⟨chain, log, if accepted then f.accepted + 1 else f.accepted⟩
  | .submitRaw key raw timestamp =>
    let (chain, log, accepted) := f.chain.writeRaw f.log key raw timestamp
    ⟨chain, log, if accepted then f.accepted + 1 else f.accepted⟩
  | .edit e => { f with log := f.log.edit e }

def run (f : Feed) : List FeedStep → Feed
  | [] => f
  | s :: steps => (f.step s).run steps

theorem run_append (f : Feed) (steps steps' : List FeedStep) :
    f.run (steps ++ steps') = (f.run steps).run steps' := by
  induction steps generalizing f with
  | nil => rfl
  | cons s steps ih => exact ih (f.step s)

/-! ## What a step can do -/

variable {f : Feed}

/-- Where the chain's next record will have come from. -/
def nextDelivery (f : Feed) (timestamp : Int) : Delivery :=
  ⟨f.chain.partition.index, f.log.lastOffset f.chain.partition + 1, timestamp⟩

/-- The feed after a submission. -/
def submit (f : Feed) (b : Submission) : Feed :=
  let received := f.chain.receive b.payload (f.nextDelivery b.timestamp)
  ⟨received.1, (f.log.write f.chain.partition b.key b.payload).2,
    if received.2 then f.accepted + 1 else f.accepted⟩

theorem submit_chain (f : Feed) (b : Submission) : (f.submit b).chain =
    (f.chain.receive b.payload (f.nextDelivery b.timestamp)).1 := rfl

theorem submit_accepted (f : Feed) (b : Submission) : (f.submit b).accepted =
    if (f.chain.receive b.payload (f.nextDelivery b.timestamp)).2 then f.accepted + 1
    else f.accepted := rfl

theorem submit_partition (f : Feed) (b : Submission) :
    (f.submit b).chain.partition = f.chain.partition :=
  (TrustChain.perform_configuration f.chain (.receive b.payload _)).1

theorem submit_lastOffset (f : Feed) (b : Submission) :
    (f.submit b).log.lastOffset f.chain.partition = f.log.lastOffset f.chain.partition + 1 := by
  rw [RecordLog.lastOffset, submit, RecordLog.partition_write, if_pos rfl]

theorem step_cases (f : Feed) (s : FeedStep) :
    (∃ b, s.submission? = some b ∧ f.step s = f.submit b) ∨
      ∃ e, s = .edit e ∧ f.step s = { f with log := f.log.edit e } := by
  cases s with
  | submit key r now => exact Or.inl ⟨_, rfl, rfl⟩
  | submitRaw key raw timestamp => exact Or.inl ⟨_, rfl, rfl⟩
  | edit e => exact Or.inr ⟨e, rfl, rfl⟩

theorem step_of_submission {s : FeedStep} {b : Submission} (h : s.submission? = some b)
    (f : Feed) : f.step s = f.submit b := by
  rcases step_cases f s with ⟨b', hb', hstep⟩ | ⟨e, rfl, -⟩
  · obtain rfl : b' = b := Option.some.inj (hb'.symm.trans h)
    exact hstep
  · cases h

theorem step_partition (f : Feed) (s : FeedStep) :
    (f.step s).chain.partition = f.chain.partition := by
  rcases step_cases f s with ⟨b, -, hstep⟩ | ⟨e, -, hstep⟩
  · rw [hstep, submit_partition]
  · rw [hstep]

theorem step_log (f : Feed) (s : FeedStep) :
    (f.step s).log = f.log.edit (s.logEdit f.chain.partition) := by
  cases s <;> rfl

theorem run_partition (f : Feed) (steps : List FeedStep) :
    (f.run steps).chain.partition = f.chain.partition := by
  induction steps generalizing f with
  | nil => rfl
  | cons s steps ih => exact (ih (f.step s)).trans (step_partition f s)

/-- The log does not depend on what the chain makes of the records. -/
theorem run_log (f : Feed) (steps : List FeedStep) :
    (f.run steps).log = f.log.editAll (steps.map (FeedStep.logEdit f.chain.partition)) := by
  induction steps generalizing f with
  | nil => rfl
  | cons s steps ih =>
    rw [run, ih, step_partition, step_log]
    rfl

end Feed

/-! ## What a record adds -/

/-- A received record adds at most one entry, which holds its revision and its delivery. -/
theorem TrustChain.receive_entries (c : TrustChain) (raw : Bytes) (d : Delivery) :
    (∀ id, (c.receive raw d).1.entries id = c.entries id) ∨
      ∃ r, Record.decode raw = .ok (.data r) ∧ ∀ id, (c.receive raw d).1.entries id =
        if r.id = id then c.entries id ++ [⟨r, d⟩] else c.entries id := by
  by_cases hdata : ∃ r, Record.decode raw = .ok (.data r)
  · obtain ⟨r, hraw⟩ := hdata
    cases haccepted : (c.receive raw d).2 with
    | false =>
      obtain ⟨js, hjs⟩ := receive_refused haccepted
      rw [hjs]
      exact Or.inl (fun id => rfl)
    | true =>
      obtain ⟨js, hjs⟩ := receive_append hraw haccepted
      exact Or.inr ⟨r, hraw, entries_of_append hjs⟩
  · left
    intro id
    rcases perform_entries c (.receive raw d) id with heq | ⟨r, d', hrecord, -⟩
    · exact heq
    · exact absurd ⟨r, Operation.decode_of_record? hrecord⟩ hdata

/-! ## A small feed -/

namespace Feed

open TrustChain

def desk : PartitionKey := ⟨"accounts", 0, .data⟩

def publishCourier : FeedStep := .submit "courier" (.publicKey courier) 1

def submitParcel : FeedStep := .submit "parcel" (.data original) 2

/-- The key of a courier, and a parcel that is signed with it. -/
def parcelSteps : List FeedStep := [publishCourier, submitParcel]

theorem submission?_submitParcel : submitParcel.submission? =
    some ⟨"parcel", Record.encode (.data original), 2⟩ := by
  rw [submitParcel, FeedStep.submission?]

theorem step_publishCourier :
    ((start desk true []).step publishCourier).chain = informed ∧
      ((start desk true []).step publishCourier).accepted = 1 := by
  have hreceived : (start desk true []).chain.receive (Record.encode (.publicKey courier))
      ((start desk true []).nextDelivery 1) = (informed, true) := receive_courier _
  rw [step_of_submission rfl, submit, hreceived]
  exact ⟨rfl, rfl⟩

/-- The parcel is accepted, and has the second offset. -/
theorem run_parcelSteps :
    ((start desk true []).run parcelSteps).chain.entries parcel.id = [⟨original, ⟨0, 2, 2⟩⟩] ∧
      ((start desk true []).run parcelSteps).accepted = 2 := by
  obtain ⟨hchain, haccepted⟩ := step_publishCourier
  have hdelivery : ((start desk true []).step publishCourier).nextDelivery 2 = ⟨0, 2, 2⟩ := by
    rw [nextDelivery, step_partition, step_log]
    rfl
  have hraw := Record.decode_data isSized_original
  have htaken : (informed.receive (Record.encode (.data original)) ⟨0, 2, 2⟩).2 = true :=
    receive_signNeutral keyed_informed rfl key?_informed entitled_original checkStructure_original
      hraw ⟨0, 2, 2⟩
  rw [parcelSteps, run, run, run, step_of_submission submission?_submitParcel, submit_chain,
    submit_accepted, hchain, hdelivery, htaken, haccepted]
  obtain ⟨js, hjs⟩ := receive_append hraw htaken
  exact ⟨(entries_of_append hjs original.id).trans (if_pos rfl), rfl⟩

end Feed

end Provenance

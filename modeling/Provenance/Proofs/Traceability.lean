import Provenance.Proofs.Feeds

/-!
# Entries and the log

Every entry of a fed chain goes back to one submission of the run (`Feed.run_origin`), and the log
gives its revision back under its offset until the submission is deleted. Offsets number the entries
of the whole chain (`Feed.Numbered`): they ascend in each history, and no two histories share one.
Main statement: `Feed.run_traceable`.
-/

namespace Provenance

namespace Feed

variable {f : Feed}

/-! ## The numbers of entries -/

/-- Each entry has a number of its own, given out by the log, and later entries have greater ones. -/
structure Numbered (f : Feed) : Prop where
  bounded : ∀ id, ∀ e ∈ f.chain.entries id,
    e.delivery.offset ≤ f.log.lastOffset f.chain.partition
  ascending : ∀ id, (f.chain.entries id).Pairwise
    (fun e e' => e.delivery.offset < e'.delivery.offset)
  separate : ∀ id id', ∀ e ∈ f.chain.entries id, ∀ e' ∈ f.chain.entries id',
    e.delivery.offset = e'.delivery.offset → id = id'

theorem numbered_start (partition : PartitionKey) (strict : Bool) (journals : List Journal) :
    Numbered (start partition strict journals) where
  bounded _ _ he := absurd he List.not_mem_nil
  ascending _ := List.Pairwise.nil
  separate _ _ _ he := absurd he List.not_mem_nil

/-- An entry of the chain after a submission is an old one, or the one that was submitted. -/
theorem mem_submit {b : Submission} {id : ObjectId} {e : Entry}
    (he : e ∈ (f.submit b).chain.entries id) :
    e ∈ f.chain.entries id ∨ ∃ r, Record.decode b.payload = .ok (.data r) ∧ r.id = id ∧
      e = ⟨r, f.nextDelivery b.timestamp⟩ := by
  rw [submit_chain] at he
  rcases f.chain.receive_entries b.payload (f.nextDelivery b.timestamp) with
    hsame | ⟨r, hdecode, hnew⟩
  · rw [hsame] at he
    exact Or.inl he
  · rw [hnew] at he
    split at he
    · rename_i hid
      rcases List.mem_append.mp he with hold | hadded
      · exact Or.inl hold
      · exact Or.inr ⟨r, hdecode, hid, List.mem_singleton.mp hadded⟩
    · exact Or.inl he

theorem Numbered.submit (h : f.Numbered) (b : Submission) : (f.submit b).Numbered where
  bounded id e he := by
    rw [submit_partition, submit_lastOffset]
    rcases mem_submit he with hold | ⟨r, -, -, rfl⟩
    · exact Nat.le_succ_of_le (h.bounded id e hold)
    · exact Nat.le_refl _
  ascending id := by
    rw [submit_chain]
    rcases f.chain.receive_entries b.payload (f.nextDelivery b.timestamp) with hsame | ⟨r, -, hnew⟩
    · rw [hsame]
      exact h.ascending id
    · rw [hnew]
      split
      · refine List.pairwise_append.mpr ⟨h.ascending id, List.pairwise_singleton _ _, ?_⟩
        intro e he e' he'
        rw [List.mem_singleton.mp he']
        exact Nat.lt_succ_of_le (h.bounded id e he)
      · exact h.ascending id
  separate id id' e he e' he' heq := by
    -- The new entry has a greater number than the old ones, and only one object has it.
    rcases mem_submit he with hold | ⟨r, hdecode, hid, rfl⟩ <;>
      rcases mem_submit he' with hold' | ⟨r', hdecode', hid', rfl⟩
    · exact h.separate id id' e hold e' hold' heq
    · have hlt := Nat.lt_succ_of_le (h.bounded id e hold)
      exact absurd heq (Nat.ne_of_lt hlt)
    · have hlt := Nat.lt_succ_of_le (h.bounded id' e' hold')
      exact absurd heq (Nat.ne_of_gt hlt)
    · rw [hdecode] at hdecode'
      cases hdecode'
      exact hid.symm.trans hid'

theorem Numbered.step (h : f.Numbered) (s : FeedStep) : (f.step s).Numbered := by
  rcases step_cases f s with ⟨b, -, hstep⟩ | ⟨e, -, hstep⟩
  · rw [hstep]
    exact h.submit b
  · rw [hstep]
    refine ⟨fun id entry he => ?_, h.ascending, h.separate⟩
    exact Nat.le_trans (h.bounded id entry he) (RecordLog.lastOffset_edit f.log e _)

theorem Numbered.run (h : f.Numbered) (steps : List FeedStep) : (f.run steps).Numbered := by
  induction steps generalizing f with
  | nil => exact h
  | cons s steps ih => exact ih (h.step s)

/-! ## Where entries come from -/

/-- An entry of a fed chain was there before, or one of the steps submitted it. -/
theorem run_origin (f : Feed) {steps : List FeedStep} {id : ObjectId} {e : Entry}
    (he : e ∈ (f.run steps).chain.entries id) :
    e ∈ f.chain.entries id ∨ ∃ before s after b, steps = before ++ s :: after ∧
      s.submission? = some b ∧ Record.decode b.payload = .ok (.data e.revision) ∧
        e.delivery = (f.run before).nextDelivery b.timestamp := by
  induction steps generalizing f with
  | nil => exact Or.inl he
  | cons s steps ih =>
    rcases ih (f.step s) he with he | ⟨before, s', after, b, rfl, hb, hdecode, hdelivery⟩
    · rcases step_cases f s with ⟨b, hb, hstep⟩ | ⟨edit, -, hstep⟩
      · rw [hstep] at he
        rcases mem_submit he with hold | ⟨r, hdecode, -, rfl⟩
        · exact Or.inl hold
        · exact Or.inr ⟨[], s, steps, b, rfl, hb, hdecode, rfl⟩
      · rw [hstep] at he
        exact Or.inl he
    · exact Or.inr ⟨s :: before, s', after, b, rfl, hb, hdecode, hdelivery⟩

/-! ## What the log gives back -/

/-- What the log holds after some steps under the offset of a submission before them. -/
theorem revisionAt?_run (hordered : f.log.Ordered) {b : Submission} {r : Revision}
    (hdecode : Record.decode b.payload = .ok (.data r)) (after : List FeedStep) :
    ((f.submit b).run after).log.revisionAt? f.chain.partition
        (f.log.lastOffset f.chain.partition + 1) =
      if after.any (FeedStep.deletes f.chain.partition b.key) then none else some r := by
  have hwritten : (f.submit b).log.bundleAt? f.chain.partition _ = some _ :=
    hordered.bundleAt?_write f.chain.partition b.key b.payload
  have hlater : (f.submit b).log.Ordered :=
    hordered.edit (.write f.chain.partition b.key b.payload)
  have hfound := hlater.bundleAt?_editAll
    (after.map (FeedStep.logEdit f.chain.partition)) (Nat.le_of_eq (submit_lastOffset f b).symm)
  have hdeletes : (after.map (FeedStep.logEdit f.chain.partition)).any
      (fun e => e.deletes f.chain.partition b.key) =
        after.any (FeedStep.deletes f.chain.partition b.key) := by
    rw [List.any_map]
    exact congrArg after.any (funext (fun s => FeedStep.deletes_logEdit _ _ _ s))
  rw [hwritten, Option.filter_some, hdeletes] at hfound
  rw [RecordLog.revisionAt?, run_log, submit_partition, hfound]
  cases after.any (FeedStep.deletes f.chain.partition b.key) with
  | true => rfl
  | false =>
    simp only [Bool.not_false, if_true, Bundle.record, hdecode, Bool.false_eq_true, if_false]

/-- **Traceability.** Let records reach a new chain through an empty log, among calls of any kind on
the log. Each entry of a history comes from a step that submitted its revision, carries the index of
the partition and the offset that the log gave the submission, and the log gives the revision back
under that offset exactly if no later step deleted the key of the submission. Offsets ascend in each
history, and different objects never share one. -/
theorem run_traceable (partition : PartitionKey) (strict : Bool) (journals : List Journal)
    (steps : List FeedStep) :
    let new := start partition strict journals
    let f := new.run steps
    (∀ id, ∀ e ∈ f.chain.entries id, e.delivery.partition = partition.index ∧
      ∃ before s after b, steps = before ++ s :: after ∧ s.submission? = some b ∧
        Record.decode b.payload = .ok (.data e.revision) ∧
        e.delivery.offset = (new.run before).log.lastOffset partition + 1 ∧
        f.log.revisionAt? partition e.delivery.offset =
          if after.any (FeedStep.deletes partition b.key) then none else some e.revision) ∧
      (∀ id, (f.chain.entries id).Pairwise
        (fun e e' => e.delivery.offset < e'.delivery.offset)) ∧
      ∀ id id', ∀ e ∈ f.chain.entries id, ∀ e' ∈ f.chain.entries id',
        e.delivery.offset = e'.delivery.offset → id = id' := by
  intro new f
  have hnumbered : f.Numbered := (numbered_start partition strict journals).run steps
  refine ⟨fun id e he => ?_, hnumbered.ascending, hnumbered.separate⟩
  rcases run_origin new he with hold | ⟨before, s, after, b, rfl, hb, hdecode, hdelivery⟩
  · exact absurd hold List.not_mem_nil
  · have hpartition : (new.run before).chain.partition = partition := run_partition new before
    have hordered : (new.run before).log.Ordered := by
      rw [run_log]
      exact RecordLog.ordered_empty.editAll _
    have hlog := revisionAt?_run hordered hdecode after
    have hrun : f = ((new.run before).submit b).run after := by
      rw [← step_of_submission hb]
      exact run_append new before (s :: after)
    rw [hdelivery, nextDelivery, hpartition]
    rw [hpartition] at hlog
    exact ⟨rfl, before, s, after, b, rfl, hb, hdecode, rfl, hrun ▸ hlog⟩

open TrustChain in
/-- The parcel has the second offset. After its key is deleted, the log has nothing there. -/
theorem parcel_deleted :
    let f := (start desk true []).run (parcelSteps ++ [.edit (.delete desk ["parcel"])])
    f.chain.entries parcel.id = [⟨original, ⟨0, 2, 2⟩⟩] ∧
      f.log.revisionAt? desk 2 = none := by
  intro f
  have hentries : f.chain.entries parcel.id = [⟨original, ⟨0, 2, 2⟩⟩] := by
    have hedit : ∀ (f : Feed) (e : LogEdit), (f.run [.edit e]).chain = f.chain := fun _ _ => rfl
    rw [show f = _ from run_append (start desk true []) _ _, hedit]
    exact run_parcelSteps.1
  refine ⟨hentries, ?_⟩
  have hentry : (⟨original, ⟨0, 2, 2⟩⟩ : Entry) ∈ f.chain.entries parcel.id := by
    rw [hentries]
    exact List.mem_singleton_self _
  obtain ⟨-, before, s, after, b, hsteps, hb, -, hoffset, hlog⟩ :=
    (run_traceable desk true [] _).1 parcel.id _ hentry
  -- The first step has another offset, and the third one submits nothing.
  rcases before with _ | ⟨x, _ | ⟨y, before⟩⟩
  · exact absurd hoffset (by decide)
  · simp only [parcelSteps, List.cons_append, List.nil_append, List.cons.injEq] at hsteps
    obtain ⟨-, rfl, rfl⟩ := hsteps
    obtain rfl := Option.some.inj (submission?_submitParcel.symm.trans hb)
    exact hlog
  · rcases before with _ | ⟨z, before⟩
    · simp only [parcelSteps, List.cons_append, List.nil_append, List.cons.injEq] at hsteps
      obtain ⟨-, -, rfl, -⟩ := hsteps
      cases hb
    · simp [parcelSteps] at hsteps

end Feed

end Provenance

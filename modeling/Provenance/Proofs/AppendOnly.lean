import Provenance.Proofs.Operations

/-!
# Histories only grow

* `perform_entries`: one operation leaves the entries of an object as they are, or adds one at the
  end, and then the operation brings that revision;
* `run_wellFormed`: every history holds revisions of its own object only, and the root of trust of
  an object is always the header of one of its entries;
* `run_appendOnly`: both of these after every run, and an object that is immutable stays so and
  takes no validated revision any more.

Immutability may come from a root of trust, which a later anchor replaces. It is not lost then,
because the header of the first anchor is still among the entries.
-/

namespace Provenance

namespace TrustChain

/-! ## One operation -/

theorem perform_entries (c : TrustChain) (op : Operation) (id : ObjectId) :
    (c.perform op).1.entries id = c.entries id ∨
      ∃ r d, op.record? = some (.data r) ∧ r.id = id ∧
        (c.perform op).1.entries id = c.entries id ++ [⟨r, d⟩] ∧
          (op.isValidated = true → ∃ a k, c.Acceptable r a k) := by
  -- A write adds an entry to its own object only.
  have happend : ∀ r d, op.record? = some (.data r) →
      (op.isValidated = true → ∃ a k, c.Acceptable r a k) →
        (c.append r d).entries id = c.entries id ∨ ∃ r' d', op.record? = some (.data r') ∧
          r'.id = id ∧ (c.append r d).entries id = c.entries id ++ [⟨r', d'⟩] ∧
            (op.isValidated = true → ∃ a k, c.Acceptable r' a k) := by
    intro r d hrecord hvalid
    rw [entries_append]
    by_cases hid : r.id = id
    · rw [if_pos hid]
      exact Or.inr ⟨r, d, hrecord, hid, rfl, hvalid⟩
    · rw [if_neg hid]
      exact Or.inl rfl
  have he := perform_effect c op
  generalize c.perform op = outcome at he
  cases he with
  | refused js => exact Or.inl rfl
  | accepted r d js _ hrecord _ _ hvalid =>
    exact happend r d hrecord (fun _ => (check_validator c r).mp hvalid)
  | committed r d js hop =>
    subst hop
    exact happend r d rfl (fun h => nomatch h)
  | anchored h d hop =>
    subst hop
    exact happend (Revision.ofHeader h) d rfl (fun h => nomatch h)
  | learned k aliases _ _ _ => exact Or.inl rfl
  | stored castle castleId _ _ _ => exact Or.inl rfl

theorem root?_perform {op : Operation} (hop : op.isAnchor = false) (c : TrustChain)
    (id : ObjectId) : (c.perform op).1.root? id = c.root? id := by
  have he := perform_effect c op
  generalize c.perform op = outcome at he
  cases he with
  | anchored h d e =>
    subst e
    cases hop
  | _ => rfl

/-- An anchor becomes the root of trust of its object, and an entry without a digest. -/
theorem perform_addRoot (c : TrustChain) (h : Header) (d : Delivery) (id : ObjectId) :
    (c.perform (.addRoot h d)).1.root? id = (if h.id = id then some h else c.root? id) ∧
      (c.perform (.addRoot h d)).1.entries id =
        if h.id = id then c.entries id ++ [⟨Revision.ofHeader h, d⟩] else c.entries id :=
  ⟨Table.find?_insert h.id h c.roots id, entries_append _ (Revision.ofHeader h) d id⟩

/-! ## Well-formed chains -/

structure WellFormed (c : TrustChain) : Prop where
  owned : ∀ id, ∀ e ∈ c.entries id, e.revision.id = id
  rooted : ∀ id root, c.root? id = some root → ∃ e ∈ c.entries id, e.revision.header = root

theorem wellFormed_start (partition : PartitionKey) (strict : Bool) (journals : List Journal) :
    WellFormed (start partition strict journals) where
  owned _ _ he := absurd he List.not_mem_nil
  rooted _ _ h := nomatch h

theorem mem_entries_perform {c : TrustChain} {id : ObjectId} {e : Entry} (h : e ∈ c.entries id)
    (op : Operation) : e ∈ (c.perform op).1.entries id := by
  rcases perform_entries c op id with heq | ⟨r, d, -, -, heq, -⟩
  · rw [heq]
    exact h
  · rw [heq]
    exact List.mem_append_left _ h

theorem mem_entries_run {c : TrustChain} {id : ObjectId} {e : Entry} (h : e ∈ c.entries id)
    (ops : List Operation) : e ∈ (c.run ops).entries id :=
  run_invariant (P := fun c => e ∈ c.entries id) (fun _ op _ h => mem_entries_perform h op) h

theorem WellFormed.perform {c : TrustChain} (hc : WellFormed c) (op : Operation) :
    WellFormed (c.perform op).1 where
  owned id e he := by
    rcases perform_entries c op id with heq | ⟨r, d, -, hid, heq, -⟩
    · rw [heq] at he
      exact hc.owned id e he
    · rw [heq, List.mem_append, List.mem_singleton] at he
      rcases he with he | rfl
      · exact hc.owned id e he
      · exact hid
  rooted id root hroot := by
    have hold : c.root? id = some root →
        ∃ e ∈ (c.perform op).1.entries id, e.revision.header = root := by
      intro h
      obtain ⟨e, he, hh⟩ := hc.rooted id root h
      exact ⟨e, mem_entries_perform he op, hh⟩
    cases ho : op.isAnchor with
    | false =>
      rw [root?_perform ho] at hroot
      exact hold hroot
    | true =>
      obtain ⟨h, d, rfl⟩ := Operation.eq_addRoot_of_isAnchor ho
      obtain ⟨hroot', hentries⟩ := perform_addRoot c h d id
      rw [hroot'] at hroot
      split at hroot
      · rename_i hid
        cases hroot
        rw [hentries, if_pos hid]
        exact ⟨_, List.mem_append_right _ (List.mem_singleton_self _), rfl⟩
      · exact hold hroot

theorem run_wellFormed {c : TrustChain} (hc : WellFormed c) (ops : List Operation) :
    WellFormed (c.run ops) :=
  run_invariant (fun _ op _ h => h.perform op) hc

/-! ## Immutability -/

theorem WellFormed.isImmutable_eq {c : TrustChain} (hc : WellFormed c) (id : ObjectId) :
    c.isImmutable id = Entry.isImmutable (c.entries id) := by
  rw [TrustChain.isImmutable_eq]
  cases hr : c.root? id with
  | none => simp
  | some root =>
    obtain ⟨e, he, rfl⟩ := hc.rooted id root hr
    cases hi : e.revision.header.immutable with
    | false => simp [hi]
    | true =>
      have hm : Entry.isImmutable (c.entries id) = true := List.any_eq_true.mpr ⟨e, he, hi⟩
      simp [hm]

/-- Immutability outlasts every operation. -/
theorem WellFormed.isImmutable_perform {c : TrustChain} (hc : WellFormed c) {id : ObjectId}
    (h : c.isImmutable id = true) (op : Operation) : (c.perform op).1.isImmutable id = true := by
  rw [hc.isImmutable_eq] at h
  rw [(hc.perform op).isImmutable_eq]
  obtain ⟨e, he, hi⟩ := List.any_eq_true.mp h
  exact List.any_eq_true.mpr ⟨e, mem_entries_perform he op, hi⟩

theorem WellFormed.isImmutable_run {c : TrustChain} (hc : WellFormed c) {id : ObjectId}
    (h : c.isImmutable id = true) (ops : List Operation) : (c.run ops).isImmutable id = true :=
  (run_invariant (P := fun c => WellFormed c ∧ c.isImmutable id = true)
    (fun _ op _ h => ⟨h.1.perform op, h.1.isImmutable_perform h.2 op⟩) ⟨hc, h⟩).2

/-- An immutable object takes no revision that has to be validated. -/
theorem entries_perform_of_isImmutable {c : TrustChain} {id : ObjectId}
    (h : c.isImmutable id = true) {op : Operation} (hop : op.isValidated = true) :
    (c.perform op).1.entries id = c.entries id := by
  rcases perform_entries c op id with heq | ⟨r, d, -, rfl, -, hvalid⟩
  · exact heq
  · obtain ⟨a, k, hacc⟩ := hvalid hop
    rw [hacc.notImmutable] at h
    cases h

/-! ## Every run -/

/-- **Append-only histories.** After any run, every history has entries, all of them of its own
object, and every anchored object has a history. The next operation adds at most one entry, at the
end, to the object that it names. An object that is immutable remains so whatever happens later, and
no validated revision ever changes its entries again. -/
theorem run_appendOnly (partition : PartitionKey) (strict : Bool) (journals : List Journal)
    (ops : List Operation) :
    let c := (start partition strict journals).run ops
    (∀ id h, c.history? id = some h → h.entries ≠ [] ∧ ∀ e ∈ h.entries, e.revision.id = id) ∧
      (∀ id root, c.root? id = some root → ∃ h, c.history? id = some h) ∧
        (∀ op id, (c.perform op).1.entries id = c.entries id ∨
          (op.objectId? = some id ∧ ∃ e, (c.perform op).1.entries id = c.entries id ++ [e])) ∧
          (∀ id, c.isImmutable id = true → ∀ later, (c.run later).isImmutable id = true ∧
            ∀ op, op.isValidated = true →
              ((c.run later).perform op).1.entries id = (c.run later).entries id) := by
  intro c
  have hc : WellFormed c := run_wellFormed (wellFormed_start partition strict journals) ops
  refine ⟨fun id h hh => ⟨h.nonempty, fun e he => ?_⟩, fun id root hroot => ?_, fun op id => ?_,
    fun id hi later => ?_⟩
  · rw [← entries_of_history? hh] at he
    exact hc.owned id e he
  · obtain ⟨e, he, -⟩ := hc.rooted id root hroot
    cases hh : c.history? id with
    | none =>
      rw [history?_eq_none.mp hh] at he
      exact absurd he List.not_mem_nil
    | some h => exact ⟨h, rfl⟩
  · rcases perform_entries c op id with heq | ⟨r, d, hrecord, hid, heq, -⟩
    · exact Or.inl heq
    · refine Or.inr ⟨?_, _, heq⟩
      simp only [Operation.objectId?, hrecord, hid]
  · have hlater := hc.isImmutable_run hi later
    exact ⟨hlater, fun op hop => entries_perform_of_isImmutable hlater hop⟩

/-- The anchor of an object that no revision may follow. -/
def frozenHeader : Header :=
  { Header.anchor ⟨.replicate 1⟩ ⟨.replicate 2⟩ "Account" with immutable := true }

/-- A later anchor of that object, which does not say so. -/
def thawedHeader : Header := { frozenHeader with version := ⟨.replicate 3⟩, immutable := false }

/-- The later anchor replaces the root of trust, and the object is as immutable as it was. -/
theorem isImmutable_thawed :
    let c := ((start ⟨"accounts", 0, .data⟩ true []).run
      [.addRoot frozenHeader (.direct 0 0)]).run [.addRoot thawedHeader (.direct 0 0)]
    c.root? frozenHeader.id = some thawedHeader ∧ c.isImmutable frozenHeader.id = true ∧
      ∀ op, op.isValidated = true →
        (c.perform op).1.entries frozenHeader.id = c.entries frozenHeader.id := by
  intro c
  have h := (run_appendOnly ⟨"accounts", 0, .data⟩ true []
    [.addRoot frozenHeader (.direct 0 0)]).2.2.2 frozenHeader.id (by decide)
    [.addRoot thawedHeader (.direct 0 0)]
  exact ⟨by decide, h.1, h.2⟩

end TrustChain

end Provenance

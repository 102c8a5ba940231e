import Provenance.Proofs.Redelivery
import Provenance.Proofs.WriteSets

/-!
# Staged revisions

A revision that is staged for an object is the predecessor of every candidate of another version:
its immutability stops them, and its write set judges their signers. A candidate of the same version
passes for the staged revision itself, whatever else the two have in common, and the staged revision
then plays no part.

* `check_of_predecessor`: what a predecessor demands of a candidate;
* `check_sameVersion`: a candidate of the same version is judged as if nothing was staged;
* `check_staged`: both, for every validator.
-/

namespace Provenance

namespace Validator

variable {v : Validator} {r s : Revision}

/-! ## Predecessors -/

theorem stagedPredecessor?_eq_some {h : Header} :
    v.stagedPredecessor? h = some s ↔ v.staged.find? h.id = some s ∧ s.version ≠ h.version := by
  rw [stagedPredecessor?, Option.filter_eq_some_iff, decide_eq_true_eq]

theorem isImmutable_of_predecessor {h : Header} (hs : v.stagedPredecessor? h = some s)
    (himmutable : s.header.immutable = true) : v.isImmutable h = true := by
  rw [isImmutable, hs, Option.any_some, himmutable, Bool.or_true]

theorem writeSet_of_predecessor {h : Header} (hs : v.stagedPredecessor? h = some s) :
    v.writeSet h = s.header.writers := by
  rw [writeSet, hs]
  rfl

theorem check_of_predecessor (hs : v.stagedPredecessor? r.header = some s)
    (hcheck : v.check r = .ok ()) :
    s.header.immutable = false ∧ ∃ k, v.signerKey? r.header = some k ∧
      v.admits s.header.writers k.hash = true := by
  obtain ⟨a, k, -, hsigner, -, -, himmutable, hadmits⟩ := (check_eq_ok v r).mp hcheck
  rw [writeSet_of_predecessor hs] at hadmits
  refine ⟨?_, k, hsigner, hadmits⟩
  cases hfrozen : s.header.immutable with
  | false => rfl
  | true =>
    rw [isImmutable_of_predecessor hs hfrozen] at himmutable
    cases himmutable

/-! ## The staged copy of a candidate -/

/-- A validator looks for staged revisions where it looks for predecessors, and nowhere else. -/
theorem check_congr_staged {staged : Table ObjectId Revision}
    (h : v.stagedPredecessor? r.header = { v with staged := staged }.stagedPredecessor? r.header) :
    v.check r = { v with staged := staged }.check r := by
  have hparent : ∀ parent, v.parentImmutable? r.header parent =
      { v with staged := staged }.parentImmutable? r.header parent := by
    intro parent
    rw [parentImmutable?, parentImmutable?, h]
  have hcheckParent : v.checkParent r.header =
      { v with staged := staged }.checkParent r.header := by
    simp only [checkParent, hparent]
  have himmutable : v.isImmutable r.header = { v with staged := staged }.isImmutable r.header := by
    rw [isImmutable, isImmutable, h]
  have hwriters : v.writeSet r.header = { v with staged := staged }.writeSet r.header := by
    rw [writeSet, writeSet, h]
  rw [check, check, hcheckParent, himmutable, hwriters]
  rfl

theorem check_sameVersion (hs : v.staged.find? r.id = some s) (hversion : s.version = r.version) :
    v.check r = { v with staged := Table.empty }.check r := by
  apply check_congr_staged
  have hnone : v.stagedPredecessor? r.header = none := by
    rw [Option.eq_none_iff_forall_ne_some]
    intro s' hs'
    obtain ⟨hfound, hother⟩ := stagedPredecessor?_eq_some.mp hs'
    obtain rfl := Option.some.inj (hs.symm.trans hfound)
    exact hother hversion
  rw [hnone]
  rfl

/-! ## Every candidate -/

/-- **Staged revisions.** A staged revision governs the candidates of other versions: none is
accepted if it is immutable, and those accepted have a signer whom its write set admits. To
candidates of its own version it is nothing, so that they are judged as if none was staged. -/
theorem check_staged (hs : v.staged.find? r.id = some s) :
    (v.stagedPredecessor? r.header = some s ↔ s.version ≠ r.version) ∧
      (s.version ≠ r.version →
        (s.header.immutable = true → ∃ e, v.check r = .error e) ∧
          (v.check r = .ok () → ∃ k, v.signerKey? r.header = some k ∧
            r.header.signer = some k.hash ∧ v.admits s.header.writers k.hash = true)) ∧
      (s.version = r.version → v.check r = { v with staged := Table.empty }.check r) := by
  have hpredecessor : v.stagedPredecessor? r.header = some s ↔ s.version ≠ r.version :=
    stagedPredecessor?_eq_some.trans (and_iff_right hs)
  refine ⟨hpredecessor, fun hother => ⟨fun himmutable => ?_, fun hcheck => ?_⟩,
    check_sameVersion hs⟩
  · cases hcheck : v.check r with
    | error e => exact ⟨e, rfl⟩
    | ok u =>
      obtain ⟨hmutable, -⟩ := check_of_predecessor (hpredecessor.mpr hother) hcheck
      exact absurd (himmutable.symm.trans hmutable) (by decide)
  · obtain ⟨-, k, hsigner, hadmits⟩ := check_of_predecessor (hpredecessor.mpr hother) hcheck
    exact ⟨k, hsigner, (signerKey?_eq_some.mp hsigner).1, hadmits⟩

end Validator

/-! ## A frozen revision that is passed over -/

namespace TrustChain

/-- The parcel made immutable, and writable by nobody. -/
def frozen : Revision :=
  .signNeutral { parcel with writers := NameSet.ofList ["nobody"], immutable := true } courier
    (some [0])

/-- It has the version of the first revision. -/
theorem version_frozen : frozen.version = original.version := by
  have hparcel : frozen.version = parcel.version := rfl
  exact hparcel

/-- The validator of the informed chain that has the frozen revision staged. -/
def freezing : Validator := informed.validator.stage frozen

theorem staged_freezing : freezing.staged.find? parcel.id = some frozen :=
  Table.find?_insert_self _ _ _

/-- The courier is known without an alias. -/
theorem aliases_informed :
    informed.aliases = (start ⟨"accounts", 0, .data⟩ true []).aliases := rfl

theorem resolve?_freezing (name : String) :
    freezing.resolve? name = (start ⟨"accounts", 0, .data⟩ true []).resolve? name := by
  have hinformed : freezing.resolve? name = informed.aliases.find? name := rfl
  rw [hinformed, aliases_informed, resolve?]

theorem unstage_stage (c : TrustChain) (s : Revision) :
    { c.validator.stage s with staged := Table.empty } = c.validator := rfl

/-- Under the version of the frozen revision another one is accepted, from a signer whom the frozen
one does not admit. -/
theorem frozen_bypassed :
    freezing.staged.find? original.id = some frozen ∧ original ≠ frozen ∧
      frozen.header.immutable = true ∧ freezing.check original = .ok () ∧
        ∀ k, freezing.signerKey? original.header = some k →
          freezing.admits frozen.header.writers k.hash = false := by
  have hcheck : freezing.check original = .ok () := by
    rw [Validator.check_sameVersion staged_freezing version_frozen, freezing, unstage_stage]
    exact check_original
  have hne : original ≠ frozen := by
    intro h
    have hbody : original.body = frozen.body := by rw [h]
    exact absurd hbody (by decide)
  refine ⟨staged_freezing, hne, rfl, hcheck, fun k hk => ?_⟩
  have hhash : courier.hash = k.hash := Option.some.inj (Validator.signerKey?_eq_some.mp hk).1
  rw [← hhash, ← Bool.not_eq_true, Validator.admits_eq_true]
  have hname : ∀ name, name ∈ frozen.header.writers → name = "nobody" := fun name hmem =>
    List.mem_singleton.mp (NameSet.mem_ofList.mp hmem)
  rintro (⟨hnames, -⟩ | hmem | ⟨name, hmem, howner⟩)
  · cases hnames
  · have hlength : courier.hash.length = 43 := length_keyHash _
    rw [hname _ hmem] at hlength
    exact absurd hlength (by decide)
  · rw [hname _ hmem, resolve?_freezing] at howner
    exact absurd (resolve?_start howner) (by decide)

/-- The next revision of the parcel is stopped, the other first one is not. -/
theorem frozen_governs :
    (∃ e, freezing.check edited = .error e) ∧
      freezing.check original = informed.validator.check original := by
  obtain ⟨-, hnext, -⟩ := Validator.check_staged (r := edited) staged_freezing
  obtain ⟨-, -, htwin⟩ := Validator.check_staged (r := original) staged_freezing
  have hother : frozen.version ≠ edited.version := by decide
  refine ⟨(hnext hother).1 rfl, ?_⟩
  rw [htwin version_frozen, freezing, unstage_stage]

end TrustChain

end Provenance

import Provenance.Proofs.Entries
import Provenance.Proofs.KeyHashes

/-!
# Acceptance by a chain

`TrustChain.writersFor` is the write set that judges the next revision of an object, and
`TrustChain.Admits` says whom a write set lets write. Main statement: `TrustChain.check_validator`,
the exact condition (`TrustChain.Acceptable`) under which the validator of a chain accepts a
revision.
-/

namespace Provenance

/-! ## Validators -/

namespace Validator

theorem admits_eq_true (v : Validator) (writers : NameSet) (hash : String) :
    v.admits writers hash = true ↔ (writers.names = [] ∧ hash = v.publicWriter) ∨
      hash ∈ writers ∨ ∃ name ∈ writers, v.resolve? name = some hash := by
  unfold admits NameSet.isEmpty
  simp only [NameSet.mem_names]
  cases hn : writers.names with
  | nil => simp
  | cons name names =>
    simp only [List.isEmpty_cons, Bool.false_eq_true, if_false, List.any_eq_true, Bool.or_eq_true,
      decide_eq_true_eq, reduceCtorEq, false_and, false_or]
    constructor
    · rintro ⟨x, hx, rfl | hr⟩
      · exact Or.inl hx
      · exact Or.inr ⟨x, hx, hr⟩
    · rintro (hx | ⟨x, hx, hr⟩)
      · exact ⟨hash, hx, Or.inl rfl⟩
      · exact ⟨x, hx, Or.inr hr⟩

theorem signerKey?_eq_some {v : Validator} {h : Header} {k : PublicKey} :
    v.signerKey? h = some k ↔
      h.signer = some k.hash ∧ v.key? k.hash = some k ∧ k.hashMatches = true := by
  unfold signerKey?
  simp only [Option.bind_eq_some_iff, Option.filter_eq_some_iff, Bool.and_eq_true,
    decide_eq_true_eq]
  constructor
  · rintro ⟨hash, hs, hk, rfl, hm⟩
    exact ⟨hs, hk, hm⟩
  · rintro ⟨hs, hk, hm⟩
    exact ⟨k.hash, hs, hk, rfl, hm⟩

/-- A staged revision of another version is a predecessor. -/
theorem stagedPredecessor?_eq {v : Validator} {h : Header}
    (hfresh : ∀ s, v.staged.find? h.id = some s → s.version ≠ h.version) :
    v.stagedPredecessor? h = v.staged.find? h.id := by
  unfold stagedPredecessor?
  cases hs : v.staged.find? h.id with
  | none => rfl
  | some s => simp only [Option.filter_some, hfresh s hs, ne_eq, not_false_eq_true, decide_true,
      if_true]

theorem parentImmutable?_eq_some {v : Validator} {h : Header} {parent : VersionId} {b : Bool}
    (hp : v.parentImmutable? h parent = some b) :
    (∃ c, v.history? h.id = some c ∧ ∃ e ∈ c.entries, e.revision.version = parent) ∨
      ∃ s, v.stagedPredecessor? h = some s ∧ s.version = parent := by
  unfold parentImmutable? at hp
  rcases Option.or_eq_some_iff.mp hp with hc | ⟨-, hs⟩
  · obtain ⟨e, he, -⟩ := Option.map_eq_some_iff.mp hc
    obtain ⟨c, hhistory, hfound⟩ := Option.bind_eq_some_iff.mp he
    refine Or.inl ⟨c, hhistory, e, List.mem_of_find?_eq_some hfound, ?_⟩
    simpa using List.find?_some hfound
  · obtain ⟨s, hs, -⟩ := Option.map_eq_some_iff.mp hs
    obtain ⟨hs, hversion⟩ := Option.filter_eq_some_iff.mp hs
    exact Or.inr ⟨s, hs, of_decide_eq_true hversion⟩

theorem checkParent_eq_ok {v : Validator} {h : Header} (hp : v.checkParent h = .ok ()) :
    ∀ parent, h.parent = some parent → v.parentImmutable? h parent = some false := by
  intro parent hparent
  unfold checkParent at hp
  rw [hparent] at hp
  cases himmutable : v.parentImmutable? h parent with
  | none => simp only [himmutable, reduceCtorEq] at hp
  | some b =>
    cases b with
    | true => simp only [himmutable, reduceCtorEq] at hp
    | false => rfl

/-- A validator accepts a revision exactly if none of its checks fails. -/
theorem check_eq_ok (v : Validator) (r : Revision) :
    v.check r = .ok () ↔ ∃ a k, r.attestation = some a ∧ v.signerKey? r.header = some k ∧
      attests k r a = true ∧ v.checkParent r.header = .ok () ∧ v.isImmutable r.header = false ∧
        v.admits (v.writeSet r.header) k.hash = true := by
  unfold check
  constructor
  · intro h
    split at h
    · cases h
    · rename_i a ha
      split at h
      · cases h
      · rename_i k hk
        split at h
        · rename_i hatt
          split at h
          · cases h
          · rename_i hp
            split at h
            · cases h
            · rename_i him
              split at h
              · rename_i had
                exact ⟨a, k, ha, hk, hatt, hp, Bool.not_eq_true _ ▸ him, had⟩
              · cases h
        · cases h
  · rintro ⟨a, k, ha, hk, hatt, hp, him, had⟩
    simp only [ha, hk, hatt, hp, him, had, if_true, Bool.false_eq_true, if_false]

theorem accepts_eq_true {v : Validator} {r : Revision} :
    v.accepts r = true ↔ v.check r = .ok () := by
  unfold accepts
  cases v.check r with
  | error e => simp
  | ok u => simp

end Validator

/-! ## A key without a secret -/

/-- The neutral point of the curve as a public key. It takes `neutralSignature` for a signature of
every message, so that a revision under it can be written down without a secret. -/
def PublicKey.neutral (p : Profile) (label : Option String) : PublicKey :=
  ofBytes (p.encode (1 :: Bytes.zeros 31)) label

def neutralSignature : Bytes := 1 :: Bytes.zeros 63

def Revision.signNeutral (h : Header) (k : PublicKey) (body : Option Bytes) : Revision :=
  let header := { h with signer := some k.hash }
  ⟨header, some ⟨header.digest body, neutralSignature⟩, body⟩

namespace TrustChain

/-! ## Write sets -/

/-- The write set that judges a revision with this header: what the history of the object leaves,
else the write set of its root of trust, else the revision's own. -/
def writersFor (c : TrustChain) (h : Header) : NameSet :=
  (((Entry.latestSigned? (c.entries h.id)).map (fun r => r.header.writers)).or
    ((c.root? h.id).map (fun root => root.writers))).getD h.writers

/-- Whom a write set lets write: the empty set the public writer, any other its members and the keys
that own one of its members as an alias. -/
def Admits (c : TrustChain) (writers : NameSet) (hash : String) : Prop :=
  (writers.names = [] ∧ hash = c.publicWriter) ∨
    hash ∈ writers ∨ ∃ name ∈ writers, c.resolve? name = some hash

theorem writeSet_validator (c : TrustChain) (h : Header) :
    c.validator.writeSet h = c.writersFor h := by
  unfold Validator.writeSet writersFor entries
  simp only [validator, Validator.stagedPredecessor?, Table.find?_empty, Option.filter_none,
    Option.map_none, Option.none_or]
  cases c.history? h.id <;> rfl

theorem admits_validator (c : TrustChain) (writers : NameSet) (hash : String) :
    c.validator.admits writers hash = true ↔ c.Admits writers hash :=
  Validator.admits_eq_true c.validator writers hash

/-! ## The validator of a chain -/

theorem parentImmutable?_validator (c : TrustChain) (h : Header) (parent : VersionId) :
    c.validator.parentImmutable? h parent =
      (Entry.findVersion? (c.entries h.id) parent).map (fun e => e.revision.header.immutable) := by
  unfold Validator.parentImmutable? entries
  simp only [validator, Validator.stagedPredecessor?, Table.find?_empty, Option.filter_none,
    Option.map_none, Option.or_none]
  cases c.history? h.id <;> rfl

theorem isImmutable_validator (c : TrustChain) (h : Header) :
    c.validator.isImmutable h = c.isImmutable h.id := by
  unfold Validator.isImmutable isImmutable
  simp only [validator, Validator.stagedPredecessor?, Table.find?_empty, Option.filter_none,
    Option.any_none, Bool.or_false, history?, root?]
  exact Bool.or_comm _ _

/-- Among entries that are not immutable, the parent check asks for an entry of that version. -/
theorem checkParent_validator {c : TrustChain} {h : Header} (hm : c.isImmutable h.id = false) :
    c.validator.checkParent h = .ok () ↔
      ∀ parent, h.parent = some parent → ∃ e ∈ c.entries h.id, e.revision.version = parent := by
  rw [isImmutable_eq, Bool.or_eq_false_iff, Entry.isImmutable_eq_false] at hm
  unfold Validator.checkParent
  cases hp : h.parent with
  | none => simp
  | some parent =>
    simp only [parentImmutable?_validator, Option.some.injEq, forall_eq']
    rw [← Entry.findVersion?_isSome]
    cases hf : Entry.findVersion? (c.entries h.id) parent with
    | none => simp
    | some e =>
      have he := hm.1 e (List.mem_of_find?_eq_some hf)
      simp [he]

/-! ## Acceptance -/

/-- What a chain wants of a revision with a digest and of the key that signed it, apart from the
permission to write. -/
structure Sound (c : TrustChain) (r : Revision) (a : Attestation) (k : PublicKey) : Prop where
  attestation : r.attestation = some a
  signer : r.header.signer = some k.hash
  known : c.key? k.hash = some k
  hashMatches : k.hashMatches = true
  attests : Validator.attests k r a = true
  parent : ∀ parent, r.header.parent = some parent →
    ∃ e ∈ c.entries r.id, e.revision.version = parent
  notImmutable : c.isImmutable r.id = false

structure Acceptable (c : TrustChain) (r : Revision) (a : Attestation) (k : PublicKey) : Prop
    extends Sound c r a k where
  admitted : c.Admits (c.writersFor r.header) k.hash

/-- **Acceptance.** The validator of a chain accepts exactly the acceptable revisions. -/
theorem check_validator (c : TrustChain) (r : Revision) :
    c.validator.check r = .ok () ↔ ∃ a k, c.Acceptable r a k := by
  rw [Validator.check_eq_ok]
  constructor
  · rintro ⟨a, k, ha, hk, hatt, hp, him, had⟩
    obtain ⟨hs, hk, hm⟩ := Validator.signerKey?_eq_some.mp hk
    rw [isImmutable_validator] at him
    rw [writeSet_validator, admits_validator] at had
    exact ⟨a, k, ⟨ha, hs, hk, hm, hatt, (checkParent_validator him).mp hp, him⟩, had⟩
  · rintro ⟨a, k, h⟩
    have hkey : c.validator.signerKey? r.header = some k :=
      Validator.signerKey?_eq_some.mpr ⟨h.signer, h.known, h.hashMatches⟩
    refine ⟨a, k, h.attestation, hkey, h.attests,
      (checkParent_validator h.notImmutable).mpr h.parent, ?_, ?_⟩
    · rw [isImmutable_validator]
      exact h.notImmutable
    · rw [writeSet_validator, admits_validator]
      exact h.admitted

end TrustChain

end Provenance

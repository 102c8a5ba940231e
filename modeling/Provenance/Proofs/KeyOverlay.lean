import Provenance.Proofs.CanonicalForm
import Provenance.Proofs.Redelivery
import Provenance.Proofs.StagedKeys

/-!
# Keys in front of keys

Staged keys are looked up in front of those of the chain. What is found is refused unless it is a
key of the hash that was looked up, and nothing is looked up behind it. So there is one way in which
staged keys take a valid write away: a key is staged under the hash of the signer and is no key of
this hash (`Staging.Shadows`). Staged aliases take nothing away, since they come last.

* `Validator.Widens`: a validator that knows the aliases of another one, and maybe more;
* `Validator.Widens.check`: it accepts the same revisions, if it finds the same keys for the signers;
* `staging_keeps`: staged keys in general.
-/

namespace Provenance

namespace Validator

/-! ## More aliases -/

/-- The second validator resolves what the first one resolves, and has the same of every object. -/
structure Widens (v v' : Validator) : Prop where
  root : v'.root? = v.root?
  history : v'.history? = v.history?
  staged : v'.staged = v.staged
  publicWriter : v'.publicWriter = v.publicWriter
  resolve : ∀ name hash, v.resolve? name = some hash → v'.resolve? name = some hash

section

variable {v v' : Validator}

theorem Widens.predecessor (h : Widens v v') (header : Header) :
    v'.stagedPredecessor? header = v.stagedPredecessor? header := by
  rw [stagedPredecessor?, stagedPredecessor?, h.staged]

theorem Widens.checkParent (h : Widens v v') (header : Header) :
    v'.checkParent header = v.checkParent header := by
  have hparent : ∀ parent, v'.parentImmutable? header parent = v.parentImmutable? header parent := by
    intro parent
    rw [parentImmutable?, parentImmutable?, h.history, h.predecessor]
  simp only [Validator.checkParent, hparent]

theorem Widens.isImmutable (h : Widens v v') (header : Header) :
    v'.isImmutable header = v.isImmutable header := by
  rw [Validator.isImmutable, Validator.isImmutable, h.root, h.history, h.predecessor]

theorem Widens.writeSet (h : Widens v v') (header : Header) :
    v'.writeSet header = v.writeSet header := by
  rw [Validator.writeSet, Validator.writeSet, h.root, h.history, h.predecessor]

theorem Widens.admits (h : Widens v v') {writers : NameSet} {hash : String}
    (ha : v.admits writers hash = true) : v'.admits writers hash = true := by
  rw [admits_eq_true] at ha ⊢
  rw [h.publicWriter]
  exact ha.imp_right (Or.imp_right fun ⟨name, hname, hr⟩ => ⟨name, hname, h.resolve name hash hr⟩)

/-- A key attests by its bytes, whatever it is called. -/
theorem attests_congr {k k' : PublicKey} (h : k'.bytes = k.bytes) (r : Revision) (a : Attestation) :
    attests k' r a = attests k r a := by
  unfold attests PublicKey.use? PublicKey.profile
  rw [h]

/-- A validator that resolves more accepts what the other one accepts, if it finds the same bytes
for the signer. -/
theorem Widens.check (h : Widens v v') {r : Revision} (hcheck : v.check r = .ok ())
    {k k' : PublicKey} (hk : v.signerKey? r.header = some k) (hk' : v'.signerKey? r.header = some k')
    (hbytes : k'.bytes = k.bytes) : v'.check r = .ok () := by
  obtain ⟨a, signer, ha, hsigner, hattests, hparent, himmutable, hadmits⟩ :=
    (check_eq_ok v r).mp hcheck
  obtain rfl := Option.some.inj (hk.symm.trans hsigner)
  have hhash : k'.hash = k.hash :=
    Option.some.inj ((signerKey?_eq_some.mp hk').1.symm.trans (signerKey?_eq_some.mp hk).1)
  refine (check_eq_ok v' r).mpr ⟨a, k', ha, hk', ?_, ?_, ?_, ?_⟩
  · rw [attests_congr hbytes, hattests]
  · rw [h.checkParent, hparent]
  · rw [h.isImmutable, himmutable]
  · rw [h.writeSet, hhash]
    exact h.admits hadmits

theorem withStaged_empty (v : Validator) : v.withStaged Table.empty = v := rfl

theorem check_unknown {r : Revision} {a : Attestation} (ha : r.attestation = some a)
    (hk : v.signerKey? r.header = none) : v.check r = .error .unknownSigningKey := by
  unfold Validator.check
  simp only [ha, hk]

end

end Validator

/-! ## Keys in the staging area -/

namespace Staging

/-- A key is staged under the hash and is no key of this hash. -/
def Shadows (s : Staging) (hash : String) : Prop :=
  ∃ k, s.key? hash = some k ∧ k.hashMatches = false

/-- What is found in the area was staged, and carries the hash that it stands under. -/
theorem key?_stageKeys {s : Staging} {ks : List PublicKey} {hash : String} {k : PublicKey}
    (h : (s.stageKeys ks).key? hash = some k) :
    (k ∈ ks ∧ k.hash = hash) ∨ s.key? hash = some k := by
  induction ks generalizing s with
  | nil => exact Or.inr h
  | cons first ks ih =>
    rcases ih (s := s.stageKey first) h with ⟨hmem, hhash⟩ | hfirst
    · exact Or.inl ⟨List.mem_cons_of_mem first hmem, hhash⟩
    · rw [key?, stageKey, Table.find?_insert] at hfirst
      split at hfirst
      · rename_i hhash
        obtain rfl := Option.some.inj hfirst
        exact Or.inl ⟨List.mem_cons_self .., hhash⟩
      · exact Or.inr hfirst

end Staging

namespace TrustChain

variable {c : TrustChain} {s : Staging} {r : Revision} {k : PublicKey}

theorem widens_staging (c : TrustChain) (s : Staging) :
    Validator.Widens (c.validatorWithSaved s) (c.validatorWithStaging s) where
  root := rfl
  history := rfl
  staged := rfl
  publicWriter := rfl
  resolve name hash h := by
    have hstaged : (c.validatorWithStaging s).resolve? name =
        ((c.validatorWithSaved s).resolve? name).or (s.resolve? name) := rfl
    rw [hstaged, h, Option.some_or]

theorem key?_validatorWithStaging (c : TrustChain) (s : Staging) (hash : String) :
    (c.validatorWithStaging s).key? hash = (s.key? hash).or (c.key? hash) := rfl

/-- Where nothing is staged for the signer, the key of the chain is found. -/
theorem signerKey?_unstaged (hk : (c.validatorWithSaved s).signerKey? r.header = some k)
    (hnone : s.key? k.hash = none) : (c.validatorWithStaging s).signerKey? r.header = some k := by
  obtain ⟨hsigner, hknown, hmatches⟩ := Validator.signerKey?_eq_some.mp hk
  refine Validator.signerKey?_eq_some.mpr ⟨hsigner, ?_, hmatches⟩
  rw [key?_validatorWithStaging, hnone, Option.none_or]
  exact hknown

theorem signerKey?_staged {staged : PublicKey} (hsigner : r.header.signer = some staged.hash)
    (hstaged : s.key? staged.hash = some staged) :
    (c.validatorWithStaging s).signerKey? r.header =
      if staged.hashMatches then some staged else none := by
  rw [Validator.signerKey?, hsigner, Option.bind_some, key?_validatorWithStaging, hstaged,
    Option.some_or]
  simp only [Option.filter_some, decide_true, Bool.true_and]

/-- **Staged keys and valid writes.** Let a chain accept a revision with the saved revisions in
view, and let keys be staged. If a key that is staged under the hash of the signer is no key of this
hash, the signer is unknown, and one of the staged keys carries the hash without having it. Else the
revision is accepted with the staged keys in view as well, or two keys show a collision of
SHA-256. -/
theorem staging_keeps (c : TrustChain) (saved : Table ObjectId Revision) (ks : List PublicKey)
    (r : Revision) :
    let s := Staging.stageKeys ⟨Table.empty, saved⟩ ks
    c.validateWithSaved s r = true →
      ∃ k, r.header.signer = some k.hash ∧ c.key? k.hash = some k ∧
        (s.Shadows k.hash → (c.validatorWithStaging s).check r = .error .unknownSigningKey ∧
          ∃ forged ∈ ks, forged.hash = k.hash ∧ forged.hashMatches = false) ∧
        (¬ s.Shadows k.hash → c.validateWithStaging s r = true ∨
          ∃ staged ∈ ks, Bytes.Collide k.bytes staged.bytes) := by
  intro s hvalid
  have hcheck := Validator.accepts_eq_true.mp hvalid
  obtain ⟨a, k, ha, hk, -⟩ := (Validator.check_eq_ok _ r).mp hcheck
  obtain ⟨hsigner, hknown, hmatches⟩ := Validator.signerKey?_eq_some.mp hk
  have hstaged : ∀ staged, s.key? k.hash = some staged → staged ∈ ks ∧ staged.hash = k.hash := by
    intro staged hfound
    rcases Staging.key?_stageKeys hfound with h | h
    · exact h
    · cases h
  refine ⟨k, hsigner, hknown, ?_, ?_⟩
  · rintro ⟨forged, hfound, hforged⟩
    obtain ⟨hmem, hhash⟩ := hstaged forged hfound
    rw [← hhash] at hfound hsigner
    refine ⟨Validator.check_unknown ha ?_, forged, hmem, hhash, hforged⟩
    rw [signerKey?_staged hsigner hfound, hforged]
    rfl
  · intro hnone
    cases hfound : s.key? k.hash with
    | none =>
      have hk' := signerKey?_unstaged hk hfound
      exact Or.inl (Validator.accepts_eq_true.mpr ((widens_staging c s).check hcheck hk hk' rfl))
    | some staged =>
      obtain ⟨hmem, hhash⟩ := hstaged staged hfound
      have hgenuine : staged.hashMatches = true := by
        by_contra hforged
        exact hnone ⟨staged, hfound, Bool.not_eq_true _ ▸ hforged⟩
      by_cases hbytes : staged.bytes = k.bytes
      · rw [← hhash] at hfound hsigner
        have hk' := signerKey?_staged (c := c) hsigner hfound
        rw [hgenuine, if_pos rfl] at hk'
        exact Or.inl (Validator.accepts_eq_true.mpr
          ((widens_staging c s).check hcheck hk hk' hbytes))
      · have hname : keyHash k.bytes = keyHash staged.bytes := by
          rw [PublicKey.hashMatches_iff.mp hmatches, PublicKey.hashMatches_iff.mp hgenuine, hhash]
        exact Or.inr ⟨staged, hmem, Ne.symm hbytes, sha256_eq_of_keyHash_eq hname⟩

/-! ## A key that shadows another one -/

/-- A key that carries the hash of the courier. -/
def shadow : PublicKey := { PublicKey.neutral .sign128 none with hash := courier.hash }

set_option maxRecDepth 100000 in
theorem hashMatches_shadow : shadow.hashMatches = false := by
  decide +kernel

theorem validateWithSaved_original (ks : List PublicKey) :
    informed.validateWithSaved (Staging.stageKeys ⟨Table.empty, Table.empty⟩ ks) original = true := by
  rw [validateWithSaved, Validator.accepts_eq_true, validatorWithSaved, Staging.saved_stageKeys,
    Validator.withStaged_empty]
  exact check_original

/-- A chain that knows the courier takes its revision; with the shadow staged it does not. -/
theorem original_shadowed :
    let c := (start ⟨"accounts", 0, .data⟩ true []).takeAll [keyArrival]
    let s := Staging.stageKeys ⟨Table.empty, Table.empty⟩ [shadow]
    c.validateWithSaved s original = true ∧ c.validateWithStaging s original = false := by
  simp only [takeAll, takeIn_keyArrival]
  refine ⟨validateWithSaved_original [shadow], ?_⟩
  have hsigner : original.header.signer = some shadow.hash := rfl
  have hfound : (Staging.stageKeys ⟨Table.empty, Table.empty⟩ [shadow]).key? shadow.hash =
      some shadow := Table.find?_insert_self _ _ _
  have hunknown := signerKey?_staged (c := informed) hsigner hfound
  rw [hashMatches_shadow] at hunknown
  rw [validateWithStaging, Validator.accepts, Validator.check_unknown rfl hunknown]

/-- The courier's own key may be staged, and its revision stays valid. -/
theorem original_kept :
    let s := Staging.stageKeys ⟨Table.empty, Table.empty⟩ [courier]
    informed.validateWithSaved s original = true ∧
      informed.validateWithStaging s original = true := by
  intro s
  have hvalid := validateWithSaved_original [courier]
  obtain ⟨k, hsigner, hknown, -, hkept⟩ := staging_keeps informed Table.empty [courier] original hvalid
  have hhash : courier.hash = k.hash := Option.some.inj hsigner
  rw [← hhash, key?_informed] at hknown
  obtain rfl := Option.some.inj hknown
  have hnone : ¬ s.Shadows courier.hash := by
    rintro ⟨staged, hfound, hforged⟩
    rcases Staging.key?_stageKeys hfound with ⟨hmem, -⟩ | hfound
    · rw [List.mem_singleton.mp hmem] at hforged
      exact absurd (hforged.symm.trans (PublicKey.hashMatches_ofBytes _ _)) (by decide)
    · cases hfound
  refine ⟨hvalid, (hkept hnone).resolve_right ?_⟩
  rintro ⟨staged, hmem, hne, -⟩
  rw [List.mem_singleton.mp hmem] at hne
  exact hne rfl

end TrustChain

end Provenance

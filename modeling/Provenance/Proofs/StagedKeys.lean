import Provenance.Chain.Staging
import Provenance.Proofs.NeutralKey

/-!
# Staged keys

Keys that are staged are looked up in front of those of the chain, and their aliases behind those of
the chain. Keys that are published one after another go into the tables of the chain. Both come to
the same:

* `Learned`: what a chain knows after keys were published, in whatever order it was told;
* `Staging.Holds`: what a staging area knows when just these keys are staged;
* `validatorWithStaging_eq`: the validator with the keys staged is the validator of the chain that
  has them published.

Main statement: `staged_published`.
-/

namespace Provenance

/-- Stage one key after another. -/
def Staging.stageKeys (s : Staging) (ks : List PublicKey) : Staging := ks.foldl Staging.stageKey s

/-- Register one key after another, until one is refused. -/
def TrustChain.publishAll (c : TrustChain) (ks : List PublicKey) : Except Flaw TrustChain :=
  ks.foldlM TrustChain.addKey c

namespace TrustChain

/-! ## The aliases after a claim -/

section

variable {aliases aliases' : Table String String} {k : PublicKey} {name : String}

theorem bindAlias_claimed (h : bindAlias aliases k = .ok aliases')
    (hclaim : claimedAlias? k = some name) : aliases'.find? name = some k.hash := by
  simp only [bindAlias, hclaim] at h
  split at h
  · cases h
    exact Table.find?_insert_self name k.hash aliases
  · rename_i howner
    split at h
    · rename_i heq
      cases h
      rw [howner, heq]
    · cases h

theorem bindAlias_unclaimed (h : bindAlias aliases k = .ok aliases')
    (hclaim : claimedAlias? k ≠ some name) : aliases'.find? name = aliases.find? name := by
  rcases bindAlias_eq_ok h with rfl | ⟨claimed, hclaimed, -, rfl⟩
  · rfl
  · have hne : claimed ≠ name := by
      rintro rfl
      exact hclaim hclaimed
    exact Table.find?_insert_of_ne hne k.hash aliases

end

/-! ## Learned keys -/

/-- The second chain is the first one when it knows the keys as well, and the aliases they claim. -/
structure Learned (c c' : TrustChain) (ks : List PublicKey) : Prop where
  rest : c' = { c with keys := c'.keys, aliases := c'.aliases }
  key : ∀ k ∈ ks, c'.key? k.hash = some k
  otherKey : ∀ hash, (∀ k ∈ ks, k.hash ≠ hash) → c'.key? hash = c.key? hash
  bound : ∀ name hash, c.resolve? name = some hash → c'.resolve? name = some hash
  claimed : ∀ k ∈ ks, ∀ name, claimedAlias? k = some name → c'.resolve? name = some k.hash
  unclaimed : ∀ name, (∀ k ∈ ks, claimedAlias? k ≠ some name) →
    c'.resolve? name = c.resolve? name

theorem Learned.refl (c : TrustChain) : Learned c c [] where
  rest := rfl
  key _ hk := absurd hk List.not_mem_nil
  otherKey _ _ := rfl
  bound _ _ h := h
  claimed _ hk := absurd hk List.not_mem_nil
  unclaimed _ _ := rfl

theorem learned_addKey {c c' : TrustChain} {k : PublicKey} (hmatches : k.hashMatches = true)
    (h : c.addKey k = .ok c') : Learned c c' [k] := by
  obtain ⟨aliases, -, hbind, rfl⟩ := addKey_eq_ok h
  have hhash := PublicKey.hashMatches_iff.mp hmatches
  have hself : PublicKey.ofBytes k.bytes k.label = k := by
    rw [PublicKey.ofBytes, hhash]
  rw [hself] at hbind ⊢
  rw [hhash]
  refine ⟨rfl, ?_, ?_, fun _ _ hbound => find?_bindAlias hbind hbound, ?_, ?_⟩
  · intro k' hk'
    rw [List.mem_singleton.mp hk']
    exact Table.find?_insert_self k.hash k c.keys
  · intro hash hother
    exact Table.find?_insert_of_ne (hother k (List.mem_singleton_self k)) k c.keys
  · intro k' hk' name hclaim
    rw [List.mem_singleton.mp hk'] at hclaim ⊢
    exact bindAlias_claimed hbind hclaim
  · intro name hnone
    exact bindAlias_unclaimed hbind (hnone k (List.mem_singleton_self k))

/-- A key, and then others of different hashes. -/
theorem Learned.cons {c told c' : TrustChain} {k : PublicKey} {ks : List PublicKey}
    (h : Learned c told [k]) (hrest : Learned told c' ks)
    (hother : k.hash ∉ ks.map PublicKey.hash) : Learned c c' (k :: ks) where
  rest := by
    rw [hrest.rest, h.rest]
  key k' hk' := by
    rcases List.mem_cons.mp hk' with rfl | hk'
    · rw [hrest.otherKey k'.hash (fun k hk heq => hother (List.mem_map.mpr ⟨k, hk, heq⟩))]
      exact h.key k' (List.mem_singleton_self k')
    · exact hrest.key k' hk'
  otherKey hash hnone := by
    obtain ⟨hfirst, hothers⟩ := List.forall_mem_cons.mp hnone
    rw [hrest.otherKey hash hothers]
    exact h.otherKey hash (List.forall_mem_singleton.mpr hfirst)
  bound name hash hbound := hrest.bound name hash (h.bound name hash hbound)
  claimed k' hk' name hclaim := by
    rcases List.mem_cons.mp hk' with rfl | hk'
    · exact hrest.bound name _ (h.claimed k' (List.mem_singleton_self k') name hclaim)
    · exact hrest.claimed k' hk' name hclaim
  unclaimed name hnone := by
    obtain ⟨hfirst, hothers⟩ := List.forall_mem_cons.mp hnone
    rw [hrest.unclaimed name hothers]
    exact h.unclaimed name (List.forall_mem_singleton.mpr hfirst)

theorem learned_publishAll {c c' : TrustChain} {ks : List PublicKey}
    (hdistinct : (ks.map PublicKey.hash).Nodup) (hmatches : ∀ k ∈ ks, k.hashMatches = true)
    (h : c.publishAll ks = .ok c') : Learned c c' ks := by
  induction ks generalizing c with
  | nil =>
    obtain rfl := Except.ok.inj h
    exact .refl c
  | cons k ks ih =>
    obtain ⟨hother, hdistinct⟩ := List.nodup_cons.mp hdistinct
    obtain ⟨hfirst, hothers⟩ := List.forall_mem_cons.mp hmatches
    rw [publishAll, List.foldlM_cons] at h
    cases hadd : c.addKey k with
    | error flaw =>
      rw [hadd] at h
      cases h
    | ok told =>
      rw [hadd] at h
      exact (learned_addKey hfirst hadd).cons (ih hdistinct hothers h) hother

end TrustChain

/-! ## Staged keys -/

namespace Staging

/-- Just these keys are staged, whatever the order in which the area lists them. -/
structure Holds (s : Staging) (ks : List PublicKey) : Prop where
  key : ∀ k ∈ ks, s.key? k.hash = some k
  otherKey : ∀ hash, (∀ k ∈ ks, k.hash ≠ hash) → s.key? hash = none
  resolved : ∀ name hash, s.resolve? name = some hash →
    ∃ k ∈ ks, TrustChain.claimedAlias? k = some name ∧ k.hash = hash
  unclaimed : ∀ name, s.resolve? name = none → ∀ k ∈ ks, TrustChain.claimedAlias? k ≠ some name

theorem entries_stageKeys {s : Staging} {ks : List PublicKey}
    (hdistinct : (s.keys.keys ++ ks.map PublicKey.hash).Nodup) :
    (s.stageKeys ks).keys.entries = s.keys.entries ++ ks.map (fun k => (k.hash, k)) := by
  induction ks generalizing s with
  | nil => exact (List.append_nil _).symm
  | cons k ks ih =>
    have hnew : k.hash ∉ s.keys.keys := fun hmem =>
      List.disjoint_of_nodup_append hdistinct hmem (List.mem_cons_self ..)
    have hentries : (s.stageKey k).keys.entries = s.keys.entries ++ [(k.hash, k)] :=
      Table.entries_insert_of_not_mem hnew k
    have hkeys : (s.stageKey k).keys.keys = s.keys.keys ++ [k.hash] := by
      rw [Table.keys, hentries, List.map_append]
      rfl
    have hdistinct' : ((s.stageKey k).keys.keys ++ ks.map PublicKey.hash).Nodup := by
      rw [hkeys, List.append_assoc]
      exact hdistinct
    have hrest := ih hdistinct'
    rw [hentries, List.append_assoc] at hrest
    exact hrest

theorem saved_stageKeys (s : Staging) (ks : List PublicKey) : (s.stageKeys ks).saved = s.saved := by
  induction ks generalizing s with
  | nil => rfl
  | cons k ks ih => exact ih (s.stageKey k)

/-- What is staged one by one in an empty area is what the area holds. -/
theorem holds_stageKeys {s : Staging} (hempty : s.keys = Table.empty) {ks : List PublicKey}
    (hdistinct : (ks.map PublicKey.hash).Nodup) : Holds (s.stageKeys ks) ks := by
  have hentries : (s.stageKeys ks).keys.entries = ks.map (fun k => (k.hash, k)) := by
    have hempty' : (s.keys.keys ++ ks.map PublicKey.hash).Nodup := by
      rw [hempty]
      exact hdistinct
    rw [entries_stageKeys hempty', hempty]
    rfl
  have hkeys : (s.stageKeys ks).keys.keys = ks.map PublicKey.hash := by
    rw [Table.keys, hentries, List.map_map]
    rfl
  refine ⟨?_, ?_, ?_, ?_⟩
  · intro k hk
    apply Table.find?_of_mem (hkeys ▸ hdistinct)
    rw [hentries]
    exact List.mem_map_of_mem hk
  · intro hash hnone
    rw [key?, Table.find?_eq_none, hkeys, List.mem_map]
    rintro ⟨k, hk, heq⟩
    exact hnone k hk heq
  · intro name hash h
    rw [resolve?, hentries] at h
    obtain ⟨e, hfound, rfl⟩ := Option.map_eq_some_iff.mp h
    obtain ⟨k, hk, rfl⟩ := List.mem_map.mp (List.mem_of_find?_eq_some hfound)
    exact ⟨k, hk, by simpa using List.find?_some hfound, rfl⟩
  · intro name h k hk
    rw [resolve?, hentries, Option.map_eq_none_iff, List.find?_eq_none] at h
    simpa using h (k.hash, k) (List.mem_map_of_mem hk)

theorem Holds.perm {s : Staging} {ks ks' : List PublicKey} (h : Holds s ks) (hp : ks.Perm ks') :
    Holds s ks' where
  key k hk := h.key k (hp.mem_iff.mpr hk)
  otherKey hash hnone := h.otherKey hash (fun k hk => hnone k (hp.mem_iff.mp hk))
  resolved name hash hs := by
    obtain ⟨k, hk, hclaim, heq⟩ := h.resolved name hash hs
    exact ⟨k, hp.mem_iff.mp hk, hclaim, heq⟩
  unclaimed name hs k hk := h.unclaimed name hs k (hp.mem_iff.mpr hk)

end Staging

namespace TrustChain

/-! ## One validator -/

section

variable {c c' : TrustChain} {ks : List PublicKey} {s : Staging}

theorem Learned.key?_eq (h : Learned c c' ks) (hs : s.Holds ks) (hash : String) :
    (s.key? hash).or (c.key? hash) = c'.key? hash := by
  by_cases hk : ∃ k ∈ ks, k.hash = hash
  · obtain ⟨k, hk, rfl⟩ := hk
    rw [hs.key k hk, h.key k hk, Option.some_or]
  · have hnone : ∀ k ∈ ks, k.hash ≠ hash := fun k hk' heq => hk ⟨k, hk', heq⟩
    rw [hs.otherKey hash hnone, h.otherKey hash hnone, Option.none_or]

/-- An alias that the chain does not know is bound to the one key of those published that claims
it, which is the one that the staging area finds. -/
theorem Learned.resolve?_eq (h : Learned c c' ks) (hs : s.Holds ks) (name : String) :
    (c.resolve? name).or (s.resolve? name) = c'.resolve? name := by
  cases hc : c.resolve? name with
  | some hash => rw [h.bound name hash hc, Option.some_or]
  | none =>
    rw [Option.none_or]
    cases hstaged : s.resolve? name with
    | some hash =>
      obtain ⟨k, hk, hclaim, rfl⟩ := hs.resolved name hash hstaged
      exact (h.claimed k hk name hclaim).symm
    | none => rw [h.unclaimed name (hs.unclaimed name hstaged), hc]

theorem validatorWithStaging_eq (h : Learned c c' ks) (hs : s.Holds ks) :
    c.validatorWithStaging s = c'.validatorWithSaved s := by
  have hkey : (fun hash => (s.key? hash).or (c.key? hash)) = c'.key? := funext (h.key?_eq hs)
  have hresolve : (fun name => (c.resolve? name).or (s.resolve? name)) = c'.resolve? :=
    funext (h.resolve?_eq hs)
  have hsame : c'.validatorWithSaved s =
      { c.validatorWithSaved s with key? := c'.key?, resolve? := c'.resolve? } := by
    rw [h.rest]
    rfl
  rw [hsame, ← hkey, ← hresolve]
  rfl

end

/-- **Staged keys.** Let keys of different hashes, each with the hash of its bytes, be accepted one
after another by a chain. A validator of the chain before them, with just these keys staged in any
order, judges every revision as a validator of the chain after them does, whatever revisions are
saved. -/
theorem staged_published {c c' : TrustChain} {ks staged : List PublicKey}
    (hdistinct : (ks.map PublicKey.hash).Nodup) (hmatches : ∀ k ∈ ks, k.hashMatches = true)
    (hpublished : c.publishAll ks = .ok c') (horder : staged.Perm ks)
    (saved : Table ObjectId Revision) (r : Revision) :
    let s := Staging.stageKeys ⟨Table.empty, saved⟩ staged
    c.validateWithStaging s r = c'.validateWithSaved s r ∧
      (c.validatorWithStaging s).check r = (c'.validatorWithSaved s).check r := by
  intro s
  have hstaged : (staged.map PublicKey.hash).Nodup :=
    ((horder.map PublicKey.hash).nodup_iff).mpr hdistinct
  have hholds : s.Holds ks := (Staging.holds_stageKeys rfl hstaged).perm horder
  have hvalidator := validatorWithStaging_eq
    (learned_publishAll hdistinct hmatches hpublished) hholds
  unfold validateWithStaging validateWithSaved
  rw [hvalidator]
  exact ⟨rfl, rfl⟩

/-- A key for signing and a key for sealing, of one alias. -/
def namedCourier : PublicKey := .neutral .sign64 (some "courier")

def namedLocker : PublicKey := .neutral .encrypt128 (some "courier")

/-- A saved revision that lets the alias write, and a revision that follows it. -/
def savedParcel : Revision :=
  .signNeutral { Header.anchor ⟨.replicate 1⟩ ⟨.replicate 2⟩ "Account" with
    writers := NameSet.ofList ["courier"] } namedCourier (some [1])

def nextParcel : Revision :=
  .signNeutral { Header.anchor ⟨.replicate 1⟩ ⟨.replicate 3⟩ "Account" with
    parent := some savedParcel.version } namedCourier (some [2])

def parcelSaved : Table ObjectId Revision := Table.empty.insert savedParcel.id savedParcel

set_option maxRecDepth 100000 in
theorem courierKeys_facts :
    ([namedCourier, namedLocker].map PublicKey.hash).Nodup ∧
      ((start ⟨"accounts", 0, .data⟩ true []).publishAll
        [namedCourier, namedLocker]).toOption.isSome = true := by
  decide +kernel

/-- A validator that knows the courier and its alias, and sees the saved revision, accepts the next
one. -/
theorem check_nextParcel {v : Validator} (hkey : v.key? namedCourier.hash = some namedCourier)
    (halias : v.resolve? "courier" = some namedCourier.hash)
    (hroot : v.root? savedParcel.id = none) (hhistory : v.history? savedParcel.id = none)
    (hsaved : v.staged.find? savedParcel.id = some savedParcel) :
    v.check nextParcel = .ok () := by
  have hsigner : v.signerKey? nextParcel.header = some namedCourier :=
    Validator.signerKey?_eq_some.mpr ⟨rfl, hkey, PublicKey.hashMatches_ofBytes _ _⟩
  have hpredecessor : v.stagedPredecessor? nextParcel.header = some savedParcel := by
    refine (Validator.stagedPredecessor?_eq (fun s hs => ?_)).trans hsaved
    obtain rfl := Option.some.inj (hsaved.symm.trans hs)
    decide
  have hid : nextParcel.header.id = savedParcel.id := rfl
  refine (Validator.check_eq_ok v nextParcel).mpr ⟨_, namedCourier, rfl, hsigner,
    Validator.attests_signNeutral rfl _ _ _ rfl, ?_, ?_, ?_⟩
  · have hparent : v.parentImmutable? nextParcel.header savedParcel.version = some false := by
      rw [Validator.parentImmutable?, hid, hhistory, hpredecessor]
      simp only [Option.bind_none, Option.map_none, Option.none_or, Option.filter_some, decide_true,
        if_true, Option.map_some]
      rfl
    rw [Validator.checkParent, show nextParcel.header.parent = some savedParcel.version from rfl]
    simp only [hparent]
  · rw [Validator.isImmutable, hid, hroot, hhistory, hpredecessor]
    rfl
  · rw [Validator.writeSet, hpredecessor, Validator.admits_eq_true]
    exact Or.inr (Or.inr ⟨"courier", NameSet.mem_ofList.mpr (List.mem_singleton_self _), halias⟩)

/-- The courier's key and alias are staged, the locker's key before it, and the revision passes. -/
theorem nextParcel_predicted :
    let s := Staging.stageKeys ⟨Table.empty, parcelSaved⟩ [namedLocker, namedCourier]
    (start ⟨"accounts", 0, .data⟩ true []).validateWithStaging s nextParcel = true := by
  intro s
  obtain ⟨hdistinct, hsome⟩ := courierKeys_facts
  have hmatches : ∀ k ∈ [namedCourier, namedLocker], k.hashMatches = true :=
    List.forall_mem_cons.mpr ⟨PublicKey.hashMatches_ofBytes _ _,
      List.forall_mem_singleton.mpr (PublicKey.hashMatches_ofBytes _ _)⟩
  cases hpublished : (start ⟨"accounts", 0, .data⟩ true []).publishAll
      [namedCourier, namedLocker] with
  | error flaw =>
    rw [hpublished] at hsome
    cases hsome
  | ok c' =>
    obtain ⟨hsame, -⟩ := staged_published hdistinct hmatches hpublished (.swap _ _ [])
      parcelSaved nextParcel
    have hknown := learned_publishAll hdistinct hmatches hpublished
    rw [hsame, validateWithSaved, Validator.accepts_eq_true]
    apply check_nextParcel
    · exact hknown.key namedCourier (List.mem_cons_self ..)
    · exact hknown.claimed namedCourier (List.mem_cons_self ..) "courier" rfl
    · rw [hknown.rest]
      rfl
    · rw [hknown.rest]
      rfl
    · have hsaved : s.saved = parcelSaved := Staging.saved_stageKeys _ _
      rw [validatorWithSaved, Validator.withStaged, hsaved]
      exact Table.find?_insert_self _ _ _

end TrustChain

end Provenance

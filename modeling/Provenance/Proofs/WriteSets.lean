import Provenance.Proofs.Registry

/-!
# Write sets that name keys

A write set may name keys by their hashes, and hashes and aliases are names of one kind. So such a
set admits its members and, besides, whoever has claimed a member for an alias:

* `resolve?_run_cases`: an alias is bound at the start or published in the run;
* `run_outsider`: a revision is accepted from a signer outside of the set exactly if nothing else is
  wrong with it and the signer owns a member as an alias; if nobody has published a member as the
  alias of another key, all accepted signers are members.
-/

namespace Provenance.TrustChain

/-! ## Where aliases come from -/

/-- The operation brings a signing key of this hash under this alias. -/
def Publishes (op : Operation) (name hash : String) : Prop :=
  ∃ k, op.record? = some (.publicKey k) ∧ k.use? = some .sign ∧ k.label = some name ∧
    keyHash k.bytes = hash

def Published (ops : List Operation) (name hash : String) : Prop :=
  ∃ op ∈ ops, Publishes op name hash

theorem resolve?_perform_cases {c : TrustChain} {op : Operation} {name hash : String}
    (h : (c.perform op).1.resolve? name = some hash) :
    c.resolve? name = some hash ∨ Publishes op name hash := by
  rcases perform_registry c op with ⟨-, ha⟩ | ⟨k, hrecord, -, hbind⟩
  · rw [resolve?, ha] at h
    exact Or.inl h
  · rcases bindAlias_eq_ok hbind with ha | ⟨claimed, hclaim, -, ha⟩
    · rw [resolve?, ha] at h
      exact Or.inl h
    · rw [resolve?, ha, Table.find?_insert] at h
      split at h
      · rename_i hname
        subst hname
        unfold claimedAlias? at hclaim
        split at hclaim
        · rename_i huse
          exact Or.inr ⟨k, hrecord, huse, hclaim, Option.some.inj h⟩
        · cases hclaim
      · exact Or.inl h

theorem resolve?_run_cases {c : TrustChain} {ops : List Operation} {name hash : String}
    (h : (c.run ops).resolve? name = some hash) :
    c.resolve? name = some hash ∨ Published ops name hash := by
  induction ops generalizing c with
  | nil => exact Or.inl h
  | cons op ops ih =>
    rcases ih h with hfirst | ⟨op', hop', hk⟩
    · rcases resolve?_perform_cases hfirst with hc | hk
      · exact Or.inl hc
      · exact Or.inr ⟨op, List.mem_cons_self .., hk⟩
    · exact Or.inr ⟨op', List.mem_cons_of_mem op hop', hk⟩

theorem resolve?_start {partition : PartitionKey} {strict : Bool} {journals : List Journal}
    {name hash : String} (h : (start partition strict journals).resolve? name = some hash) :
    name = Anchor.seed := by
  simp only [start, new, resolve?, Table.find?_insert, Table.find?_empty] at h
  split at h
  · rename_i hname
    exact hname.symm
  · cases h

/-! ## Members and outsiders -/

/-- The set has members, and each is the hash of a known signing key. -/
def NamesKeys (c : TrustChain) (writers : NameSet) : Prop :=
  writers.names ≠ [] ∧ ∀ name ∈ writers, ∃ k, c.key? name = some k ∧ k.use? = some .sign

/-- A key that is no member, and owns a member as an alias. -/
def Outsider (c : TrustChain) (writers : NameSet) (hash : String) : Prop :=
  ¬ hash ∈ writers ∧ ∃ name ∈ writers, c.resolve? name = some hash

theorem NamesKeys.admits_iff {c : TrustChain} {writers : NameSet} (h : NamesKeys c writers)
    (hash : String) : c.Admits writers hash ↔ hash ∈ writers ∨ c.Outsider writers hash := by
  unfold Admits Outsider
  constructor
  · rintro (⟨hn, -⟩ | hmem | howner)
    · exact absurd hn h.1
    · exact Or.inl hmem
    · by_cases hmem : hash ∈ writers
      · exact Or.inl hmem
      · exact Or.inr ⟨hmem, howner⟩
  · rintro (hmem | ⟨-, howner⟩)
    · exact Or.inr (Or.inl hmem)
    · exact Or.inr (Or.inr howner)

/-- An outsider has published a member of the set as an alias: a member is the hash of a key, so
that it is not the one alias that is bound from the start. -/
theorem NamesKeys.published {partition : PartitionKey} {strict : Bool} {journals : List Journal}
    {ops : List Operation} {writers : NameSet} {hash : String}
    (h : NamesKeys ((start partition strict journals).run ops) writers)
    (ho : Outsider ((start partition strict journals).run ops) writers hash) :
    ∃ name ∈ writers, Published ops name hash := by
  obtain ⟨-, name, hname, hr⟩ := ho
  rcases resolve?_run_cases hr with hstart | hpublished
  · obtain ⟨k, hk, -⟩ := h.2 name hname
    obtain ⟨-, hbytes⟩ := run_keyed (keyed_start partition strict journals) ops name k hk
    exact absurd (hbytes.trans (resolve?_start hstart)) (keyHash_ne_seed k.bytes)
  · exact ⟨name, hname, hpublished⟩

/-! ## Every run -/

/-- **Outsiders.** Where the write set names keys, a revision is accepted from a signer that is no
member exactly if it is sound and its signer owns a member as an alias. Such an alias was published
in the run; if none was, only members are accepted. -/
theorem run_outsider (partition : PartitionKey) (strict : Bool) (journals : List Journal)
    (ops : List Operation) (op : Operation) (r : Revision) (hop : op.isValidated = true)
    (hrecord : op.record? = some (.data r)) :
    let c := (start partition strict journals).run ops
    let writers := c.writersFor r.header
    NamesKeys c writers →
      ((c.perform op).2 = true ∧ (∀ hash ∈ writers, r.header.signer ≠ some hash) ↔
        (op.isReceive = true → c.checkWhenStrict r.checkStructure = .ok ()) ∧
          ∃ a k, c.Sound r a k ∧ c.Outsider writers k.hash) ∧
      (∀ hash, c.Outsider writers hash → ∃ name ∈ writers, Published ops name hash) ∧
      ((∀ name ∈ writers, ∀ hash, Published ops name hash → hash ∈ writers) →
        (c.perform op).2 = true → ∃ hash ∈ writers, r.header.signer = some hash) := by
  intro c writers hnames
  refine ⟨?_, fun hash ho => hnames.published ho, ?_⟩
  · rw [perform_accepted c hop hrecord]
    constructor
    · rintro ⟨⟨hstructure, a, k, hacc⟩, hsigner⟩
      refine ⟨hstructure, a, k, hacc.toSound, ?_⟩
      rcases (hnames.admits_iff k.hash).mp hacc.admitted with hmem | ho
      · exact absurd hacc.signer (hsigner k.hash hmem)
      · exact ho
    · rintro ⟨hstructure, a, k, hsound, ho⟩
      refine ⟨⟨hstructure, a, k, hsound, (hnames.admits_iff k.hash).mpr (Or.inr ho)⟩, ?_⟩
      intro hash hmem hsigner
      rw [hsound.signer, Option.some.injEq] at hsigner
      exact ho.1 (hsigner ▸ hmem)
  · intro hclosed haccepted
    obtain ⟨-, a, k, hacc⟩ := (perform_accepted c hop hrecord).mp haccepted
    rcases (hnames.admits_iff k.hash).mp hacc.admitted with hmem | ho
    · exact ⟨k.hash, hmem, hacc.signer⟩
    · obtain ⟨name, hname, hpublished⟩ := hnames.published ho
      exact ⟨k.hash, hclosed name hname k.hash hpublished, hacc.signer⟩

/-! ## An outsider at work -/

/-- The owner of an object, and a key that calls itself by the hash of the owner. -/
def owner : PublicKey := PublicKey.neutral .sign64 none

def impostor : PublicKey := PublicKey.neutral .sign128 (some owner.hash)

def owned : Revision :=
  Revision.signNeutral
    { Header.anchor ⟨.replicate 1⟩ ⟨.replicate 2⟩ "Account" with
      writers := NameSet.ofList [owner.hash] } owner (some [1, 2, 3])

def usurped : Revision :=
  Revision.signNeutral { owned.header with version := ⟨.replicate 3⟩, parent := some owned.version }
    impostor (some [4, 5, 6])

def usurping : List Operation :=
  [.receive (Record.encode (.publicKey owner)) (.direct 0 0),
    .receive (Record.encode (.data owned)) (.direct 0 0),
    .receive (Record.encode (.publicKey impostor)) (.direct 0 0)]

def usurpation : Operation := .receive (Record.encode (.data usurped)) (.direct 0 0)

theorem signer_usurped : usurped.header.signer = some impostor.hash := rfl

set_option maxRecDepth 100000 in
theorem usurping_facts :
    let c := (start ⟨"accounts", 0, .data⟩ true []).run usurping
    c.writersFor usurped.header = NameSet.ofList [owner.hash] ∧ c.key? owner.hash = some owner ∧
      owner.use? = some .sign ∧ usurpation.record? = some (.data usurped) ∧
        ¬ impostor.hash = owner.hash ∧ (c.perform usurpation).2 = true := by
  decide +kernel

theorem namesKeys_usurping :
    let c := (start ⟨"accounts", 0, .data⟩ true []).run usurping
    NamesKeys c (c.writersFor usurped.header) ∧
      ¬ impostor.hash ∈ c.writersFor usurped.header := by
  intro c
  obtain ⟨hwriters, hkey, huse, -, hne, -⟩ := usurping_facts
  rw [hwriters]
  refine ⟨⟨List.cons_ne_nil owner.hash [], fun name hname => ?_⟩, fun hmem => ?_⟩
  · rw [NameSet.mem_ofList, List.mem_singleton] at hname
    subst hname
    exact ⟨owner, hkey, huse⟩
  · rw [NameSet.mem_ofList, List.mem_singleton] at hmem
    exact hne hmem

/-- After three records have arrived, the object names its owner by hash, and the impostor is no
member. The impostor's revision is accepted all the same. -/
theorem usurped_accepted :
    let c := (start ⟨"accounts", 0, .data⟩ true []).run usurping
    (∀ op ∈ usurping, op.isReceive = true) ∧ NamesKeys c (c.writersFor usurped.header) ∧
      (c.perform usurpation).2 = true ∧ usurpation.record? = some (.data usurped) ∧
        usurped.header.signer = some impostor.hash ∧
          ¬ impostor.hash ∈ c.writersFor usurped.header := by
  intro c
  have hops : ∀ op ∈ usurping, op.isReceive = true := by
    intro op hop
    simp only [usurping, List.mem_cons, List.not_mem_nil, or_false] at hop
    rcases hop with rfl | rfl | rfl <;> rfl
  obtain ⟨-, -, -, hrecord, -, haccepted⟩ := usurping_facts
  exact ⟨hops, namesKeys_usurping.1, haccepted, hrecord, signer_usurped,
    namesKeys_usurping.2⟩

/-- What lets the impostor in is the alias, and the run published it. -/
theorem outsider_impostor :
    let c := (start ⟨"accounts", 0, .data⟩ true []).run usurping
    NamesKeys c (c.writersFor usurped.header) ∧
      (∃ a k, c.Sound usurped a k ∧ c.Outsider (c.writersFor usurped.header) k.hash) ∧
        ∃ name ∈ c.writersFor usurped.header, Published usurping name impostor.hash := by
  intro c
  obtain ⟨-, -, -, hrecord, -, haccepted⟩ := usurping_facts
  obtain ⟨hnames, hnot⟩ := namesKeys_usurping
  obtain ⟨hiff, hpublished, -⟩ := run_outsider ⟨"accounts", 0, .data⟩ true [] usurping usurpation
    usurped rfl hrecord hnames
  have houtside : ∀ hash ∈ c.writersFor usurped.header, usurped.header.signer ≠ some hash := by
    intro hash hmem hsigner
    rw [signer_usurped, Option.some.injEq] at hsigner
    rw [← hsigner] at hmem
    exact hnot hmem
  obtain ⟨-, a, k, hsound, ho⟩ := hiff.mp ⟨haccepted, houtside⟩
  have hsigner := hsound.signer
  rw [signer_usurped, Option.some.injEq] at hsigner
  rw [hsigner]
  exact ⟨hnames, ⟨a, k, hsound, ho⟩, hpublished k.hash ho⟩

end Provenance.TrustChain

import Provenance.Proofs.Operations

/-!
# Keys and aliases of a chain

* `perform_registry`: an operation registers a key, with its alias, or leaves the registry as it is;
* a key hash that is known stays known (`hasKey_perform`) and an alias that is bound stays bound to
  the same hash (`resolve?_perform`);
* every key stands under the hash of its bytes (`Keyed`, `run_keyed`), whatever hash the record
  carried that brought it;
* `perform_aliasTaken`: a key that claims an alias of another key is refused;
* `run_registry`: all of this after every run, with the two keys and the alias of the anchors.
-/

namespace Provenance.TrustChain

/-! ## Aliases -/

theorem bindAlias_eq_ok {aliases aliases' : Table String String} {k : PublicKey}
    (h : bindAlias aliases k = .ok aliases') :
    aliases' = aliases ∨ ∃ name, claimedAlias? k = some name ∧ aliases.find? name = none ∧
      aliases' = aliases.insert name k.hash := by
  unfold bindAlias at h
  split at h
  · cases h
    exact Or.inl rfl
  · rename_i name hname
    split at h
    · rename_i hfree
      cases h
      exact Or.inr ⟨name, hname, hfree, rfl⟩
    · split at h
      · cases h
        exact Or.inl rfl
      · cases h

theorem bindAlias_taken {aliases : Table String String} {k : PublicKey} {name owner : String}
    (hclaim : claimedAlias? k = some name) (howner : aliases.find? name = some owner)
    (hother : owner ≠ k.hash) : bindAlias aliases k = .error (.aliasTaken name) := by
  simp only [bindAlias, hclaim, howner, if_neg hother]

theorem find?_bindAlias {aliases aliases' : Table String String} {k : PublicKey}
    (h : bindAlias aliases k = .ok aliases') {name hash : String}
    (hn : aliases.find? name = some hash) : aliases'.find? name = some hash := by
  rcases bindAlias_eq_ok h with rfl | ⟨claimed, -, hfree, rfl⟩
  · exact hn
  · have hne : claimed ≠ name := by
      rintro rfl
      rw [hfree] at hn
      cases hn
    rw [Table.find?_insert_of_ne hne]
    exact hn

/-! ## One operation -/

theorem perform_registry (c : TrustChain) (op : Operation) :
    ((c.perform op).1.keys = c.keys ∧ (c.perform op).1.aliases = c.aliases) ∨
      ∃ k, op.record? = some (.publicKey k) ∧
        (c.perform op).1.keys =
          c.keys.insert (keyHash k.bytes) (PublicKey.ofBytes k.bytes k.label) ∧
        bindAlias c.aliases (PublicKey.ofBytes k.bytes k.label) = .ok (c.perform op).1.aliases := by
  have he := perform_effect c op
  generalize c.perform op = outcome at he
  cases he with
  | learned k aliases hrecord _ hbind => exact Or.inr ⟨k, hrecord, rfl, hbind⟩
  | _ => exact Or.inl ⟨rfl, rfl⟩

theorem resolve?_perform {c : TrustChain} {name hash : String} (h : c.resolve? name = some hash)
    (op : Operation) : (c.perform op).1.resolve? name = some hash := by
  rcases perform_registry c op with ⟨-, ha⟩ | ⟨k, -, -, hbind⟩
  · rw [resolve?, ha]
    exact h
  · exact find?_bindAlias hbind h

theorem hasKey_perform {c : TrustChain} {hash : String} (h : c.hasKey hash = true)
    (op : Operation) : (c.perform op).1.hasKey hash = true := by
  rcases perform_registry c op with ⟨hk, -⟩ | ⟨k, -, hk, -⟩
  · rw [hasKey, hk]
    exact h
  · rw [hasKey, hk]
    exact Table.contains_insert h _ _

/-! ## Keys under their hashes -/

theorem hasKey_of_key? {c : TrustChain} {hash : String} {k : PublicKey}
    (h : c.key? hash = some k) : c.hasKey hash = true := by
  unfold key? at h
  simp only [hasKey, Table.contains, h, Option.isSome_some]

/-- Every key stands under the hash of its bytes, which is the hash that it carries. -/
def Keyed (c : TrustChain) : Prop :=
  ∀ hash k, c.key? hash = some k → k.hash = hash ∧ keyHash k.bytes = hash

theorem keyed_start (partition : PartitionKey) (strict : Bool) (journals : List Journal) :
    Keyed (start partition strict journals) := by
  intro hash k h
  have hs : (start partition strict journals).key? hash =
      if Anchor.read.hash = hash then some Anchor.read.publicKey
      else if Anchor.write.hash = hash then some Anchor.write.publicKey else none := by
    simp only [start, new, key?, Table.find?_insert, Table.find?_empty]
  rw [hs] at h
  split at h
  · rename_i hh
    cases h
    exact ⟨hh, hh⟩
  · split at h
    · rename_i hh
      cases h
      exact ⟨hh, hh⟩
    · cases h

theorem Keyed.perform {c : TrustChain} (hc : Keyed c) (op : Operation) :
    Keyed (c.perform op).1 := by
  intro hash k' h
  rcases perform_registry c op with ⟨hk, -⟩ | ⟨k, -, hk, -⟩
  · rw [key?, hk] at h
    exact hc hash k' h
  · rw [key?, hk, Table.find?_insert] at h
    split at h
    · rename_i hh
      cases h
      exact ⟨hh, hh⟩
    · exact hc hash k' h

theorem run_keyed {c : TrustChain} (hc : Keyed c) (ops : List Operation) : Keyed (c.run ops) :=
  run_invariant (fun _ op _ h => h.perform op) hc

/-! ## The public writer -/

theorem publicWriter_perform (c : TrustChain) (op : Operation) :
    (c.perform op).1.publicWriter = c.publicWriter := by
  have he := perform_effect c op
  generalize c.perform op = outcome at he
  cases he <;> rfl

theorem publicWriter_run (partition : PartitionKey) (strict : Bool) (journals : List Journal)
    (ops : List Operation) :
    ((start partition strict journals).run ops).publicWriter = Anchor.write.hash :=
  run_invariant (P := fun c => c.publicWriter = Anchor.write.hash)
    (fun c op _ h => (publicWriter_perform c op).trans h) rfl

/-! ## The whole registry -/

theorem resolve?_run {c : TrustChain} {name hash : String} (h : c.resolve? name = some hash)
    (ops : List Operation) : (c.run ops).resolve? name = some hash :=
  run_invariant (P := fun c => c.resolve? name = some hash) (fun _ op _ h => resolve?_perform h op) h

theorem hasKey_run {c : TrustChain} {hash : String} (h : c.hasKey hash = true)
    (ops : List Operation) : (c.run ops).hasKey hash = true :=
  run_invariant (P := fun c => c.hasKey hash = true) (fun _ op _ h => hasKey_perform h op) h

/-- Every alias is bound to a key that the chain has. -/
def Bound (c : TrustChain) : Prop :=
  ∀ name hash, c.resolve? name = some hash → c.hasKey hash = true

theorem anchors_start (partition : PartitionKey) (strict : Bool) (journals : List Journal) :
    let c := start partition strict journals
    c.hasKey Anchor.write.hash = true ∧ c.hasKey Anchor.read.hash = true ∧
      c.resolve? Anchor.seed = some Anchor.write.hash := by
  refine ⟨?_, ?_, Table.find?_insert_self _ _ _⟩
  · apply Table.contains_insert
    simp only [Table.contains, Table.find?_insert_self, Option.isSome_some]
  · simp only [hasKey, start, new, Table.contains, Table.find?_insert_self, Option.isSome_some]

theorem bound_start (partition : PartitionKey) (strict : Bool) (journals : List Journal) :
    Bound (start partition strict journals) := by
  intro name hash h
  have hs : (start partition strict journals).resolve? name =
      if Anchor.seed = name then some Anchor.write.hash else none := by
    simp only [start, new, resolve?, Table.find?_insert, Table.find?_empty]
  rw [hs] at h
  split at h
  · rw [← Option.some.inj h]
    exact (anchors_start partition strict journals).1
  · cases h

theorem Bound.perform {c : TrustChain} (hc : Bound c) (op : Operation) :
    Bound (c.perform op).1 := by
  intro name hash h
  rcases perform_registry c op with ⟨hk, ha⟩ | ⟨k, -, hk, hbind⟩
  · rw [resolve?, ha] at h
    rw [hasKey, hk]
    exact hc name hash h
  · have hold : c.resolve? name = some hash → (c.perform op).1.hasKey hash = true :=
      fun h => hasKey_perform (hc name hash h) op
    rcases bindAlias_eq_ok hbind with heq | ⟨claimed, -, -, heq⟩
    · rw [resolve?, heq] at h
      exact hold h
    · rw [resolve?, heq, Table.find?_insert] at h
      split at h
      · -- The new alias is bound to the key that comes with it.
        cases h
        simp only [hasKey, hk, Table.contains, PublicKey.ofBytes, Table.find?_insert_self,
          Option.isSome_some]
      · exact hold h

/-- A signing key that claims an alias of another key is refused, and nothing changes. -/
theorem perform_aliasTaken {c : TrustChain} {op : Operation} {k : PublicKey} {name owner : String}
    (hrecord : op.record? = some (.publicKey k)) (huse : k.use? = some .sign)
    (hlabel : k.label = some name) (howner : c.resolve? name = some owner)
    (hother : owner ≠ keyHash k.bytes) :
    (c.perform op).2 = false ∧ ∃ js, (c.perform op).1 = { c with listeners := js } := by
  have he := perform_effect c op
  generalize c.perform op = outcome at he
  cases he with
  | refused js => exact ⟨rfl, js, rfl⟩
  | learned k' aliases hrecord' _ hbind =>
    cases hrecord.symm.trans hrecord'
    exfalso
    have hclaim : claimedAlias? (PublicKey.ofBytes k.bytes k.label) = some name := by
      have huse' : (PublicKey.ofBytes k.bytes k.label).use? = some .sign := huse
      rw [claimedAlias?, huse', if_pos rfl]
      exact hlabel
    cases (bindAlias_taken hclaim howner hother).symm.trans hbind
  | accepted r d js _ hrecord' _ _ _ => cases hrecord.symm.trans hrecord'
  | committed r d js hop =>
    subst hop
    cases hrecord
  | anchored h d hop =>
    subst hop
    cases hrecord
  | stored castle id hrecord' _ _ => cases hrecord.symm.trans hrecord'

/-- **The registry.** After any run, every key stands under its own hash, which is the hash of its
bytes. Every alias is bound to a hash that has a key, `public` to the public writer, and the keys of
both anchors are there. Whatever happens later, aliases stay bound as they are and no hash gets
lost. A signing key that claims an alias of another one is refused, and nothing changes. -/
theorem run_registry (partition : PartitionKey) (strict : Bool) (journals : List Journal)
    (ops : List Operation) :
    let c := (start partition strict journals).run ops
    (∀ hash k, c.key? hash = some k → k.hash = hash ∧ keyHash k.bytes = hash) ∧
      (∀ name hash, c.resolve? name = some hash → c.hasKey hash = true) ∧
      c.resolve? Anchor.seed = some Anchor.write.hash ∧
      (c.hasKey Anchor.write.hash = true ∧ c.hasKey Anchor.read.hash = true) ∧
      (∀ later, (∀ name hash, c.resolve? name = some hash →
          (c.run later).resolve? name = some hash) ∧
        ∀ hash, c.hasKey hash = true → (c.run later).hasKey hash = true) ∧
      (∀ op k name owner, op.record? = some (.publicKey k) → k.use? = some .sign →
        k.label = some name → c.resolve? name = some owner → owner ≠ keyHash k.bytes →
          (c.perform op).2 = false ∧ ∃ js, (c.perform op).1 = { c with listeners := js }) := by
  intro c
  obtain ⟨hwrite, hread, hseed⟩ := anchors_start partition strict journals
  have hbound : Bound c :=
    run_invariant (fun _ op _ h => h.perform op) (bound_start partition strict journals)
  refine ⟨run_keyed (keyed_start partition strict journals) ops, hbound, resolve?_run hseed ops,
    ⟨hasKey_run hwrite ops, hasKey_run hread ops⟩, fun later => ⟨?_, ?_⟩, ?_⟩
  · exact fun name hash h => resolve?_run h later
  · exact fun hash h => hasKey_run h later
  · exact fun op k name owner => perform_aliasTaken

/-- Another key that calls itself public. -/
def pretender : PublicKey := PublicKey.neutral .sign64 (some Anchor.seed)

set_option maxRecDepth 100000 in
theorem hash_pretender : Anchor.write.hash ≠ keyHash pretender.bytes := by
  decide +kernel

/-- It is refused, by a lenient chain as well. -/
theorem pretender_refused :
    let c := start ⟨"accounts", 0, .data⟩ false []
    (c.perform (.addKey pretender)).2 = false ∧
      ∃ js, (c.perform (.addKey pretender)).1 = { c with listeners := js } := by
  obtain ⟨-, -, hseed, -, -, hrefuse⟩ := run_registry ⟨"accounts", 0, .data⟩ false [] []
  exact hrefuse (.addKey pretender) pretender Anchor.seed Anchor.write.hash rfl rfl rfl hseed
    hash_pretender

end Provenance.TrustChain

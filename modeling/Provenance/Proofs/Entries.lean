import Provenance.Chain.Receive
import Provenance.Proofs.Containers

/-!
# The entries of an object

Facts on lists of entries, and `TrustChain.entries`: the committed entries of an object, none for an
object that is not tracked. `TrustChain.entries_append` is what a write does to them. What a chain
answers about an object depends on these entries and on the object's root of trust only
(`TrustChain.isImmutable_eq`, `TrustChain.hasObject_eq`).
-/

namespace Provenance

/-! ## Lists of entries -/

namespace Entry

/-- The latest entry without a digest. -/
def latestAnchor? (entries : List Entry) : Option Revision :=
  (entries.map (fun e => e.revision)).reverse.find? (fun r => !r.isSigned)

/-- The write set that a history leaves to the next revision: that of the latest signed revision,
and that of the latest anchor if nothing is signed yet. -/
def writersAfter? (entries : List Entry) : Option NameSet :=
  ((latestSigned? entries).or (latestAnchor? entries)).map (fun r => r.header.writers)

theorem latestAnchor?_append (entries : List Entry) (e : Entry) :
    latestAnchor? (entries ++ [e]) =
      if e.revision.isSigned then latestAnchor? entries else some e.revision := by
  unfold latestAnchor?
  rw [List.map_append, List.reverse_append]
  cases h : e.revision.isSigned <;> simp [h]

theorem latestSigned?_concat (entries : List Entry) (e : Entry) :
    latestSigned? (entries ++ [e]) =
      if e.revision.isSigned then some e.revision else latestSigned? entries := by
  unfold latestSigned?
  rw [List.map_append, List.map_singleton, List.reverse_append, List.reverse_singleton,
    List.singleton_append, List.find?_cons]
  cases e.revision.isSigned <;> rfl

/-- A signed entry at the end is the latest one. -/
theorem latestSigned?_append {entries : List Entry} {e : Entry} (h : e.revision.isSigned = true) :
    latestSigned? (entries ++ [e]) = some e.revision := by
  rw [latestSigned?_concat, if_pos h]

theorem mem_of_latestSigned? {entries : List Entry} {r : Revision}
    (h : latestSigned? entries = some r) : ∃ e ∈ entries, e.revision = r :=
  List.mem_map.mp (List.mem_reverse.mp (List.mem_of_find?_eq_some h))

theorem isImmutable_append (entries : List Entry) (e : Entry) :
    isImmutable (entries ++ [e]) = (isImmutable entries || e.revision.header.immutable) := by
  simp only [isImmutable, List.any_append, List.any_cons, List.any_nil, Bool.or_false]

theorem isImmutable_eq_false {entries : List Entry} :
    isImmutable entries = false ↔ ∀ e ∈ entries, e.revision.header.immutable = false := by
  simp [isImmutable]

theorem hasPayload_append (entries : List Entry) (e : Entry) :
    hasPayload (entries ++ [e]) = liveAfter (hasPayload entries) e := by
  simp [hasPayload]

/-- After a signed entry an object is live exactly if the entry has a body. -/
theorem liveAfter_of_isSigned (live : Bool) {e : Entry} (h : e.revision.isSigned = true) :
    liveAfter live e = e.revision.hasBody := by
  unfold liveAfter Revision.isTombstone
  cases hb : e.revision.hasBody <;> simp [h]

theorem findVersion?_isSome {entries : List Entry} {version : VersionId} :
    (findVersion? entries version).isSome = true ↔
      ∃ e ∈ entries, e.revision.version = version := by
  simp [findVersion?, List.find?_isSome]

/-- One more entry at the end: an entry of the longer list is one of the shorter list, in the same
place, or the new one. -/
theorem getElem?_append_singleton {entries : List Entry} {new e : Entry} {i : Nat}
    (h : (entries ++ [new])[i]? = some e) :
    (entries[i]? = some e ∧ (entries ++ [new]).take i = entries.take i) ∨
      (e = new ∧ (entries ++ [new]).take i = entries) := by
  rcases Nat.lt_trichotomy i entries.length with hi | hi | hi
  · left
    rw [List.getElem?_append_left hi] at h
    exact ⟨h, List.take_append_of_le_length (Nat.le_of_lt hi)⟩
  · right
    subst hi
    simp only [List.getElem?_concat_length, Option.some.injEq] at h
    exact ⟨h.symm, List.take_left' rfl⟩
  · exfalso
    have hl : (entries ++ [new]).length ≤ i := by
      simp only [List.length_append, List.length_singleton]
      omega
    rw [List.getElem?_eq_none hl] at h
    cases h

end Entry

namespace TrustChain

/-! ## The entries of a chain -/

/-- The committed entries of an object. -/
def entries (c : TrustChain) (id : ObjectId) : List Entry :=
  ((c.history? id).map (fun h => h.entries)).getD []

theorem entries_of_history? {c : TrustChain} {id : ObjectId} {h : History}
    (hh : c.history? id = some h) : c.entries id = h.entries := by
  simp only [entries, hh, Option.map_some, Option.getD_some]

theorem history?_eq_none {c : TrustChain} {id : ObjectId} :
    c.history? id = none ↔ c.entries id = [] := by
  cases hh : c.history? id with
  | none => simp [entries, hh]
  | some h => simp [entries_of_history? hh, h.nonempty]

/-- A write extends the entries of its own object at the end, and no others. -/
theorem entries_append (c : TrustChain) (r : Revision) (d : Delivery) (id : ObjectId) :
    (c.append r d).entries id = if r.id = id then c.entries id ++ [⟨r, d⟩] else c.entries id := by
  simp only [entries, append, history?, Table.find?_insert]
  split
  · rename_i h
    subst h
    cases c.histories.find? r.id <;> rfl
  · rfl

/-! ## Answers in terms of the entries -/

theorem isImmutable_eq (c : TrustChain) (id : ObjectId) :
    c.isImmutable id =
      (Entry.isImmutable (c.entries id) || (c.root? id).any (fun root => root.immutable)) := by
  unfold isImmutable entries history? root?
  cases c.histories.find? id <;> rfl

theorem isImmutable_of_mem {c : TrustChain} {id : ObjectId} {e : Entry} (he : e ∈ c.entries id)
    (h : e.revision.header.immutable = true) : c.isImmutable id = true := by
  rw [isImmutable_eq, Bool.or_eq_true]
  exact Or.inl (List.any_eq_true.mpr ⟨e, he, h⟩)

theorem hasObject_eq (c : TrustChain) (id : ObjectId) :
    c.hasObject id = Entry.hasPayload (c.entries id) := by
  unfold hasObject entries history?
  cases c.histories.find? id <;> rfl

end TrustChain

end Provenance

import Provenance.Cbor.Reader

/-!
# The extent of an item

The extent of an item counts one byte for every head in it and the bytes of its strings. However the
item is spelled, it takes at least that many bytes. Main statement: `Item.extent_read`, so that what
is found in an item is never larger than the bytes that the item was read from.
-/

namespace Provenance

/-! ## What a reader takes -/

theorem length_takeExactly {size : Nat} {bs part rest : Bytes}
    (h : takeExactly size bs = some (part, rest)) : part.length + rest.length = bs.length := by
  unfold takeExactly at h
  split at h
  · cases h
    rw [List.length_take, List.length_drop]
    omega
  · cases h

theorem length_readArgument {low : Nat} {bs rest : Bytes} {n : Option Nat}
    (h : readArgument low bs = some (n, rest)) : rest.length ≤ bs.length := by
  have hwide : ∀ size, (takeExactly size bs).map (fun r => (some (Bytes.toNatBE r.1), r.2)) =
      some (n, rest) → rest.length ≤ bs.length := by
    intro size hmap
    obtain ⟨⟨part, rest'⟩, htake, heq⟩ := Option.map_eq_some_iff.mp hmap
    cases heq
    have hl := length_takeExactly htake
    show rest'.length ≤ bs.length
    omega
  unfold readArgument at h
  split at h
  · cases h
    exact Nat.le_refl _
  · split at h
    · exact hwide 1 h
    · exact hwide 2 h
    · exact hwide 4 h
    · exact hwide 8 h
    · cases h
      exact Nat.le_refl _
    · cases h

/-- A head takes at least one byte. -/
theorem Head.length_read {bs rest : Bytes} {head : Head} (h : read bs = some (head, rest)) :
    rest.length < bs.length := by
  cases bs with
  | nil => cases h
  | cons b bs =>
    rw [List.length_cons, Nat.lt_succ_iff]
    have hfloat : ∀ size, readFloat size bs = some (head, rest) → rest.length ≤ bs.length := by
      intro size hmap
      obtain ⟨⟨part, rest'⟩, htake, heq⟩ := Option.map_eq_some_iff.mp hmap
      cases heq
      have hl := length_takeExactly htake
      show rest'.length ≤ bs.length
      omega
    simp only [read] at h
    split at h
    · exact hfloat 2 h
    · exact hfloat 4 h
    · exact hfloat 8 h
    · split at h
      · cases h
      · rename_i size rest' hargument
        have hl := length_readArgument hargument
        split at h <;> cases h <;> exact hl

theorem length_readParts {isText : Bool} {fuel depth : Nat} {bs rest : Bytes}
    {parts : List Bytes} (h : readParts isText fuel depth bs = some (parts, rest)) :
    parts.flatten.length + rest.length ≤ bs.length := by
  induction fuel generalizing depth bs parts with
  | zero => cases h
  | succ fuel ih =>
    rw [readParts] at h
    obtain ⟨⟨head, rest'⟩, hhead, h⟩ := Option.bind_eq_some_iff.mp h
    have hl := Head.length_read hhead
    simp only at h
    split at h
    · cases h
      rw [List.flatten_nil, List.length_nil]
      omega
    · have ht := ih h
      omega
    · split at h
      · cases h
      · have ht := ih h
        omega
      · obtain ⟨⟨part, rest₁⟩, htake, h⟩ := Option.bind_eq_some_iff.mp h
        obtain ⟨⟨parts', rest₂⟩, hparts, h⟩ := Option.bind_eq_some_iff.mp h
        cases h
        have hpart := length_takeExactly htake
        have ht : parts'.flatten.length + rest₂.length ≤ rest₁.length := ih hparts
        simp only [List.flatten_cons, List.length_append]
        omega

theorem length_readPieces {isText : Bool} {fuel : Nat} {size : Option Nat} {bs rest : Bytes}
    {p : Pieces} (h : readPieces isText fuel size bs = some (p, rest)) :
    p.content.length + rest.length ≤ bs.length := by
  unfold readPieces at h
  split at h
  · obtain ⟨⟨part, rest'⟩, htake, heq⟩ := Option.map_eq_some_iff.mp h
    cases heq
    have hl := length_takeExactly htake
    simp only [Pieces.content, Pieces.toList, List.flatten_cons, List.flatten_nil,
      List.append_nil]
    omega
  · obtain ⟨⟨parts, rest'⟩, hparts, heq⟩ := Option.map_eq_some_iff.mp h
    cases heq
    exact length_readParts hparts

/-! ## Extents -/

namespace Item

mutual

def extent : Item → Nat
  | .bytes content => 1 + content.content.length
  | .text content => 1 + content.content.length
  | .array items => 1 + extentAll items
  | .map entries => 1 + extentEntries entries
  | .tag _ item => 1 + extent item
  | .unsigned _ | .negative _ | .simple _ | .float _ => 1

def extentAll : List Item → Nat
  | [] => 0
  | item :: rest => extent item + extentAll rest

def extentEntries : List (Item × Item) → Nat
  | [] => 0
  | (key, value) :: rest => extent key + extent value + extentEntries rest

end

theorem extent_pos (item : Item) : 1 ≤ item.extent := by
  cases item <;> simp only [extent] <;> omega

theorem extent_le_extentAll {item : Item} {items : List Item} (h : item ∈ items) :
    item.extent ≤ extentAll items := by
  induction items with
  | nil => cases h
  | cons x items ih =>
    rw [extentAll]
    rcases List.mem_cons.mp h with rfl | h
    · exact Nat.le_add_right _ _
    · exact Nat.le_trans (ih h) (Nat.le_add_left _ _)

theorem length_le_extentAll (items : List Item) : items.length ≤ extentAll items := by
  induction items with
  | nil => exact Nat.le_refl 0
  | cons item items ih =>
    have hpos := extent_pos item
    rw [extentAll, List.length_cons]
    omega

theorem extent_le_extentEntries {key value : Item} {entries : List (Item × Item)}
    (h : (key, value) ∈ entries) : key.extent + value.extent ≤ extentEntries entries := by
  induction entries with
  | nil => cases h
  | cons e entries ih =>
    obtain ⟨k, v⟩ := e
    rw [extentEntries]
    rcases List.mem_cons.mp h with h | h
    · cases h
      exact Nat.le_add_right _ _
    · exact Nat.le_trans (ih h) (Nat.le_add_left _ _)

theorem length_le_extentEntries (entries : List (Item × Item)) :
    entries.length ≤ extentEntries entries := by
  induction entries with
  | nil => exact Nat.le_refl 0
  | cons e entries ih =>
    obtain ⟨key, value⟩ := e
    have hpos := extent_pos key
    rw [extentEntries, List.length_cons]
    omega

theorem length_stop? {bs rest : Bytes} (h : stop? bs = some rest) : rest.length ≤ bs.length := by
  unfold stop? at h
  split at h
  · cases h
    exact Nat.le_succ _
  · cases h

mutual

theorem extent_readItem : ∀ (fuel : Nat) {bs rest : Bytes} {item : Item},
    readItem fuel bs = some (item, rest) → item.extent + rest.length ≤ bs.length
  | 0, _, _, _, h => nomatch h
  | fuel + 1, bs, rest, item, h => by
    rw [readItem] at h
    obtain ⟨⟨head, rest₁⟩, hhead, h⟩ := Option.bind_eq_some_iff.mp h
    have hl := Head.length_read hhead
    cases head with
    | unsigned n =>
      cases h
      rw [extent]
      omega
    | negative n =>
      cases h
      rw [extent]
      omega
    | bytes size =>
      obtain ⟨⟨content, rest₂⟩, hcontent, h⟩ := Option.bind_eq_some_iff.mp h
      cases h
      have ht := length_readPieces hcontent
      rw [extent]
      omega
    | text size =>
      obtain ⟨⟨content, rest₂⟩, hcontent, h⟩ := Option.bind_eq_some_iff.mp h
      cases h
      have ht := length_readPieces hcontent
      rw [extent]
      omega
    | array size =>
      cases size with
      | some size =>
        obtain ⟨⟨items, rest₂⟩, hitems, h⟩ := Option.bind_eq_some_iff.mp h
        cases h
        have ht := extent_readItems fuel hitems
        rw [extent]
        omega
      | none =>
        obtain ⟨⟨items, rest₂⟩, hitems, h⟩ := Option.bind_eq_some_iff.mp h
        cases h
        have ht := extent_readItemsToStop fuel hitems
        rw [extent]
        omega
    | map size =>
      cases size with
      | some size =>
        obtain ⟨⟨entries, rest₂⟩, hentries, h⟩ := Option.bind_eq_some_iff.mp h
        cases h
        have ht := extent_readEntries fuel hentries
        rw [extent]
        omega
      | none =>
        obtain ⟨⟨entries, rest₂⟩, hentries, h⟩ := Option.bind_eq_some_iff.mp h
        cases h
        have ht := extent_readEntriesToStop fuel hentries
        rw [extent]
        omega
    | tag number =>
      obtain ⟨⟨inner, rest₂⟩, hitem, h⟩ := Option.bind_eq_some_iff.mp h
      cases h
      have ht := extent_readItem fuel hitem
      rw [extent]
      omega
    | simple code =>
      cases h
      rw [extent]
      omega
    | float bits =>
      cases h
      rw [extent]
      omega
    | stop => cases h

theorem extent_readItems : ∀ (fuel : Nat) {count : Nat} {bs rest : Bytes} {items : List Item},
    readItems fuel count bs = some (items, rest) → extentAll items + rest.length ≤ bs.length
  | fuel, 0, bs, rest, items, h => by
    cases fuel <;> cases h <;> rw [extentAll] <;> omega
  | 0, _ + 1, _, _, _, h => nomatch h
  | fuel + 1, count + 1, bs, rest, items, h => by
    rw [readItems] at h
    obtain ⟨⟨item, rest₁⟩, hitem, h⟩ := Option.bind_eq_some_iff.mp h
    obtain ⟨⟨items', rest₂⟩, hitems, h⟩ := Option.bind_eq_some_iff.mp h
    cases h
    have ht := extent_readItem fuel hitem
    have hts := extent_readItems fuel hitems
    rw [extentAll]
    omega

theorem extent_readItemsToStop : ∀ (fuel : Nat) {bs rest : Bytes} {items : List Item},
    readItemsToStop fuel bs = some (items, rest) → extentAll items + rest.length ≤ bs.length
  | 0, _, _, _, h => nomatch h
  | fuel + 1, bs, rest, items, h => by
    rw [readItemsToStop] at h
    split at h
    · rename_i hstop
      cases h
      have hl := length_stop? hstop
      rw [extentAll]
      omega
    · obtain ⟨⟨item, rest₁⟩, hitem, h⟩ := Option.bind_eq_some_iff.mp h
      obtain ⟨⟨items', rest₂⟩, hitems, h⟩ := Option.bind_eq_some_iff.mp h
      cases h
      have ht := extent_readItem fuel hitem
      have hts := extent_readItemsToStop fuel hitems
      rw [extentAll]
      omega

theorem extent_readEntries : ∀ (fuel : Nat) {count : Nat} {bs rest : Bytes}
    {entries : List (Item × Item)}, readEntries fuel count bs = some (entries, rest) →
      extentEntries entries + rest.length ≤ bs.length
  | fuel, 0, bs, rest, entries, h => by
    cases fuel <;> cases h <;> rw [extentEntries] <;> omega
  | 0, _ + 1, _, _, _, h => nomatch h
  | fuel + 1, count + 1, bs, rest, entries, h => by
    rw [readEntries] at h
    obtain ⟨⟨key, rest₁⟩, hkey, h⟩ := Option.bind_eq_some_iff.mp h
    obtain ⟨⟨value, rest₂⟩, hvalue, h⟩ := Option.bind_eq_some_iff.mp h
    obtain ⟨⟨entries', rest₃⟩, hentries, h⟩ := Option.bind_eq_some_iff.mp h
    cases h
    have hk := extent_readItem fuel hkey
    have hv := extent_readItem fuel hvalue
    have hts := extent_readEntries fuel hentries
    rw [extentEntries]
    omega

theorem extent_readEntriesToStop : ∀ (fuel : Nat) {bs rest : Bytes}
    {entries : List (Item × Item)}, readEntriesToStop fuel bs = some (entries, rest) →
      extentEntries entries + rest.length ≤ bs.length
  | 0, _, _, _, h => nomatch h
  | fuel + 1, bs, rest, entries, h => by
    rw [readEntriesToStop] at h
    split at h
    · rename_i hstop
      cases h
      have hl := length_stop? hstop
      rw [extentEntries]
      omega
    · obtain ⟨⟨key, rest₁⟩, hkey, h⟩ := Option.bind_eq_some_iff.mp h
      obtain ⟨⟨value, rest₂⟩, hvalue, h⟩ := Option.bind_eq_some_iff.mp h
      obtain ⟨⟨entries', rest₃⟩, hentries, h⟩ := Option.bind_eq_some_iff.mp h
      cases h
      have hk := extent_readItem fuel hkey
      have hv := extent_readItem fuel hvalue
      have hts := extent_readEntriesToStop fuel hentries
      rw [extentEntries]
      omega

end

/-- **Extents.** An item takes at least its extent from the bytes that it is read from. -/
theorem extent_read {bs rest : Bytes} {item : Item} (h : read bs = some (item, rest)) :
    item.extent + rest.length ≤ bs.length :=
  extent_readItem _ h

end Item

end Provenance

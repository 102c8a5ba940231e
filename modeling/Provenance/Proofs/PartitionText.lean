import Provenance.Partition
import Provenance.Proofs.Numerals

/-!
# The text of partitions

A text stands for a partition if it is the topic, a colon, a numeral of the index and the mark of
the kind (`PartitionKey.Spells`). The topic is any text, with colons, digits and marks of its own:
the parts are found from the right, and a numeral has neither a colon nor the end of a mark in it.
So a text stands for one partition only (`PartitionKey.Spells.unique`).

Main statement: `PartitionKey.text_unambiguous`.
-/

namespace Provenance

/-- What ends the text of a partition of this kind. -/
def PartitionKind.mark : PartitionKind → List Char
  | .data => []
  | .log => PartitionKey.kindMark

namespace PartitionKey

/-- The text is the topic, a colon, a numeral of the index and the mark of the kind. -/
def Spells (s : String) (topic : String) (index : Nat) (kind : PartitionKind) : Prop :=
  ∃ numeral, Numeral.Denotes numeral index ∧
    s.toList = topic.toList ++ ':' :: numeral ++ kind.mark

theorem toList_text (p : PartitionKey) :
    p.text.toList = p.topic.toList ++ ':' :: Numeral.digitsOf p.index.toNat ++ p.kind.mark := by
  rw [text, String.toList_ofList, textChars]
  cases p.kind <;> rfl

theorem spells_text (p : PartitionKey) : Spells p.text p.topic p.index.toNat p.kind :=
  ⟨_, Numeral.denotes_digitsOf p.index.toNat, p.toList_text⟩

/-! ## The parts of a text -/

theorem splitKind_append_kindMark (cs : List Char) : splitKind (cs ++ kindMark) = (cs, .log) := by
  have hsize : (cs ++ kindMark).length - kindMark.length = cs.length := by
    rw [List.length_append, Nat.add_sub_cancel]
  unfold splitKind
  simp only [hsize, List.drop_left, List.take_left]
  rw [if_pos ⟨by rw [List.length_append]; omega, trivial⟩]

theorem append_mark_splitKind (cs : List Char) :
    (splitKind cs).1 ++ (splitKind cs).2.mark = cs := by
  simp only [splitKind]
  split
  · rename_i hmark
    show cs.take (cs.length - kindMark.length) ++ kindMark = cs
    conv_rhs => rw [← List.take_append_drop (cs.length - kindMark.length) cs, hmark.2]
  · exact List.append_nil cs

/-- A text that ends in a numeral has no mark, so that the mark behind it is the kind's. -/
theorem splitKind_numeral (topic : List Char) {numeral : List Char} {n : Nat}
    (h : Numeral.Denotes numeral n) (kind : PartitionKind) :
    splitKind (topic ++ ':' :: numeral ++ kind.mark) = (topic ++ ':' :: numeral, kind) := by
  cases kind with
  | log => exact splitKind_append_kindMark _
  | data =>
    rw [PartitionKind.mark, List.append_nil]
    have hsplit := append_mark_splitKind (topic ++ ':' :: numeral)
    cases hk : splitKind (topic ++ ':' :: numeral) with
    | mk rest kind =>
      rw [hk] at hsplit
      cases kind with
      | data => rw [← hsplit, PartitionKind.mark, List.append_nil]
      | log =>
        -- A mark ends in a letter, and there is none in a numeral.
        have hlast : (':' :: numeral).getLast? = some 'g' := by
          rw [← List.getLast?_append_of_ne_nil topic (List.cons_ne_nil ':' numeral), ← hsplit]
          exact List.getLast?_append_of_ne_nil rest (show kindMark ≠ [] by decide)
        rcases List.mem_cons.mp (List.mem_of_getLast? hlast) with hg | hg
        · exact absurd hg (by decide)
        · exact absurd hg (h.not_mem (by decide) (by decide))

theorem splitIndex?_eq_none {cs : List Char} (h : ':' ∉ cs) : splitIndex? cs = none := by
  induction cs with
  | nil => rfl
  | cons c cs ih =>
    obtain ⟨hc, hcs⟩ := List.ne_and_not_mem_of_not_mem_cons h
    rw [splitIndex?, ih hcs]
    exact if_neg (Ne.symm hc)

theorem splitIndex?_append (front : List Char) {back : List Char} (h : ':' ∉ back) :
    splitIndex? (front ++ ':' :: back) = some (front, back) := by
  induction front with
  | nil =>
    rw [List.nil_append, splitIndex?, splitIndex?_eq_none h]
    rfl
  | cons c front ih => rw [List.cons_append, splitIndex?, ih]

/-- A numeral has no colon, so that the one in front of it is the last. -/
theorem splitIndex?_numeral (topic : List Char) {numeral : List Char} {n : Nat}
    (h : Numeral.Denotes numeral n) :
    splitIndex? (topic ++ ':' :: numeral) = some (topic, numeral) :=
  splitIndex?_append topic (h.not_mem (by decide) (by decide))

theorem eq_append_of_splitIndex? {cs front back : List Char}
    (h : splitIndex? cs = some (front, back)) : cs = front ++ ':' :: back := by
  induction cs generalizing front with
  | nil => cases h
  | cons c cs ih =>
    rw [splitIndex?] at h
    split at h
    · rename_i topic index hsplit
      cases h
      rw [List.cons_append, ← ih hsplit]
    · split at h
      · rename_i hc
        cases h
        rw [hc]
        rfl
      · cases h

/-! ## Reading -/

/-- A text that stands for a partition is read, unless the topic is empty or the index too large. -/
theorem ofText?_of_spells {s topic : String} {index : Nat} {kind : PartitionKind}
    (h : Spells s topic index kind) :
    ofText? s = if index < UInt32.size ∧ topic ≠ "" then
      some ⟨topic, UInt32.ofNat index, kind⟩ else none := by
  obtain ⟨numeral, hnumeral, hs⟩ := h
  rw [ofText?, hs, ofChars?, splitKind_numeral topic.toList hnumeral]
  simp only [splitIndex?_numeral topic.toList hnumeral, Numeral.decode?_eq_some_iff.mpr hnumeral,
    Option.bind_eq_bind, Option.bind_some, String.ofList_toList, ne_eq, String.toList_eq_nil_iff]

/-- Only a text that stands for a partition is read. -/
theorem spells_of_ofText? {s : String} {p : PartitionKey} (h : ofText? s = some p) :
    p.topic ≠ "" ∧ Spells s p.topic p.index.toNat p.kind := by
  have hsplit := append_mark_splitKind s.toList
  rw [ofText?, ofChars?] at h
  generalize splitKind s.toList = parts at h hsplit
  obtain ⟨rest, kind⟩ := parts
  simp only [Option.bind_eq_bind, Option.bind_eq_some_iff] at h
  obtain ⟨⟨topic, numeral⟩, hindex, index, hnumeral, h⟩ := h
  split at h
  · rename_i hfits
    cases h
    refine ⟨?_, numeral, ?_, ?_⟩
    · rw [ne_eq, ← String.toList_eq_nil_iff, String.toList_ofList]
      exact hfits.2
    · rw [UInt32.toNat_ofNat_of_lt' hfits.1]
      exact Numeral.decode?_eq_some_iff.mp hnumeral
    · rw [String.toList_ofList, ← eq_append_of_splitIndex? hindex, hsplit]
  · cases h

theorem ofText?_eq_some_iff {s : String} {p : PartitionKey} :
    ofText? s = some p ↔ p.topic ≠ "" ∧ Spells s p.topic p.index.toNat p.kind := by
  constructor
  · exact spells_of_ofText?
  · rintro ⟨htopic, hspells⟩
    rw [ofText?_of_spells hspells, if_pos ⟨p.index.toNat_lt, htopic⟩, UInt32.ofNat_toNat]

/-! ## One text, one partition -/

theorem Spells.unique {s topic topic' : String} {index index' : Nat} {kind kind' : PartitionKind}
    (h : Spells s topic index kind) (h' : Spells s topic' index' kind') :
    topic = topic' ∧ index = index' ∧ kind = kind' := by
  obtain ⟨numeral, hnumeral, hs⟩ := h
  obtain ⟨numeral', hnumeral', hs'⟩ := h'
  have hparts := splitKind_numeral topic.toList hnumeral kind
  rw [← hs, hs', splitKind_numeral topic'.toList hnumeral' kind', Prod.mk.injEq] at hparts
  obtain ⟨hrest, hkind⟩ := hparts
  have hindex := splitIndex?_numeral topic.toList hnumeral
  rw [← hrest, splitIndex?_numeral topic'.toList hnumeral', Option.some.injEq,
    Prod.mk.injEq] at hindex
  obtain ⟨htopic, rfl⟩ := hindex
  rw [← Numeral.decode?_eq_some_iff] at hnumeral hnumeral'
  exact ⟨(String.toList_injective htopic).symm, Option.some.inj (hnumeral.symm.trans hnumeral'),
    hkind.symm⟩

theorem text_inj {p q : PartitionKey} (h : p.text = q.text) : p = q := by
  have hp := p.spells_text
  rw [h] at hp
  obtain ⟨htopic, hindex, hkind⟩ := hp.unique q.spells_text
  cases p
  cases q
  rw [mk.injEq]
  exact ⟨htopic, UInt32.toNat_inj.mp hindex, hkind⟩

/-- What stands for a partition is its text, up to a plus sign and zeros in front of the index. -/
theorem Spells.zeros {s : String} {p : PartitionKey}
    (h : Spells s p.topic p.index.toNat p.kind) :
    ∃ plus zeros back, (plus = [] ∨ plus = ['+']) ∧
      p.text.toList = p.topic.toList ++ ':' :: back ∧
        s.toList = p.topic.toList ++ ':' :: (plus ++ List.replicate zeros '0' ++ back) := by
  obtain ⟨numeral, hnumeral, hs⟩ := h
  obtain ⟨plus, zeros, hplus, rfl⟩ := hnumeral.zeros
  refine ⟨plus, zeros, Numeral.digitsOf p.index.toNat ++ p.kind.mark, hplus, ?_, ?_⟩
  · rw [toList_text, List.append_assoc, List.cons_append]
  · simp only [hs, List.append_assoc, List.cons_append]

/-- **Unambiguous texts.** A key with a topic is read back from its text, and no two keys have one
text, whatever their topics look like. A text is read as a key exactly if it stands for the key and
the topic is not empty, and it is not read at all if it stands for an index that does not fit. So
what is read as a key differs from its text at most by a plus sign and zeros in front of the
index. -/
theorem text_unambiguous :
    (∀ p : PartitionKey, p.topic ≠ "" → ofText? p.text = some p) ∧
      (∀ p q : PartitionKey, p.text = q.text → p = q) ∧
        (∀ s p, ofText? s = some p ↔ p.topic ≠ "" ∧ Spells s p.topic p.index.toNat p.kind) ∧
          (∀ s topic index kind, Spells s topic index kind → UInt32.size ≤ index →
            ofText? s = none) ∧
            ∀ s p, ofText? s = some p → ∃ plus zeros back, (plus = [] ∨ plus = ['+']) ∧
              p.text.toList = p.topic.toList ++ ':' :: back ∧
                s.toList = p.topic.toList ++ ':' :: (plus ++ List.replicate zeros '0' ++ back) := by
  refine ⟨fun p hp => ofText?_eq_some_iff.mpr ⟨hp, p.spells_text⟩, fun p q h => text_inj h,
    fun s p => ofText?_eq_some_iff, ?_, ?_⟩
  · intro s topic index kind hspells hlarge
    rw [ofText?_of_spells hspells]
    exact if_neg (fun hfits => Nat.not_lt_of_le hlarge hfits.1)
  · intro s p hs
    exact (ofText?_eq_some_iff.mp hs).2.zeros

/-- A topic that looks like the text of a partition, with the largest index. -/
def nested : PartitionKey := ⟨"a:7:log", 4294967295, .log⟩

/-- Its text is read back, as is one with a plus sign and a zero; the next index is refused. -/
theorem nested_readBack :
    nested.topic ≠ "" ∧ ofText? "a:7:log:4294967295:log" = some nested ∧
      ofText? "a:7:log:+04294967295:log" = some nested ∧
        (∀ q, nested.text = q.text → nested = q) ∧
          Spells "a:7:log:4294967296" "a:7:log" 4294967296 .data ∧
            ofText? "a:7:log:4294967296" = none := by
  obtain ⟨hread, hinj, hiff, hlarge, -⟩ := text_unambiguous
  have htopic : nested.topic ≠ "" := by decide
  have hplus : Spells "a:7:log:+04294967295:log" nested.topic nested.index.toNat nested.kind :=
    ⟨"+04294967295".toList, ⟨"04294967295".toList, Or.inr rfl, by decide, List.all_eq_true.mp rfl,
      by decide⟩, rfl⟩
  have hnext : Spells "a:7:log:4294967296" "a:7:log" 4294967296 .data :=
    ⟨"4294967296".toList, ⟨_, Or.inl rfl, by decide, List.all_eq_true.mp rfl, by decide⟩, rfl⟩
  exact ⟨htopic, hread nested htopic, (hiff _ nested).mpr ⟨htopic, hplus⟩, hinj nested, hnext,
    hlarge _ _ _ _ hnext (by decide)⟩

end PartitionKey

end Provenance

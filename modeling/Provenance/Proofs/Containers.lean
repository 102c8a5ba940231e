import Provenance.Container.NameMap
import Provenance.Container.Table
import Mathlib.Data.List.Sort

/-!
# Laws of the containers

* a table after an insertion, in one equation for all keys (`Table.find?_insert`), and the bindings
  that an insertion keeps (`Table.contains_insert`); which keys and entries a look-up finds
  (`Table.find?_eq_none`, `Table.find?_of_mem`); a table whose values are all mapped (`Table.map`);
* a set of names is determined by its members (`NameSet.ext_mem`), so the set made of the names of a
  set is that set (`NameSet.ofList_names`);
* the map made of the entries of a map is that map (`NameMap.ofList_entries`).
-/

namespace Provenance

namespace Table

variable {κ α β : Type} [DecidableEq κ]

theorem find?_insert (key : κ) (value : α) (t : Table κ α) (other : κ) :
    (t.insert key value).find? other = if key = other then some value else t.find? other := by
  by_cases h : key = other
  · rw [← h, find?_insert_self, if_pos rfl]
  · rw [find?_insert_of_ne h, if_neg h]

/-- An insertion loses no key. -/
theorem contains_insert {t : Table κ α} {other : κ} (h : t.contains other = true) (key : κ)
    (value : α) : (t.insert key value).contains other = true := by
  unfold contains at h ⊢
  rw [find?_insert]
  split
  · rfl
  · exact h

theorem insertEntry_of_not_mem {key : κ} {value : α} {es : List (κ × α)}
    (h : key ∉ es.map (·.1)) : insertEntry key value es = es ++ [(key, value)] := by
  induction es with
  | nil => rfl
  | cons e es ih =>
    simp only [List.map_cons, List.mem_cons, not_or] at h
    rw [insertEntry, if_neg (Ne.symm h.1), ih h.2, List.cons_append]

/-- A new key stands behind the others. -/
theorem entries_insert_of_not_mem {key : κ} {t : Table κ α} (h : key ∉ t.keys) (value : α) :
    (t.insert key value).entries = t.entries ++ [(key, value)] :=
  insertEntry_of_not_mem h

theorem keys_insert (key : κ) (value : α) (t : Table κ α) :
    (t.insert key value).keys = if key ∈ t.keys then t.keys else t.keys ++ [key] := by
  have h : ∀ es : List (κ × α), (insertEntry key value es).map (·.1) =
      if key ∈ es.map (·.1) then es.map (·.1) else es.map (·.1) ++ [key] := by
    intro es
    induction es with
    | nil => rfl
    | cons e es ih =>
      by_cases he : e.1 = key
      · simp only [insertEntry, he, if_true, List.map_cons, List.mem_cons, true_or]
      · simp only [insertEntry, he, Ne.symm he, if_false, List.map_cons, List.mem_cons, false_or, ih]
        split <;> rfl
  exact h t.entries

theorem nodup_keys_insert {t : Table κ α} (h : t.keys.Nodup) (key : κ) (value : α) :
    (t.insert key value).keys.Nodup := by
  rw [keys_insert]
  split
  · exact h
  · rename_i hnew
    exact List.nodup_append.mpr ⟨h, List.nodup_singleton key, fun k hk k' hk' heq =>
      hnew (List.mem_singleton.mp hk' ▸ heq ▸ hk)⟩

theorem mem_keys_insert {t : Table κ α} {key other : κ} (value : α) :
    other ∈ (t.insert key value).keys ↔ key = other ∨ other ∈ t.keys := by
  rw [keys_insert]
  split
  · rename_i hold
    constructor
    · exact Or.inr
    · rintro (rfl | h)
      · exact hold
      · exact h
  · rw [List.mem_append, List.mem_singleton, or_comm, eq_comm]

theorem find?_eq_none {t : Table κ α} {key : κ} : t.find? key = none ↔ key ∉ t.keys := by
  have h : ∀ es : List (κ × α), findValue? key es = none ↔ key ∉ es.map (·.1) := by
    intro es
    induction es with
    | nil => exact ⟨fun _ => List.not_mem_nil, fun _ => rfl⟩
    | cons e es ih =>
      rw [findValue?, List.map_cons, List.mem_cons, not_or, ← ih]
      by_cases he : e.1 = key
      · simp [he]
      · simp [he, Ne.symm he]
  exact h t.entries

/-- Where no key stands twice, every entry is found. -/
theorem find?_of_mem {t : Table κ α} (hkeys : t.keys.Nodup) {key : κ} {value : α}
    (h : (key, value) ∈ t.entries) : t.find? key = some value := by
  have hfound : ∀ es : List (κ × α), (es.map (·.1)).Nodup → (key, value) ∈ es →
      findValue? key es = some value := by
    intro es hkeys hmem
    induction es with
    | nil => cases hmem
    | cons e es ih =>
      obtain ⟨hfirst, hkeys⟩ := List.nodup_cons.mp hkeys
      rcases List.mem_cons.mp hmem with rfl | hmem
      · exact if_pos rfl
      · have hne : e.1 ≠ key := by
          rintro rfl
          exact hfirst (List.mem_map.mpr ⟨_, hmem, rfl⟩)
        rw [findValue?, if_neg hne, ih hkeys hmem]
  exact hfound t.entries hkeys h

/-- A function of every value. -/
def map (f : α → β) (t : Table κ α) : Table κ β := ⟨t.entries.map (fun e => (e.1, f e.2))⟩

theorem find?_map (f : α → β) (t : Table κ α) (key : κ) :
    (t.map f).find? key = (t.find? key).map f := by
  have h : ∀ es : List (κ × α), findValue? key (es.map (fun e => (e.1, f e.2))) =
      (findValue? key es).map f := by
    intro es
    induction es with
    | nil => rfl
    | cons e es ih =>
      rw [List.map_cons, findValue?, findValue?, ih]
      split <;> rfl
  exact h t.entries

theorem map_insert (f : α → β) (key : κ) (value : α) (t : Table κ α) :
    (t.insert key value).map f = (t.map f).insert key (f value) := by
  have h : ∀ es : List (κ × α), (insertEntry key value es).map (fun e => (e.1, f e.2)) =
      insertEntry key (f value) (es.map (fun e => (e.1, f e.2))) := by
    intro es
    induction es with
    | nil => rfl
    | cons e es ih =>
      rw [List.map_cons, insertEntry, insertEntry]
      split
      · rfl
      · rw [List.map_cons, ih]
  exact congrArg Table.mk (h t.entries)

end Table

namespace NameSet

theorem mem_names {s : NameSet} {name : String} : name ∈ s ↔ name ∈ s.names := Iff.rfl

theorem nodup_names (s : NameSet) : s.names.Nodup :=
  s.sorted.imp (fun h => fun e => absurd (e ▸ h) (String.lt_irrefl _))

theorem ext_mem {s t : NameSet} (h : ∀ name, name ∈ s ↔ name ∈ t) : s = t := by
  have hp : s.names.Perm t.names := (List.perm_ext_iff_of_nodup s.nodup_names t.nodup_names).mpr h
  have e : s.names = t.names := hp.eq_of_pairwise
    (fun a b _ _ hab hba => absurd (String.lt_trans hab hba) (String.lt_irrefl a)) s.sorted t.sorted
  cases s
  cases t
  simp only at e
  simp only [e]

@[simp] theorem not_mem_empty (name : String) : ¬ name ∈ empty := by
  simp [mem_names, empty]

theorem mem_ofList {names : List String} {name : String} : name ∈ ofList names ↔ name ∈ names := by
  simp [ofList, mem_insertAll]

theorem length_insert_le (name : String) (s : NameSet) :
    (s.insert name).names.length ≤ s.names.length + 1 := by
  have h : ∀ xs : List String, (insertName name xs).length ≤ xs.length + 1 := by
    intro xs
    induction xs with
    | nil => exact Nat.le_refl 1
    | cons x xs ih =>
      simp only [insertName]
      split
      · exact Nat.succ_le_succ ih
      · split
        · exact Nat.le_refl _
        · exact Nat.le_succ _
  exact h s.names

theorem length_ofList_le (names : List String) : (ofList names).names.length ≤ names.length := by
  have h : ∀ s : NameSet, (s.insertAll names).names.length ≤ s.names.length + names.length := by
    induction names with
    | nil => exact fun s => Nat.le_refl _
    | cons name names ih =>
      intro s
      have hinsert := length_insert_le name s
      have hrest := ih (s.insert name)
      rw [List.length_cons]
      exact Nat.le_trans hrest (by omega)
  have hempty := h empty
  simp only [empty, List.length_nil, Nat.zero_add] at hempty
  exact hempty

theorem ofList_names (s : NameSet) : ofList s.names = s := ext_mem (fun _ => mem_ofList)

end NameSet

namespace NameMap

variable {α : Type}

theorem insertEntry_of_forall_lt {name : String} {value : α} {es : List (String × α)}
    (h : ∀ e ∈ es, e.1 < name) : insertEntry name value es = es ++ [(name, value)] := by
  induction es with
  | nil => rfl
  | cons e es ih =>
    have he : e.1 < name := h e (List.mem_cons_self ..)
    simp only [insertEntry, he, if_true, ih (fun e' he' => h e' (List.mem_cons_of_mem e he')),
      List.cons_append]

/-- Entries in ascending order, all of them behind those of the map. -/
theorem entries_foldl_insert {es : List (String × α)} (hes : (es.map (·.1)).Pairwise (· < ·))
    {m : NameMap α} (h : ∀ old ∈ m.entries, ∀ e ∈ es, old.1 < e.1) :
    (es.foldl (fun m e => m.insert e.1 e.2) m).entries = m.entries ++ es := by
  induction es generalizing m with
  | nil => simp
  | cons e es ih =>
    rw [List.map_cons, List.pairwise_cons] at hes
    have hinsert : (m.insert e.1 e.2).entries = m.entries ++ [e] :=
      insertEntry_of_forall_lt (fun old hold => h old hold e (List.mem_cons_self ..))
    rw [List.foldl_cons, ih hes.2, hinsert, List.append_assoc, List.singleton_append]
    intro old hold e' he'
    rw [hinsert, List.mem_append, List.mem_singleton] at hold
    rcases hold with hold | rfl
    · exact h old hold e' (List.mem_cons_of_mem _ he')
    · exact hes.1 e'.1 (List.mem_map_of_mem he')

theorem length_insertEntry_le (name : String) (value : α) (es : List (String × α)) :
    (insertEntry name value es).length ≤ es.length + 1 := by
  induction es with
  | nil => exact Nat.le_refl 1
  | cons e es ih =>
    obtain ⟨x, v⟩ := e
    simp only [insertEntry]
    split
    · exact Nat.succ_le_succ ih
    · split
      · exact Nat.le_refl _
      · exact Nat.le_succ _

theorem mem_insertEntry {name : String} {value : α} {es : List (String × α)} {e : String × α}
    (h : e ∈ insertEntry name value es) : e = (name, value) ∨ e ∈ es := by
  induction es with
  | nil => exact Or.inl (List.mem_singleton.mp h)
  | cons x es ih =>
    obtain ⟨x, v⟩ := x
    simp only [insertEntry] at h
    split at h
    · rcases List.mem_cons.mp h with rfl | h
      · exact Or.inr (List.mem_cons_self ..)
      · exact (ih h).imp_right (List.mem_cons_of_mem _)
    · split at h
      · exact List.mem_cons.mp h
      · exact (List.mem_cons.mp h).imp_right (List.mem_cons_of_mem _)

/-- The map made of a list has no more entries than the list, and none that is not in it. -/
theorem entries_ofList (es : List (String × α)) :
    (ofList es).entries.length ≤ es.length ∧ ∀ e ∈ (ofList es).entries, e ∈ es := by
  have h : ∀ m : NameMap α, (es.foldl (fun m e => m.insert e.1 e.2) m).entries.length ≤
      m.entries.length + es.length ∧
        ∀ e ∈ (es.foldl (fun m e => m.insert e.1 e.2) m).entries, e ∈ m.entries ∨ e ∈ es := by
    induction es with
    | nil => exact fun m => ⟨Nat.le_refl _, fun e he => Or.inl he⟩
    | cons e es ih =>
      intro m
      obtain ⟨hlength, hmem⟩ := ih (m.insert e.1 e.2)
      have hinsert : (m.insert e.1 e.2).entries.length ≤ m.entries.length + 1 :=
        length_insertEntry_le e.1 e.2 m.entries
      rw [List.foldl_cons, List.length_cons]
      refine ⟨by omega, fun x hx => ?_⟩
      rcases hmem x hx with hx | hx
      · rcases mem_insertEntry hx with rfl | hx
        · exact Or.inr (List.mem_cons_self ..)
        · exact Or.inl hx
      · exact Or.inr (List.mem_cons_of_mem e hx)
  obtain ⟨hlength, hmem⟩ := h empty
  have hnone : (empty : NameMap α).entries = [] := rfl
  rw [hnone, List.length_nil, Nat.zero_add] at hlength
  refine ⟨hlength, fun e he => ?_⟩
  rcases hmem e he with he | he
  · exact absurd he List.not_mem_nil
  · exact he

/-- Of the entries of one name in a list, the map made of the list has the last one. -/
theorem find?_ofList (es : List (String × α)) (name : String) :
    (∃ e ∈ es, e.1 = name ∧ (ofList es).find? name = some e.2) ∨
      (∀ e ∈ es, e.1 ≠ name) ∧ (ofList es).find? name = none := by
  have h : ∀ m : NameMap α,
      (∃ e ∈ es, e.1 = name ∧
        (es.foldl (fun m e => m.insert e.1 e.2) m).find? name = some e.2) ∨
      (∀ e ∈ es, e.1 ≠ name) ∧
        (es.foldl (fun m e => m.insert e.1 e.2) m).find? name = m.find? name := by
    induction es with
    | nil => exact fun m => Or.inr ⟨fun _ he => absurd he List.not_mem_nil, rfl⟩
    | cons e es ih =>
      intro m
      rw [List.foldl_cons, List.forall_mem_cons]
      obtain ⟨e', he', hname, hfind⟩ | ⟨hnone, hfind⟩ := ih (m.insert e.1 e.2)
      · exact Or.inl ⟨e', List.mem_cons_of_mem e he', hname, hfind⟩
      · by_cases he : e.1 = name
        · refine Or.inl ⟨e, List.mem_cons_self .., he, ?_⟩
          rw [hfind, ← he, find?_insert_self]
        · exact Or.inr ⟨⟨he, hnone⟩, hfind.trans (find?_insert_of_ne he e.2 m)⟩
  exact h empty

theorem ofList_entries (m : NameMap α) : ofList m.entries = m := by
  have h : (ofList m.entries).entries = m.entries := by
    unfold ofList
    rw [entries_foldl_insert m.sorted (fun _ hold => absurd hold List.not_mem_nil)]
    rfl
  obtain ⟨entries, sorted⟩ := m
  generalize ofList entries = m' at h
  cases m'
  cases h
  rfl

end NameMap

end Provenance

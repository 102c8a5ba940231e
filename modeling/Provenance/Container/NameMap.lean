import Provenance.Container.NameSet

/-!
# Maps from names

A map is its entries in ascending order of their names, one for each name. An insertion replaces the
entry of its name. Main statements: `NameMap.find?_insert_self`, `NameMap.find?_insert_of_ne`.
-/

namespace Provenance

structure NameMap (α : Type) where
  entries : List (String × α)
  sorted : (entries.map (·.1)).Pairwise (· < ·)

namespace NameMap

variable {α : Type}

/-! ## Insertion into ascending lists -/

def insertEntry (name : String) (value : α) : List (String × α) → List (String × α)
  | [] => [(name, value)]
  | (x, v) :: rest =>
    if x < name then (x, v) :: insertEntry name value rest
    else if name < x then (name, value) :: (x, v) :: rest
    else (name, value) :: rest

theorem map_insertEntry (name : String) (value : α) (es : List (String × α)) :
    (insertEntry name value es).map (·.1) = NameSet.insertName name (es.map (·.1)) := by
  induction es with
  | nil => rfl
  | cons e es ih =>
    obtain ⟨x, v⟩ := e
    simp only [insertEntry, NameSet.insertName, List.map_cons]
    split
    · simp only [List.map_cons, ih]
    · split
      · rfl
      · have e : x = name := NameSet.eq_of_not_lt ‹_› ‹_›
        simp only [List.map_cons, e]

def findValue? (name : String) : List (String × α) → Option α
  | [] => none
  | (x, v) :: rest => if x = name then some v else findValue? name rest

/-! ## The map -/

def empty : NameMap α := ⟨[], NameSet.sorted_nil⟩

def insert (name : String) (value : α) (m : NameMap α) : NameMap α :=
  ⟨insertEntry name value m.entries, by
    rw [map_insertEntry]
    exact NameSet.sorted_insertName m.sorted⟩

def ofList (entries : List (String × α)) : NameMap α :=
  entries.foldl (fun m e => m.insert e.1 e.2) empty

def find? (m : NameMap α) (name : String) : Option α := findValue? name m.entries

def contains (m : NameMap α) (name : String) : Bool := (m.find? name).isSome

def isEmpty (m : NameMap α) : Bool := m.entries.isEmpty

def values (m : NameMap α) : List α := m.entries.map (·.2)

instance [DecidableEq α] : DecidableEq (NameMap α) := fun a b =>
  if h : a.entries = b.entries then
    .isTrue (by cases a; cases b; simp at h; simp [h])
  else .isFalse (fun e => h (e ▸ rfl))

theorem findValue?_insertEntry (name : String) (value : α) (other : String)
    (es : List (String × α)) :
    findValue? other (insertEntry name value es) =
      if name = other then some value else findValue? other es := by
  induction es with
  | nil => rfl
  | cons e es ih =>
    obtain ⟨x, v⟩ := e
    simp only [insertEntry]
    split
    · simp only [findValue?, ih]
      by_cases hn : name = other
      · subst hn
        have hx : x ≠ name := fun e => absurd (e ▸ ‹x < name›) (String.lt_irrefl name)
        simp [hx]
      · simp [hn]
    · split
      · rfl
      · have e : x = name := NameSet.eq_of_not_lt ‹_› ‹_›
        subst e
        simp only [findValue?]
        split <;> rfl

theorem find?_insert_self (name : String) (value : α) (m : NameMap α) :
    (m.insert name value).find? name = some value := by
  simp [find?, insert, findValue?_insertEntry]

theorem find?_insert_of_ne {name other : String} (h : name ≠ other) (value : α) (m : NameMap α) :
    (m.insert name value).find? other = m.find? other := by
  simp [find?, insert, findValue?_insertEntry, h]

end NameMap

end Provenance

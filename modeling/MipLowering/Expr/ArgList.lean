/-!
# Argument lists

An ordered, growable list of items, as passed to the constructors of nodes: node ids, weights,
values. Items are read and replaced by position; a position past the end reads nothing and
replaces nothing.

## Main definitions

* `MipLowering.ArgList`, `MipLowering.ArgList.push`, `MipLowering.ArgList.get?`,
  `MipLowering.ArgList.replace`.
-/

namespace MipLowering

/-- An ordered list of items. -/
structure ArgList (α : Type) where
  items : Array α := #[]

namespace ArgList

variable {α : Type}

/-- Appends an item. -/
def push (a : ArgList α) (x : α) : ArgList α := ⟨a.items.push x⟩

/-- The item at position `i`. -/
def get? (a : ArgList α) (i : Nat) : Option α := a.items[i]?

/-- Replaces the item at `i` and returns the one it held; past the end nothing changes and
nothing is returned. -/
def replace (a : ArgList α) (i : Nat) (x : α) : Option α × ArgList α :=
  match a.items[i]? with
  | some old => (some old, ⟨a.items.setIfInBounds i x⟩)
  | none => (none, a)

/-- The number of items. -/
def size (a : ArgList α) : Nat := a.items.size

/-- Whether there is no item. -/
def isEmpty (a : ArgList α) : Bool := a.items.isEmpty

end ArgList

end MipLowering

import Std.Data.TreeMap

/-!
# Ledgers

An append-only list of items without repetition, indexed by a key of the item:
for each key the ledger knows the positions of its items. An item equal to an
earlier one of the same key is not added again.
-/

namespace ProgramSafety

/-- Items with an index from keys to positions. -/
structure Ledger (κ α : Type) [Ord κ] where
  items : Array α
  slots : Std.TreeMap κ (List Nat)

/-- What a ledger goes by: the key of an item, and when two items are the same. -/
structure Keyed (κ α : Type) where
  key : α → κ
  same : α → α → Bool

namespace Ledger

variable {κ α : Type} [Ord κ]

def empty : Ledger κ α := ⟨#[], ∅⟩

def positions (l : Ledger κ α) (k : κ) : List Nat := l.slots.getD k []

/-- The items of a key, in the order in which they were added. -/
def itemsAt (l : Ledger κ α) (k : κ) : List α := (l.positions k).filterMap (l.items[·]?)

/-- Adds an item unless the ledger has it. -/
def add (l : Ledger κ α) (keyed : Keyed κ α) (a : α) : Ledger κ α :=
  let k := keyed.key a
  if (l.itemsAt k).any (keyed.same · a) then l
  else ⟨l.items.push a, l.slots.insert k (l.positions k ++ [l.items.size])⟩

end Ledger

end ProgramSafety

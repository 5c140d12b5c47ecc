import ClassTable.Registry.Catalog

/-!
# Running out of numbers

The number of a type is a thirty-two bit number, so an inventory has numbers for `capacity` types.
An operation that needs one more is a fault, like any other that runs out of names.

The operations of an inventory count on without a limit. Types are never taken away, and so it can
be told afterwards whether a number was missing on the way: if there are more types than numbers
(`settle`).
-/

namespace ClassTable.Inventory

/-- Number of types that there are numbers for. -/
def capacity : Nat := maxIndex + 1 - TypeIndex.firstRegistered

/-- There are not more types than numbers. -/
def WithinCapacity (inv : Inventory) : Prop := inv.size ≤ capacity

instance (inv : Inventory) : Decidable inv.WithinCapacity := inferInstanceAs (Decidable (_ ≤ _))

/-- Adds a type, if the next number is a thirty-two bit number. -/
def add (inv : Inventory) (e : Entry) : Except Fault (TypeIndex × Inventory) :=
  (freshIndex inv.next.raw).map fun _ => inv.push e

/-- What comes of an operation that left this inventory. -/
def settle {α : Type} (after : Inventory) (result : α) : Except Fault α :=
  if after.WithinCapacity then .ok result else .error (.indexOverflow (maxIndex + 1))

end ClassTable.Inventory

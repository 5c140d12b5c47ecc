import ClassTable.Registry.Inventory

/-!
# The catalog

A catalog is an inventory together with the names that every program relies on. It starts out
with two types: the root object, then the base of enumerations, which is generic in one type. If
both have the same name there is only one type, with the arity of the first.

A catalog offers every service of a registry.
-/

namespace ClassTable

/-- A registry of the types that were registered or composed so far. -/
structure Catalog where
  /-- The names that every program relies on. -/
  coreNames : CoreNames
  /-- The types. -/
  inventory : Inventory
  /-- The base class of every class that names none. -/
  rootObject : TypeIndex
  /-- The generic base class of every enumeration. -/
  enumBase : TypeIndex

namespace Catalog

/-- The catalog that knows only the types every program relies on. -/
def ofCoreNames (names : CoreNames) : Catalog :=
  let (root, seeded) := ({} : Inventory).register names.rootObject .classType 0
  let (enum, inventory) := seeded.register names.enumBase .classType 1
  { coreNames := names, inventory, rootObject := root, enumBase := enum }

/-- Registers a named type. A signature that is already there keeps its kind and arity. -/
def register (c : Catalog) (signature : String) (kind : Kind) (arity : Nat) :
    TypeIndex × Catalog :=
  let (i, inventory) := c.inventory.register signature kind arity
  (i, { c with inventory })

/-- Number of types, primitive types not counted. -/
def size (c : Catalog) : Nat := c.inventory.size

/-- Whether there is no type. -/
def isEmpty (c : Catalog) : Bool := c.inventory.entries.isEmpty

end Catalog

instance : Registry Catalog where
  find? c signature := c.inventory.find? signature
  kind? c i := c.inventory.kind? i
  root? c := some c.rootObject
  enumBase? c := some c.enumBase
  specialize c generic arguments :=
    let (answer, inventory) := c.inventory.specialize generic arguments
    (answer, { c with inventory })
  signature? c i := c.inventory.signature? i
  specialization? c i := c.inventory.specialization? i
  arrayOf c element :=
    let (answer, inventory) := c.inventory.arrayOf element
    (answer, { c with inventory })
  element? c i := c.inventory.element? i
  implicitPackage? c := some c.coreNames.implicitPackage
  nestingBound c := c.inventory.size

end ClassTable

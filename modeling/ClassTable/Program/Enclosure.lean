import ClassTable.Program.Basic

/-!
# Enclosing types

A type stands inside another if it is declared in its body or in its code. Going outwards from a
type ends at a top-level type, whose package is the package of all of them.

A type is always declared after the one it stands in. The walk relies on that to end: it goes on
only to an older type, and otherwise stops without a package.
-/

namespace ClassTable

/-- A type together with those it stands in. -/
structure Enclosure where
  /-- The types, from the innermost outwards. -/
  types : List Declaration
  /-- The package of the outermost, if that is a top-level type. -/
  package : Option String

/-- Adds a type that stands in all the others. -/
def Enclosure.enter (e : Enclosure) (inner : Declaration) : Enclosure :=
  { e with types := inner :: e.types }

namespace Program

/-- The type of that id with all that it stands in. -/
def enclosure (p : Program) (id : TypeId) : Except Fault Enclosure := do
  let d ← p.types.get id
  match d.scope with
  | .package name => return { types := [d], package := some name }
  | scope =>
    match ← p.owningType scope with
    | none => return { types := [d], package := none }
    | some owner =>
      if owner.index < id.index then
        return (← p.enclosure owner).enter d
      else
        return { types := [d], package := none }
termination_by id.index

end Program

end ClassTable

import ClassTable.Program.Lookup
import ClassTable.Program.Site

/-!
# The resolution pass

Types are often named before they are declared, so references are resolved in a pass of their own
once everything is declared. The pass visits every site once. A reference that has its type keeps
it. For any other the element type is looked up, then wrapped in one array type for each
dimension, and the result is recorded if there is one.

Running the pass again after the program or the registry has grown only fills gaps.
-/

namespace ClassTable

/-- What a resolution pass did. -/
structure Tally where
  /-- References that it resolved. -/
  resolved : Nat := 0
  /-- References that were resolved before and left alone. -/
  alreadyResolved : Nat := 0
  /-- References that it found no type for. -/
  unresolved : Nat := 0
  deriving DecidableEq

/-- How far a resolution pass has come. -/
structure Resolution (ρ : Type) where
  /-- The program, with the references resolved so far. -/
  program : Program
  /-- The registry, with the array types interned so far. -/
  registry : ρ
  /-- What was done so far. -/
  tally : Tally := {}

namespace Resolution

variable {ρ : Type} [Registry ρ]

/-- The array type with that many dimensions over an element type, if there is one. -/
def wrap (r : ρ) : Nat → TypeHandle → Option TypeHandle × ρ
  | 0, type => (some type, r)
  | dims + 1, type =>
    match Registry.arrayOf r type with
    | (some i, grown) => wrap grown dims (.canonical i)
    | (none, grown) => (none, grown)

/-- The type that a reference names inside a type. -/
def find (p : Program) (r : ρ) (context : TypeId) (reference : Reference) :
    Except Fault (Option TypeHandle × ρ) := do
  match ← p.lookupName r context reference.elementName with
  | none => return (none, r)
  | some element => return wrap r reference.dimensions element

/-- Resolves an open reference. -/
def resolveOpen (s : Resolution ρ) (context : TypeId) (site : Site) (reference : Reference) :
    Except Fault (Resolution ρ) := do
  match ← find s.program s.registry context reference with
  | (some type, registry) =>
    return {
      program := s.program.modifyReference site fun r => (r.resolve type).2
      registry
      tally := { s.tally with resolved := s.tally.resolved + 1 } }
  | (none, registry) =>
    return { s with
      registry
      tally := { s.tally with unresolved := s.tally.unresolved + 1 } }

/-- Visits one site. -/
def visit (s : Resolution ρ) (place : TypeId × Site) : Except Fault (Resolution ρ) := do
  match ← s.program.reference? place.2 with
  | none => return s
  | some reference =>
    match reference.resolved with
    | some _ =>
      return { s with tally := { s.tally with alreadyResolved := s.tally.alreadyResolved + 1 } }
    | none => s.resolveOpen place.1 place.2 reference

end Resolution

/-- Resolves every open reference of a program. -/
def Program.resolveAll {ρ : Type} [Registry ρ] (p : Program) (r : ρ) :
    Except Fault (Resolution ρ) := do
  let places ← p.referenceSites
  places.foldlM Resolution.visit { program := p, registry := r }

end ClassTable

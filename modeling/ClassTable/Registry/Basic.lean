import ClassTable.Handle
import ClassTable.Kind

/-!
# Registries

A registry answers for the types that are not declared in the program: library types, primitive
types, and the types composed of others, which are specializations of generic types and arrays.

Asking for a composite type may add it to the registry, so those two requests return the registry
as it is afterwards, also when they fail. All other questions leave it as it is.

A registry need not know everything. Whatever concerns composite types, readable signatures or an
implicitly imported package has a default that knows nothing.
-/

namespace ClassTable

/-- Why a generic type cannot be specialized. -/
inductive RegistryError where
  /-- No type of this registry has the index. -/
  | unknownType (index : TypeIndex)
  /-- The generic type takes `expected` type arguments, and `found` were supplied. -/
  | arityMismatch (signature : String) (expected found : Nat)
  deriving DecidableEq

/-- The wording of a registry error. -/
def RegistryError.message : RegistryError → String
  | unknownType index => "unknown type index " ++ index.describe
  | arityMismatch signature expected found =>
    "`" ++ signature ++ "` takes " ++ toString expected ++ " type argument(s), " ++
      toString found ++ " supplied"

/-- What the analyses ask of the types outside the program. -/
class Registry (ρ : Type) where
  /-- The type of that signature. -/
  find? : ρ → String → Option TypeIndex
  /-- What sort of type it is; primitive types are of no kind. -/
  kind? : ρ → TypeIndex → Option Kind
  /-- The base class of every class that names none. -/
  root? : ρ → Option TypeIndex
  /-- The generic base class of every enumeration. -/
  enumBase? : ρ → Option TypeIndex
  /-- The generic type applied to type arguments. Asked again, it gives the same index. -/
  specialize : ρ → TypeIndex → List TypeHandle → Except RegistryError TypeIndex × ρ
  /-- The signature of a type; a composite type shows what it is composed of. -/
  signature? : ρ → TypeIndex → Option String := fun _ _ => none
  /-- The generic type and the arguments of a specialization. -/
  specialization? : ρ → TypeIndex → Option (TypeIndex × List TypeHandle) := fun _ _ => none
  /-- The array type with that element type. Asked again, it gives the same index. -/
  arrayOf : ρ → TypeHandle → Option TypeIndex × ρ := fun r _ => (none, r)
  /-- The element type of an array type. -/
  element? : ρ → TypeIndex → Option TypeHandle := fun _ _ => none
  /-- The package whose types need no qualification. -/
  implicitPackage? : ρ → Option String := fun _ => none
  /-- A bound on how deep composite types nest. -/
  nestingBound : ρ → Nat := fun _ => 0

/-- The names of the types that every program relies on. -/
structure CoreNames where
  /-- The base class of every class that names none. -/
  rootObject : String := "java/lang/Object"
  /-- The base class of every enumeration, generic in one type. -/
  enumBase : String := "java/lang/Enum"
  /-- The package whose types need no qualification. -/
  implicitPackage : String := "java/lang"
  deriving DecidableEq

end ClassTable

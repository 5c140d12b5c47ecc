import ClassTable.Store

/-!
# Scopes

Where a type is declared: at the top level of a package, directly in the body of another type, or
inside executable code. Code belongs to a method, a constructor or an initializer block. Types
declared in code are local or anonymous.
-/

namespace ClassTable

/-- A piece of executable code, named by the member that it is the body of. -/
inductive CodeMember where
  | method (id : MethodId)
  | constructor (id : ConstructorId)
  | initializer (id : InitializerId)
  deriving DecidableEq

/-- What immediately contains a type declaration. -/
inductive Scope where
  /-- The top level of a package; the unnamed package has the empty name. -/
  | package (name : String)
  /-- The body of a type. -/
  | type (id : TypeId)
  /-- Executable code. -/
  | code (block : CodeMember)
  deriving DecidableEq

namespace Scope

/-- Whether types declared here are local. -/
def isCode : Scope → Bool
  | code _ => true
  | _ => false

/-- The package of a type declared here; empty for all but top-level types. -/
def packageName : Scope → String
  | package name => name
  | _ => ""

end Scope

end ClassTable

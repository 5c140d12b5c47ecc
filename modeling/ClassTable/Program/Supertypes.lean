import ClassTable.Program.Rendering

/-!
# Direct supertypes

The direct supertypes of a declared type, in order:

* of an enumeration, the base of enumerations specialized to the enumeration itself, then what it
  implements; what it extends is not looked at;
* of any other type, what it extends, then what it implements; if none of these is a class, the
  root object comes before them.

All references that take part have to be resolved. Nothing is remembered between queries but what
the registry interns, which stays interned if the query fails later on.
-/

namespace ClassTable

/-- A type that every program relies on. -/
inductive CoreRole where
  | rootObject
  | enumBase
  deriving DecidableEq

/-- What the role is called. -/
def CoreRole.describe : CoreRole → String
  | rootObject => "root object"
  | enumBase => "enum base"

/-- Why a query about a declared type has no answer. -/
inductive QueryError where
  /-- The program has no such type. -/
  | fault (cause : Fault)
  /-- A reference that takes part has no type yet. -/
  | unresolvedReference (text : String) (span : Span)
  /-- The registry lacks a type that every program relies on. -/
  | missingCoreType (role : CoreRole)
  /-- The registry refused to specialize the base of enumerations. -/
  | registry (cause : RegistryError)
  deriving DecidableEq

/-- The wording of a query error. -/
def QueryError.message : QueryError → String
  | fault cause => cause.message
  | unresolvedReference text span =>
    "type reference `" ++ text ++ "` at " ++ span.text ++ " is not resolved"
  | missingCoreType role =>
    "registry does not provide the well-known " ++ role.describe ++ " type"
  | registry cause => cause.message

/-- The type of a reference; an open one is an error. -/
def Reference.handle (r : Reference) : Except QueryError TypeHandle :=
  match r.resolved with
  | some type => .ok type
  | none => .error (.unresolvedReference r.text r.span)

namespace Program

variable {ρ : Type} [Registry ρ]

/-- The types of a list of references; the first open one is an error. -/
def handles (references : Array Reference) : Except QueryError (List TypeHandle) :=
  references.toList.mapM Reference.handle

/-- The supertypes of an enumeration. -/
def enumSupertypes (r : ρ) (id : TypeId) (d : Declaration) :
    Except QueryError (List TypeHandle) × ρ :=
  match Registry.enumBase? r with
  | none => (.error (.missingCoreType .enumBase), r)
  | some base =>
    match Registry.specialize r base [.declared id] with
    | (.error cause, grown) => (.error (.registry cause), grown)
    | (.ok i, grown) => ((handles d.implementsList).map (.canonical i :: ·), grown)

/-- The supertypes of a type that is not an enumeration. -/
def ordinarySupertypes (p : Program) (r : ρ) (d : Declaration) :
    Except QueryError (List TypeHandle) := do
  let explicit ← handles (d.extendsList ++ d.implementsList)
  if explicit.any fun type => (p.kindOf r type).any Kind.isClass then
    return explicit
  else
    match Registry.root? r with
    | none => throw (.missingCoreType .rootObject)
    | some root => return .canonical root :: explicit

/-- The direct supertypes of a declared type, with the registry as it is afterwards. -/
def supertypes (p : Program) (r : ρ) (id : TypeId) : Except QueryError (List TypeHandle) × ρ :=
  match p.types.get id with
  | .error cause => (.error (.fault cause), r)
  | .ok d => if d.kind.isEnum then enumSupertypes r id d else (p.ordinarySupertypes r d, r)

end Program

end ClassTable

import ClassTable.Registry.Catalog

/-!
# Restricted catalogs

A catalog that withholds some of its services. A withheld service answers as a registry that
knows nothing: no type, no text, no composite; a specialization is refused because the generic
type is unknown. The two types that every program relies on can be replaced, and a replacement is
given even where the service itself is withheld.

They stand for the registries that an analysis can be given in place of a catalog. At one end is a
registry that implements every service by nothing: all services are withheld. Then there are those
that hand on to a catalog what no registry can do without, and leave the rest to the defaults, so
that they have neither arrays nor texts nor an implicitly imported package (`ofRequired`). At the
other end nothing is withheld, and a restricted catalog is as good as the catalog.
-/

namespace ClassTable

/-- The services of a registry that can be withheld. -/
inductive Service where
  /-- Finding types by signature. -/
  | find
  /-- Telling what sort of type it is. -/
  | kind
  /-- Naming the root object. -/
  | root
  /-- Naming the base of enumerations. -/
  | enumBase
  /-- Specializing generic types. -/
  | specialize
  /-- Writing signatures. -/
  | signature
  /-- Taking specializations apart. -/
  | components
  /-- Making array types. -/
  | array
  /-- Taking array types apart. -/
  | element
  /-- Naming the implicitly imported package. -/
  | implicitPackage
  deriving DecidableEq

/-- A catalog that answers only some questions. -/
structure RestrictedCatalog where
  /-- The catalog that is asked. -/
  catalog : Catalog
  /-- The services that it withholds. -/
  withheld : List Service := []
  /-- Given as the root object whatever the catalog says. -/
  rootReplacement : Option TypeIndex := none
  /-- Given as the base of enumerations whatever the catalog says. -/
  enumReplacement : Option TypeIndex := none

namespace RestrictedCatalog

/-- The catalog with those services that no registry can do without. -/
def ofRequired (catalog : Catalog) : RestrictedCatalog :=
  { catalog, withheld := [.signature, .components, .array, .element, .implicitPackage] }

/-- Whether a service is offered. -/
def offers (r : RestrictedCatalog) (s : Service) : Bool := !r.withheld.contains s

/-- The catalog's answer, if the service is offered. -/
def ask {α : Type} (r : RestrictedCatalog) (s : Service) (answer : Catalog → Option α) :
    Option α :=
  if r.offers s then answer r.catalog else none

/-- Registers a named type. This is not one of the services. -/
def register (r : RestrictedCatalog) (signature : String) (kind : Kind) (arity : Nat) :
    TypeIndex × RestrictedCatalog :=
  let (i, catalog) := r.catalog.register signature kind arity
  (i, { r with catalog })

/-- The type that stands for the root object. -/
def root? (r : RestrictedCatalog) : Option TypeIndex :=
  match r.rootReplacement with
  | some i => some i
  | none => r.ask .root Registry.root?

/-- The type that stands for the base of enumerations. -/
def enumBase? (r : RestrictedCatalog) : Option TypeIndex :=
  match r.enumReplacement with
  | some i => some i
  | none => r.ask .enumBase Registry.enumBase?

/-- The index of a specialization; where the service is withheld no generic type is known. -/
def specialize (r : RestrictedCatalog) (generic : TypeIndex) (arguments : List TypeHandle) :
    Except RegistryError TypeIndex × RestrictedCatalog :=
  if r.offers .specialize then
    let (answer, catalog) := Registry.specialize r.catalog generic arguments
    (answer, { r with catalog })
  else
    (.error (.unknownType generic), r)

/-- The index of an array type; where the service is withheld there are no arrays. -/
def arrayOf (r : RestrictedCatalog) (element : TypeHandle) :
    Option TypeIndex × RestrictedCatalog :=
  if r.offers .array then
    let (answer, catalog) := Registry.arrayOf r.catalog element
    (answer, { r with catalog })
  else
    (none, r)

end RestrictedCatalog

instance : Registry RestrictedCatalog where
  find? r signature := r.ask .find (Registry.find? · signature)
  kind? r i := r.ask .kind (Registry.kind? · i)
  root? := RestrictedCatalog.root?
  enumBase? := RestrictedCatalog.enumBase?
  specialize := RestrictedCatalog.specialize
  signature? r i := r.ask .signature (Registry.signature? · i)
  specialization? r i := r.ask .components (Registry.specialization? · i)
  arrayOf := RestrictedCatalog.arrayOf
  element? r i := r.ask .element (Registry.element? · i)
  implicitPackage? r := r.ask .implicitPackage Registry.implicitPackage?
  nestingBound r := r.catalog.size

end ClassTable

import ClassTable.Modifier
import ClassTable.Reference

/-!
# Members

Fields, methods, constructors and initializer blocks. Each belongs to one declared type, keeps its
modifiers and its documentation as written, and names the types it mentions by references.

The body of a member is the run of its tokens. A member without a body is not implemented here,
as an abstract method is; an empty body is an implementation.
-/

namespace ClassTable

/-- A formal parameter of a method or a constructor. -/
structure Parameter where
  /-- The modifier words. -/
  modifiers : Modifiers := {}
  /-- The declared type. -/
  type : Reference
  /-- Whether it takes any number of trailing arguments. -/
  varargs : Bool := false
  /-- The name, where one is written. -/
  nameToken : Option Token := none
  deriving DecidableEq

/-- The name of a parameter; empty if none is written. -/
def Parameter.name (p : Parameter) : String := Token.nameText p.nameToken

/-- A field. -/
structure Field where
  /-- The type it belongs to. -/
  owner : TypeId
  /-- The modifier words. -/
  modifiers : Modifiers := {}
  /-- The documentation comment. -/
  docs : String := ""
  /-- The declared type. -/
  type : Reference
  /-- The name, where one is written. -/
  nameToken : Option Token := none

/-- The name of a field; empty if none is written. -/
def Field.name (f : Field) : String := Token.nameText f.nameToken

/-- A method. -/
structure Method where
  /-- The type it belongs to. -/
  owner : TypeId
  /-- The modifier words. -/
  modifiers : Modifiers := {}
  /-- The documentation comment. -/
  docs : String := ""
  /-- The annotations, in the order written. -/
  annotations : Array AnnotationUse := #[]
  /-- The declared return type. -/
  returnType : Reference
  /-- The name, where one is written. -/
  nameToken : Option Token := none
  /-- The parameters, in order. -/
  parameters : Array Parameter := #[]
  /-- The declared exceptions, in order. -/
  throws : Array Reference := #[]
  /-- The body, if there is one. -/
  body : Option (List Token) := none

/-- The name of a method; empty if none is written. -/
def Method.name (m : Method) : String := Token.nameText m.nameToken

/-- A constructor. -/
structure Constructor where
  /-- The type it belongs to, and makes values of. -/
  owner : TypeId
  /-- The modifier words. -/
  modifiers : Modifiers := {}
  /-- The documentation comment. -/
  docs : String := ""
  /-- The parameters, in order. -/
  parameters : Array Parameter := #[]
  /-- The declared exceptions, in order. -/
  throws : Array Reference := #[]
  /-- The body, if there is one. -/
  body : Option (List Token) := none

/-- An initializer block. -/
structure Initializer where
  /-- The type it belongs to. -/
  owner : TypeId
  /-- The modifier words. -/
  modifiers : Modifiers := {}
  /-- The documentation comment. -/
  docs : String := ""
  /-- The body, if there is one. -/
  body : Option (List Token) := none

/-- The name under which constructors and instance initializers are listed. -/
def instanceInitName : String := "<init>"

/-- The name under which static initializers are listed. -/
def staticInitName : String := "<clinit>"

/-- Constructors have a fixed name. -/
def Constructor.name (_ : Constructor) : String := instanceInitName

/-- Whether the block runs once for its type rather than for each value. -/
def Initializer.isStatic (b : Initializer) : Bool := b.modifiers.isStatic

/-- Static blocks and instance blocks are listed under different names. -/
def Initializer.name (b : Initializer) : String :=
  if b.isStatic then staticInitName else instanceInitName

/-- A member that can be run. -/
class Callable (α : Type) where
  /-- The type it belongs to. -/
  owner : α → TypeId
  /-- The parameters, in order. -/
  parameters : α → Array Parameter
  /-- The type of its result, once known. -/
  returnType : α → Option TypeHandle
  /-- The declared exceptions, in order. -/
  throws : α → Array Reference
  /-- The body, if there is one. -/
  body : α → Option (List Token)

/-- Whether a body was written, even an empty one. -/
def Callable.isImplemented {α : Type} [Callable α] (m : α) : Bool := (body m).isSome

/-- Number of parameters. -/
def Callable.parameterCount {α : Type} [Callable α] (m : α) : Nat := (parameters m).size

instance : Callable Method where
  owner m := m.owner
  parameters m := m.parameters
  returnType m := m.returnType.resolved
  throws m := m.throws
  body m := m.body

/-- A constructor returns the type that it belongs to. -/
instance : Callable Constructor where
  owner c := c.owner
  parameters c := c.parameters
  returnType c := some (.declared c.owner)
  throws c := c.throws
  body c := c.body

/-- An initializer block takes nothing and returns nothing. -/
instance : Callable Initializer where
  owner b := b.owner
  parameters _ := #[]
  returnType _ := some .void
  throws _ := #[]
  body b := b.body

end ClassTable

import ClassTable.Kind
import ClassTable.Modifier
import ClassTable.Reference
import ClassTable.Scope

/-!
# Declared types

A declaration has what its head says (`Head`), the signature it was given when it was declared,
and what was attached to it since then: references to the types it extends and implements, and
the ids of its members, each in the order in which they were attached.
-/

namespace ClassTable

/-- The head of a type declaration, as read from source. -/
structure Head where
  /-- The keyword that introduces the declaration. -/
  kindToken : Token
  /-- The name; an anonymous type has none. -/
  nameToken : Option Token := none
  /-- The modifier tokens. -/
  modifiers : List Token := []
  /-- The documentation comment. -/
  docs : String := ""

/-- The simple name; empty for an anonymous type. -/
def Head.name (h : Head) : String := Token.nameText h.nameToken

/-- A type declared in the program. -/
structure Declaration where
  /-- The program-wide name. -/
  signature : String
  /-- What sort of type it is. -/
  kind : Kind
  /-- The modifier words. -/
  modifiers : Modifiers
  /-- The documentation comment. -/
  docs : String
  /-- What contains the declaration. -/
  scope : Scope
  /-- Where the keyword stands. -/
  kindSpan : Span
  /-- The name, where one is written. -/
  nameToken : Option Token
  /-- Number of types declared so far in code of this type. -/
  localTypes : UInt32 := 0
  /-- The types it extends. -/
  extendsList : Array Reference := #[]
  /-- The types it implements. -/
  implementsList : Array Reference := #[]
  /-- Its constructors. -/
  constructors : Array ConstructorId := #[]
  /-- Its methods. -/
  methods : Array MethodId := #[]
  /-- Its fields. -/
  fields : Array FieldId := #[]
  /-- Its initializer blocks. -/
  initializers : Array InitializerId := #[]

namespace Declaration

/-- A new declaration, with nothing attached to it. -/
def ofHead (signature : String) (scope : Scope) (head : Head) : Declaration where
  signature := signature
  kind := Kind.ofKeyword head.kindToken.value
  modifiers := Modifiers.ofTokens head.modifiers
  docs := head.docs
  scope := scope
  kindSpan := head.kindToken.span
  nameToken := head.nameToken

/-- The simple name; empty for an anonymous type. -/
def name (d : Declaration) : String := Token.nameText d.nameToken

/-- The package of a top-level type; empty for all others. -/
def package (d : Declaration) : String := d.scope.packageName

end Declaration

end ClassTable

import ClassTable.Store

/-!
# Type handles

A type is either declared in the program under analysis or known from outside it. A declared type
is named by its id; a type from outside, called canonical, by its index in a registry. A
`TypeHandle` is either of the two.

The first nine indices are the primitive types. The next seven are reserved, and the types that a
registry learns are numbered from sixteen.
-/

namespace ClassTable

/-- The primitive types, in the order of their indices. -/
inductive Primitive where
  | void
  | boolean
  | byte
  | char
  | short
  | int
  | long
  | float
  | double
  deriving DecidableEq

/-- The index of a canonical type. -/
@[ext]
structure TypeIndex where
  /-- The number. -/
  raw : Nat
  deriving DecidableEq

namespace Primitive

/-- All primitive types, in the order of their indices. -/
def all : List Primitive := [void, boolean, byte, char, short, int, long, float, double]

/-- The source keyword. -/
def keyword : Primitive → String
  | void => "void"
  | boolean => "boolean"
  | byte => "byte"
  | char => "char"
  | short => "short"
  | int => "int"
  | long => "long"
  | float => "float"
  | double => "double"

/-- The fixed index of a primitive type. -/
def index : Primitive → TypeIndex
  | void => ⟨0⟩
  | boolean => ⟨1⟩
  | byte => ⟨2⟩
  | char => ⟨3⟩
  | short => ⟨4⟩
  | int => ⟨5⟩
  | long => ⟨6⟩
  | float => ⟨7⟩
  | double => ⟨8⟩

/-- The primitive type a keyword stands for. -/
def ofKeyword? (word : String) : Option Primitive := all.find? fun p => p.keyword == word

/-- The primitive type at an index. -/
def ofIndex? (i : TypeIndex) : Option Primitive := all[i.raw]?

theorem ofKeyword?_keyword (p : Primitive) : ofKeyword? p.keyword = some p := by
  cases p <;> decide

theorem ofIndex?_index (p : Primitive) : ofIndex? p.index = some p := by
  cases p <;> rfl

theorem keyword_of_ofKeyword? {word : String} {p : Primitive} (h : ofKeyword? word = some p) :
    p.keyword = word := by
  simpa using List.find?_some h

end Primitive

namespace TypeIndex

/-- The first index that a registry gives out. -/
def firstRegistered : Nat := 16

/-- Whether the index is that of a primitive type. -/
def isPrimitive (i : TypeIndex) : Bool := i.raw < Primitive.all.length

/-- The keyword of the primitive type at this index. -/
def primitiveName? (i : TypeIndex) : Option String := (Primitive.ofIndex? i).map Primitive.keyword

/-- Written form in diagnostics: the keyword of a primitive type, else the number. -/
def describe (i : TypeIndex) : String :=
  "Idx(" ++ (i.primitiveName?.getD (toString i.raw)) ++ ")"

theorem isPrimitive_index (p : Primitive) : p.index.isPrimitive = true := by
  cases p <;> rfl

end TypeIndex

/-- A type, declared in the program or canonical. -/
inductive TypeHandle where
  /-- A type that a registry knows. -/
  | canonical (index : TypeIndex)
  /-- A type declared in the program. -/
  | declared (id : TypeId)
  deriving DecidableEq

/-- The handle of the type `void`. -/
def TypeHandle.void : TypeHandle := .canonical Primitive.void.index

end ClassTable

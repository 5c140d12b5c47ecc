/-!
# Kinds of declared types

Four keywords introduce a type declaration. A declaration with any other keyword is not refused:
it counts as a class (`Kind.ofKeyword`), so that later analyses still find it.
-/

namespace ClassTable

/-- What sort of type a declaration introduces. -/
inductive Kind where
  | classType
  | interfaceType
  | enumType
  /-- An annotation type. -/
  | annotationType
  deriving DecidableEq

namespace Kind

/-- The kinds, in the order in which their keywords are tried. -/
def all : List Kind := [classType, interfaceType, enumType, annotationType]

/-- The keyword that introduces a declaration of this kind. -/
def keyword : Kind → String
  | classType => "class"
  | interfaceType => "interface"
  | enumType => "enum"
  | annotationType => "@interface"

/-- The kind a keyword introduces, if it is one of the four. -/
def ofKeyword? (word : String) : Option Kind := all.find? fun k => k.keyword == word

/-- The kind of a declaration that starts with this word; an unknown word starts a class. -/
def ofKeyword (word : String) : Kind := (ofKeyword? word).getD classType

/-- Whether this is the kind of classes. -/
def isClass (k : Kind) : Bool := k == classType

/-- Whether this is the kind of enumerations. -/
def isEnum (k : Kind) : Bool := k == enumType

theorem ofKeyword?_keyword (k : Kind) : ofKeyword? k.keyword = some k := by
  cases k <;> decide

end Kind

instance : Inhabited Kind := ⟨Kind.classType⟩

end ClassTable

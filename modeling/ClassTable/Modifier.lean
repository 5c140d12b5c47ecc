import ClassTable.Token

/-!
# Modifiers

A declaration keeps its modifier words exactly as they were written, repetitions and unknown
words included (`Modifiers`). Twelve words are recognised (`Modifier`), and a list of words has a
view as a set of recognised modifiers, one bit of a sixteen-bit word for each (`ModifierSet`).

The two views answer the same question in two ways: a recognised modifier is in the set exactly
if its keyword is in the list.
-/

namespace ClassTable

/-- A recognised modifier keyword. -/
inductive Modifier where
  | publicAccess
  | protectedAccess
  | privateAccess
  | static
  | final
  | abstract
  | native
  | synchronized
  | transient
  | volatile
  | strictfp
  | default
  deriving DecidableEq

namespace Modifier

/-- All recognised modifiers, in the order of their bits. -/
def all : List Modifier :=
  [publicAccess, protectedAccess, privateAccess, static, final, abstract, native, synchronized,
   transient, volatile, strictfp, default]

/-- The source keyword. -/
def keyword : Modifier → String
  | publicAccess => "public"
  | protectedAccess => "protected"
  | privateAccess => "private"
  | static => "static"
  | final => "final"
  | abstract => "abstract"
  | native => "native"
  | synchronized => "synchronized"
  | transient => "transient"
  | volatile => "volatile"
  | strictfp => "strictfp"
  | default => "default"

/-- The name of the flag: the keyword in capitals. -/
def flagName (m : Modifier) : String := m.keyword.toUpper

/-- The modifier's bit, counted from the least significant. -/
def position : Modifier → UInt16
  | publicAccess => 0
  | protectedAccess => 1
  | privateAccess => 2
  | static => 3
  | final => 4
  | abstract => 5
  | native => 6
  | synchronized => 7
  | transient => 8
  | volatile => 9
  | strictfp => 10
  | default => 11

/-- The word with only this modifier's bit set. -/
def bit (m : Modifier) : UInt16 := 1 <<< m.position

/-- The modifier a keyword stands for, if it is recognised. -/
def ofKeyword? (word : String) : Option Modifier := all.find? fun m => m.keyword == word

theorem ofKeyword?_keyword (m : Modifier) : ofKeyword? m.keyword = some m := by
  cases m <;> decide

end Modifier

/-- A set of recognised modifiers, one bit for each. -/
structure ModifierSet where
  /-- The bits of the members. -/
  bits : UInt16
  deriving DecidableEq

namespace ModifierSet

/-- No modifier at all. -/
def empty : ModifierSet := ⟨0⟩

/-- Adds a modifier; adding it again changes nothing. -/
def insert (s : ModifierSet) (m : Modifier) : ModifierSet := ⟨s.bits ||| m.bit⟩

/-- The members of either set. -/
def union (s t : ModifierSet) : ModifierSet := ⟨s.bits ||| t.bits⟩

/-- Whether the modifier's bit is set. -/
def contains (s : ModifierSet) (m : Modifier) : Bool := s.bits &&& m.bit != 0

/-- The members, in the order of their bits. -/
def toList (s : ModifierSet) : List Modifier := Modifier.all.filter s.contains

end ModifierSet

/-- The modifier words of a declaration, as written and in order. -/
structure Modifiers where
  /-- The words, verbatim. -/
  words : List String := []
  deriving DecidableEq

namespace Modifiers

/-- The texts of modifier tokens, in order. -/
def ofTokens (tokens : List Token) : Modifiers := ⟨tokens.map Token.value⟩

/-- Whether the word was written. -/
def contains (m : Modifiers) (word : String) : Bool := m.words.contains word

/-- The recognised words as a set. -/
def flags (m : Modifiers) : ModifierSet :=
  (m.words.filterMap Modifier.ofKeyword?).foldl ModifierSet.insert .empty

/-- Whether the declaration is marked `static`. -/
def isStatic (m : Modifiers) : Bool := m.contains Modifier.static.keyword

/-- Whether the declaration is marked `abstract`. -/
def isAbstract (m : Modifiers) : Bool := m.contains Modifier.abstract.keyword

/-- Number of words, repetitions counted. -/
def size (m : Modifiers) : Nat := m.words.length

/-- Whether no word was written. -/
def isEmpty (m : Modifiers) : Bool := m.words.isEmpty

end Modifiers

end ClassTable

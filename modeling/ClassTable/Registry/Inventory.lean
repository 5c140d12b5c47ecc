import ClassTable.Registry.Basic
import ClassTable.Registry.Key

/-!
# Interned types

An inventory numbers registry types in the order in which they are first asked for, from sixteen
upwards. The number depends on the key alone: asking for a key that is already there gives its
number and changes nothing, and a new key gets the next number.

The text of a composite type is put together once, when the type gets its number, from the texts
of its components as they are then. A component declared in the program shows as its bare id,
since an inventory knows nothing of programs.

An inventory counts on without a limit, though there are numbers for only so many types. What comes
of an operation that needs one more is told from the inventory that it leaves (`settle`).
-/

namespace ClassTable

/-- A type of an inventory. -/
structure Entry where
  /-- What the type is. -/
  key : TypeKey
  /-- Its signature. -/
  signature : String
  /-- What sort of type it is. -/
  kind : Kind
  /-- Number of type parameters. -/
  arity : Nat

/-- The types of a registry, numbered in the order of their arrival. -/
structure Inventory where
  /-- The types, in that order. -/
  entries : Array Entry := #[]
  /-- The number of each key. -/
  index : Std.TreeMap TypeKey TypeIndex := ∅

namespace Inventory

/-- Number of types. -/
def size (inv : Inventory) : Nat := inv.entries.size

/-- The number that the next new type gets. -/
def next (inv : Inventory) : TypeIndex := ⟨TypeIndex.firstRegistered + inv.size⟩

/-- The type with that number. Primitive types are not part of an inventory. -/
def get? (inv : Inventory) (i : TypeIndex) : Option Entry :=
  if i.raw < TypeIndex.firstRegistered then none
  else inv.entries[i.raw - TypeIndex.firstRegistered]?

/-- The number of a key. -/
def findKey? (inv : Inventory) (key : TypeKey) : Option TypeIndex := inv.index[key]?

/-- Adds a type, under the next number. -/
def push (inv : Inventory) (e : Entry) : TypeIndex × Inventory :=
  (inv.next, { entries := inv.entries.push e, index := inv.index.insert e.key inv.next })

/-- The number of the type's key, as a new type if there is none yet. -/
def intern (inv : Inventory) (e : Entry) : TypeIndex × Inventory :=
  match inv.findKey? e.key with
  | some i => (i, inv)
  | none => inv.push e

/-- The text of a component of a composite type. -/
def label (inv : Inventory) : TypeHandle → String
  | .canonical i =>
    match i.primitiveName? with
    | some name => name
    | none => ((inv.get? i).map Entry.signature).getD i.describe
  | .declared id => "decl#" ++ toString id.index

/-- The number of a named type. Only its first registration decides on kind and arity. -/
def register (inv : Inventory) (signature : String) (kind : Kind) (arity : Nat) :
    TypeIndex × Inventory :=
  inv.intern { key := .named signature, signature, kind, arity }

/-- A specialization of the generic type `base`, which has the number `generic`. It is of the same
kind and takes no further arguments. -/
def specialization (inv : Inventory) (generic : TypeIndex) (base : Entry)
    (arguments : List TypeHandle) : Entry where
  key := .specialized generic arguments
  signature := base.signature ++ "<" ++ ",".intercalate (arguments.map inv.label) ++ ">"
  kind := base.kind
  arity := 0

/-- An array type. Arrays are classes. -/
def arrayEntry (inv : Inventory) (element : TypeHandle) : Entry where
  key := .array element
  signature := inv.label element ++ "[]"
  kind := .classType
  arity := 0

/-- The number of a specialization. A specialization that is already there needs no check; a new
one needs a known generic type that takes as many arguments as there are. -/
def specialize (inv : Inventory) (generic : TypeIndex) (arguments : List TypeHandle) :
    Except RegistryError TypeIndex × Inventory :=
  match inv.findKey? (.specialized generic arguments) with
  | some i => (.ok i, inv)
  | none =>
    match inv.get? generic with
    | none => (.error (.unknownType generic), inv)
    | some base =>
      if base.arity = arguments.length then
        let (i, grown) := inv.push (inv.specialization generic base arguments)
        (.ok i, grown)
      else
        (.error (.arityMismatch base.signature base.arity arguments.length), inv)

/-- The number of an array type. There are no arrays of `void`. -/
def arrayOf (inv : Inventory) (element : TypeHandle) : Option TypeIndex × Inventory :=
  if element = .void then (none, inv)
  else
    let (i, grown) := inv.intern (inv.arrayEntry element)
    (some i, grown)

/-- The type of that signature: a primitive keyword first, else a type registered by name. -/
def find? (inv : Inventory) (signature : String) : Option TypeIndex :=
  match Primitive.ofKeyword? signature with
  | some p => some p.index
  | none => inv.findKey? (.named signature)

/-- What sort of type it is. -/
def kind? (inv : Inventory) (i : TypeIndex) : Option Kind := (inv.get? i).map Entry.kind

/-- The signature of a type, primitive types included. -/
def signature? (inv : Inventory) (i : TypeIndex) : Option String :=
  match i.primitiveName? with
  | some name => some name
  | none => (inv.get? i).map Entry.signature

/-- The generic type and the arguments of a specialization. -/
def specialization? (inv : Inventory) (i : TypeIndex) : Option (TypeIndex × List TypeHandle) :=
  match (inv.get? i).map Entry.key with
  | some (.specialized generic arguments) => some (generic, arguments)
  | _ => none

/-- The element type of an array type. -/
def element? (inv : Inventory) (i : TypeIndex) : Option TypeHandle :=
  match (inv.get? i).map Entry.key with
  | some (.array element) => some element
  | _ => none

/-! ## What growth does -/

@[simp] theorem size_push (inv : Inventory) (e : Entry) : (inv.push e).2.size = inv.size + 1 := by
  simp [push, size]

@[simp] theorem findKey?_push_self (inv : Inventory) (e : Entry) :
    (inv.push e).2.findKey? e.key = some inv.next := by
  simp [push, findKey?]

theorem findKey?_push_of_ne (inv : Inventory) {e : Entry} {key : TypeKey} (h : e.key ≠ key) :
    (inv.push e).2.findKey? key = inv.findKey? key := by
  simp [push, findKey?, Std.TreeMap.getElem?_insert, h]

@[simp] theorem get?_push_next (inv : Inventory) (e : Entry) :
    (inv.push e).2.get? inv.next = some e := by
  simp [push, get?, next, size]

/-- A type keeps its number and everything known about it. -/
theorem get?_push_of_get? {inv : Inventory} {e known : Entry} {i : TypeIndex}
    (h : inv.get? i = some known) : (inv.push e).2.get? i = some known := by
  unfold get? at h ⊢
  split
  · simp_all
  · next hi =>
    rw [if_neg hi] at h
    simp only [push]
    rw [Array.getElem?_push]
    obtain ⟨hlt, _⟩ := Array.getElem?_eq_some_iff.1 h
    rw [if_neg (by omega)]
    exact h

end Inventory

end ClassTable

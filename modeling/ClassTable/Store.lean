/-!
# Numbered storage

Everything a program declares is kept in a `Store`: an append-only table whose elements are named
by their position. Each sort of element has ids of its own (`EntityId e`), so the id of a method can
never name a field.

Ids are handed out densely. A table that already holds `n` elements names the next one `n`, and
refuses it when `n` is not a thirty-two bit number. Reading at an id that the table never handed
out is a `Fault` that reports both numbers.
-/

namespace ClassTable

/-- The sorts of elements that have ids. -/
inductive Entity where
  | type
  | field
  | method
  | constructor
  | initializer
  deriving DecidableEq

/-- The name of an element of one sort: its position in the order of declaration. -/
@[ext]
structure EntityId (e : Entity) where
  /-- Position in the table, from zero. -/
  index : Nat
  deriving DecidableEq

/-- The name of a declared type. -/
abbrev TypeId := EntityId .type

/-- The name of a field. -/
abbrev FieldId := EntityId .field

/-- The name of a method. -/
abbrev MethodId := EntityId .method

/-- The name of a constructor. -/
abbrev ConstructorId := EntityId .constructor

/-- The name of an initializer block. -/
abbrev InitializerId := EntityId .initializer

/-- A misuse of numbered storage. -/
inductive Fault where
  /-- The table holds `size` elements and none of them is named `index`. -/
  | unknownId (size index : Nat)
  /-- The table holds `size` elements, and the next one has no thirty-two bit name. -/
  | indexOverflow (size : Nat)
  deriving DecidableEq

/-- The wording of a fault. -/
def Fault.message : Fault → String
  | unknownId size index =>
    "index out of bounds: the len is " ++ toString size ++ " but the index is " ++ toString index
  | indexOverflow size =>
    "index overflow: " ++ toString size ++ " elements exceed u32::MAX"

/-- The largest position that has a name. -/
def maxIndex : Nat := 4294967295

/-- The position of the next element of a table that holds `size` elements. -/
def freshIndex (size : Nat) : Except Fault Nat :=
  if size ≤ maxIndex then .ok size else .error (.indexOverflow size)

/-- An append-only table of elements named by position. -/
structure Store (e : Entity) (α : Type) where
  /-- The elements, in the order in which they were added. -/
  items : Array α := #[]

namespace Store

variable {e : Entity} {α : Type}

/-- Number of elements. -/
def size (s : Store e α) : Nat := s.items.size

/-- The element of that name, if there is one. -/
def get? (s : Store e α) (id : EntityId e) : Option α := s.items[id.index]?

/-- The element of that name; an unknown name is a fault. -/
def get (s : Store e α) (id : EntityId e) : Except Fault α :=
  match s.get? id with
  | some x => .ok x
  | none => .error (.unknownId s.size id.index)

/-- Adds an element at the end and names it. -/
def add (s : Store e α) (x : α) : Except Fault (EntityId e × Store e α) :=
  (freshIndex s.size).map fun i => (⟨i⟩, ⟨s.items.push x⟩)

/-- Changes the element of that name; an unknown name changes nothing. -/
def modify (s : Store e α) (id : EntityId e) (f : α → α) : Store e α := ⟨s.items.modify id.index f⟩

/-- Changes the element of that name; an unknown name is a fault. -/
def update (s : Store e α) (id : EntityId e) (f : α → α) : Except Fault (Store e α) :=
  (s.get id).map fun _ => s.modify id f

/-- The names in use, in order. -/
def ids (s : Store e α) : List (EntityId e) := (List.range s.size).map EntityId.mk

/-- The elements with their names, in order. -/
def entries (s : Store e α) : List (EntityId e × α) :=
  s.items.toList.zipIdx.map fun x => (⟨x.2⟩, x.1)

/-! ## What each operation does to the elements -/

@[simp] theorem get?_empty (id : EntityId e) : get? (⟨#[]⟩ : Store e α) id = none := by
  simp [get?]

theorem get?_eq_none_iff {s : Store e α} {id : EntityId e} :
    s.get? id = none ↔ s.size ≤ id.index := by
  simp [get?, size]

theorem get_eq_ok_iff {s : Store e α} {id : EntityId e} {x : α} :
    s.get id = .ok x ↔ s.get? id = some x := by
  unfold get
  cases s.get? id <;> simp

@[simp] theorem size_modify (s : Store e α) (id : EntityId e) (f : α → α) :
    (s.modify id f).size = s.size := by
  simp [modify, size]

theorem get?_modify (s : Store e α) (id other : EntityId e) (f : α → α) :
    (s.modify id f).get? other = if id = other then (s.get? other).map f else s.get? other := by
  cases id
  cases other
  simp [modify, get?, Array.getElem?_modify]

/-- A change succeeds exactly on a name in use. -/
theorem update_eq_ok_iff {s t : Store e α} {id : EntityId e} {f : α → α} :
    s.update id f = .ok t ↔ id.index < s.size ∧ t = s.modify id f := by
  unfold update get
  cases h : s.get? id with
  | none =>
    have := get?_eq_none_iff.1 h
    simp [Except.map, Nat.not_lt.2 this]
  | some x =>
    have : ¬ s.size ≤ id.index := fun hle => by simp [get?_eq_none_iff.2 hle] at h
    simp [Except.map, Nat.lt_of_not_le this, eq_comm]

/-- A new element is named by the size the table had, which is the name of a position. -/
theorem add_eq_ok {s t : Store e α} {x : α} {id : EntityId e} (h : s.add x = .ok (id, t)) :
    s.size ≤ maxIndex ∧ id = ⟨s.size⟩ ∧ t = ⟨s.items.push x⟩ := by
  unfold add freshIndex at h
  split at h <;> simp_all [Except.map]

end Store

end ClassTable

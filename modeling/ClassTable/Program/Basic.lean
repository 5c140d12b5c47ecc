import ClassTable.Declaration
import ClassTable.Member
import ClassTable.Name.Signature
import Std.Data.TreeMap.Lemmas

/-!
# Programs

A program is everything declared so far: types and their members, each sort in a store of its own,
and an index of the types by signature. It grows by declaring types (`declare`) and by attaching
references and members to them, and nothing is ever taken away.

The signature of a type is fixed when it is declared. A type declared in code also counts on the
type that the code belongs to, so each local or anonymous type is declared once, in source order.
Two types may end up with the same signature; the index then keeps the first.

An operation that is given an id which the program never handed out is a fault and leaves no
trace.
-/

namespace ClassTable

/-- The types and members declared so far. -/
structure Program where
  /-- The declared types. -/
  types : Store .type Declaration := {}
  /-- The fields of all types. -/
  fields : Store .field Field := {}
  /-- The methods of all types. -/
  methods : Store .method Method := {}
  /-- The constructors of all types. -/
  constructors : Store .constructor Constructor := {}
  /-- The initializer blocks of all types. -/
  initializers : Store .initializer Initializer := {}
  /-- The first type of each signature. -/
  bySignature : Std.TreeMap String TypeId := ∅

namespace Program

/-- The program that declares nothing. -/
def empty : Program := {}

instance : EmptyCollection Program := ⟨empty⟩

/-- Number of declared types. -/
def size (p : Program) : Nat := p.types.size

/-- Whether no type is declared. -/
def isEmpty (p : Program) : Bool := p.types.items.isEmpty

/-- The declared type of that signature, the first if there are several. -/
def lookup (p : Program) (signature : String) : Option TypeId := p.bySignature[signature]?

/-! ## Owners -/

/-- The type that a piece of code belongs to. -/
def codeOwner (p : Program) : CodeMember → Except Fault TypeId
  | .method id => (p.methods.get id).map Method.owner
  | .constructor id => (p.constructors.get id).map Constructor.owner
  | .initializer id => (p.initializers.get id).map Initializer.owner

/-- The type that a scope belongs to; a package belongs to none. A type named by the scope itself
is not looked at. -/
def owningType (p : Program) : Scope → Except Fault (Option TypeId)
  | .package _ => .ok none
  | .type id => .ok (some id)
  | .code block => (p.codeOwner block).map some

/-! ## Declaring types -/

/-- The signature that a new type of that name gets in a scope. -/
def newSignature (p : Program) (scope : Scope) (name : String) : Except Fault String :=
  match scope with
  | .package package => .ok (Signature.inPackage package name)
  | .type outer => (p.types.get outer).map fun d => Signature.inType d.signature name
  | .code block => do
    let owner ← p.codeOwner block
    let d ← p.types.get owner
    return Signature.inCode d.signature (d.localTypes + 1) name

/-- Counts a new type of that scope on the type that its code belongs to, if it is in code. -/
def countLocalType (p : Program) (scope : Scope) : Except Fault Program :=
  match scope with
  | .code block => do
    let owner ← p.codeOwner block
    let types ← p.types.update owner fun d => { d with localTypes := d.localTypes + 1 }
    return { p with types }
  | _ => .ok p

/-- Declares a type and gives it its signature. -/
def declare (p : Program) (scope : Scope) (head : Head) : Except Fault (TypeId × Program) := do
  let signature ← p.newSignature scope head.name
  let counted ← p.countLocalType scope
  let (id, types) ← counted.types.add (.ofHead signature scope head)
  return (id, { counted with types, bySignature := p.bySignature.insertIfNew signature id })

/-- What a successful declaration leaves behind: the new type comes last, and the index gets its
signature unless it had it before. -/
theorem declare_eq_ok {p q : Program} {scope : Scope} {head : Head} {id : TypeId}
    (h : p.declare scope head = .ok (id, q)) :
    ∃ signature counted, p.newSignature scope head.name = .ok signature ∧
      p.countLocalType scope = .ok counted ∧ counted.types.size ≤ maxIndex ∧
      id = ⟨counted.types.size⟩ ∧
      q = { counted with
        types := ⟨counted.types.items.push (.ofHead signature scope head)⟩
        bySignature := p.bySignature.insertIfNew signature id } := by
  unfold declare at h
  cases hs : p.newSignature scope head.name with
  | error fault => simp [hs, bind, Except.bind] at h
  | ok signature =>
    cases hc : p.countLocalType scope with
    | error fault => simp [hs, hc, bind, Except.bind] at h
    | ok counted =>
      cases ha : counted.types.add (.ofHead signature scope head) with
      | error fault => simp [hs, hc, ha, bind, Except.bind] at h
      | ok added =>
        obtain ⟨hroom, hid, htypes⟩ := Store.add_eq_ok ha
        simp only [hs, hc, ha, bind, Except.bind, pure, Except.pure, Except.ok.injEq,
          Prod.mk.injEq] at h
        obtain ⟨rfl, rfl⟩ := h
        exact ⟨signature, counted, rfl, rfl, hroom, hid, by rw [← htypes]⟩

/-! ## Attaching references and members -/

/-- What sets a sort of members apart: the table that the program keeps them in, and the list in
which their owner names them. -/
structure MemberSort (e : Entity) (α : Type) where
  /-- The members of a program. -/
  table : Program → Store e α
  /-- The program with other members. -/
  setTable : Store e α → Program → Program
  /-- The type that a member belongs to. -/
  owner : α → TypeId
  /-- The declaration with one more member. -/
  list : EntityId e → Declaration → Declaration

/-- Fields. -/
def MemberSort.field : MemberSort .field Field where
  table := fields
  setTable fields p := { p with fields }
  owner := Field.owner
  list id d := { d with fields := d.fields.push id }

/-- Methods. -/
def MemberSort.method : MemberSort .method Method where
  table := methods
  setTable methods p := { p with methods }
  owner := Method.owner
  list id d := { d with methods := d.methods.push id }

/-- Constructors. -/
def MemberSort.constructor : MemberSort .constructor Constructor where
  table := constructors
  setTable constructors p := { p with constructors }
  owner := Constructor.owner
  list id d := { d with constructors := d.constructors.push id }

/-- Initializer blocks. -/
def MemberSort.initializer : MemberSort .initializer Initializer where
  table := initializers
  setTable initializers p := { p with initializers }
  owner := Initializer.owner
  list id d := { d with initializers := d.initializers.push id }

/-- Attaches a reference to a type that the declaration extends. -/
def addExtends (p : Program) (id : TypeId) (r : Reference) : Except Fault Program := do
  let types ← p.types.update id fun d => { d with extendsList := d.extendsList.push r }
  return { p with types }

/-- Attaches a reference to a type that the declaration implements. -/
def addImplements (p : Program) (id : TypeId) (r : Reference) : Except Fault Program := do
  let types ← p.types.update id fun d => { d with implementsList := d.implementsList.push r }
  return { p with types }

/-- Attaches a member to its owner. It gets its name before the owner is looked for. -/
def attach {e : Entity} {α : Type} (sort : MemberSort e α) (p : Program) (x : α) :
    Except Fault (EntityId e × Program) := do
  let (id, members) ← (sort.table p).add x
  let types ← p.types.update (sort.owner x) (sort.list id)
  return (id, { sort.setTable members p with types })

/-- Attaches a field to its owner. -/
def addField : Program → Field → Except Fault (FieldId × Program) := attach .field

/-- Attaches a method to its owner. -/
def addMethod : Program → Method → Except Fault (MethodId × Program) := attach .method

/-- Attaches a constructor to its owner. -/
def addConstructor : Program → Constructor → Except Fault (ConstructorId × Program) :=
  attach .constructor

/-- Attaches an initializer block to its owner. -/
def addInitializer : Program → Initializer → Except Fault (InitializerId × Program) :=
  attach .initializer

end Program

end ClassTable

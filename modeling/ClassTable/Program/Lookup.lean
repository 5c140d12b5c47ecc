import ClassTable.Name.Path
import ClassTable.Program.Enclosure
import ClassTable.Program.Rendering

/-!
# Name lookup

A name is looked up as it is seen from inside a type, its context. Candidates are tried in this
order, and the first hit wins:

1. primitive keywords;
2. member types of the context and of each type it stands in, the innermost first;
3. the package of the context;
4. the name as written;
5. the registry's implicitly imported package.

Candidates 3 to 5 are full signatures, for which declared types come before those of the registry.

A qualified name that misses them all is read as a path of member types: the shortest head that is
a type and has the rest of the path as nested member types decides.
-/

namespace ClassTable.Program

variable {ρ : Type} [Registry ρ]

/-- The type of that signature, declared types first. -/
def lookupGlobal (p : Program) (r : ρ) (signature : String) : Option TypeHandle :=
  match p.lookup signature with
  | some id => some (.declared id)
  | none => (Registry.find? r signature).map .canonical

/-- The member type of that name of the innermost type that has one. -/
def lookupMember (p : Program) (e : Enclosure) (name : String) : Option TypeId :=
  e.types.findSome? fun d => p.lookup (Signature.inType d.signature name)

/-- The full signatures that a name may stand for where no member type has it. -/
def globalNames (r : ρ) (e : Enclosure) (name : String) : List String :=
  [Signature.inPackage (e.package.getD "") name, name] ++
    (Registry.implicitPackage? r).toList.map fun package => Signature.inPackage package name

/-- The type that a name stands for without being taken apart. -/
def lookupWhole (p : Program) (r : ρ) (context : TypeId) (name : String) :
    Except Fault (Option TypeHandle) :=
  match Primitive.ofKeyword? name with
  | some primitive => .ok (some (.canonical primitive.index))
  | none => do
    let e ← p.enclosure context
    match p.lookupMember e name with
    | some id => return some (.declared id)
    | none => return (globalNames r e name).findSome? (p.lookupGlobal r)

/-- The nested member type that a path of names leads to. -/
def lookupNested (p : Program) (r : ρ) (outer : TypeHandle) (names : List String) :
    Option TypeHandle := do
  let signature ← p.readableSignature r outer
  p.lookupGlobal r (names.foldl Signature.inType signature)

/-- The first reading of a path whose head is a type with the rest as nested member types. -/
def lookupSplit (p : Program) (r : ρ) (context : TypeId) :
    List (String × List String) → Except Fault (Option TypeHandle)
  | [] => .ok none
  | (head, names) :: later => do
    match (← p.lookupWhole r context head).bind fun outer => p.lookupNested r outer names with
    | some type => return some type
    | none => p.lookupSplit r context later

/-- The type that a slash-separated name stands for inside a type. The empty name stands for
nothing. -/
def lookupName (p : Program) (r : ρ) (context : TypeId) (name : String) :
    Except Fault (Option TypeHandle) :=
  if name = "" then .ok none
  else do
    match ← p.lookupWhole r context name with
    | some type => return some type
    | none => p.lookupSplit r context (Path.splits name)

end ClassTable.Program

import ClassTable.Program.Basic

/-!
# Reference sites

Every reference of a program stands at a site: in the head of a type, as the type of a field, or in
the head of a constructor or a method. A site names the element that carries the reference and,
where there are several, its position in the list.

`referenceSites` lists the sites type by type, in the order in which a resolution pass visits
them: what a type extends, what it implements, its fields, its constructors (parameters, then
exceptions), and its methods (return type, parameters, exceptions, annotations).
-/

namespace ClassTable

/-- A place where a program carries a reference. -/
inductive Site where
  /-- A type that a declaration extends. -/
  | extendsItem (type : TypeId) (position : Nat)
  /-- A type that a declaration implements. -/
  | implementsItem (type : TypeId) (position : Nat)
  /-- The type of a field. -/
  | fieldType (field : FieldId)
  /-- The type of a constructor's parameter. -/
  | constructorParameter (constructor : ConstructorId) (position : Nat)
  /-- An exception that a constructor declares. -/
  | constructorThrows (constructor : ConstructorId) (position : Nat)
  /-- The return type of a method. -/
  | methodReturn (method : MethodId)
  /-- The type of a method's parameter. -/
  | methodParameter (method : MethodId) (position : Nat)
  /-- An exception that a method declares. -/
  | methodThrows (method : MethodId) (position : Nat)
  /-- An annotation of a method. -/
  | annotationItem (method : MethodId) (position : Nat)
  deriving DecidableEq

/-- Changes the type of a parameter. -/
def Parameter.mapType (f : Reference → Reference) (x : Parameter) : Parameter :=
  { x with type := f x.type }

/-- Changes the type of an annotation. -/
def AnnotationUse.mapType (f : Reference → Reference) (x : AnnotationUse) : AnnotationUse :=
  { x with type := f x.type }

namespace Program

/-- The reference at a site, if the list is long enough to have one there. An element that the
program does not have is a fault. -/
def reference? (p : Program) : Site → Except Fault (Option Reference)
  | .extendsItem t i => (p.types.get t).map fun d => d.extendsList[i]?
  | .implementsItem t i => (p.types.get t).map fun d => d.implementsList[i]?
  | .fieldType f => (p.fields.get f).map fun x => some x.type
  | .constructorParameter c i =>
    (p.constructors.get c).map fun x => x.parameters[i]?.map Parameter.type
  | .constructorThrows c i => (p.constructors.get c).map fun x => x.throws[i]?
  | .methodReturn m => (p.methods.get m).map fun x => some x.returnType
  | .methodParameter m i => (p.methods.get m).map fun x => x.parameters[i]?.map Parameter.type
  | .methodThrows m i => (p.methods.get m).map fun x => x.throws[i]?
  | .annotationItem m i => (p.methods.get m).map fun x => x.annotations[i]?.map AnnotationUse.type

/-- Changes the reference at a site, and nothing if there is none. -/
def modifyReference (p : Program) (site : Site) (f : Reference → Reference) : Program :=
  match site with
  | .extendsItem t i =>
    { p with types := p.types.modify t fun d => { d with extendsList := d.extendsList.modify i f } }
  | .implementsItem t i =>
    { p with
      types := p.types.modify t fun d => { d with implementsList := d.implementsList.modify i f } }
  | .fieldType x => { p with fields := p.fields.modify x fun d => { d with type := f d.type } }
  | .constructorParameter c i =>
    { p with
      constructors := p.constructors.modify c fun d =>
        { d with parameters := d.parameters.modify i (Parameter.mapType f) } }
  | .constructorThrows c i =>
    { p with
      constructors := p.constructors.modify c fun d => { d with throws := d.throws.modify i f } }
  | .methodReturn m =>
    { p with methods := p.methods.modify m fun d => { d with returnType := f d.returnType } }
  | .methodParameter m i =>
    { p with
      methods := p.methods.modify m fun d =>
        { d with parameters := d.parameters.modify i (Parameter.mapType f) } }
  | .methodThrows m i =>
    { p with methods := p.methods.modify m fun d => { d with throws := d.throws.modify i f } }
  | .annotationItem m i =>
    { p with
      methods := p.methods.modify m fun d =>
        { d with annotations := d.annotations.modify i (AnnotationUse.mapType f) } }

/-- Records the type of the reference at a site and tells whether it was still open. There is no
answer if the site's list is too short. -/
def resolveAt (p : Program) (site : Site) (type : TypeHandle) :
    Except Fault (Option (Bool × Program)) := do
  match ← p.reference? site with
  | none => return none
  | some r =>
    let (wasOpen, resolved) := r.resolve type
    return some (wasOpen, p.modifyReference site fun _ => resolved)

/-! ## The order of visits -/

/-- The sites of a constructor. -/
def constructorSites (p : Program) (id : ConstructorId) : Except Fault (List Site) :=
  (p.constructors.get id).map fun c =>
    (List.range c.parameters.size).map (.constructorParameter id) ++
      (List.range c.throws.size).map (.constructorThrows id)

/-- The sites of a method. -/
def methodSites (p : Program) (id : MethodId) : Except Fault (List Site) :=
  (p.methods.get id).map fun m =>
    .methodReturn id :: (List.range m.parameters.size).map (.methodParameter id) ++
      (List.range m.throws.size).map (.methodThrows id) ++
      (List.range m.annotations.size).map (.annotationItem id)

/-- The sites of a type and of its members. -/
def typeSites (p : Program) (id : TypeId) : Except Fault (List Site) := do
  let d ← p.types.get id
  let constructors ← d.constructors.toList.mapM p.constructorSites
  let methods ← d.methods.toList.mapM p.methodSites
  return (List.range d.extendsList.size).map (.extendsItem id) ++
    (List.range d.implementsList.size).map (.implementsItem id) ++
    d.fields.toList.map .fieldType ++ constructors.flatten ++ methods.flatten

/-- Every site, with the type that its reference is seen from. -/
def referenceSites (p : Program) : Except Fault (List (TypeId × Site)) := do
  let perType ← p.types.ids.mapM fun id => do
    let sites ← p.typeSites id
    return sites.map fun site => (id, site)
  return perType.flatten

end Program

end ClassTable

import ClassTable.Proofs.Program.History

/-!
# Edits in place

The operations of a program say what comes of an edit, and an edit that fails has no result. An
editor that owns the program works in another way: it writes one thing after the other, and what
was written before a fault stays written. Here the edits are spelled out as such an editor makes
them, each read and each write in its turn (`Editing`).

Both come to the same (`outcome_perform`). What the spelled-out form adds is an answer to what a
failed edit leaves behind: if it was given an id that the program never handed out, it stops at
a read, and all reads that can stop it so come before the first write (`perform_unknown`).
-/

namespace ClassTable

namespace Program

/-- Reads and writes of a program, one after the other. -/
abbrev Editing := EStateM Fault Program

namespace Editing

/-- Reads from the program, or stops. -/
def look {α : Type} (f : Program → Except Fault α) : Editing α := fun p =>
  match f p with
  | .ok x => .ok x p
  | .error fault => .error fault p

/-- Makes the signature of a new type. In code this counts on the owner of the code. -/
def mintSignature (scope : Scope) (name : String) : Editing String :=
  match scope with
  | .package package => return Signature.inPackage package name
  | .type outer => do
    let d ← look (·.types.get outer)
    return Signature.inType d.signature name
  | .code block => do
    let owner ← look (·.codeOwner block)
    let d ← look (·.types.get owner)
    modify fun p =>
      { p with types := p.types.modify owner fun d => { d with localTypes := d.localTypes + 1 } }
    return Signature.inCode d.signature (d.localTypes + 1) name

/-- Declares a type: its signature comes first, then its id, the index and the table. -/
def declare (scope : Scope) (head : Head) : Editing TypeId := do
  let signature ← mintSignature scope head.name
  let i ← look fun p => freshIndex p.types.size
  modify fun p => { p with bySignature := p.bySignature.insertIfNew signature ⟨i⟩ }
  modify fun p => { p with types := ⟨p.types.items.push (.ofHead signature scope head)⟩ }
  return ⟨i⟩

/-- Changes the head of a type. -/
def change (id : TypeId) (f : Declaration → Declaration) : Editing Unit := do
  let _ ← look (·.types.get id)
  modify fun p => { p with types := p.types.modify id f }

/-- Attaches a member: the owner lists its id, then it is stored. -/
def attach (owner : TypeId) (size : Program → Nat) (list : Nat → Declaration → Declaration)
    (store : Program → Program) : Editing Nat := do
  let i ← look fun p => freshIndex (size p)
  change owner (list i)
  modify store
  return i

/-- Attaches a field. -/
def addField (x : Field) : Editing FieldId := EntityId.mk <$>
  attach x.owner (·.fields.size) (fun i d => { d with fields := d.fields.push ⟨i⟩ })
    fun p => { p with fields := ⟨p.fields.items.push x⟩ }

/-- Attaches a method. -/
def addMethod (x : Method) : Editing MethodId := EntityId.mk <$>
  attach x.owner (·.methods.size) (fun i d => { d with methods := d.methods.push ⟨i⟩ })
    fun p => { p with methods := ⟨p.methods.items.push x⟩ }

/-- Attaches a constructor. -/
def addConstructor (x : Constructor) : Editing ConstructorId := EntityId.mk <$>
  attach x.owner (·.constructors.size)
    (fun i d => { d with constructors := d.constructors.push ⟨i⟩ })
    fun p => { p with constructors := ⟨p.constructors.items.push x⟩ }

/-- Attaches an initializer block. -/
def addInitializer (x : Initializer) : Editing InitializerId := EntityId.mk <$>
  attach x.owner (·.initializers.size)
    (fun i d => { d with initializers := d.initializers.push ⟨i⟩ })
    fun p => { p with initializers := ⟨p.initializers.items.push x⟩ }

end Editing

/-! ## One type of edits -/

/-- What can be declared in a program, or attached to it. -/
inductive Edit where
  | declare (scope : Scope) (head : Head)
  | addExtends (id : TypeId) (r : Reference)
  | addImplements (id : TypeId) (r : Reference)
  | addField (x : Field)
  | addMethod (x : Method)
  | addConstructor (x : Constructor)
  | addInitializer (x : Initializer)

namespace Edit

/-- Where the edit takes place. -/
def place : Edit → Scope
  | .declare scope _ => scope
  | .addExtends id _ | .addImplements id _ => .type id
  | .addField x => .type x.owner
  | .addMethod x => .type x.owner
  | .addConstructor x => .type x.owner
  | .addInitializer x => .type x.owner

/-- The edit as an operation: what comes of it. -/
def apply (p : Program) : Edit → Except Fault Program
  | .declare scope head => (p.declare scope head).map Prod.snd
  | .addExtends id r => p.addExtends id r
  | .addImplements id r => p.addImplements id r
  | .addField x => (p.addField x).map Prod.snd
  | .addMethod x => (p.addMethod x).map Prod.snd
  | .addConstructor x => (p.addConstructor x).map Prod.snd
  | .addInitializer x => (p.addInitializer x).map Prod.snd

/-- The edit in place. -/
def perform : Edit → Editing Unit
  | .declare scope head => discard (Editing.declare scope head)
  | .addExtends id r =>
    Editing.change id fun d => { d with extendsList := d.extendsList.push r }
  | .addImplements id r =>
    Editing.change id fun d => { d with implementsList := d.implementsList.push r }
  | .addField x => discard (Editing.addField x)
  | .addMethod x => discard (Editing.addMethod x)
  | .addConstructor x => discard (Editing.addConstructor x)
  | .addInitializer x => discard (Editing.addInitializer x)

end Edit

/-- What comes of an edit in place: the program afterwards, or the fault that stopped it. -/
def outcome {α : Type} : EStateM.Result Fault Program α → Except Fault Program
  | .ok _ q => .ok q
  | .error fault _ => .error fault

/-! ## Both come to the same -/

theorem Editing.run_mintSignature (p : Program) (scope : Scope) (name : String) :
    (mintSignature scope name).run p =
      match p.newSignature scope name, p.countLocalType scope with
      | .ok signature, .ok counted => .ok signature counted
      | .ok _, .error fault | .error fault, _ => .error fault p := by
  cases scope with
  | package package => rfl
  | type outer =>
      simp only [mintSignature, look, EStateM.run, bind, EStateM.bind, newSignature]
      cases p.types.get outer <;> rfl
  | code block =>
      simp only [mintSignature, look, EStateM.run, bind, EStateM.bind, newSignature,
        countLocalType, Store.update]
      cases p.codeOwner block with
      | error fault => rfl
      | ok owner =>
          simp only [Except.bind]
          cases p.types.get owner <;> rfl

theorem Editing.run_change (p : Program) (id : TypeId) (f : Declaration → Declaration) :
    (change id f).run p =
      match p.types.update id f with
      | .ok types => .ok () { p with types }
      | .error fault => .error fault p := by
  simp only [change, look, EStateM.run, bind, EStateM.bind, Store.update]
  cases p.types.get id <;> rfl

theorem Editing.run_attach (p : Program) (owner : TypeId) (size : Program → Nat)
    (list : Nat → Declaration → Declaration) (store : Program → Program) :
    (attach owner size list store).run p =
      match freshIndex (size p) with
      | .error fault => .error fault p
      | .ok i =>
        match p.types.update owner (list i) with
        | .ok types => .ok i (store { p with types })
        | .error fault => .error fault p := by
  have hchange := fun i => run_change p owner (list i)
  simp only [EStateM.run] at hchange
  simp only [attach, look, EStateM.run, bind, EStateM.bind]
  cases freshIndex (size p) with
  | error fault => rfl
  | ok i =>
      simp only [hchange]
      cases p.types.update owner (list i) <;> rfl

theorem outcome_declare (p : Program) (scope : Scope) (head : Head) :
    outcome ((Editing.declare scope head).run p) = (p.declare scope head).map Prod.snd := by
  have hmint := Editing.run_mintSignature p scope head.name
  simp only [EStateM.run] at hmint
  simp only [Editing.declare, EStateM.run, bind, EStateM.bind, Program.declare, hmint]
  cases p.newSignature scope head.name with
  | error fault => rfl
  | ok signature =>
      cases hcount : p.countLocalType scope with
      | error fault => rfl
      | ok counted =>
          have hindex : counted.bySignature = p.bySignature := by
            rcases countLocalType_eq_ok hcount with ⟨_, rfl⟩ | ⟨_, _, _, _, _, rfl⟩ <;> rfl
          simp only [Except.bind, Editing.look, Store.add]
          cases freshIndex counted.types.size with
          | error fault => rfl
          | ok i =>
              rw [← hindex]
              rfl

/-- What an edit hands out does not matter for what it leaves behind. -/
theorem outcome_map {α β : Type} (f : α → β) (x : Editing α) (p : Program) :
    outcome ((f <$> x).run p) = outcome (x.run p) := by
  simp only [EStateM.run, Functor.map, EStateM.map]
  cases x p <;> rfl

theorem outcome_change (p : Program) (id : TypeId) (f : Declaration → Declaration) :
    outcome ((Editing.change id f).run p) =
      (do let types ← p.types.update id f; return { p with types }) := by
  rw [Editing.run_change]
  cases p.types.update id f <;> rfl

theorem outcome_attach {e : Entity} {α : Type} (sort : MemberSort e α) (p : Program) (x : α)
    {store : Program → Program} (hstore : ∀ types, store { p with types } =
      { sort.setTable ⟨(sort.table p).items.push x⟩ p with types }) :
    outcome ((Editing.attach (sort.owner x) (fun p => (sort.table p).size) (fun i => sort.list ⟨i⟩)
      store).run p) = (p.attach sort x).map Prod.snd := by
  rw [Editing.run_attach, Program.attach, Store.add]
  cases freshIndex (sort.table p).size with
  | error fault => rfl
  | ok i =>
      simp only [bind, Except.bind, Except.map]
      cases p.types.update (sort.owner x) (sort.list ⟨i⟩) with
      | error fault => rfl
      | ok types => simp only [hstore, outcome, pure, Except.pure]

/-- **An edit in place comes to what the operation says.** -/
theorem outcome_perform (p : Program) (edit : Edit) :
    outcome (edit.perform.run p) = edit.apply p := by
  cases edit with
  | declare scope head => exact (outcome_map ..).trans (outcome_declare p scope head)
  | addExtends id r | addImplements id r => exact outcome_change ..
  | addField x =>
      exact (outcome_map ..).trans
        ((outcome_map ..).trans (outcome_attach .field p x fun _ => rfl))
  | addMethod x =>
      exact (outcome_map ..).trans
        ((outcome_map ..).trans (outcome_attach .method p x fun _ => rfl))
  | addConstructor x =>
      exact (outcome_map ..).trans
        ((outcome_map ..).trans (outcome_attach .constructor p x fun _ => rfl))
  | addInitializer x =>
      exact (outcome_map ..).trans
        ((outcome_map ..).trans (outcome_attach .initializer p x fun _ => rfl))

/-! ## Ids that were never handed out -/

/-- Whether every id in a scope was handed out. -/
def Knows (p : Program) : Scope → Prop
  | .package _ => True
  | .type id => id.index < p.types.size
  | .code (.method id) => id.index < p.methods.size
  | .code (.constructor id) => id.index < p.constructors.size
  | .code (.initializer id) => id.index < p.initializers.size

instance (p : Program) : DecidablePred p.Knows
  | .package _ => inferInstanceAs (Decidable True)
  | .type id => inferInstanceAs (Decidable (id.index < p.types.size))
  | .code (.method id) => inferInstanceAs (Decidable (id.index < p.methods.size))
  | .code (.constructor id) => inferInstanceAs (Decidable (id.index < p.constructors.size))
  | .code (.initializer id) => inferInstanceAs (Decidable (id.index < p.initializers.size))

theorem get_unknown {e : Entity} {α : Type} {s : Store e α} {id : EntityId e}
    (h : ¬ id.index < s.size) : s.get id = .error (.unknownId s.size id.index) := by
  rw [Store.get, Store.get?_eq_none_iff.mpr (Nat.le_of_not_lt h)]

theorem codeOwner_unknown {p : Program} {block : CodeMember} (h : ¬ p.Knows (.code block)) :
    ∃ size index, p.codeOwner block = .error (.unknownId size index) := by
  cases block with
  | method id => exact ⟨_, _, by rw [codeOwner, get_unknown h]; rfl⟩
  | constructor id => exact ⟨_, _, by rw [codeOwner, get_unknown h]; rfl⟩
  | initializer id => exact ⟨_, _, by rw [codeOwner, get_unknown h]; rfl⟩

theorem newSignature_unknown {p : Program} {scope : Scope} (h : ¬ p.Knows scope) (name : String) :
    ∃ size index, p.newSignature scope name = .error (.unknownId size index) := by
  cases scope with
  | package package => exact absurd trivial h
  | type outer => exact ⟨_, _, by rw [newSignature, get_unknown h]; rfl⟩
  | code block =>
      obtain ⟨size, index, howner⟩ := codeOwner_unknown h
      exact ⟨size, index, by rw [newSignature, howner]; rfl⟩

theorem run_map_error {α β : Type} {f : α → β} {x : Editing α} {p : Program} {fault : Fault}
    (h : x.run p = .error fault p) : (f <$> x).run p = .error fault p := by
  simp only [EStateM.run] at h
  simp only [EStateM.run, Functor.map, EStateM.map, h]

theorem run_change_unknown {p : Program} {id : TypeId} (h : ¬ id.index < p.types.size)
    (f : Declaration → Declaration) : ∃ fault, (Editing.change id f).run p = .error fault p := by
  have hupdate : p.types.update id f = .error (.unknownId p.types.size id.index) := by
    rw [Store.update, get_unknown h]
    rfl
  exact ⟨_, by rw [Editing.run_change, hupdate]⟩

theorem run_attach_unknown {p : Program} {owner : TypeId} (h : ¬ owner.index < p.types.size)
    (size : Program → Nat) (list : Nat → Declaration → Declaration) (store : Program → Program) :
    ∃ fault, (Editing.attach owner size list store).run p = .error fault p := by
  rw [Editing.run_attach]
  cases freshIndex (size p) with
  | error fault => exact ⟨fault, rfl⟩
  | ok i =>
      exact ⟨.unknownId p.types.size owner.index, by
        simp only [Store.update, get_unknown h, Except.map]⟩

theorem run_declare_unknown {p : Program} {scope : Scope} (h : ¬ p.Knows scope) (head : Head) :
    ∃ fault, (Editing.declare scope head).run p = .error fault p := by
  obtain ⟨size, index, hsignature⟩ := newSignature_unknown h head.name
  have hmint := Editing.run_mintSignature p scope head.name
  rw [hsignature] at hmint
  simp only [EStateM.run] at hmint
  exact ⟨.unknownId size index, by
    simp only [Editing.declare, EStateM.run, bind, EStateM.bind, hmint]⟩

/-- **With an id that was never handed out, an edit stops before the first write.** -/
theorem perform_unknown {p : Program} {edit : Edit} (h : ¬ p.Knows edit.place) :
    ∃ fault, edit.perform.run p = .error fault p := by
  cases edit with
  | declare scope head => exact (run_declare_unknown h head).imp fun _ => run_map_error
  | addExtends id r | addImplements id r => exact run_change_unknown h _
  | addField x | addMethod x | addConstructor x | addInitializer x =>
      exact (run_attach_unknown h _ _ _).imp fun _ hrun => run_map_error (run_map_error hrun)

end Program

end ClassTable

import ClassTable.Proofs.Program.Outline

/-!
# How programs come about

A program is *reachable* if a run of successful operations leads to it from the
program that declares nothing: declarations in any scope, attached references and
members, single handles filled in from outside, and resolution passes against any
registry, in any order.

Whatever is proved about reachable programs rests on what one step can do, and there are
only four answers (`step_cases`). A declaration adds one type and counts it on the owner
of its code (`Declares`). A member is attached to its owner (`AttachesMember`), a reference
to the head of a type (`AttachesReference`). Resolution writes handles, and leaves the
outline as it was.

Signatures see even less. To them a step declares a type, or keeps the types as they were
declared, with their counters and the signature index (`SameTypes`).
-/

namespace ClassTable

/-- The declaration as it was when it was declared: nothing counted, nothing attached. -/
def Declaration.initial (d : Declaration) : Declaration :=
  { d with
    localTypes := 0
    extendsList := #[]
    implementsList := #[]
    constructors := #[]
    methods := #[]
    fields := #[]
    initializers := #[] }

theorem Declaration.signature_of_initial {d d' : Declaration} (h : d'.initial = d.initial) :
    d'.signature = d.signature := by
  show d'.initial.signature = d.initial.signature
  rw [h]

theorem Declaration.kind_of_initial {d d' : Declaration} (h : d'.initial = d.initial) :
    d'.kind = d.kind := by
  show d'.initial.kind = d.initial.kind
  rw [h]

theorem Declaration.scope_of_initial {d d' : Declaration} (h : d'.initial = d.initial) :
    d'.scope = d.scope := by
  show d'.initial.scope = d.initial.scope
  rw [h]

theorem Declaration.name_of_initial {d d' : Declaration} (h : d'.initial = d.initial) :
    d'.name = d.name := by
  show d'.initial.name = d.initial.name
  rw [h]

/-- The members of one sort, as a declaration lists them. -/
def Declaration.listed (d : Declaration) : (e : Entity) → Array (EntityId e)
  | .type => #[]
  | .field => d.fields
  | .method => d.methods
  | .constructor => d.constructors
  | .initializer => d.initializers

namespace Program

/-- One successful operation. -/
inductive Step : Program → Program → Prop where
  | declare {p q : Program} {scope : Scope} {head : Head} {id : TypeId} :
      p.declare scope head = .ok (id, q) → Step p q
  | addExtends {p q : Program} {id : TypeId} {r : Reference} :
      p.addExtends id r = .ok q → Step p q
  | addImplements {p q : Program} {id : TypeId} {r : Reference} :
      p.addImplements id r = .ok q → Step p q
  | addField {p q : Program} {x : Field} {id : FieldId} :
      p.addField x = .ok (id, q) → Step p q
  | addMethod {p q : Program} {x : Method} {id : MethodId} :
      p.addMethod x = .ok (id, q) → Step p q
  | addConstructor {p q : Program} {x : Constructor} {id : ConstructorId} :
      p.addConstructor x = .ok (id, q) → Step p q
  | addInitializer {p q : Program} {x : Initializer} {id : InitializerId} :
      p.addInitializer x = .ok (id, q) → Step p q
  | resolveAt {p q : Program} {site : Site} {type : TypeHandle} {wasOpen : Bool} :
      p.resolveAt site type = .ok (some (wasOpen, q)) → Step p q
  | resolveAll {p : Program} {ρ : Type} [Registry ρ] {r : ρ} {s : Resolution ρ} :
      p.resolveAll r = .ok s → Step p s.program

/-- The programs that a run of successful operations leads to. -/
inductive Reachable : Program → Prop where
  | init : Reachable ∅
  | tail {p q : Program} : Reachable p → Step p q → Reachable q

theorem get?_types_empty (id : TypeId) : (∅ : Program).types.get? id = none :=
  Store.get?_empty id

/-! ## One sort of members

There are four sorts of members, and they all behave alike. `lists` and `owners` show a
program as one sort sees it: what each type lists, and who owns each member.
-/

/-- What each type lists. -/
def lists (p : Program) (e : Entity) : Store .type (Array (EntityId e)) :=
  p.types.map (Declaration.listed · e)

/-- Who owns each member. -/
def owners (p : Program) : (e : Entity) → Store e TypeId
  | .type => {}
  | .field => p.fields.map Field.owner
  | .method => p.methods.map Method.owner
  | .constructor => p.constructors.map Constructor.owner
  | .initializer => p.initializers.map Initializer.owner

theorem lists_outline (p : Program) (e : Entity) : p.outline.lists e = p.lists e := by
  simp only [lists, outline, Store.map_map]
  cases e <;> rfl

theorem owners_outline (p : Program) (e : Entity) : p.outline.owners e = p.owners e := by
  cases e with
  | type | initializer => rfl
  | field | method | constructor =>
      simp only [owners, outline, Store.map_map]
      rfl

/-- Code belongs to the owner of its member. -/
theorem codeOwner_mono {p q : Program}
    (h : ∀ e id t, (p.owners e).get? id = some t → (q.owners e).get? id = some t)
    {block : CodeMember} {o : TypeId} (ho : p.codeOwner block = .ok o) :
    q.codeOwner block = .ok o := by
  have hget : ∀ e id, (p.owners e).get id = .ok o → (q.owners e).get id = .ok o :=
    fun e id hid => Store.get_eq_ok_iff.mpr (h e id o (Store.get_eq_ok_iff.mp hid))
  cases block with
  | method id =>
      have hmethod := hget .method id
      simp only [owners, Store.get_map] at hmethod
      exact hmethod ho
  | constructor id =>
      have hconstructor := hget .constructor id
      simp only [owners, Store.get_map] at hconstructor
      exact hconstructor ho
  | initializer id =>
      have hinitializer := hget .initializer id
      simp only [owners, Store.get_map] at hinitializer
      exact hinitializer ho

/-! ## What a step can do -/

/-- The type whose code a scope is part of; no type for the scopes outside code. -/
def localOwner? (p : Program) : Scope → Option TypeId
  | .code block => (p.codeOwner block).toOption
  | _ => none

/-- What a declaration does: `id` is the new type, declared as `d`. -/
structure Declares (p q : Program) (id : TypeId) (d : Declaration) : Prop where
  /-- The new type is the next one, and there was room for it. -/
  fresh : id = ⟨p.types.size⟩ ∧ p.types.size ≤ maxIndex
  /-- Its signature is made from its scope and its name. -/
  signature : p.newSignature d.scope d.name = .ok d.signature
  /-- Nothing is attached to it yet. -/
  bare : d.initial = d
  /-- It comes after all others. -/
  initial : q.types.map Declaration.initial = ⟨(p.types.map Declaration.initial).items.push d⟩
  /-- Nothing is counted on it yet. -/
  uncounted : ∀ x, q.types.get? id = some x → x.localTypes = 0
  /-- It is counted on the owner of its code, if it is in code, and on no other type. -/
  counts : ∀ o x, p.types.get? o = some x → ∃ y, q.types.get? o = some y ∧
    y.localTypes = if p.localOwner? d.scope = some o then x.localTypes + 1 else x.localTypes
  /-- Its signature leads to it, if there was no type of that signature. -/
  index : q.bySignature = p.bySignature.insertIfNew d.signature id
  /-- It lists nothing, and the others list what they did. -/
  lists : ∀ e, q.lists e = ⟨(p.lists e).items.push #[]⟩
  /-- Members stay with their owners, and there is no new member. -/
  owners : ∀ e, q.owners e = p.owners e

/-- What attaching a member does: it is the next one of its sort, and `o` owns it. -/
structure AttachesMember (p q : Program) (new : Entity) (o : TypeId)
    (f : Declaration → Declaration) : Prop where
  /-- The owner is a type of the program. -/
  known : o.index < p.types.size
  /-- Only the owner changes. -/
  types : q.types = p.types.modify o f
  /-- It stays as it was declared. -/
  initial : ∀ d, (f d).initial = d.initial
  /-- Nothing is counted on it. -/
  counts : ∀ d, (f d).localTypes = d.localTypes
  /-- It lists the new member last. -/
  listed : ∀ d, (f d).listed new = (d.listed new).push ⟨(p.owners new).size⟩
  /-- It lists no other new member. -/
  unlisted : ∀ e, e ≠ new → ∀ d, (f d).listed e = d.listed e
  /-- The new member belongs to it. -/
  owner : q.owners new = ⟨(p.owners new).items.push o⟩
  /-- Other members stay with their owners. -/
  owners : ∀ e, e ≠ new → q.owners e = p.owners e
  /-- Nothing is indexed. -/
  index : q.bySignature = p.bySignature

/-- What attaching a reference to the head of the type `o` does. -/
structure AttachesReference (p q : Program) (o : TypeId) (f : Declaration → Declaration) :
    Prop where
  /-- Only that type changes. -/
  types : q.types = p.types.modify o f
  /-- It stays as it was declared. -/
  initial : ∀ d, (f d).initial = d.initial
  /-- Nothing is counted on it. -/
  counts : ∀ d, (f d).localTypes = d.localTypes
  /-- It lists no new member. -/
  unlisted : ∀ e d, (f d).listed e = d.listed e
  /-- Members stay with their owners. -/
  owners : ∀ e, q.owners e = p.owners e
  /-- Nothing is indexed. -/
  index : q.bySignature = p.bySignature

/-- The ways in which a step can change a program. -/
inductive Change (p q : Program) : Prop where
  | declare {id : TypeId} {d : Declaration} : Declares p q id d → Change p q
  | member {new : Entity} {o : TypeId} {f : Declaration → Declaration} :
      AttachesMember p q new o f → Change p q
  | reference {o : TypeId} {f : Declaration → Declaration} :
      AttachesReference p q o f → Change p q
  | handles : q.outline = p.outline → Change p q

theorem localOwner?_code {p : Program} {block : CodeMember} {o : TypeId} :
    p.localOwner? (.code block) = some o ↔ p.codeOwner block = .ok o := by
  simp only [localOwner?]
  cases p.codeOwner block with
  | error fault => simp [Except.toOption]
  | ok owner => simp [Except.toOption]

theorem countLocalType_eq_ok {p q : Program} {scope : Scope}
    (h : p.countLocalType scope = .ok q) :
    (scope.isCode = false ∧ q = p) ∨
      ∃ block owner, scope = .code block ∧ p.codeOwner block = .ok owner ∧
        owner.index < p.types.size ∧
        q = { p with types := p.types.modify owner fun d =>
                { d with localTypes := d.localTypes + 1 } } := by
  cases scope with
  | package name => cases h; exact Or.inl ⟨rfl, rfl⟩
  | type id => cases h; exact Or.inl ⟨rfl, rfl⟩
  | code block =>
      obtain ⟨owner, howner, h⟩ := bind_eq_ok.mp h
      obtain ⟨types, htypes, hq⟩ := bind_eq_ok.mp h
      obtain ⟨hlt, rfl⟩ := Store.update_eq_ok_iff.mp htypes
      cases hq
      exact Or.inr ⟨block, owner, rfl, howner, hlt, rfl⟩

/-- Attaching something that is not a member of this sort. -/
theorem lists_modify {p q : Program} {e : Entity} {o : TypeId} {f : Declaration → Declaration}
    (hq : q.types = p.types.modify o f) (hf : ∀ d, (f d).listed e = d.listed e) :
    q.lists e = p.lists e := by
  rw [lists, lists, hq]
  exact Store.map_modify_eq hf _ _

/-- Attaching a member of this sort. -/
theorem lists_attach {p q : Program} {e : Entity} {o : TypeId} {f : Declaration → Declaration}
    {id : EntityId e} (hq : q.types = p.types.modify o f)
    (hf : ∀ d, (f d).listed e = (d.listed e).push id) :
    q.lists e = (p.lists e).modify o (·.push id) := by
  refine Store.ext_get? fun t => ?_
  rw [lists, lists, hq, Store.get?_map, Store.get?_modify, Store.get?_modify, Store.get?_map]
  split
  · cases p.types.get? t with
    | none => rfl
    | some d => simp [hf]
  · rfl

theorem declares_of_declare {p q : Program} {scope : Scope} {head : Head} {id : TypeId}
    (h : p.declare scope head = .ok (id, q)) :
    ∃ signature, Declares p q id (.ofHead signature scope head) := by
  obtain ⟨signature, counted, hsig, hcount, hroom, hid, hq⟩ := declare_eq_ok h
  refine ⟨signature, ?_⟩
  have hinitial : counted.types.map Declaration.initial = p.types.map Declaration.initial := by
    rcases countLocalType_eq_ok hcount with ⟨_, rfl⟩ | ⟨_, _, _, _, _, rfl⟩
    · rfl
    · exact Store.map_modify_eq (fun d => by rfl) _ _
  have hlists : ∀ e, counted.lists e = p.lists e := by
    intro e
    rcases countLocalType_eq_ok hcount with ⟨_, rfl⟩ | ⟨_, _, _, _, _, rfl⟩
    · rfl
    · exact lists_modify rfl fun d => by cases e <;> rfl
  have howners : ∀ e, counted.owners e = p.owners e := by
    intro e
    rcases countLocalType_eq_ok hcount with ⟨_, rfl⟩ | ⟨_, _, _, _, _, rfl⟩
    · rfl
    · cases e <;> rfl
  have hsize : counted.types.size = p.types.size := by
    rw [← Store.size_map counted.types Declaration.initial, hinitial, Store.size_map]
  have htypes : ∀ o, q.types.get? o = if o.index = p.types.size
      then some (.ofHead signature scope head) else counted.types.get? o := by
    intro o
    rw [hq, ← hsize]
    exact Store.get?_push ..
  refine ⟨⟨hsize ▸ hid, hsize ▸ hroom⟩, hsig, rfl, ?_, ?_, ?_, by rw [hq]; rfl, ?_, ?_⟩
  · rw [hq]
    show Store.map ⟨counted.types.items.push _⟩ _ = _
    rw [Store.map_push, hinitial]
    rfl
  · intro x hx
    rw [htypes, if_pos (by rw [hid, hsize])] at hx
    cases hx
    rfl
  · intro o x hx
    have hlt := Store.size_of_get? hx
    rw [htypes, if_neg (by omega)]
    show ∃ y, counted.types.get? o = some y ∧
      y.localTypes = if p.localOwner? scope = some o then x.localTypes + 1 else x.localTypes
    rcases countLocalType_eq_ok hcount with ⟨hcode, rfl⟩ | ⟨block, owner, rfl, howner, _, rfl⟩
    · -- outside code nothing is counted
      refine ⟨x, hx, ?_⟩
      cases scope with
      | package name => rfl
      | type id => rfl
      | code block => exact absurd hcode (by simp [Scope.isCode])
    · -- in code it is counted on the owner, which is an older type
      simp only [Store.get?_modify, localOwner?_code, howner, Except.ok.injEq]
      by_cases ho : owner = o
      · rw [if_pos ho, hx]
        exact ⟨_, rfl, by rw [if_pos ho]⟩
      · rw [if_neg ho, hx]
        exact ⟨_, rfl, by rw [if_neg ho]⟩
  · intro e
    rw [← hlists, hq]
    show Store.map ⟨counted.types.items.push _⟩ _ = _
    rw [Store.map_push]
    cases e <;> rfl
  · intro e
    rw [← howners, hq]
    cases e <;> rfl

/-- What it takes to attach a member: room for it, and an owner. -/
theorem attach_eq_ok {p q : Program} {e : Entity} {α : Type} {sort : MemberSort e α} {x : α}
    {id : EntityId e} (h : p.attach sort x = .ok (id, q)) :
    (sort.owner x).index < p.types.size ∧
      q = { sort.setTable ⟨(sort.table p).items.push x⟩ p with
            types := p.types.modify (sort.owner x) (sort.list ⟨(sort.table p).size⟩) } := by
  obtain ⟨⟨i, store⟩, hadd, h⟩ := bind_eq_ok.mp h
  obtain ⟨types, htypes, hq⟩ := bind_eq_ok.mp h
  obtain ⟨-, rfl, rfl⟩ := Store.add_eq_ok hadd
  obtain ⟨hlt, rfl⟩ := Store.update_eq_ok_iff.mp htypes
  cases hq
  exact ⟨hlt, rfl⟩

/-- The four sorts. -/
inductive MemberSort.OneOfFour : {e : Entity} → {α : Type} → MemberSort e α → Prop where
  | field : OneOfFour .field
  | method : OneOfFour .method
  | constructor : OneOfFour .constructor
  | initializer : OneOfFour .initializer

/-- What the sorts have in common: a new member is listed once, and kept with its like. -/
structure MemberSort.Lawful {e : Entity} {α : Type} (sort : MemberSort e α) : Prop where
  /-- The owner stays as it was declared. -/
  initial : ∀ id d, (sort.list id d).initial = d.initial
  /-- Nothing is counted on it. -/
  counts : ∀ id d, (sort.list id d).localTypes = d.localTypes
  /-- It lists the member last. -/
  listed : ∀ id d, (sort.list id d).listed e = (d.listed e).push id
  /-- It lists it with no other sort. -/
  unlisted : ∀ other, other ≠ e → ∀ id d, (sort.list id d).listed other = d.listed other
  /-- The members of the sort are those of the program that have this sort of id. -/
  owners : ∀ p, p.owners e = (sort.table p).map sort.owner
  /-- They can be replaced. -/
  replaced : ∀ members p, sort.table (sort.setTable members p) = members
  /-- That leaves the members of other sorts alone. -/
  others : ∀ other, other ≠ e → ∀ members p, (sort.setTable members p).owners other = p.owners other
  /-- Nothing is indexed. -/
  index : ∀ members p, (sort.setTable members p).bySignature = p.bySignature

theorem MemberSort.OneOfFour.lawful {e : Entity} {α : Type} {sort : MemberSort e α}
    (h : sort.OneOfFour) : sort.Lawful := by
  cases h with
  | field | method | constructor | initializer =>
      refine ⟨fun _ _ => rfl, fun _ _ => rfl, fun _ _ => rfl, ?_, fun _ => rfl, fun _ _ => rfl, ?_,
        fun _ _ => rfl⟩
      · intro other hne _ _
        cases other <;> first | rfl | exact absurd rfl hne
      · intro other hne _ _
        cases other <;> first | rfl | exact absurd rfl hne

/-- Owners are kept with the members. -/
theorem owners_types (p : Program) (types : Store .type Declaration) (e : Entity) :
    owners { p with types } e = p.owners e := by
  cases e <;> rfl

/-- **Members of all sorts are attached alike.** -/
theorem attaches_of_attach {p q : Program} {e : Entity} {α : Type} {sort : MemberSort e α} {x : α}
    {id : EntityId e} (hsort : sort.OneOfFour) (h : p.attach sort x = .ok (id, q)) :
    AttachesMember p q e (sort.owner x) (sort.list ⟨(sort.table p).size⟩) := by
  have hlawful := hsort.lawful
  obtain ⟨hlt, rfl⟩ := attach_eq_ok h
  refine ⟨hlt, rfl, hlawful.initial _, hlawful.counts _, ?_, fun other hne => ?_, ?_, ?_,
    hlawful.index _ p⟩
  · intro d
    rw [hlawful.listed, hlawful.owners, Store.size_map]
  · exact hlawful.unlisted other hne _
  · rw [owners_types, hlawful.owners, hlawful.replaced, hlawful.owners]
    exact Store.map_push ..
  · intro other hne
    rw [owners_types, hlawful.others other hne]

/-- A change of the head of one type, and of nothing else. -/
theorem attachesReference {p q : Program} {o : TypeId} {f : Declaration → Declaration}
    (h : (do let types ← p.types.update o f; return { p with types }) = Except.ok q)
    (hinitial : ∀ d, (f d).initial = d.initial) (hcounts : ∀ d, (f d).localTypes = d.localTypes)
    (hlisted : ∀ e d, (f d).listed e = d.listed e) : AttachesReference p q o f := by
  obtain ⟨types, htypes, hq⟩ := bind_eq_ok.mp h
  obtain ⟨_, rfl⟩ := Store.update_eq_ok_iff.mp htypes
  cases hq
  exact ⟨rfl, hinitial, hcounts, hlisted, fun e => by cases e <;> rfl, rfl⟩

theorem outline_resolveAt {p q : Program} {site : Site} {type : TypeHandle} {wasOpen : Bool}
    (h : p.resolveAt site type = .ok (some (wasOpen, q))) : q.outline = p.outline := by
  obtain ⟨found, hfound, h⟩ := bind_eq_ok.mp h
  cases found with
  | none => cases h
  | some r =>
      cases h
      rw [modifyReference_congr (g := fun r => (r.resolve type).2) hfound rfl]
      exact outline_modifyReference _ _ (Reference.erase_resolve · type)

/-- **What a step can do.** -/
theorem step_cases {p q : Program} (h : Step p q) : Change p q := by
  cases h with
  | declare h => exact (declares_of_declare h).elim fun _ hd => .declare hd
  | addExtends h | addImplements h =>
      exact .reference (attachesReference h (fun _ => rfl) (fun _ => rfl) fun e _ => by
        cases e <;> rfl)
  | addField h => exact .member (attaches_of_attach .field h)
  | addMethod h => exact .member (attaches_of_attach .method h)
  | addConstructor h => exact .member (attaches_of_attach .constructor h)
  | addInitializer h => exact .member (attaches_of_attach .initializer h)
  | resolveAt h => exact .handles (outline_resolveAt h)
  | resolveAll h => exact .handles (outline_resolveAll h)

/-! ## Types are declared, or stay as they were declared -/

/-- What no operation but a declaration changes. -/
structure SameTypes (p q : Program) : Prop where
  /-- The types are those that were declared. -/
  initial : q.types.map Declaration.initial = p.types.map Declaration.initial
  /-- Nothing is counted. -/
  counts : q.types.map Declaration.localTypes = p.types.map Declaration.localTypes
  /-- Nothing is indexed. -/
  index : q.bySignature = p.bySignature
  /-- Code stays with its owner. -/
  owners : ∀ block owner, p.codeOwner block = .ok owner → q.codeOwner block = .ok owner

theorem Declares.codeOwner {p q : Program} {id : TypeId} {d : Declaration}
    (h : Declares p q id d) {block : CodeMember} {o : TypeId} :
    q.codeOwner block = .ok o ↔ p.codeOwner block = .ok o :=
  ⟨codeOwner_mono fun e _ _ ht => by rwa [← h.owners e],
    codeOwner_mono fun e _ _ ht => by rwa [h.owners e]⟩

theorem sameTypes_of_member {p q : Program} {new : Entity} {o : TypeId}
    {f : Declaration → Declaration} (h : AttachesMember p q new o f) : SameTypes p q where
  initial := by rw [h.types]; exact Store.map_modify_eq h.initial _ _
  counts := by rw [h.types]; exact Store.map_modify_eq h.counts _ _
  index := h.index
  owners := by
    intro block owner
    refine codeOwner_mono fun e id t ht => ?_
    by_cases he : e = new
    · -- the new member comes after the others
      subst he
      have hlt := Store.size_of_get? ht
      rw [h.owner, Store.get?_push, if_neg (by omega), ht]
    · rw [h.owners e he, ht]

theorem sameTypes_of_reference {p q : Program} {o : TypeId} {f : Declaration → Declaration}
    (h : AttachesReference p q o f) : SameTypes p q where
  initial := by rw [h.types]; exact Store.map_modify_eq h.initial _ _
  counts := by rw [h.types]; exact Store.map_modify_eq h.counts _ _
  index := h.index
  owners := fun block owner => codeOwner_mono fun e id t ht => by rw [h.owners e, ht]

theorem sameTypes_of_outline {p q : Program} (h : q.outline = p.outline) : SameTypes p q where
  initial := by
    have hview : ∀ r : Program, r.outline.types.map Declaration.initial
        = r.types.map Declaration.initial := fun r => Store.map_map ..
    rw [← hview q, h, hview p]
  counts := by
    have hview : ∀ r : Program, r.outline.types.map Declaration.localTypes
        = r.types.map Declaration.localTypes := fun r => Store.map_map ..
    rw [← hview q, h, hview p]
  index := show q.outline.bySignature = p.outline.bySignature by rw [h]
  owners := fun block owner => codeOwner_mono fun e id t ht => by
    rw [← owners_outline, h, owners_outline, ht]

/-- A step declares one type, or keeps the types as they were declared. -/
theorem step_types {p q : Program} (h : Step p q) :
    SameTypes p q ∨ ∃ id d, Declares p q id d := by
  cases step_cases h with
  | declare hd => exact Or.inr ⟨_, _, hd⟩
  | member ha => exact Or.inl (sameTypes_of_member ha)
  | reference ha => exact Or.inl (sameTypes_of_reference ha)
  | handles ho => exact Or.inl (sameTypes_of_outline ho)

/-! ## A small program -/

/-- The head of a class. -/
def classNamed (name : String) : Head :=
  { kindToken := ⟨"class", .dummy⟩, nameToken := some ⟨name, .dummy⟩ }

/-- A reference as it is written. -/
def written (text : String) : Reference := { tokens := [⟨text, .dummy⟩] }

/-- In the package `com.app`: a class `Foo` with a member class `Inner`, and with a method
that declares a local class `Task`, which has the fields `Inner[] queue` and `Missing other`. -/
def sample : Program where
  types := ⟨#[
    { Declaration.ofHead "com/app/Foo" (.package "com.app") (classNamed "Foo") with
      localTypes := 1
      methods := #[⟨0⟩] },
    .ofHead "com/app/Foo$Inner" (.type ⟨0⟩) (classNamed "Inner"),
    { Declaration.ofHead "com/app/Foo$1Task" (.code (.method ⟨0⟩)) (classNamed "Task") with
      fields := #[⟨0⟩, ⟨1⟩] }]⟩
  methods := ⟨#[{ owner := ⟨0⟩, returnType := written "void" }]⟩
  fields := ⟨#[
    { owner := ⟨2⟩, type := written "Inner[]" },
    { owner := ⟨2⟩, type := written "Missing" }]⟩
  bySignature := ((Std.TreeMap.empty.insertIfNew "com/app/Foo" ⟨0⟩).insertIfNew
    "com/app/Foo$Inner" ⟨1⟩).insertIfNew "com/app/Foo$1Task" ⟨2⟩

theorem sample_reachable : Reachable sample := by
  have hfoo := Reachable.init.tail
    (@Step.declare _ _ (.package "com.app") (classNamed "Foo") ⟨0⟩ rfl)
  have hinner := hfoo.tail (@Step.declare _ _ (.type ⟨0⟩) (classNamed "Inner") ⟨1⟩ rfl)
  have hrun := hinner.tail
    (@Step.addMethod _ _ { owner := ⟨0⟩, returnType := written "void" } ⟨0⟩ rfl)
  have htask := hrun.tail
    (@Step.declare _ _ (.code (.method ⟨0⟩)) (classNamed "Task") ⟨2⟩ rfl)
  have hqueue := htask.tail
    (@Step.addField _ _ { owner := ⟨2⟩, type := written "Inner[]" } ⟨0⟩ rfl)
  exact hqueue.tail (@Step.addField _ _ { owner := ⟨2⟩, type := written "Missing" } ⟨1⟩ rfl)

end Program

end ClassTable

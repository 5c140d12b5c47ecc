import ClassTable.Proofs.Program.Census
import ClassTable.Proofs.Program.Supertypes
import ClassTable.Proofs.Session.Operations

/-!
# Supertypes stay

Supertypes are computed anew each time, so that a type keeps them rests on what they are computed
from. The head of a type gets longer only by references that are attached to it, and those it
has keep their types. Kinds are fixed when a type is declared or registered. Finally the
specialization that stands for the base of an enumeration has its number once it was asked for.
-/

namespace ClassTable

/-- What no operation changes in the head of a declaration but attaching a reference to it. -/
def Declaration.headShape (d : Declaration) : Kind × Nat × Nat :=
  (d.kind, d.extendsList.size, d.implementsList.size)

namespace Program

/-! ## Heads -/

/-- The head of the type is no longer in `q` than in `p`. -/
def KeepsHead (id : TypeId) (p q : Program) : Prop :=
  ∀ d, p.types.get? id = some d → ∃ d', q.types.get? id = some d' ∧ d'.headShape = d.headShape

theorem keepsHead_refl (id : TypeId) (p : Program) : KeepsHead id p p := fun d hd => ⟨d, hd, rfl⟩

theorem KeepsHead.trans {id : TypeId} {p q r : Program} (hpq : KeepsHead id p q)
    (hqr : KeepsHead id q r) : KeepsHead id p r := by
  intro d hd
  obtain ⟨d', hd', hshape⟩ := hpq d hd
  obtain ⟨d'', hd'', hshape'⟩ := hqr d' hd'
  exact ⟨d'', hd'', hshape'.trans hshape⟩

/-- No head gets longer. -/
theorem keepsHead_of_map {p q : Program} (id : TypeId)
    (h : q.types.map Declaration.headShape = p.types.map Declaration.headShape) :
    KeepsHead id p q := fun _ hd => Store.get?_of_map_eq h hd

theorem keepsHead_modify {p q : Program} (id : TypeId) {o : TypeId}
    {f : Declaration → Declaration} (hq : q.types = p.types.modify o f)
    (hf : ∀ d, (f d).headShape = d.headShape) : KeepsHead id p q :=
  keepsHead_of_map id (by rw [hq]; exact Store.map_modify_eq hf _ _)

theorem keepsHead_declare {p q : Program} (id : TypeId) {scope : Scope} {head : Head}
    {new : TypeId} (h : p.declare scope head = .ok (new, q)) : KeepsHead id p q := by
  obtain ⟨signature, counted, _, hcount, _, _, rfl⟩ := declare_eq_ok h
  have hcounted : KeepsHead id p counted := by
    rcases countLocalType_eq_ok hcount with ⟨_, rfl⟩ | ⟨_, _, _, _, _, rfl⟩
    · exact keepsHead_refl id _
    · exact keepsHead_modify id rfl fun _ => rfl
  intro d hd
  obtain ⟨d', hd', hshape⟩ := hcounted d hd
  exact ⟨d', get?_push_of_get? id d' hd', hshape⟩

/-- A reference is attached to another type. -/
theorem keepsHead_update {p q : Program} {id o : TypeId} {f : Declaration → Declaration}
    (hne : o ≠ id)
    (h : (do let types ← p.types.update o f; return { p with types }) = Except.ok q) :
    KeepsHead id p q := by
  obtain ⟨types, htypes, hq⟩ := bind_eq_ok.mp h
  obtain ⟨_, rfl⟩ := Store.update_eq_ok_iff.mp htypes
  cases hq
  intro d hd
  exact ⟨d, by rw [Store.get?_modify, if_neg hne, hd], rfl⟩

/-- A member is attached, which is not part of a head. -/
theorem keepsHead_attach {p q : Program} (id : TypeId) {e : Entity} {α : Type}
    {sort : MemberSort e α} {x : α} {new : EntityId e} (hsort : sort.OneOfFour)
    (h : p.attach sort x = .ok (new, q)) : KeepsHead id p q := by
  obtain ⟨_, rfl⟩ := attach_eq_ok h
  refine keepsHead_modify id rfl fun d => ?_
  cases hsort <;> rfl

theorem keepsHead_outline {p q : Program} (id : TypeId) (h : q.outline = p.outline) :
    KeepsHead id p q := by
  have hview : ∀ r : Program, r.outline.types.map Declaration.headShape =
      r.types.map Declaration.headShape := by
    intro r
    simp only [outline, Store.map_map, Declaration.headShape, Declaration.outline, Array.size_map]
    rfl
  refine keepsHead_of_map id ?_
  rw [← hview q, h, hview p]

/-! ## References and handles -/

/-- References that have their types keep them, in a list that is not longer. -/
theorem handles_later {rs rs' : Array Reference} {types : List TypeHandle}
    (hsize : rs'.size = rs.size) (hlater : Reference.Continued rs rs')
    (h : handles rs = .ok types) : handles rs' = .ok types := by
  rw [handles_eq_ok_iff] at h ⊢
  rw [← h]
  refine List.ext_getElem? fun i => ?_
  simp only [List.getElem?_map, Array.getElem?_toList]
  cases hr : rs[i]? with
  | none => rw [Array.getElem?_eq_none_iff.mpr (hsize ▸ Array.getElem?_eq_none_iff.mp hr)]
  | some r =>
      obtain ⟨r', hr', hr'later⟩ := hlater i r hr
      have hi := congrArg (fun types => types[i]?) h
      simp only [List.getElem?_map, Array.getElem?_toList, hr, Option.map_some] at hi
      obtain ⟨type, _, htype⟩ := Option.map_eq_some_iff.mp hi.symm
      rw [hr', Option.map_some, Option.map_some, hr'later.resolved type htype.symm, htype]

/-- What was known of a live type is known later. -/
theorem kindOf_live {p q : Program} {c c' : Catalog} (hprogram : p.Grows q)
    (hcatalog : c.Grows c') {type : TypeHandle} (h : p.Live c.inventory type) :
    q.kindOf c' type = p.kindOf c type := by
  cases type with
  | declared id =>
      obtain ⟨d, hd⟩ := Store.get?_of_lt h
      obtain ⟨d', hd', hinitial⟩ := hprogram.types id d hd
      rw [kindOf, kindOf, hd, hd', Option.map_some, Option.map_some,
        Declaration.kind_of_initial hinitial]
  | canonical i =>
      show (c'.inventory.get? i).map Entry.kind = (c.inventory.get? i).map Entry.kind
      rcases h with hprimitive | hknown
      · rw [Inventory.get?_of_isPrimitive _ hprimitive, Inventory.get?_of_isPrimitive _ hprimitive]
      · obtain ⟨e, he⟩ := Option.isSome_iff_exists.mp hknown
        rw [he, hcatalog.get i e he]

end Program

namespace Session

open Program

/-! ## Runs that leave the head alone -/

theorem keepsHead_accept {s : Session Catalog} {id : TypeId} {result : Except Fault Program}
    (h : ∀ q, result = .ok q → s.program.KeepsHead id q) :
    s.program.KeepsHead id (s.accept result).program := by
  cases result with
  | error fault => exact keepsHead_refl id _
  | ok q => exact h q rfl

theorem keepsHead_accept_named {s : Session Catalog} {id : TypeId} {α : Type}
    {result : Except Fault (α × Program)}
    (h : ∀ x q, result = .ok (x, q) → s.program.KeepsHead id q) :
    s.program.KeepsHead id (s.accept (result.map Prod.snd)).program := by
  refine keepsHead_accept fun q hq => ?_
  obtain ⟨⟨x, _⟩, hresult, rfl⟩ := map_eq_ok.mp hq
  exact h x _ hresult

theorem keepsHead_perform (s : Session Catalog) {op : Operation} {id : TypeId}
    (hop : op.attachesTo ≠ some id) : s.program.KeepsHead id (s.perform op).program := by
  cases op with
  | declare scope head => exact keepsHead_accept_named fun _ _ h => keepsHead_declare id h
  | addExtends o r | addImplements o r =>
      have hne : o ≠ id := fun heq => hop (congrArg some heq)
      exact keepsHead_accept fun _ h => keepsHead_update hne h
  | addField x => exact keepsHead_accept_named fun _ _ h => keepsHead_attach id .field h
  | addMethod x => exact keepsHead_accept_named fun _ _ h => keepsHead_attach id .method h
  | addConstructor x =>
      exact keepsHead_accept_named fun _ _ h => keepsHead_attach id .constructor h
  | addInitializer x =>
      exact keepsHead_accept_named fun _ _ h => keepsHead_attach id .initializer h
  | resolveAt site type =>
      simp only [perform]
      split
      · rename_i hresolve
        exact keepsHead_outline id (outline_resolveAt hresolve)
      · exact keepsHead_refl id _
  | resolveAll =>
      simp only [perform]
      split
      · rename_i hpass
        exact keepsHead_outline id (outline_resolveAll hpass)
      · exact keepsHead_refl id _
  | request q => exact keepsHead_refl id _
  | supertypes other => exact keepsHead_refl id _

theorem keepsHead_run (s : Session Catalog) {ops : List Operation} {id : TypeId}
    (hops : ∀ op ∈ ops, op.attachesTo ≠ some id) : s.program.KeepsHead id (s.run ops).program := by
  induction ops generalizing s with
  | nil => exact keepsHead_refl id _
  | cons op ops ih =>
      have hop := keepsHead_perform s (hops op List.mem_cons_self)
      exact hop.trans (ih (s.perform op) fun x hx => hops x (List.mem_cons_of_mem op hx))

/-- A head that does not get longer has the same handles, once they are all known. -/
theorem Advances.handles {s t : Session Catalog} (h : s.Advances t) {id : TypeId}
    {d d' : Declaration} (hd : s.program.types.get? id = some d)
    (hd' : t.program.types.get? id = some d') (hshape : d'.headShape = d.headShape) :
    (∀ types, Program.handles d.extendsList = .ok types →
      Program.handles d'.extendsList = .ok types) ∧
    ∀ types, Program.handles d.implementsList = .ok types →
      Program.handles d'.implementsList = .ok types := by
  obtain ⟨_, hextends, himplements⟩ : d'.kind = d.kind ∧
      d'.extendsList.size = d.extendsList.size ∧
      d'.implementsList.size = d.implementsList.size := by
    simpa [Declaration.headShape] using hshape
  obtain ⟨hextendsLater, himplementsLater⟩ := h.keeps.head hd hd'
  exact ⟨fun _ => handles_later hextends hextendsLater,
    fun _ => handles_later himplements himplementsLater⟩

end Session

namespace Program

/-! ## Supertypes -/

variable {p q : Program} {c c' : Catalog} {id : TypeId} {d d' : Declaration}

/-- The key of the base of enumerations, specialized to an enumeration. -/
def enumKey (c : Catalog) (id : TypeId) : TypeKey := .specialized c.enumBase [.declared id]

/-- Once the specialization is there, nothing is added. -/
theorem enumSupertypes_known {i : TypeIndex} (h : c.inventory.findKey? (enumKey c id) = some i) :
    enumSupertypes c id d = ((handles d.implementsList).map (.canonical i :: ·), c) := by
  refine enumSupertypes_of_specialize ?_
  rw [c.specialize_eq, Inventory.specialize_known h]

/-- The specialization is refused, or it is there afterwards. -/
theorem enumSupertypes_cases (c : Catalog) (id : TypeId) (d : Declaration) :
    (∃ cause, enumSupertypes c id d = (.error (.registry cause), c)) ∨
    ∃ i c', enumSupertypes c id d = ((handles d.implementsList).map (.canonical i :: ·), c') ∧
      c'.inventory.findKey? (enumKey c' id) = some i := by
  rcases c.specialize_outcome c.enumBase [.declared id] with
    ⟨i, hfind, hcase⟩ | ⟨cause, hcase⟩ | ⟨base, _, hcase⟩
  · exact Or.inr ⟨i, c, enumSupertypes_of_specialize hcase, hfind⟩
  · exact Or.inl ⟨cause, enumSupertypes_of_refused hcase⟩
  · exact Or.inr ⟨_, _, enumSupertypes_of_specialize hcase, Catalog.find_of_specialize hcase⟩

theorem enumSupertypes_again :
    enumSupertypes (enumSupertypes c id d).2 id d = enumSupertypes c id d := by
  rcases enumSupertypes_cases c id d with ⟨cause, h⟩ | ⟨i, grown, h, hknown⟩
  · rw [h, h]
  · rw [h]
    exact enumSupertypes_known hknown

/-- The supertypes of an enumeration, asked for again later. -/
theorem enumSupertypes_later {l : List TypeHandle} (h : (enumSupertypes c id d).1 = .ok l)
    (hcatalog : (enumSupertypes c id d).2.Grows c')
    (himplements : ∀ types, handles d.implementsList = .ok types →
      handles d'.implementsList = .ok types) :
    enumSupertypes c' id d' = (.ok l, c') := by
  rcases enumSupertypes_cases c id d with ⟨cause, hcase⟩ | ⟨i, grown, hcase, hknown⟩
  · rw [hcase] at h
    cases h
  · rw [hcase] at h hcatalog
    obtain ⟨types, htypes, rfl⟩ := map_eq_ok.mp h
    have hfind := hcatalog.find _ i hknown
    rw [enumKey, ← hcatalog.enumBase] at hfind
    rw [enumSupertypes_known hfind, himplements types htypes]
    rfl

/-- Whether there is a class among the types of some references does not change. -/
theorem any_isClass_later (hprogram : p.Grows q) (hcatalog : c.Grows c')
    {references : Array Reference} {types : List TypeHandle}
    (h : handles references = .ok types)
    (hlive : ∀ r ∈ references, ∀ type, r.resolved = some type → p.Live c.inventory type) :
    (types.any fun type => (q.kindOf c' type).any Kind.isClass) =
      types.any fun type => (p.kindOf c type).any Kind.isClass := by
  rw [Bool.eq_iff_iff, List.any_eq_true, List.any_eq_true]
  refine exists_congr fun type => and_congr_right fun htype => ?_
  have hmem : some type ∈ references.toList.map Reference.resolved := by
    rw [handles_eq_ok_iff.mp h]
    exact List.mem_map_of_mem htype
  obtain ⟨r, hr, hresolved⟩ := List.mem_map.mp hmem
  rw [kindOf_live hprogram hcatalog (hlive r (Array.mem_toList_iff.mp hr) type hresolved)]

/-- The supertypes of any other type, asked for again later. -/
theorem ordinarySupertypes_later {l : List TypeHandle} (h : p.ordinarySupertypes c d = .ok l)
    (hprogram : p.Grows q) (hcatalog : c.Grows c')
    (hlive : ∀ r ∈ d.references, ∀ type, r.resolved = some type → p.Live c.inventory type)
    (hextends : ∀ types, handles d.extendsList = .ok types → handles d'.extendsList = .ok types)
    (himplements : ∀ types, handles d.implementsList = .ok types →
      handles d'.implementsList = .ok types) :
    q.ordinarySupertypes c' d' = .ok l := by
  obtain ⟨explicit, hexplicit, h⟩ := bind_eq_ok.mp h
  have hexplicit' : handles (d'.extendsList ++ d'.implementsList) = .ok explicit := by
    obtain ⟨as, bs, rfl, has, hbs⟩ := handles_append.mp hexplicit
    exact handles_append.mpr ⟨as, bs, rfl, hextends as has, himplements bs hbs⟩
  have hany := any_isClass_later hprogram hcatalog hexplicit fun r hr =>
    hlive r (by simpa [Declaration.references] using hr)
  have hroot : Registry.root? c' = Registry.root? c := congrArg some hcatalog.rootObject
  refine bind_eq_ok.mpr ⟨explicit, hexplicit', ?_⟩
  rw [hany, hroot]
  exact h

/-- **Asking twice** gives the same answer, and adds nothing the second time. -/
theorem supertypes_again (p : Program) (c : Catalog) (id : TypeId) :
    p.supertypes (p.supertypes c id).2 id = p.supertypes c id := by
  cases hd : p.types.get? id with
  | none => simp only [supertypes, Store.get, hd]
  | some d =>
      simp only [supertypes_of_get? _ hd]
      by_cases henum : d.kind.isEnum = true
      · simp only [if_pos henum, enumSupertypes_again]
      · simp only [if_neg henum]

/-- The supertypes of any type, asked for again later. -/
theorem supertypes_later {l : List TypeHandle} (h : (p.supertypes c id).1 = .ok l)
    (hd : p.types.get? id = some d) (hd' : q.types.get? id = some d') (hkind : d'.kind = d.kind)
    (hprogram : p.Grows q) (hcatalog : (p.supertypes c id).2.Grows c')
    (hlive : ∀ r ∈ d.references, ∀ type, r.resolved = some type → p.Live c.inventory type)
    (hextends : ∀ types, handles d.extendsList = .ok types → handles d'.extendsList = .ok types)
    (himplements : ∀ types, handles d.implementsList = .ok types →
      handles d'.implementsList = .ok types) :
    q.supertypes c' id = (.ok l, c') := by
  rw [supertypes_of_get? c hd] at h hcatalog
  rw [supertypes_of_get? c' hd', hkind]
  by_cases henum : d.kind.isEnum = true
  · rw [if_pos henum] at h hcatalog ⊢
    exact enumSupertypes_later h hcatalog himplements
  · rw [if_neg henum] at h hcatalog ⊢
    rw [ordinarySupertypes_later h hprogram hcatalog hlive hextends himplements]

end Program

namespace Session

open Program

/--
**A type keeps its supertypes.**

Asking for the supertypes of a type twice gives the same answer, whatever it is, and adds nothing
the second time. Once there is an answer, and the types that its head refers to are there, the
answer is the same after any operations that attach no reference to the head of the type itself,
and asking for it adds nothing.
-/
theorem supertypes_stable {p : Program} {c : Catalog} (hp : p.Reachable) (hc : c.Reachable)
    (id : TypeId) :
    p.supertypes (p.supertypes c id).2 id = p.supertypes c id ∧
    ∀ l, (p.supertypes c id).1 = .ok l →
      (∀ d : Declaration, p.types.get? id = some d → ∀ r ∈ d.references, ∀ type,
        r.resolved = some type → p.Live c.inventory type) →
      ∀ (s later : Session Catalog) (ops : List Operation),
        s.program = p → s.registry = (p.supertypes c id).2 →
        (∀ op ∈ ops, op.attachesTo ≠ some id) → s.run ops = later →
        later.program.Reachable ∧ later.registry.Reachable ∧
          later.program.supertypes later.registry id = (.ok l, later.registry) := by
  refine ⟨supertypes_again p c id, ?_⟩
  intro l hl hlive s later ops hprogram hregistry hops hrun
  subst hprogram hrun
  have hadvances := advances_run s ops
  have hasked : s.registry.Reachable := by
    rw [hregistry]
    exact Catalog.reachable_later hc (later_supertypes s.program c id)
  refine ⟨hadvances.program hp, Catalog.reachable_later hasked hadvances.registry, ?_⟩
  obtain ⟨d, hd⟩ : ∃ d, s.program.types.get? id = some d := by
    cases hd : s.program.types.get? id with
    | some d => exact ⟨d, rfl⟩
    | none =>
        rw [Program.supertypes, Store.get, hd] at hl
        cases hl
  obtain ⟨d', hd', hshape⟩ := keepsHead_run s hops d hd
  obtain ⟨hextends, himplements⟩ := hadvances.handles hd hd' hshape
  have hcatalog := (Catalog.grows_later (Catalog.sound_reachable hasked) hadvances.registry).1
  rw [hregistry] at hcatalog
  exact Program.supertypes_later hl hd hd' (congrArg Prod.fst hshape) hadvances.grows hcatalog
    (hlive d hd) hextends himplements

/-- An interface `Shape`, and an enumeration `Color` that implements it. -/
def shapes : Program where
  types := ⟨#[
    .ofHead "Shape" (.package "")
      { kindToken := ⟨"interface", .dummy⟩, nameToken := some ⟨"Shape", .dummy⟩ },
    { Declaration.ofHead "Color" (.package "")
        { kindToken := ⟨"enum", .dummy⟩, nameToken := some ⟨"Color", .dummy⟩ } with
      implementsList := #[{ written "Shape" with resolved := some (.declared ⟨0⟩) }] }]⟩
  bySignature := (Std.TreeMap.empty.insertIfNew "Shape" ⟨0⟩).insertIfNew "Color" ⟨1⟩

theorem shapes_reachable : shapes.Reachable := by
  have hshape := Reachable.init.tail (@Step.declare _ _ (.package "")
    { kindToken := ⟨"interface", .dummy⟩, nameToken := some ⟨"Shape", .dummy⟩ } ⟨0⟩ rfl)
  have hcolor := hshape.tail (@Step.declare _ _ (.package "")
    { kindToken := ⟨"enum", .dummy⟩, nameToken := some ⟨"Color", .dummy⟩ } ⟨1⟩ rfl)
  exact hcolor.tail (@Step.addImplements _ _ ⟨1⟩
    { written "Shape" with resolved := some (.declared ⟨0⟩) } rfl)

/-- What is done to the interface does not matter to the enumeration. -/
theorem shapes_supertypes : ∃ later : Session Catalog,
    run { program := shapes, registry := (shapes.supertypes (Catalog.ofCoreNames {}) ⟨1⟩).2 }
      [.addExtends ⟨0⟩ (written "Figure"), .request (.register "Figure" .interfaceType 0),
        .resolveAll] = later ∧
    later.program.supertypes later.registry ⟨1⟩ =
      (.ok [.canonical ⟨18⟩, .declared ⟨0⟩], later.registry) := by
  have hlive : ∀ d : Declaration, shapes.types.get? ⟨1⟩ = some d → ∀ r ∈ d.references, ∀ type,
      r.resolved = some type → shapes.Live (Catalog.ofCoreNames {}).inventory type := by
    intro d hd r hr type htype
    cases hd
    cases List.mem_singleton.mp hr
    cases htype
    exact Nat.zero_lt_two
  obtain ⟨_, hstable⟩ := supertypes_stable (c := Catalog.ofCoreNames {}) shapes_reachable
    ⟨_, _, .seed rfl rfl⟩ ⟨1⟩
  exact ⟨_, rfl, (hstable _ rfl hlive _ _ _ rfl rfl (by decide) rfl).2.2⟩

end Session

end ClassTable

import ClassTable.Program.Supertypes
import ClassTable.Proofs.Program.InPlace
import ClassTable.Proofs.Program.Repetition

/-!
# Every id leads somewhere

A program is full of ids: types list their members, members name their owners, and scopes name
types and members. Nothing checks them again once they are stored, so a walk that follows one
relies on it having been handed out. In a reachable program all of them have been (`Intact`),
and moreover the lists of the types are a partition of the members, so that a walk over the
types meets each member once, and meets it at its owner.

Hence no fault is possible but the one that a caller makes. Resolving, looking names up and
asking for supertypes cannot fail for want of an element, against any registry whatever. An edit
fails if it is given an id that was never handed out, and then before the first write; with the
others it can fail only because a table is full.
-/

namespace ClassTable

namespace Program

/-- Every stored id was handed out, and the lists of the types are a partition of the members. -/
structure Intact (p : Program) : Prop where
  /-- Lists are strictly increasing. -/
  increasing : ∀ e t d, p.types.get? t = some d →
    (d.listed e).toList.Pairwise fun a b => a.index < b.index
  /-- What is listed is there, and names the type as its owner. -/
  listed : ∀ e t d, p.types.get? t = some d → ∀ id ∈ d.listed e,
    id.index < (p.owners e).size ∧ (p.owners e).get id = .ok t
  /-- Every member has an owner, which is a type of the program, and stands in the list of that
  type and of no other. -/
  partitioned : ∀ e (id : EntityId e), id.index < (p.owners e).size →
    ∃ o, (p.owners e).get id = .ok o ∧ o.index < p.types.size ∧
      ∀ t d, p.types.get? t = some d → (id ∈ d.listed e ↔ t = o)
  /-- Scopes name what is there. -/
  scopes : ∀ t d, p.types.get? t = some d → p.Knows d.scope

/-! ## Owners -/

/-- The owner of code is the owner of its member. -/
theorem owner_of_codeOwner {p : Program} {block : CodeMember} {o : TypeId}
    (h : p.codeOwner block = .ok o) :
    p.Knows (.code block) ∧ ∃ e id, (p.owners e).get? id = some o := by
  have hmember : ∀ {e : Entity} {α : Type} {s : Store e α} {id : EntityId e} {owner : α → TypeId},
      (s.get id).map owner = .ok o → id.index < s.size ∧ (s.map owner).get? id = some o := by
    intro e α s id owner howner
    obtain ⟨x, hx, rfl⟩ := map_eq_ok.mp howner
    have hget := Store.get_eq_ok_iff.mp hx
    exact ⟨Store.size_of_get? hget, by rw [Store.get?_map, hget]; rfl⟩
  cases block with
  | method id => exact ⟨(hmember h).1, .method, id, (hmember h).2⟩
  | constructor id => exact ⟨(hmember h).1, .constructor, id, (hmember h).2⟩
  | initializer id => exact ⟨(hmember h).1, .initializer, id, (hmember h).2⟩

/-- Code of a member that is there belongs to a type. -/
theorem exists_codeOwner {p : Program} (h : p.AllRostered) {block : CodeMember}
    (hblock : p.Knows (.code block)) :
    ∃ o d, p.codeOwner block = .ok o ∧ p.types.get? o = some d := by
  have hmember : ∀ {e : Entity} {α : Type} {s : Store e α} {id : EntityId e} (owner : α → TypeId),
      id.index < s.size → ∃ o, (s.get id).map owner = .ok o := by
    intro e α s id owner hid
    obtain ⟨x, hx⟩ := Store.get?_of_lt hid
    exact ⟨owner x, by rw [Store.get_eq_ok_iff.mpr hx]; rfl⟩
  have howner : ∃ o, p.codeOwner block = .ok o := by
    cases block with
    | method id => exact hmember Method.owner hblock
    | constructor id => exact hmember Constructor.owner hblock
    | initializer id => exact hmember Initializer.owner hblock
  obtain ⟨o, ho⟩ := howner
  obtain ⟨_, e, id, hid⟩ := owner_of_codeOwner ho
  obtain ⟨d, hd⟩ := Store.get?_of_lt (s := p.types) (owner_lt h hid)
  exact ⟨o, d, ho, hd⟩

theorem knows_scope {p : Program} (h : p.ScopesSign) {t : TypeId} {d : Declaration}
    (hd : p.types.get? t = some d) : p.Knows d.scope := by
  have hsigned := h t d hd
  generalize d.signature = s, d.scope = scope at hsigned ⊢
  cases hsigned with
  | package package => trivial
  | type houter _ => exact Store.size_of_get? houter
  | code ho _ _ _ => exact (owner_of_codeOwner ho).1

theorem intact_reachable {p : Program} (hp : p.Reachable) : p.Intact := by
  have hrostered := rostered_reachable hp
  refine ⟨fun e t d hd => ?_, fun e t d hd id hid => ?_, fun e id hid => ?_,
    fun t d hd => knows_scope (signed_reachable hp).signed hd⟩
  · exact (hrostered e).increasing t _ (by rw [lists, Store.get?_map, hd]; rfl)
  · have howner := (mem_listed_iff hrostered hd e id).mp hid
    exact ⟨Store.size_of_get? howner, Store.get_eq_ok_iff.mpr howner⟩
  · obtain ⟨o, ho⟩ := Store.get?_of_lt hid
    refine ⟨o, Store.get_eq_ok_iff.mpr ho, owner_lt hrostered ho, fun t d hd => ?_⟩
    rw [mem_listed_iff hrostered hd, ho, Option.some.injEq, eq_comm]

/-- The type that a stored scope belongs to is there. -/
theorem exists_owningType {p : Program} (hp : p.Reachable) {t : TypeId} {d : Declaration}
    (hd : p.types.get? t = some d) :
    ∃ owner, p.owningType d.scope = .ok owner ∧ ∀ o, owner = some o → o.index < p.types.size := by
  have hknows := knows_scope (signed_reachable hp).signed hd
  cases hs : d.scope with
  | package package => exact ⟨none, rfl, fun o ho => absurd ho (by simp)⟩
  | type o =>
      refine ⟨some o, rfl, fun o' ho' => ?_⟩
      cases ho'
      rwa [hs] at hknows
  | code block =>
      rw [hs] at hknows
      obtain ⟨o, outer, ho, houter⟩ := exists_codeOwner (rostered_reachable hp) hknows
      refine ⟨some o, by rw [owningType, ho]; rfl, fun o' ho' => ?_⟩
      cases ho'
      exact Store.size_of_get? houter

end Program

/-! ## A pass against any registry -/

namespace Resolution

open Program

variable {ρ : Type} [Registry ρ] {p : Program}

/-- A visit finds everything that it looks for. -/
theorem exists_visit (hp : p.Reachable) {s : Resolution ρ}
    (houtline : s.program.outline = p.outline) {context : TypeId} {site : Site}
    (howner : p.siteOwner site = .ok context) (href : p.HasReference site) :
    ∃ s', s.visit (context, site) = .ok s' := by
  obtain ⟨r, hr⟩ := (hasReference_of_outline houtline site).mpr href
  cases hres : r.resolved with
  | some type => exact ⟨_, visit_resolved hr hres⟩
  | none =>
      obtain ⟨d, hd⟩ := Store.get?_of_lt (siteOwner_lt (rostered_reachable hp) howner href)
      obtain ⟨found, hfound⟩ :=
        exists_lookupName (signed_reachable hp).signed s.registry hd r.elementName
      -- names are looked up as before the pass, which wrote handles only
      rw [← lookupName_outline, ← houtline, lookupName_outline] at hfound
      have hfind : ∃ answer, find s.program s.registry context r = .ok answer := by
        simp only [find, hfound, bind, Except.bind]
        cases found <;> exact ⟨_, rfl⟩
      obtain ⟨⟨type, registry⟩, hfind⟩ := hfind
      cases type with
      | some type => exact ⟨_, (visit_open hr hres).trans (resolveOpen_found hfind)⟩
      | none => exact ⟨_, (visit_open hr hres).trans (resolveOpen_missed hfind)⟩

theorem exists_foldlM (hp : p.Reachable) {places : List (TypeId × Site)}
    (hplaces : ∀ place ∈ places, p.siteOwner place.2 = .ok place.1 ∧ p.HasReference place.2)
    {s : Resolution ρ} (houtline : s.program.outline = p.outline) :
    ∃ s', places.foldlM visit s = .ok s' := by
  induction places generalizing s with
  | nil => exact ⟨s, rfl⟩
  | cons place places ih =>
      obtain ⟨howner, href⟩ := hplaces place List.mem_cons_self
      obtain ⟨mid, hmid⟩ := exists_visit hp houtline howner href
      obtain ⟨s', hs'⟩ := ih (fun other hother => hplaces other (List.mem_cons_of_mem place hother))
        ((outline_visit hmid).trans houtline)
      exact ⟨s', by rw [List.foldlM_cons, hmid]; exact hs'⟩

/-- **A pass over a reachable program succeeds,** whatever the registry answers. -/
theorem exists_resolveAll (hp : p.Reachable) (r : ρ) : ∃ s, p.resolveAll r = .ok s := by
  obtain ⟨places, hplaces, hmem⟩ := mem_referenceSites (rostered_reachable hp)
  obtain ⟨s, hs⟩ := exists_foldlM (s := { program := p, registry := r }) hp
    (fun place hplace => (hmem place.1 place.2).mp hplace) rfl
  exact ⟨s, by rw [resolveAll, hplaces]; exact hs⟩

end Resolution

namespace Program

/-! ## Errors -/

/-- There is a result, or one of these errors. -/
def ErrorsOnly {ε α : Type} (allowed : ε → Prop) (result : Except ε α) : Prop :=
  ∀ cause, result = .error cause → allowed cause

section ErrorsOnly

variable {ε α β : Type} {allowed : ε → Prop}

theorem errorsOnly_ok (x : α) : ErrorsOnly allowed (.ok x) := fun _ h => by cases h

theorem errorsOnly_error {cause : ε} (h : allowed cause) :
    ErrorsOnly (α := α) allowed (.error cause) := fun _ heq => by
  cases heq
  exact h

theorem ErrorsOnly.bind {result : Except ε α} (h : ErrorsOnly allowed result)
    {f : α → Except ε β} (hf : ∀ x, ErrorsOnly allowed (f x)) :
    ErrorsOnly allowed (result >>= f) := by
  cases result with
  | error cause => exact errorsOnly_error (h cause rfl)
  | ok x => exact hf x

theorem ErrorsOnly.map {result : Except ε α} (h : ErrorsOnly allowed result) (f : α → β) :
    ErrorsOnly allowed (result.map f) := by
  cases result with
  | error cause => exact errorsOnly_error (h cause rfl)
  | ok x => exact errorsOnly_ok (f x)

end ErrorsOnly

/-! ## Supertypes -/

/-- There is a result, or an error other than a fault. -/
def Faultless {α : Type} : Except QueryError α → Prop :=
  ErrorsOnly fun cause => ∀ fault, cause ≠ .fault fault

theorem faultless_handles (references : Array Reference) : Faultless (handles references) := by
  have hhandle : ∀ r : Reference, Faultless r.handle := by
    intro r
    unfold Reference.handle
    split
    · exact errorsOnly_ok _
    · exact errorsOnly_error fun _ => QueryError.noConfusion
  unfold handles
  induction references.toList with
  | nil => exact errorsOnly_ok _
  | cons r others ih =>
      rw [List.mapM_cons]
      exact (hhandle r).bind fun _ => ih.bind fun _ => errorsOnly_ok _

/-- **Asking for the supertypes of a declared type is never a fault.** -/
theorem faultless_supertypes {ρ : Type} [Registry ρ] (p : Program) (r : ρ) {id : TypeId}
    (hid : id.index < p.types.size) : Faultless (p.supertypes r id).1 := by
  obtain ⟨d, hd⟩ := Store.get?_of_lt hid
  rw [supertypes, Store.get_eq_ok_iff.mpr hd]
  simp only []
  split
  · unfold enumSupertypes
    split
    · exact errorsOnly_error fun _ => QueryError.noConfusion
    · split
      · exact errorsOnly_error fun _ => QueryError.noConfusion
      · exact (faultless_handles _).map _
  · refine (faultless_handles _).bind fun explicit => ?_
    split
    · exact errorsOnly_ok _
    · split
      · exact errorsOnly_error fun _ => QueryError.noConfusion
      · exact errorsOnly_ok _

/-! ## Edits of what is there -/

/-- There is a result, unless a table was full. -/
def GivenRoom {α : Type} : Except Fault α → Prop :=
  ErrorsOnly fun fault => ∃ size, fault = .indexOverflow size

theorem givenRoom_add {e : Entity} {α : Type} (s : Store e α) (x : α) : GivenRoom (s.add x) := by
  unfold Store.add freshIndex
  split
  · exact errorsOnly_ok _
  · exact errorsOnly_error ⟨_, rfl⟩

theorem givenRoom_update {e : Entity} {α : Type} {s : Store e α} {id : EntityId e}
    (h : id.index < s.size) (f : α → α) : GivenRoom (s.update id f) := by
  rw [Store.update_eq_ok_iff.mpr ⟨h, rfl⟩]
  exact errorsOnly_ok _

theorem givenRoom_newSignature {p : Program} (h : p.AllRostered) {scope : Scope}
    (hscope : p.Knows scope) (name : String) : GivenRoom (p.newSignature scope name) := by
  cases scope with
  | package package => exact errorsOnly_ok _
  | type outer =>
      obtain ⟨d, hd⟩ := Store.get?_of_lt (s := p.types) hscope
      rw [newSignature, Store.get_eq_ok_iff.mpr hd]
      exact errorsOnly_ok _
  | code block =>
      obtain ⟨o, d, ho, hd⟩ := exists_codeOwner h hscope
      simp only [newSignature, ho, bind, Except.bind, Store.get_eq_ok_iff.mpr hd]
      exact errorsOnly_ok _

theorem givenRoom_countLocalType {p : Program} (h : p.AllRostered) {scope : Scope}
    (hscope : p.Knows scope) : GivenRoom (p.countLocalType scope) := by
  cases scope with
  | package package => exact errorsOnly_ok _
  | type outer => exact errorsOnly_ok _
  | code block =>
      obtain ⟨o, d, ho, hd⟩ := exists_codeOwner h hscope
      rw [countLocalType, ho]
      exact (givenRoom_update (Store.size_of_get? hd) _).bind fun _ => errorsOnly_ok _

/-- **With ids that were handed out, an edit succeeds if there is room for it.** -/
theorem givenRoom_apply {p : Program} (h : p.AllRostered) {edit : Edit}
    (hplace : p.Knows edit.place) : GivenRoom (edit.apply p) := by
  cases edit with
  | declare scope head =>
      -- signature and counter read what is there, so only the table can be full
      refine ErrorsOnly.map ((givenRoom_newSignature h hplace _).bind fun signature => ?_) _
      refine (givenRoom_countLocalType h hplace).bind fun counted => ?_
      exact (givenRoom_add _ _).bind fun _ => errorsOnly_ok _
  | addExtends id r | addImplements id r =>
      exact (givenRoom_update hplace _).bind fun _ => errorsOnly_ok _
  | addField x | addMethod x | addConstructor x | addInitializer x =>
      refine ErrorsOnly.map ((givenRoom_add _ _).bind fun _ => ?_) _
      exact (givenRoom_update hplace _).bind fun _ => errorsOnly_ok _

/--
**Every id leads somewhere.**

In a reachable program the lists of the types are a partition of the members, and every id that
is stored was handed out. So whatever the registry answers, a pass succeeds, and a name is looked
up and supertypes are asked for, inside a type that was handed out, without a fault; a stored scope
belongs to a type that is there.

An edit in place comes to what the operation says. With ids that were handed out it succeeds
unless a table is full. With an id that was not, it fails and leaves the program as it was.
-/
theorem ids_lead_somewhere {p : Program} (hp : p.Reachable) :
    p.Intact ∧
    (∀ {ρ : Type} [Registry ρ] (r : ρ), (∃ s, p.resolveAll r = .ok s) ∧
      ∀ id : TypeId, id.index < p.size →
        (∀ name, ∃ type, p.lookupName r id name = .ok type) ∧
        Faultless (p.supertypes r id).1) ∧
    (∀ t d, p.types.get? t = some d → ∃ owner, p.owningType d.scope = .ok owner ∧
      ∀ o, owner = some o → o.index < p.size) ∧
    ∀ edit : Edit, outcome (edit.perform.run p) = edit.apply p ∧
      (p.Knows edit.place → GivenRoom (edit.apply p)) ∧
      (¬ p.Knows edit.place → ∃ fault, edit.perform.run p = .error fault p) := by
  refine ⟨intact_reachable hp, fun r => ⟨Resolution.exists_resolveAll hp r, fun id hid => ⟨?_, ?_⟩⟩,
    fun t d hd => exists_owningType hp hd, fun edit => ⟨outcome_perform p edit, ?_, ?_⟩⟩
  · obtain ⟨d, hd⟩ := Store.get?_of_lt (s := p.types) hid
    exact exists_lookupName (signed_reachable hp).signed r hd
  · exact faultless_supertypes p r hid
  · exact givenRoom_apply (rostered_reachable hp)
  · exact perform_unknown

/-- The sample has one method, so that nothing can be declared in code of a second one. -/
theorem sample_unknown_method : sample.Intact ∧
    (∃ s, sample.resolveAll (Catalog.ofCoreNames {}) = .ok s) ∧
    ∃ fault, (Edit.declare (.code (.method ⟨1⟩)) (classNamed "Lost")).perform.run sample =
      .error fault sample := by
  obtain ⟨hintact, hsafe, _, hedits⟩ := ids_lead_somewhere sample_reachable
  exact ⟨hintact, (hsafe _).1, (hedits _).2.2 (by decide)⟩

end Program

end ClassTable

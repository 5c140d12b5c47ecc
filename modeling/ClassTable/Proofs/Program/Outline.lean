import ClassTable.Program.Resolution
import ClassTable.Proofs.Program.Sites

/-!
# What resolution cannot touch

Resolving fills in the handles of references and does nothing else. The *outline*
of a program is the program with every handle blanked out, so that two programs
have the same outline exactly if they differ in handles only.

Names, scopes, members and the signature index are all part of the outline, and
name lookup reads nothing but those. A name therefore means the same in two
programs of one outline, whatever has been resolved in either.
-/

namespace ClassTable

/-! ## Outlines -/

/-- The reference as it was written, without its handle. -/
def Reference.erase (r : Reference) : Reference := { r with resolved := none }

/-- The parameter without the handle of its type. -/
def Parameter.outline (x : Parameter) : Parameter := x.mapType Reference.erase

/-- The annotation without the handle of its type. -/
def AnnotationUse.outline (x : AnnotationUse) : AnnotationUse := x.mapType Reference.erase

/-- The field without the handle of its type. -/
def Field.outline (f : Field) : Field := { f with type := f.type.erase }

/-- The constructor without handles. -/
def Constructor.outline (c : Constructor) : Constructor :=
  { c with
    parameters := c.parameters.map Parameter.outline
    throws := c.throws.map Reference.erase }

/-- The method without handles. -/
def Method.outline (m : Method) : Method :=
  { m with
    annotations := m.annotations.map AnnotationUse.outline
    returnType := m.returnType.erase
    parameters := m.parameters.map Parameter.outline
    throws := m.throws.map Reference.erase }

/-- The declaration without handles. -/
def Declaration.outline (d : Declaration) : Declaration :=
  { d with
    extendsList := d.extendsList.map Reference.erase
    implementsList := d.implementsList.map Reference.erase }

/-- Enclosing types without handles. -/
def Enclosure.outline (e : Enclosure) : Enclosure :=
  { e with types := e.types.map Declaration.outline }

/-- The program without handles. -/
def Program.outline (p : Program) : Program :=
  { p with
    types := p.types.map Declaration.outline
    fields := p.fields.map Field.outline
    methods := p.methods.map Method.outline
    constructors := p.constructors.map Constructor.outline }

@[simp] theorem Reference.erase_resolve (r : Reference) (type : TypeHandle) :
    (r.resolve type).2.erase = r.erase := by
  unfold Reference.resolve
  split <;> rfl

@[simp] theorem Parameter.outline_mapType {f : Reference → Reference}
    (hf : ∀ r, (f r).erase = r.erase) (x : Parameter) : (x.mapType f).outline = x.outline := by
  simp [Parameter.outline, Parameter.mapType, hf]

@[simp] theorem AnnotationUse.outline_mapType {f : Reference → Reference}
    (hf : ∀ r, (f r).erase = r.erase) (x : AnnotationUse) : (x.mapType f).outline = x.outline := by
  simp [AnnotationUse.outline, AnnotationUse.mapType, hf]

namespace Program

/-- **A change of handles keeps the outline.** -/
theorem outline_modifyReference (p : Program) (site : Site) {f : Reference → Reference}
    (hf : ∀ r, (f r).erase = r.erase) : (p.modifyReference site f).outline = p.outline := by
  have hparams : ∀ (xs : Array Parameter) (i : Nat),
      (xs.modify i (Parameter.mapType f)).map Parameter.outline = xs.map Parameter.outline :=
    map_modify_eq_map (Parameter.outline_mapType hf)
  have hnotes : ∀ (xs : Array AnnotationUse) (i : Nat),
      (xs.modify i (AnnotationUse.mapType f)).map AnnotationUse.outline
        = xs.map AnnotationUse.outline :=
    map_modify_eq_map (AnnotationUse.outline_mapType hf)
  have hrefs : ∀ (xs : Array Reference) (i : Nat),
      (xs.modify i f).map Reference.erase = xs.map Reference.erase := map_modify_eq_map hf
  cases site <;> simp only [modifyReference, outline, Program.mk.injEq, and_true, true_and]
  case extendsItem | implementsItem =>
    exact Store.map_modify_eq (fun d => by simp [Declaration.outline, hrefs]) _ _
  case fieldType =>
    exact Store.map_modify_eq (fun x => by simp [Field.outline, hf]) _ _
  case constructorParameter | constructorThrows =>
    exact Store.map_modify_eq (fun c => by simp [Constructor.outline, hparams, hrefs]) _ _
  case methodReturn | methodParameter | methodThrows | annotationItem =>
    exact Store.map_modify_eq (fun m => by simp [Method.outline, hf, hparams, hrefs, hnotes]) _ _

/-! ## Name lookup reads the outline only -/

theorem codeOwner_outline (p : Program) (block : CodeMember) :
    p.outline.codeOwner block = p.codeOwner block := by
  cases block with
  | method id =>
      simp only [codeOwner, outline, Store.get_map]
      cases p.methods.get id <;> rfl
  | constructor id =>
      simp only [codeOwner, outline, Store.get_map]
      cases p.constructors.get id <;> rfl
  | initializer id => rfl

theorem owningType_outline (p : Program) (scope : Scope) :
    p.outline.owningType scope = p.owningType scope := by
  cases scope with
  | package name => rfl
  | type id => rfl
  | code block => rw [owningType, owningType, codeOwner_outline]

/-! ### One step outwards -/

theorem enclosure_unknown {p : Program} {id : TypeId} {fault : Fault}
    (h : p.types.get id = .error fault) : p.enclosure id = .error fault := by
  rw [enclosure, h]
  rfl

theorem enclosure_top {p : Program} {id : TypeId} {d : Declaration} {name : String}
    (h : p.types.get id = .ok d) (hs : d.scope = .package name) :
    p.enclosure id = .ok { types := [d], package := some name } := by
  rw [enclosure, h]
  simp only [bind, Except.bind, hs]
  rfl

theorem enclosure_inner {p : Program} {id owner : TypeId} {d : Declaration}
    (h : p.types.get id = .ok d) (ho : p.owningType d.scope = .ok (some owner)) :
    p.enclosure id = if owner.index < id.index then (p.enclosure owner).map (·.enter d)
      else .ok { types := [d], package := none } := by
  rw [enclosure, h]
  simp only [bind, Except.bind]
  cases hs : d.scope with
  | package name => rw [hs] at ho; exact absurd ho (by simp [owningType])
  | type outer | code block =>
      rw [hs] at ho
      simp only [ho]
      split
      · cases p.enclosure owner <;> rfl
      · rfl

theorem enclosure_stray {p : Program} {id : TypeId} {d : Declaration} {fault : Fault}
    (h : p.types.get id = .ok d) (ho : p.owningType d.scope = .error fault) :
    p.enclosure id = .error fault := by
  rw [enclosure, h]
  simp only [bind, Except.bind]
  cases hs : d.scope with
  | package name | type outer => rw [hs] at ho; exact absurd ho (by simp [owningType])
  | code block =>
      rw [hs] at ho
      simp only [ho]

theorem owningType_eq_none {p : Program} {scope : Scope} (h : p.owningType scope = .ok none) :
    ∃ name, scope = .package name := by
  cases scope with
  | package name => exact ⟨name, rfl⟩
  | type id => exact absurd h (by simp [owningType])
  | code block =>
      unfold owningType at h
      cases hb : p.codeOwner block <;> simp [hb, Except.map] at h

theorem enclosure_outline (p : Program) (id : TypeId) :
    p.outline.enclosure id = (p.enclosure id).map Enclosure.outline := by
  -- by induction on the position, as the walk goes on to older types only
  obtain ⟨n, hn⟩ : ∃ n, id.index = n := ⟨_, rfl⟩
  induction n using Nat.strongRecOn generalizing id with
  | ind n ih =>
    have hget : p.outline.types.get id = (p.types.get id).map Declaration.outline :=
      Store.get_map ..
    cases hd : p.types.get id with
    | error fault =>
        rw [hd] at hget
        rw [enclosure_unknown hd, enclosure_unknown hget]
        rfl
    | ok d =>
        rw [hd] at hget
        cases ho : p.owningType d.scope with
        | error fault =>
            have ho' := (owningType_outline p d.scope).trans ho
            rw [enclosure_stray hd ho, enclosure_stray hget ho']
            rfl
        | ok owner =>
            have ho' := (owningType_outline p d.scope).trans ho
            cases owner with
            | none =>
                obtain ⟨name, hs⟩ := owningType_eq_none ho
                rw [enclosure_top hd hs, enclosure_top hget hs]
                rfl
            | some owner =>
                rw [enclosure_inner hd ho, enclosure_inner hget ho']
                split
                · rename_i hlt
                  rw [ih owner.index (hn ▸ hlt) owner rfl]
                  cases p.enclosure owner <;> rfl
                · rfl

theorem lookupMember_outline (p : Program) (e : Enclosure) (name : String) :
    p.outline.lookupMember e.outline name = p.lookupMember e name := by
  simp only [lookupMember, Enclosure.outline, List.findSome?_map]
  rfl

variable {ρ : Type} [Registry ρ]

theorem lookupWhole_outline (p : Program) (r : ρ) (context : TypeId) (name : String) :
    p.outline.lookupWhole r context name = p.lookupWhole r context name := by
  unfold lookupWhole
  cases Primitive.ofKeyword? name with
  | some primitive => rfl
  | none =>
      rw [enclosure_outline]
      cases p.enclosure context with
      | error fault => rfl
      | ok e =>
          simp only [Except.map, bind, Except.bind, lookupMember_outline]
          rfl

theorem signatureWithin_outline (p : Program) (r : ρ) (depth : Nat) (type : TypeHandle) :
    p.outline.signatureWithin r depth type = p.signatureWithin r depth type := by
  induction depth generalizing type with
  | zero =>
      cases type with
      | canonical i => rfl
      | declared id => simp [signatureWithin, outline, Declaration.outline, Function.comp_def]
  | succ depth ih =>
      cases type with
      | canonical i =>
          have hall : p.outline.signatureWithin r depth = p.signatureWithin r depth :=
            funext ih
          simp only [signatureWithin, hall]
      | declared id => simp [signatureWithin, outline, Declaration.outline, Function.comp_def]

theorem lookupNested_outline (p : Program) (r : ρ) (outer : TypeHandle) (names : List String) :
    p.outline.lookupNested r outer names = p.lookupNested r outer names := by
  simp only [lookupNested, readableSignature, signatureWithin_outline]
  rfl

/-- **A name means the same in all programs of one outline.** -/
theorem lookupName_outline (p : Program) (r : ρ) (context : TypeId) (name : String) :
    p.outline.lookupName r context name = p.lookupName r context name := by
  have hsplit : ∀ splits,
      p.outline.lookupSplit r context splits = p.lookupSplit r context splits := by
    intro splits
    induction splits with
    | nil => rfl
    | cons split later ih =>
        simp only [lookupSplit, lookupWhole_outline, ih]
        congr 1
        funext found
        simp only [lookupNested_outline]
  simp only [lookupName, lookupWhole_outline, hsplit]

end Program

/-! ## A pass keeps the outline -/

namespace Resolution

variable {ρ : Type} [Registry ρ] {s s' : Resolution ρ} {context : TypeId} {site : Site}
  {reference : Reference}

theorem visit_missing (h : s.program.reference? site = .ok none) :
    s.visit (context, site) = .ok s := by
  simp only [visit, h, bind, Except.bind]
  rfl

theorem visit_resolved {type : TypeHandle}
    (h : s.program.reference? site = .ok (some reference)) (hr : reference.resolved = some type) :
    s.visit (context, site) = .ok
      { s with tally := { s.tally with alreadyResolved := s.tally.alreadyResolved + 1 } } := by
  simp only [visit, h, hr, bind, Except.bind]
  rfl

theorem visit_open
    (h : s.program.reference? site = .ok (some reference)) (hr : reference.resolved = none) :
    s.visit (context, site) = s.resolveOpen context site reference := by
  simp only [visit, h, hr, bind, Except.bind]

theorem resolveOpen_found {type : TypeHandle} {registry : ρ}
    (h : find s.program s.registry context reference = .ok (some type, registry)) :
    s.resolveOpen context site reference = .ok
      { program := s.program.modifyReference site fun r => (r.resolve type).2
        registry
        tally := { s.tally with resolved := s.tally.resolved + 1 } } := by
  simp only [resolveOpen, h, bind, Except.bind]
  rfl

theorem resolveOpen_missed {registry : ρ}
    (h : find s.program s.registry context reference = .ok (none, registry)) :
    s.resolveOpen context site reference = .ok
      { s with registry, tally := { s.tally with unresolved := s.tally.unresolved + 1 } } := by
  simp only [resolveOpen, h, bind, Except.bind]
  rfl

/-- What a visit can do. -/
inductive Visited (s : Resolution ρ) (context : TypeId) (site : Site) : Resolution ρ → Prop where
  | missing : s.program.reference? site = .ok none → Visited s context site s
  | kept {reference : Reference} {type : TypeHandle} :
      s.program.reference? site = .ok (some reference) → reference.resolved = some type →
      Visited s context site
        { s with tally := { s.tally with alreadyResolved := s.tally.alreadyResolved + 1 } }
  | found {reference : Reference} {type : TypeHandle} {registry : ρ} :
      s.program.reference? site = .ok (some reference) → reference.resolved = none →
      find s.program s.registry context reference = .ok (some type, registry) →
      Visited s context site
        { program := s.program.modifyReference site fun r => (r.resolve type).2
          registry
          tally := { s.tally with resolved := s.tally.resolved + 1 } }
  | missed {reference : Reference} {registry : ρ} :
      s.program.reference? site = .ok (some reference) → reference.resolved = none →
      find s.program s.registry context reference = .ok (none, registry) →
      Visited s context site
        { s with registry, tally := { s.tally with unresolved := s.tally.unresolved + 1 } }

/-- **One visit.** -/
theorem visit_cases (h : s.visit (context, site) = .ok s') : s.Visited context site s' := by
  cases hr : s.program.reference? site with
  | error fault => simp [visit, hr, bind, Except.bind] at h
  | ok found =>
      cases found with
      | none =>
          rw [visit_missing hr] at h
          cases h
          exact .missing hr
      | some reference =>
          cases ht : reference.resolved with
          | some type =>
              rw [visit_resolved hr ht] at h
              cases h
              exact .kept hr ht
          | none =>
              rw [visit_open hr ht] at h
              cases hf : find s.program s.registry context reference with
              | error fault => simp [resolveOpen, hf, bind, Except.bind] at h
              | ok answer =>
                  obtain ⟨type, registry⟩ := answer
                  cases type with
                  | some type =>
                      rw [resolveOpen_found hf] at h
                      cases h
                      exact .found hr ht hf
                  | none =>
                      rw [resolveOpen_missed hf] at h
                      cases h
                      exact .missed hr ht hf

theorem outline_visit {place : TypeId × Site} (h : s.visit place = .ok s') :
    s'.program.outline = s.program.outline := by
  cases visit_cases h with
  | missing _ | kept _ _ | missed _ _ _ => rfl
  | found _ _ _ => exact Program.outline_modifyReference _ _ (Reference.erase_resolve · _)

theorem outline_foldlM {places : List (TypeId × Site)} (h : places.foldlM visit s = .ok s') :
    s'.program.outline = s.program.outline := by
  induction places generalizing s with
  | nil => cases h; rfl
  | cons place places ih =>
      rw [List.foldlM_cons] at h
      obtain ⟨mid, hmid, hrest⟩ := bind_eq_ok.mp h
      rw [ih hrest, outline_visit hmid]

end Resolution

/-- **A resolution pass keeps the outline.** -/
theorem Program.outline_resolveAll {ρ : Type} [Registry ρ] {p : Program} {r : ρ}
    {s : Resolution ρ} (h : p.resolveAll r = .ok s) : s.program.outline = p.outline := by
  obtain ⟨places, _, hfold⟩ := bind_eq_ok.mp h
  exact Resolution.outline_foldlM hfold

end ClassTable

import ClassTable.Program.Resolution
import ClassTable.Program.Supertypes
import ClassTable.Registry.Restricted
import ClassTable.Proofs.Store

/-!
# What an analysis asks of a registry

A registry need not offer every service, and an analysis need not ask for every service. Here it is
said which ones it asks for. Names are looked up by finding types, by the package that is imported
implicitly, and by writing types; a pass also makes array types (`Lends`). Direct supertypes are
derived from the sorts of types and from the two types that every program relies on, one of which is
specialized (`Supplies`).

Nothing else makes a difference. An analysis that is given what it asks for comes to the same with
any two registries, and takes them to registries that answer alike again. So all that is known of
catalogs is known of the restricted ones that withhold other services (`resolveAll_restricted`,
`supertypes_restricted`).
-/

namespace ClassTable

variable {ρ σ : Type} [Registry ρ] [Registry σ] {f : σ → ρ}

namespace Program

/-- `f c` answers by `c` what is asked in a pass. -/
structure Lends (f : σ → ρ) : Prop where
  find : ∀ c signature, Registry.find? (f c) signature = Registry.find? c signature
  implicitPackage : ∀ c, Registry.implicitPackage? (f c) = Registry.implicitPackage? c
  signature : ∀ c i, Registry.signature? (f c) i = Registry.signature? c i
  specialization : ∀ c i, Registry.specialization? (f c) i = Registry.specialization? c i
  element : ∀ c i, Registry.element? (f c) i = Registry.element? c i
  nestingBound : ∀ c, Registry.nestingBound (f c) = Registry.nestingBound c
  arrayOf : ∀ c type, Registry.arrayOf (f c) type =
    ((Registry.arrayOf c type).1, f (Registry.arrayOf c type).2)

/-- `f c` answers by `c` what is asked for direct supertypes. -/
structure Supplies (f : σ → ρ) : Prop where
  kind : ∀ c i, Registry.kind? (f c) i = Registry.kind? c i
  root : ∀ c, Registry.root? (f c) = Registry.root? c
  enumBase : ∀ c, Registry.enumBase? (f c) = Registry.enumBase? c
  specialize : ∀ c generic arguments, Registry.specialize (f c) generic arguments =
    ((Registry.specialize c generic arguments).1, f (Registry.specialize c generic arguments).2)

/-! ## Names -/

theorem Lends.signatureWithin (h : Lends f) (p : Program) (c : σ) (depth : Nat)
    (type : TypeHandle) : p.signatureWithin (f c) depth type = p.signatureWithin c depth type := by
  induction depth generalizing type with
  | zero => cases type <;> rfl
  | succ depth ih =>
      cases type with
      | declared id => rfl
      | canonical i =>
          have hbelow : p.signatureWithin (f c) depth = p.signatureWithin c depth := funext ih
          simp only [Program.signatureWithin, h.element, h.specialization, h.signature, hbelow]

theorem Lends.lookupGlobal (h : Lends f) (p : Program) (c : σ) (signature : String) :
    p.lookupGlobal (f c) signature = p.lookupGlobal c signature := by
  simp only [Program.lookupGlobal, h.find]

theorem Lends.lookupWhole (h : Lends f) (p : Program) (c : σ) (context : TypeId) (name : String) :
    p.lookupWhole (f c) context name = p.lookupWhole c context name := by
  have hglobal : p.lookupGlobal (f c) = p.lookupGlobal c := funext (h.lookupGlobal p c)
  simp only [Program.lookupWhole, globalNames, h.implicitPackage, hglobal]

theorem Lends.lookupNested (h : Lends f) (p : Program) (c : σ) (outer : TypeHandle)
    (names : List String) : p.lookupNested (f c) outer names = p.lookupNested c outer names := by
  simp only [Program.lookupNested, readableSignature, h.nestingBound, h.signatureWithin,
    h.lookupGlobal]

/-- **A name means the same.** -/
theorem Lends.lookupName (h : Lends f) (p : Program) (c : σ) (context : TypeId) (name : String) :
    p.lookupName (f c) context name = p.lookupName c context name := by
  have hsplit : ∀ splits, p.lookupSplit (f c) context splits = p.lookupSplit c context splits := by
    intro splits
    induction splits with
    | nil => rfl
    | cons split later ih =>
        have hnested : ∀ outer, p.lookupNested (f c) outer split.2 =
            p.lookupNested c outer split.2 := fun outer => h.lookupNested p c outer split.2
        simp only [lookupSplit, h.lookupWhole, hnested, ih]
  simp only [Program.lookupName, h.lookupWhole, hsplit]

/-! ## Direct supertypes -/

theorem Supplies.kindOf (h : Supplies f) (p : Program) (c : σ) (type : TypeHandle) :
    p.kindOf (f c) type = p.kindOf c type := by
  cases type with
  | declared id => rfl
  | canonical i => exact h.kind c i

theorem Supplies.ordinarySupertypes (h : Supplies f) (p : Program) (c : σ) (d : Declaration) :
    p.ordinarySupertypes (f c) d = p.ordinarySupertypes c d := by
  simp only [Program.ordinarySupertypes, h.kindOf, h.root]

theorem Supplies.enumSupertypes (h : Supplies f) (c : σ) (id : TypeId) (d : Declaration) :
    enumSupertypes (f c) id d = ((enumSupertypes c id d).1, f (enumSupertypes c id d).2) := by
  simp only [Program.enumSupertypes, h.enumBase]
  cases Registry.enumBase? c with
  | none => rfl
  | some base =>
      simp only [h.specialize]
      cases Registry.specialize c base [.declared id] with
      | mk answer grown => cases answer <;> rfl

/-- **The direct supertypes are the same.** -/
theorem Supplies.supertypes (h : Supplies f) (p : Program) (c : σ) (id : TypeId) :
    p.supertypes (f c) id = ((p.supertypes c id).1, f (p.supertypes c id).2) := by
  unfold Program.supertypes
  cases p.types.get id with
  | error cause => rfl
  | ok d =>
      by_cases hkind : d.kind.isEnum = true
      · simp only [if_pos hkind, h.enumSupertypes]
      · simp only [if_neg hkind, h.ordinarySupertypes]

end Program

/-! ## Passes -/

namespace Resolution

open Program (Lends)

/-- The pass with another registry. -/
def onto (f : σ → ρ) (s : Resolution σ) : Resolution ρ :=
  { program := s.program, registry := f s.registry, tally := s.tally }

theorem wrap_lends (h : Lends f) (c : σ) (dims : Nat) (type : TypeHandle) :
    wrap (f c) dims type = ((wrap c dims type).1, f (wrap c dims type).2) := by
  induction dims generalizing c type with
  | zero => rfl
  | succ dims ih =>
      simp only [wrap, h.arrayOf]
      cases Registry.arrayOf c type with
      | mk answer grown =>
          cases answer with
          | none => rfl
          | some i => exact ih grown (.canonical i)

theorem find_lends (h : Lends f) (p : Program) (c : σ) (context : TypeId) (r : Reference) :
    find p (f c) context r = (find p c context r).map fun x => (x.1, f x.2) := by
  simp only [find, h.lookupName]
  cases p.lookupName c context r.elementName with
  | error fault => rfl
  | ok found =>
      cases found with
      | none => rfl
      | some element => exact congrArg Except.ok (wrap_lends h c r.dimensions element)

/-- **A visit does the same.** -/
theorem visit_lends (h : Lends f) (s : Resolution σ) (place : TypeId × Site) :
    (s.onto f).visit place = (s.visit place).map (onto f) := by
  unfold visit
  show (s.program.reference? place.2 >>= _) = _
  cases s.program.reference? place.2 with
  | error fault => rfl
  | ok found =>
      cases found with
      | none => rfl
      | some r =>
          simp only [bind, Except.bind]
          cases r.resolved with
          | some type => rfl
          | none =>
              have hfind := find_lends h s.program s.registry place.1 r
              simp only [resolveOpen]
              show (find s.program (f s.registry) place.1 r >>= _) = _
              rw [hfind]
              cases find s.program s.registry place.1 r with
              | error fault => rfl
              | ok answer =>
                  obtain ⟨type, grown⟩ := answer
                  cases type <;> rfl

theorem foldlM_lends (h : Lends f) (places : List (TypeId × Site)) (s : Resolution σ) :
    places.foldlM visit (s.onto f) = (places.foldlM visit s).map (onto f) := by
  induction places generalizing s with
  | nil => rfl
  | cons place places ih =>
      rw [List.foldlM_cons, List.foldlM_cons, visit_lends h]
      cases s.visit place with
      | error fault => rfl
      | ok mid => exact ih mid

/-- **A pass does the same.** -/
theorem resolveAll_lends (h : Lends f) (p : Program) (c : σ) :
    p.resolveAll (f c) = (p.resolveAll c).map (onto f) := by
  unfold Program.resolveAll
  cases p.referenceSites with
  | error fault => rfl
  | ok places => exact foldlM_lends h places { program := p, registry := c }

end Resolution

/-! ## Restricted catalogs -/

namespace RestrictedCatalog

variable {r : RestrictedCatalog}

/-- What a pass asks for. -/
def passServices : List Service :=
  [.find, .implicitPackage, .signature, .components, .element, .array]

/-- What is asked for direct supertypes. -/
def supertypeServices : List Service := [.kind, .root, .enumBase, .specialize]

theorem ask_of_offers {α : Type} {service : Service} (h : r.offers service = true)
    (answer : Catalog → Option α) : r.ask service answer = answer r.catalog := if_pos h

theorem lends_of_offers (h : ∀ service ∈ passServices, r.offers service = true) :
    Program.Lends fun c => { r with catalog := c } := by
  have hoffers : ∀ service ∈ passServices, ∀ c,
      offers { r with catalog := c } service = true := fun service hservice _ => h service hservice
  refine ⟨fun c _ => ?_, fun c => ?_, fun c _ => ?_, fun c _ => ?_, fun c _ => ?_, fun _ => rfl,
    fun c type => ?_⟩
  · exact ask_of_offers (hoffers .find (by decide) c) _
  · exact ask_of_offers (hoffers .implicitPackage (by decide) c) _
  · exact ask_of_offers (hoffers .signature (by decide) c) _
  · exact ask_of_offers (hoffers .components (by decide) c) _
  · exact ask_of_offers (hoffers .element (by decide) c) _
  · exact if_pos (hoffers .array (by decide) c)

theorem supplies_of_offers (h : ∀ service ∈ supertypeServices, r.offers service = true)
    (hroot : r.rootReplacement = none) (henum : r.enumReplacement = none) :
    Program.Supplies fun c => { r with catalog := c } := by
  have hoffers : ∀ service ∈ supertypeServices, ∀ c,
      offers { r with catalog := c } service = true := fun service hservice _ => h service hservice
  refine ⟨fun c _ => ?_, fun c => ?_, fun c => ?_, fun c _ _ => ?_⟩
  · exact ask_of_offers (hoffers .kind (by decide) c) _
  · show RestrictedCatalog.root? { r with catalog := c } = _
    rw [root?, hroot]
    exact ask_of_offers (hoffers .root (by decide) c) _
  · show RestrictedCatalog.enumBase? { r with catalog := c } = _
    rw [enumBase?, henum]
    exact ask_of_offers (hoffers .enumBase (by decide) c) _
  · exact if_pos (hoffers .specialize (by decide) c)

/--
**A pass over a restricted catalog is a pass over the catalog,** unless it withholds what a pass
asks for. It need not tell sorts of types, name the types that every program relies on, or
specialize.
-/
theorem resolveAll_restricted (h : ∀ service ∈ passServices, r.offers service = true)
    (p : Program) :
    p.resolveAll r =
      (p.resolveAll r.catalog).map (Resolution.onto fun c => { r with catalog := c }) :=
  Resolution.resolveAll_lends (lends_of_offers h) p r.catalog

/--
**Direct supertypes over a restricted catalog are those over the catalog,** unless it withholds or
replaces what is asked for them. It need not find types, write them, take them apart, or make
arrays.
-/
theorem supertypes_restricted (h : ∀ service ∈ supertypeServices, r.offers service = true)
    (hroot : r.rootReplacement = none) (henum : r.enumReplacement = none) (p : Program)
    (id : TypeId) :
    p.supertypes r id = ((p.supertypes r.catalog id).1,
      { r with catalog := (p.supertypes r.catalog id).2 }) :=
  (supplies_of_offers h hroot henum).supertypes p r.catalog id

/-- The services that no registry can do without suffice for direct supertypes. -/
theorem supertypes_ofRequired (c : Catalog) (p : Program) (id : TypeId) :
    p.supertypes (ofRequired c) id =
      ((p.supertypes c id).1, ofRequired (p.supertypes c id).2) := by
  refine supertypes_restricted ?_ rfl rfl p id
  intro service hservice
  cases service with
  | kind | root | enumBase | specialize => rfl
  | find | signature | components | array | element | implicitPackage =>
      exact absurd hservice (by decide)

end RestrictedCatalog

end ClassTable

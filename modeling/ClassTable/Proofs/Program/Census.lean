import ClassTable.Proofs.Program.Visits
import Mathlib.Data.List.Nodup
import Mathlib.Data.List.Perm.Basic

/-!
# Every reference is visited exactly once

The references of a program can be listed without looking at what belongs to what: table by
table, and element by element (`references`). A pass goes about it differently. It walks
through the types and follows the members that each type lists, so whether it meets every
reference, and none of them twice, depends on these lists being a partition of the members.

Both walks are compared as lists of sites. Neither has a site twice, and both have exactly the
sites with a reference, so one is a permutation of the other (`sites_perm`).
-/

namespace ClassTable

/-! ## All references -/

/-- The references in the head of a declaration. -/
def Declaration.references (d : Declaration) : List Reference :=
  d.extendsList.toList ++ d.implementsList.toList

/-- The references of a constructor. -/
def Constructor.references (c : Constructor) : List Reference :=
  c.parameters.toList.map Parameter.type ++ c.throws.toList

/-- The references of a method. -/
def Method.references (m : Method) : List Reference :=
  m.returnType :: m.parameters.toList.map Parameter.type ++ m.throws.toList ++
    m.annotations.toList.map AnnotationUse.type

/-- Whether the type is known. -/
def Reference.isResolved (r : Reference) : Bool := r.resolved.isSome

namespace Program

/-- The references of a program, table by table. -/
def references (p : Program) : List Reference :=
  p.types.items.toList.flatMap Declaration.references ++
    p.fields.items.toList.map Field.type ++
    p.constructors.items.toList.flatMap Constructor.references ++
    p.methods.items.toList.flatMap Method.references

/-- The sites in the head of a declaration. -/
def headSitesOf (x : TypeId × Declaration) : List Site :=
  (List.range x.2.extendsList.size).map (.extendsItem x.1) ++
    (List.range x.2.implementsList.size).map (.implementsItem x.1)

/-- The site of a field. -/
def fieldSitesOf (x : FieldId × Field) : List Site := [.fieldType x.1]

/-- The sites of a constructor. -/
def constructorSitesOf (x : ConstructorId × Constructor) : List Site :=
  (List.range x.2.parameters.size).map (.constructorParameter x.1) ++
    (List.range x.2.throws.size).map (.constructorThrows x.1)

/-- The sites of a method. -/
def methodSitesOf (x : MethodId × Method) : List Site :=
  .methodReturn x.1 :: (List.range x.2.parameters.size).map (.methodParameter x.1) ++
    (List.range x.2.throws.size).map (.methodThrows x.1) ++
    (List.range x.2.annotations.size).map (.annotationItem x.1)

/-- The sites of a program, table by table. -/
def tableSites (p : Program) : List Site :=
  p.types.entries.flatMap headSitesOf ++ p.fields.entries.flatMap fieldSitesOf ++
    p.constructors.entries.flatMap constructorSitesOf ++ p.methods.entries.flatMap methodSitesOf

end Program

namespace Store

variable {e : Entity} {α : Type}

theorem mem_entries {s : Store e α} {id : EntityId e} {x : α} :
    (id, x) ∈ s.entries ↔ s.get? id = some x := by
  simp only [entries, List.mem_map, Prod.mk.injEq, Prod.exists, List.mem_zipIdx_iff_getElem?, get?]
  refine ⟨?_, ?_⟩
  · intro hex
    obtain ⟨y, i, hi, rfl, rfl⟩ := hex
    simpa using hi
  · intro hget
    exact ⟨x, id.index, by simpa using hget, rfl, rfl⟩

theorem map_snd_entries (s : Store e α) : s.entries.map Prod.snd = s.items.toList := by
  simp [entries, Function.comp_def]

theorem map_fst_entries (s : Store e α) : s.entries.map Prod.fst = s.ids := by
  simp only [entries, ids, size, List.map_map, ← Array.length_toList, List.range_eq_range',
    ← List.zipIdx_map_snd 0 s.items.toList]
  rfl

theorem nodup_ids (s : Store e α) : s.ids.Nodup :=
  List.nodup_range.map fun _ _ h => EntityId.mk.inj h

end Store

/-- Listing one element after the other lists nothing twice, if a key tells where it is from. -/
theorem nodup_mapM_flatten {ε α β γ : Type} {f : α → Except ε (List β)} {g : β → γ} {k : α → γ}
    (hk : Function.Injective k) {xs : List α} {yss : List (List β)} (h : xs.mapM f = .ok yss)
    (hxs : xs.Nodup) (hf : ∀ x ∈ xs, ∀ ys, f x = .ok ys → ys.Nodup ∧ ∀ y ∈ ys, g y = k x) :
    yss.flatten.Nodup ∧ ∀ y ∈ yss.flatten, ∃ x ∈ xs, g y = k x := by
  induction xs generalizing yss with
  | nil => cases h; simp
  | cons x xs ih =>
      rw [List.mapM_cons] at h
      obtain ⟨ys, hys, h⟩ := bind_eq_ok.mp h
      obtain ⟨rest, hrest, h⟩ := bind_eq_ok.mp h
      cases h
      obtain ⟨hx, hxs⟩ := List.nodup_cons.mp hxs
      obtain ⟨hnodup, hkey⟩ := hf x List.mem_cons_self ys hys
      obtain ⟨hnodup', hkey'⟩ := ih hrest hxs fun z hz => hf z (List.mem_cons_of_mem x hz)
      rw [List.flatten_cons]
      refine ⟨List.nodup_append'.mpr ⟨hnodup, hnodup', fun y hy hy' => hx ?_⟩, fun y hy => ?_⟩
      · obtain ⟨z, hz, hyz⟩ := hkey' y hy'
        rw [hk ((hkey y hy).symm.trans hyz)]
        exact hz
      · rcases List.mem_append.mp hy with hy | hy
        · exact ⟨x, List.mem_cons_self, hkey y hy⟩
        · obtain ⟨z, hz, hyz⟩ := hkey' y hy
          exact ⟨z, List.mem_cons_of_mem x hz, hyz⟩

/-! ## Sites of one carrier -/

/-- No site twice, and all of one carrier. -/
structure CarriedBy (c : (e : Entity) × EntityId e) (sites : List Site) : Prop where
  /-- No site twice. -/
  nodup : sites.Nodup
  /-- One carrier. -/
  carrier : ∀ site ∈ sites, site.carrier = c

namespace Program

theorem nodup_map_range {f : Nat → Site} (hf : Function.Injective f) (n : Nat) :
    ((List.range n).map f).Nodup := List.nodup_range.map hf

theorem carriedBy_headSitesOf (x : TypeId × Declaration) :
    CarriedBy ⟨.type, x.1⟩ (headSitesOf x) where
  nodup := by
    have hextends := nodup_map_range (f := .extendsItem x.1) (fun i j h => by cases h; rfl)
    have himplements := nodup_map_range (f := .implementsItem x.1) (fun i j h => by cases h; rfl)
    simp [headSitesOf, List.nodup_append, hextends, himplements]
  carrier := by
    intro site hsite
    simp only [headSitesOf, List.mem_append, List.mem_map] at hsite
    rcases hsite with ⟨_, _, rfl⟩ | ⟨_, _, rfl⟩ <;> rfl

theorem carriedBy_fieldSitesOf (x : FieldId × Field) :
    CarriedBy ⟨.field, x.1⟩ (fieldSitesOf x) where
  nodup := List.nodup_singleton _
  carrier := by
    intro site hsite
    cases List.mem_singleton.mp hsite
    rfl

theorem carriedBy_constructorSitesOf (x : ConstructorId × Constructor) :
    CarriedBy ⟨.constructor, x.1⟩ (constructorSitesOf x) where
  nodup := by
    have hparameters := nodup_map_range (f := .constructorParameter x.1)
      (fun i j h => by cases h; rfl)
    have hthrows := nodup_map_range (f := .constructorThrows x.1) (fun i j h => by cases h; rfl)
    simp [constructorSitesOf, List.nodup_append, hparameters, hthrows]
  carrier := by
    intro site hsite
    simp only [constructorSitesOf, List.mem_append, List.mem_map] at hsite
    rcases hsite with ⟨_, _, rfl⟩ | ⟨_, _, rfl⟩ <;> rfl

theorem carriedBy_methodSitesOf (x : MethodId × Method) :
    CarriedBy ⟨.method, x.1⟩ (methodSitesOf x) where
  nodup := by
    have hparameters := nodup_map_range (f := .methodParameter x.1) (fun i j h => by cases h; rfl)
    have hthrows := nodup_map_range (f := .methodThrows x.1) (fun i j h => by cases h; rfl)
    have hannotations := nodup_map_range (f := .annotationItem x.1)
      (fun i j h => by cases h; rfl)
    simp [methodSitesOf, List.nodup_append, or_imp, forall_and, hparameters, hthrows, hannotations]
  carrier := by
    intro site hsite
    simp only [methodSitesOf, List.mem_append, List.mem_cons, List.mem_map] at hsite
    rcases hsite with ((rfl | ⟨_, _, rfl⟩) | ⟨_, _, rfl⟩) | ⟨_, _, rfl⟩ <;> rfl

/-- Sites carried by types, fields, constructors and methods, each of them once. -/
theorem nodup_sections {heads fields constructors methods : List Site} (hheads : heads.Nodup)
    (hfields : fields.Nodup) (hconstructors : constructors.Nodup) (hmethods : methods.Nodup)
    (htype : ∀ site ∈ heads, site.carrier.1 = .type)
    (hfield : ∀ site ∈ fields, site.carrier.1 = .field)
    (hconstructor : ∀ site ∈ constructors, site.carrier.1 = .constructor)
    (hmethod : ∀ site ∈ methods, site.carrier.1 = .method) :
    (heads ++ fields ++ constructors ++ methods).Nodup := by
  have hdisjoint : ∀ {xs ys : List Site} {e e' : Entity}, e ≠ e' →
      (∀ site ∈ xs, site.carrier.1 = e) → (∀ site ∈ ys, site.carrier.1 = e') → xs.Disjoint ys :=
    fun hne hxs hys site hx hy => hne ((hxs site hx).symm.trans (hys site hy))
  simp only [List.nodup_append', List.disjoint_append_left]
  exact ⟨⟨⟨hheads, hfields, hdisjoint (by decide) htype hfield⟩, hconstructors,
    hdisjoint (by decide) htype hconstructor, hdisjoint (by decide) hfield hconstructor⟩, hmethods,
    ⟨hdisjoint (by decide) htype hmethod, hdisjoint (by decide) hfield hmethod⟩,
    hdisjoint (by decide) hconstructor hmethod⟩

/-- Different elements of one table have different sites. -/
theorem nodup_flatMap_entries {e : Entity} {α : Type} (s : Store e α)
    {sitesOf : EntityId e × α → List Site} (h : ∀ x, CarriedBy ⟨e, x.1⟩ (sitesOf x)) :
    (s.entries.flatMap sitesOf).Nodup := by
  have hids : s.entries.Pairwise fun x y => x.1 ≠ y.1 :=
    List.pairwise_map.mp (s.map_fst_entries ▸ s.nodup_ids)
  rw [List.nodup_flatMap]
  refine ⟨fun x _ => (h x).nodup, hids.imp fun {x y} hne site hx hy => hne ?_⟩
  have hsame := ((h x).carrier site hx).symm.trans ((h y).carrier site hy)
  exact eq_of_heq (Sigma.mk.inj hsame).2

theorem tableSites_nodup (p : Program) : p.tableSites.Nodup := by
  have hcarrier : ∀ {e : Entity} {α : Type} {s : Store e α} {sitesOf : EntityId e × α → List Site},
      (∀ x, CarriedBy ⟨e, x.1⟩ (sitesOf x)) → ∀ site ∈ s.entries.flatMap sitesOf,
        site.carrier.1 = e := by
    intro e α s sitesOf h site hsite
    obtain ⟨x, _, hx⟩ := List.mem_flatMap.mp hsite
    exact congrArg Sigma.fst ((h x).carrier site hx)
  exact nodup_sections (nodup_flatMap_entries _ carriedBy_headSitesOf)
    (nodup_flatMap_entries _ carriedBy_fieldSitesOf)
    (nodup_flatMap_entries _ carriedBy_constructorSitesOf)
    (nodup_flatMap_entries _ carriedBy_methodSitesOf) (hcarrier carriedBy_headSitesOf)
    (hcarrier carriedBy_fieldSitesOf) (hcarrier carriedBy_constructorSitesOf)
    (hcarrier carriedBy_methodSitesOf)

/-- A table walk meets exactly the sites with a reference. -/
theorem mem_tableSites {p : Program} {site : Site} :
    site ∈ p.tableSites ↔ p.HasReference site := by
  have hmap : ∀ {α β : Type} {x : Except Fault α} {f : α → Option β},
      (∃ b, x.map f = .ok (some b)) ↔ ∃ a, x = .ok a ∧ ∃ b, f a = some b := by
    intro α β x f
    cases x <;> simp [Except.map]
  cases site <;>
    simp [tableSites, headSitesOf, fieldSitesOf, constructorSitesOf, methodSitesOf, HasReference,
      reference?, Store.mem_entries, hmap, Store.get_eq_ok_iff, exists_getElem?_iff]

/-! ## The walk of a pass -/

/-- No type lists a member twice. -/
theorem listed_nodup {p : Program} (h : p.AllRostered) {t : TypeId} {d : Declaration}
    (hd : p.types.get? t = some d) (e : Entity) : (d.listed e).toList.Nodup := by
  have hlist : (p.lists e).get? t = some (d.listed e) := by rw [lists, Store.get?_map, hd]; rfl
  exact ((h e).increasing t _ hlist).imp fun hlt heq => Nat.ne_of_lt hlt (congrArg _ heq)

/-- The sites of the members that a type lists. -/
theorem carried_memberSites {e : Entity} {α : Type} {s : Store e α} {ids : Array (EntityId e)}
    (hids : ids.toList.Nodup) {sitesOf : EntityId e × α → List Site}
    (h : ∀ x, CarriedBy ⟨e, x.1⟩ (sitesOf x)) {all : List (List Site)}
    (hall : ids.toList.mapM (fun id => (s.get id).map fun x => sitesOf (id, x)) = .ok all) :
    all.flatten.Nodup ∧ ∀ site ∈ all.flatten, site.carrier.1 = e := by
  have hk : Function.Injective fun id : EntityId e =>
      (⟨e, id⟩ : (e : Entity) × EntityId e) := fun _ _ heq => eq_of_heq (Sigma.mk.inj heq).2
  obtain ⟨hnodup, hcarrier⟩ := nodup_mapM_flatten hk hall hids fun id _ sites hsites => by
    obtain ⟨x, _, rfl⟩ := map_eq_ok.mp hsites
    exact ⟨(h (id, x)).nodup, (h (id, x)).carrier⟩
  refine ⟨hnodup, fun site hsite => ?_⟩
  obtain ⟨id, _, hid⟩ := hcarrier site hsite
  exact congrArg Sigma.fst hid

theorem typeSites_nodup {p : Program} (h : p.AllRostered) {t : TypeId} {sites : List Site}
    (hsites : p.typeSites t = .ok sites) : sites.Nodup := by
  obtain ⟨d, hd, hsites⟩ := bind_eq_ok.mp hsites
  obtain ⟨constructors, hconstructors, hsites⟩ := bind_eq_ok.mp hsites
  obtain ⟨methods, hmethods, hsites⟩ := bind_eq_ok.mp hsites
  cases hsites
  have hlisted := listed_nodup h (Store.get_eq_ok_iff.mp hd)
  obtain ⟨hcnodup, hccarrier⟩ :=
    carried_memberSites (hlisted .constructor) carriedBy_constructorSitesOf hconstructors
  obtain ⟨hmnodup, hmcarrier⟩ :=
    carried_memberSites (hlisted .method) carriedBy_methodSitesOf hmethods
  have hhead := carriedBy_headSitesOf (t, d)
  refine nodup_sections hhead.nodup ?_ hcnodup hmnodup
    (fun site hsite => congrArg Sigma.fst (hhead.carrier site hsite)) ?_ hccarrier hmcarrier
  · exact (hlisted .field).map fun _ _ heq => Site.fieldType.inj heq
  · intro site hsite
    obtain ⟨_, _, rfl⟩ := List.mem_map.mp hsite
    rfl

/-- **A pass visits every reference exactly once.** -/
theorem sites_perm {p : Program} (h : p.AllRostered) :
    ∃ places, p.referenceSites = .ok places ∧ (places.map Prod.snd).Perm p.tableSites ∧
      ∀ place ∈ places, p.siteOwner place.2 = .ok place.1 := by
  obtain ⟨places, hplaces, hmem⟩ := mem_referenceSites h
  refine ⟨places, hplaces, ?_, fun place hplace => ((hmem place.1 place.2).mp hplace).1⟩
  have hnodup : places.Nodup := by
    obtain ⟨perType, hperType, hflatten⟩ := bind_eq_ok.mp hplaces
    cases hflatten
    refine (nodup_mapM_flatten (g := Prod.fst) Function.injective_id hperType p.types.nodup_ids
      fun t _ ys hys => ?_).1
    obtain ⟨sites, hsites, hys⟩ := bind_eq_ok.mp hys
    cases hys
    refine ⟨(typeSites_nodup h hsites).map fun _ _ heq => (Prod.mk.inj heq).2, fun y hy => ?_⟩
    obtain ⟨_, _, rfl⟩ := List.mem_map.mp hy
    rfl
  -- a site has one owner, so it can be in one place only
  have hsites : (places.map Prod.snd).Nodup := by
    refine hnodup.map_on fun x hx y hy hsame => Prod.ext ?_ hsame
    have hxowner := ((hmem x.1 x.2).mp hx).1
    rw [hsame, ((hmem y.1 y.2).mp hy).1] at hxowner
    exact (Except.ok.inj hxowner).symm
  refine (List.perm_ext_iff_of_nodup hsites p.tableSites_nodup).mpr fun site => ?_
  rw [mem_tableSites, List.mem_map]
  refine ⟨?_, fun href => ?_⟩
  · intro hex
    obtain ⟨place, hplace, rfl⟩ := hex
    exact ((hmem place.1 place.2).mp hplace).2
  · obtain ⟨t, howner⟩ := exists_siteOwner href
    exact ⟨(t, site), (hmem t site).mpr ⟨howner, href⟩, rfl⟩

/-! ## References and sites -/

theorem map_range_getElem? {α β : Type} (xs : Array α) (f : Option α → β) :
    (List.range xs.size).map (fun i => f xs[i]?) = xs.toList.map fun x => f (some x) := by
  refine List.ext_getElem (by simp) fun i hi hi' => ?_
  simp only [List.getElem_map, List.getElem_range, Array.getElem_toList]
  rw [Array.getElem?_eq_getElem]

theorem map_flatMap_entries {p : Program} {e : Entity} {α : Type} {s : Store e α}
    {sitesOf : EntityId e × α → List Site} {referencesOf : α → List Reference}
    (h : ∀ id x, s.get? id = some x → (sitesOf (id, x)).map p.reference? =
      (referencesOf x).map fun r => .ok (some r)) :
    (s.entries.flatMap sitesOf).map p.reference? =
      (s.items.toList.flatMap referencesOf).map fun r => .ok (some r) := by
  rw [← s.map_snd_entries, List.flatMap_map, List.map_flatMap, List.map_flatMap]
  exact List.flatMap_congr fun x hx => h x.1 x.2 (Store.mem_entries.mp hx)

/-- Sites and references, listed table by table, agree one by one. -/
theorem map_tableSites (p : Program) :
    p.tableSites.map p.reference? = p.references.map fun r => .ok (some r) := by
  have hparameters : ∀ xs : Array Parameter,
      (List.range xs.size).map (fun i => (.ok (xs[i]?.map Parameter.type) : Except Fault _)) =
        xs.toList.map fun x => .ok (some x.type) :=
    fun xs => map_range_getElem? xs fun x => Except.ok (x.map Parameter.type)
  have hannotations : ∀ xs : Array AnnotationUse,
      (List.range xs.size).map (fun i => (.ok (xs[i]?.map AnnotationUse.type) : Except Fault _)) =
        xs.toList.map fun x => .ok (some x.type) :=
    fun xs => map_range_getElem? xs fun x => Except.ok (x.map AnnotationUse.type)
  have hheads : (p.types.entries.flatMap headSitesOf).map p.reference? =
      (p.types.items.toList.flatMap Declaration.references).map fun r => .ok (some r) :=
    map_flatMap_entries fun id d hd => by
      simp only [headSitesOf, Declaration.references, List.map_append, List.map_map,
        Function.comp_def, reference?, Store.get_eq_ok_iff.mpr hd, Except.map,
        map_range_getElem?]
  have hfields : (p.fields.entries.flatMap fieldSitesOf).map p.reference? =
      (p.fields.items.toList.flatMap fun x => [x.type]).map fun r => .ok (some r) :=
    map_flatMap_entries fun id x hx => by
      simp only [fieldSitesOf, List.map_cons, List.map_nil, reference?,
        Store.get_eq_ok_iff.mpr hx, Except.map]
  have hconstructors : (p.constructors.entries.flatMap constructorSitesOf).map p.reference? =
      (p.constructors.items.toList.flatMap Constructor.references).map fun r => .ok (some r) :=
    map_flatMap_entries fun id x hx => by
      simp only [constructorSitesOf, Constructor.references, List.map_append, List.map_map,
        Function.comp_def, reference?, Store.get_eq_ok_iff.mpr hx, Except.map,
        map_range_getElem?, hparameters]
  have hmethods : (p.methods.entries.flatMap methodSitesOf).map p.reference? =
      (p.methods.items.toList.flatMap Method.references).map fun r => .ok (some r) :=
    map_flatMap_entries fun id x hx => by
      simp only [methodSitesOf, Method.references, List.map_cons, List.map_append, List.map_map,
        Function.comp_def, reference?, Store.get_eq_ok_iff.mpr hx, Except.map,
        map_range_getElem?, hparameters, hannotations]
  rw [← List.map_eq_flatMap] at hfields
  simp only [tableSites, references, List.map_append, hheads, hfields, hconstructors, hmethods]

theorem length_tableSites (p : Program) : p.tableSites.length = p.references.length := by
  rw [← List.length_map (f := p.reference?), map_tableSites, List.length_map]

/-- Known types, counted by site. -/
theorem countP_tableSites (p : Program) :
    p.tableSites.countP (fun site => (p.handle? site).isSome) =
      p.references.countP Reference.isResolved := by
  have hcount : ∀ sites : List Site, sites.countP (fun site => (p.handle? site).isSome) =
      (sites.map p.reference?).countP fun found =>
        found.toOption.join.any Reference.isResolved := by
    intro sites
    rw [List.countP_map]
    refine List.countP_congr fun site _ => ?_
    rw [handle?, Function.comp_apply]
    cases p.reference? site with
    | error fault => exact Iff.rfl
    | ok found => cases found <;> exact Iff.rfl
  rw [hcount, map_tableSites, List.countP_map]
  rfl

/-- As many types are known at least, if none is forgotten. -/
theorem countP_references_le {p q : Program}
    (h : ∀ site type, p.handle? site = some type → q.handle? site = some type) :
    p.references.countP Reference.isResolved ≤ q.references.countP Reference.isResolved := by
  rw [← countP_tableSites, ← countP_tableSites, List.countP_eq_length_filter,
    List.countP_eq_length_filter]
  refine (List.subperm_of_subset (p.tableSites_nodup.filter _) fun site hsite => ?_).length_le
  obtain ⟨type, htype⟩ := Option.isSome_iff_exists.mp (List.mem_filter.mp hsite).2
  have hlater := h site type htype
  obtain ⟨r, hr, _⟩ := reference_of_handle? hlater
  exact List.mem_filter.mpr ⟨mem_tableSites.mpr ⟨r, hr⟩, by simp [hlater]⟩

end Program

end ClassTable

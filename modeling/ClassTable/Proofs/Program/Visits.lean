import ClassTable.Proofs.Program.Ownership

/-!
# The sites of a program

A pass goes type by type, and lists for each type the sites of its head and of the members
it lists. As types list what they own, this reaches every reference of the program, and
reaches it from the type that owns it, directly or through a member.
-/

namespace ClassTable

theorem exists_getElem?_iff {α : Type} {xs : Array α} {i : Nat} :
    (∃ x, xs[i]? = some x) ↔ i < xs.size := by
  refine ⟨?_, ?_⟩
  · intro hex
    obtain ⟨x, hx⟩ := hex
    exact (Array.getElem?_eq_some_iff.mp hx).1
  · intro hi
    exact ⟨xs[i], Array.getElem?_eq_getElem hi⟩

theorem exists_getElem?_map_iff {α β : Type} {f : α → β} {xs : Array α} {i : Nat} :
    (∃ y x, xs[i]? = some x ∧ f x = y) ↔ i < xs.size := by
  rw [← exists_getElem?_iff]
  refine ⟨?_, ?_⟩
  · intro hex
    obtain ⟨_, x, hx, _⟩ := hex
    exact ⟨x, hx⟩
  · intro hex
    obtain ⟨x, hx⟩ := hex
    exact ⟨f x, x, hx, rfl⟩

/-- Listing one element after the other, if there is a list for each. -/
theorem mapM_flatten {ε α β : Type} (f : α → Except ε (List β)) (xs : List α)
    (h : ∀ x ∈ xs, ∃ ys, f x = .ok ys) :
    ∃ yss, xs.mapM f = .ok yss ∧
      ∀ y, y ∈ yss.flatten ↔ ∃ x ∈ xs, ∃ ys, f x = .ok ys ∧ y ∈ ys := by
  induction xs with
  | nil => exact ⟨[], rfl, by simp⟩
  | cons x xs ih =>
      obtain ⟨ys, hys⟩ := h x List.mem_cons_self
      obtain ⟨yss, hyss, hmem⟩ := ih fun z hz => h z (List.mem_cons_of_mem x hz)
      refine ⟨ys :: yss, ?_, fun y => ?_⟩
      · rw [List.mapM_cons, hys, hyss]
        rfl
      · rw [List.flatten_cons, List.mem_append, hmem]
        refine ⟨?_, ?_⟩
        · intro hor
          rcases hor with hy | ⟨z, hz, rest⟩
          · exact ⟨x, List.mem_cons_self, ys, hys, hy⟩
          · exact ⟨z, List.mem_cons_of_mem x hz, rest⟩
        · intro hex
          obtain ⟨z, hz, zs, hzs, hy⟩ := hex
          rcases List.mem_cons.mp hz with rfl | hz
          · rw [hys] at hzs
            cases hzs
            exact Or.inl hy
          · exact Or.inr ⟨z, hz, zs, hzs, hy⟩

/-- What carries the reference at a site: a type or a member. -/
def Site.carrier : Site → (e : Entity) × EntityId e
  | .extendsItem t _ | .implementsItem t _ => ⟨.type, t⟩
  | .fieldType f => ⟨.field, f⟩
  | .constructorParameter c _ | .constructorThrows c _ => ⟨.constructor, c⟩
  | .methodReturn m | .methodParameter m _ | .methodThrows m _ | .annotationItem m _ => ⟨.method, m⟩

namespace Program

/-- The type that owns the reference at a site: its carrier, or the owner of that member. -/
def siteOwner (p : Program) (site : Site) : Except Fault TypeId :=
  match site.carrier with
  | ⟨.type, t⟩ => .ok t
  | ⟨e, id⟩ => (p.owners e).get id

/-- Whether there is a reference at a site. -/
def HasReference (p : Program) (site : Site) : Prop := ∃ r, p.reference? site = .ok (some r)

/-- The type that the reference at a site was found to be. -/
def handle? (p : Program) (site : Site) : Option TypeHandle :=
  match p.reference? site with
  | .ok (some r) => r.resolved
  | _ => none

theorem handle?_of_reference {p : Program} {site : Site} {r : Reference}
    (h : p.reference? site = .ok (some r)) : p.handle? site = r.resolved := by
  rw [handle?, h]

theorem reference_of_handle? {p : Program} {site : Site} {type : TypeHandle}
    (h : p.handle? site = some type) :
    ∃ r, p.reference? site = .ok (some r) ∧ r.resolved = some type := by
  unfold handle? at h
  split at h
  · rename_i r hr
    exact ⟨r, hr, h⟩
  · exact absurd h (by simp)

theorem mem_listed_iff {p : Program} (h : p.AllRostered) {t : TypeId} {d : Declaration}
    (hd : p.types.get? t = some d) (e : Entity) (id : EntityId e) :
    id ∈ d.listed e ↔ (p.owners e).get? id = some t := by
  have hlist : (p.lists e).get? t = some (d.listed e) := by rw [lists, Store.get?_map, hd]; rfl
  refine ⟨?_, ?_⟩
  · exact (h e).owned t _ id hlist
  · intro hid
    obtain ⟨l, hl, hmem⟩ := (h e).listed id t hid
    rw [hlist] at hl
    cases hl
    exact hmem

/-- A site of a known carrier, read off the list that it stands in. -/
theorem mem_sites_of_carrier {p : Program} {e : Entity} {id : EntityId e} {site : Site}
    {sites : List Site} (hsites : site ∈ sites → site.carrier = ⟨e, id⟩)
    (h : site.carrier = ⟨e, id⟩ → (site ∈ sites ↔ p.HasReference site)) :
    site ∈ sites ↔ site.carrier = ⟨e, id⟩ ∧ p.HasReference site := by
  refine ⟨?_, ?_⟩
  · intro hmem
    exact ⟨hsites hmem, (h (hsites hmem)).mp hmem⟩
  · intro hex
    obtain ⟨hcarrier, href⟩ := hex
    exact (h hcarrier).mpr href

theorem mem_constructorSites {p : Program} {c : ConstructorId} {x : Constructor}
    (hc : p.constructors.get c = .ok x) : ∃ sites, p.constructorSites c = .ok sites ∧
      ∀ site, site ∈ sites ↔ site.carrier = ⟨.constructor, c⟩ ∧ p.HasReference site := by
  refine ⟨_, by rw [constructorSites, hc]; rfl, fun site => mem_sites_of_carrier ?_ ?_⟩
  · intro hmem
    simp only [List.mem_append, List.mem_map] at hmem
    rcases hmem with ⟨i, _, rfl⟩ | ⟨i, _, rfl⟩ <;> rfl
  · intro hcarrier
    cases site <;> cases hcarrier <;>
      simp [HasReference, reference?, hc, Except.map, exists_getElem?_iff, exists_getElem?_map_iff]

theorem mem_methodSites {p : Program} {m : MethodId} {x : Method}
    (hm : p.methods.get m = .ok x) : ∃ sites, p.methodSites m = .ok sites ∧
      ∀ site, site ∈ sites ↔ site.carrier = ⟨.method, m⟩ ∧ p.HasReference site := by
  refine ⟨_, by rw [methodSites, hm]; rfl, fun site => mem_sites_of_carrier ?_ ?_⟩
  · intro hmem
    simp only [List.mem_append, List.mem_cons, List.mem_map] at hmem
    rcases hmem with ((rfl | ⟨i, _, rfl⟩) | ⟨i, _, rfl⟩) | ⟨i, _, rfl⟩ <;> rfl
  · intro hcarrier
    cases site <;> cases hcarrier <;>
      simp [HasReference, reference?, hm, Except.map, exists_getElem?_iff, exists_getElem?_map_iff]

theorem mem_headSites {p : Program} {t : TypeId} {d : Declaration}
    (hd : p.types.get t = .ok d) (site : Site) :
    site ∈ (List.range d.extendsList.size).map (Site.extendsItem t) ++
      (List.range d.implementsList.size).map (Site.implementsItem t) ↔
      site.carrier = ⟨.type, t⟩ ∧ p.HasReference site := by
  refine mem_sites_of_carrier ?_ ?_
  · intro hmem
    simp only [List.mem_append, List.mem_map] at hmem
    rcases hmem with ⟨i, _, rfl⟩ | ⟨i, _, rfl⟩ <;> rfl
  · intro hcarrier
    cases site <;> cases hcarrier <;>
      simp [HasReference, reference?, hd, Except.map, exists_getElem?_iff]

theorem mem_fieldSites {p : Program} {f : FieldId} {x : Field} (hf : p.fields.get f = .ok x)
    (site : Site) : site = .fieldType f ↔ site.carrier = ⟨.field, f⟩ ∧ p.HasReference site := by
  refine ⟨?_, ?_⟩
  · intro heq
    subst heq
    exact ⟨rfl, by simp [HasReference, reference?, hf, Except.map]⟩
  · intro hex
    obtain ⟨hcarrier, _⟩ := hex
    cases site <;> cases hcarrier
    rfl

/-- A site with a reference and an owner is a site of the owner's head, or of a member that the
owner lists. -/
theorem siteOwner_eq_ok_iff {p : Program} (h : p.AllRostered) {t : TypeId} {d : Declaration}
    (hd : p.types.get? t = some d) (site : Site) :
    p.siteOwner site = .ok t ↔ site.carrier = ⟨.type, t⟩ ∨
      (∃ f ∈ d.fields, site.carrier = ⟨.field, f⟩) ∨
      (∃ c ∈ d.constructors, site.carrier = ⟨.constructor, c⟩) ∨
      ∃ m ∈ d.methods, site.carrier = ⟨.method, m⟩ := by
  have hfields : ∀ f, f ∈ d.fields ↔ _ := mem_listed_iff h hd .field
  have hconstructors : ∀ c, c ∈ d.constructors ↔ _ := mem_listed_iff h hd .constructor
  have hmethods : ∀ m, m ∈ d.methods ↔ _ := mem_listed_iff h hd .method
  -- for each sort of carrier all but one of the cases are impossible
  cases site <;>
    simp [siteOwner, Site.carrier, Store.get_eq_ok_iff, hfields, hconstructors, hmethods]

/-- What a type lists is there. -/
theorem get_of_listed {p : Program} (h : p.AllRostered) {t : TypeId} {d : Declaration}
    (hd : p.types.get? t = some d) :
    (∀ f ∈ d.fields, ∃ x, p.fields.get f = .ok x) ∧
    (∀ c ∈ d.constructors, ∃ x, p.constructors.get c = .ok x) ∧
    ∀ m ∈ d.methods, ∃ x, p.methods.get m = .ok x := by
  have hget : ∀ {e : Entity} {α : Type} {s : Store e α} {owner : α → TypeId} {id : EntityId e},
      (s.map owner).get? id = some t → ∃ x, s.get id = .ok x := by
    intro e α s owner id howner
    rw [Store.get?_map] at howner
    obtain ⟨x, hx, _⟩ := Option.map_eq_some_iff.mp howner
    exact ⟨x, Store.get_eq_ok_iff.mpr hx⟩
  exact ⟨fun f hf => hget ((mem_listed_iff h hd .field f).mp hf),
    fun c hc => hget ((mem_listed_iff h hd .constructor c).mp hc),
    fun m hm => hget ((mem_listed_iff h hd .method m).mp hm)⟩

/-- The sites of listed members. -/
theorem mem_memberSites {p : Program} {e : Entity} {ids : Array (EntityId e)}
    {sitesOf : EntityId e → Except Fault (List Site)}
    (h : ∀ id ∈ ids, ∃ sites, sitesOf id = .ok sites ∧
      ∀ site, site ∈ sites ↔ site.carrier = ⟨e, id⟩ ∧ p.HasReference site) :
    ∃ all, ids.toList.mapM sitesOf = .ok all ∧ ∀ site, site ∈ all.flatten ↔
      (∃ id ∈ ids, site.carrier = ⟨e, id⟩) ∧ p.HasReference site := by
  obtain ⟨all, hall, hmem⟩ := mapM_flatten sitesOf ids.toList fun id hid =>
    (h id (Array.mem_toList_iff.mp hid)).imp fun sites hsites => hsites.1
  refine ⟨all, hall, fun site => ?_⟩
  rw [hmem]
  refine ⟨?_, ?_⟩
  · intro hex
    obtain ⟨id, hid, sites, hsites, hsite⟩ := hex
    have hid' := Array.mem_toList_iff.mp hid
    obtain ⟨sites', hsites', hcarrier⟩ := h id hid'
    rw [hsites] at hsites'
    cases hsites'
    exact ⟨⟨id, hid', ((hcarrier site).mp hsite).1⟩, ((hcarrier site).mp hsite).2⟩
  · intro hex
    obtain ⟨⟨id, hid, hcarrier⟩, href⟩ := hex
    obtain ⟨sites, hsites, hmem'⟩ := h id hid
    exact ⟨id, Array.mem_toList_iff.mpr hid, sites, hsites, (hmem' site).mpr ⟨hcarrier, href⟩⟩

/-- **The sites of a type are those that it owns.** -/
theorem mem_typeSites {p : Program} (h : p.AllRostered) {t : TypeId} {d : Declaration}
    (hd : p.types.get? t = some d) : ∃ sites, p.typeSites t = .ok sites ∧
      ∀ site, site ∈ sites ↔ p.siteOwner site = .ok t ∧ p.HasReference site := by
  have hget := Store.get_eq_ok_iff.mpr hd
  obtain ⟨hfields, hconstructors, hmethods⟩ := get_of_listed h hd
  obtain ⟨cs, hcs, hcmem⟩ := mem_memberSites fun c hc =>
    (hconstructors c hc).elim fun _ hx => mem_constructorSites hx
  obtain ⟨ms, hms, hmmem⟩ := mem_memberSites fun m hm =>
    (hmethods m hm).elim fun _ hx => mem_methodSites hx
  have hfmem : ∀ site, site ∈ d.fields.toList.map Site.fieldType ↔
      (∃ f ∈ d.fields, site.carrier = ⟨.field, f⟩) ∧ p.HasReference site := by
    intro site
    rw [List.mem_map]
    refine ⟨?_, ?_⟩
    · intro hex
      obtain ⟨f, hf, rfl⟩ := hex
      have hf' := Array.mem_toList_iff.mp hf
      obtain ⟨x, hx⟩ := hfields f hf'
      exact ⟨⟨f, hf', rfl⟩, ((mem_fieldSites hx _).mp rfl).2⟩
    · intro hex
      obtain ⟨⟨f, hf, hcarrier⟩, href⟩ := hex
      obtain ⟨x, hx⟩ := hfields f hf
      exact ⟨f, Array.mem_toList_iff.mpr hf, ((mem_fieldSites hx site).mpr ⟨hcarrier, href⟩).symm⟩
  refine ⟨_, by rw [typeSites, hget]; simp only [bind, Except.bind, hcs, hms]; rfl, fun site => ?_⟩
  rw [siteOwner_eq_ok_iff h hd, List.mem_append, List.mem_append, List.mem_append, hcmem, hmmem,
    hfmem, mem_headSites hget]
  simp only [or_and_right, or_assoc]

/-- The owner of a reference is a type of the program. -/
theorem siteOwner_lt {p : Program} (h : p.AllRostered) {t : TypeId} {site : Site}
    (ho : p.siteOwner site = .ok t) (href : p.HasReference site) : t.index < p.types.size := by
  have hhead : ∀ {f : Declaration → Option Reference},
      (∃ r, (p.types.get t).map f = .ok (some r)) → t.index < p.types.size := by
    intro f hex
    obtain ⟨r, hr⟩ := hex
    obtain ⟨d, hd, _⟩ := map_eq_ok.mp hr
    exact Store.size_of_get? (Store.get_eq_ok_iff.mp hd)
  cases site with
  | extendsItem t' i | implementsItem t' i =>
      cases ho
      exact hhead href
  | fieldType f | constructorParameter c i | constructorThrows c i | methodReturn m
  | methodParameter m i | methodThrows m i | annotationItem m i =>
      exact owner_lt h (Store.get_eq_ok_iff.mp ho)

/-- Every reference has an owner. -/
theorem exists_siteOwner {p : Program} {site : Site} (href : p.HasReference site) :
    ∃ t, p.siteOwner site = .ok t := by
  have hmember : ∀ {e : Entity} {α : Type} {s : Store e α} {id : EntityId e} {owner : α → TypeId}
      {f : α → Option Reference}, (∃ r, (s.get id).map f = .ok (some r)) →
      ∃ t, (s.map owner).get id = .ok t := by
    intro e α s id owner f hex
    obtain ⟨r, hr⟩ := hex
    obtain ⟨x, hx, _⟩ := map_eq_ok.mp hr
    exact ⟨owner x, by rw [Store.get_map, hx]; rfl⟩
  cases site with
  | extendsItem t i | implementsItem t i => exact ⟨t, rfl⟩
  | fieldType f => exact hmember href
  | constructorParameter c i | constructorThrows c i => exact hmember href
  | methodReturn m | methodParameter m i | methodThrows m i | annotationItem m i =>
      exact hmember href

/-- **A pass reaches every reference, and reaches it from its owner.** -/
theorem mem_referenceSites {p : Program} (h : p.AllRostered) :
    ∃ places, p.referenceSites = .ok places ∧
      ∀ t site, (t, site) ∈ places ↔ p.siteOwner site = .ok t ∧ p.HasReference site := by
  have hsites : ∀ t ∈ p.types.ids, ∃ sites, p.typeSites t = .ok sites ∧
      ∀ site, site ∈ sites ↔ p.siteOwner site = .ok t ∧ p.HasReference site := by
    intro t ht
    obtain ⟨d, hd⟩ := Store.get?_of_lt (Store.mem_ids.mp ht)
    exact mem_typeSites h hd
  obtain ⟨all, hall, hmem⟩ := mapM_flatten
    (fun t => (do let sites ← p.typeSites t; return sites.map fun site => (t, site)))
    p.types.ids fun t ht => (hsites t ht).elim fun sites h =>
      ⟨sites.map fun site => (t, site), by rw [h.1]; rfl⟩
  refine ⟨all.flatten, by rw [referenceSites, hall]; rfl, fun t site => ?_⟩
  rw [hmem]
  refine ⟨?_, ?_⟩
  · intro hex
    obtain ⟨t', ht', places, hplaces, hplace⟩ := hex
    obtain ⟨sites, htype, hsite⟩ := hsites t' ht'
    rw [htype] at hplaces
    cases hplaces
    obtain ⟨site', hsite', hpair⟩ := List.mem_map.mp hplace
    cases hpair
    exact (hsite site).mp hsite'
  · intro hex
    obtain ⟨ho, href⟩ := hex
    have ht := Store.mem_ids.mpr (siteOwner_lt h ho href)
    obtain ⟨sites, htype, hsite⟩ := hsites t ht
    exact ⟨t, ht, sites.map fun site => (t, site), by rw [htype]; rfl,
      List.mem_map.mpr ⟨site, (hsite site).mpr ⟨ho, href⟩, rfl⟩⟩

end Program

end ClassTable

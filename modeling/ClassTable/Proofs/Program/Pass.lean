import ClassTable.Proofs.Program.LookupGrowth
import ClassTable.Proofs.Program.Scoping
import ClassTable.Proofs.Program.Visits

/-!
# What a resolution pass does

A pass writes to the program and to the catalog while it reads both, so what it does to one
reference could depend on what it did to others before. It does not. What it writes to the
program are handles, which lookup does not see, and what it adds to the catalog are array
types, which lookup does not see either. Each name is therefore looked up as if the pass had
not begun.

The induction is over the sites visited so far, in any order (`Progress`): those have what the
program and the catalog from before the pass say, the others are as they were, and every array
type that is new is a layer of some reference that was resolved.
-/

namespace ClassTable

open Program

namespace Resolution

/-- `r` is at the site, owned by `context`, and does not have its type yet. -/
structure OpenAt (p : Program) (context : TypeId) (site : Site) (r : Reference) : Prop where
  /-- The owner is the type that the name is looked up in. -/
  owner : p.siteOwner site = .ok context
  /-- The reference is there. -/
  reference : p.reference? site = .ok (some r)
  /-- It is open. -/
  isOpen : r.resolved = none

/-- The element type that a reference stands for inside a type. There are no arrays of `void`. -/
def Denotes (p : Program) (c : Catalog) (context : TypeId) (r : Reference) (base : TypeHandle) :
    Prop :=
  p.lookupName c context r.elementName = .ok (some base) ∧ ¬ (0 < r.dimensions ∧ base = .void)

theorem Denotes.unique {p : Program} {c : Catalog} {context : TypeId} {r : Reference}
    {base base' : TypeHandle} (h : Denotes p c context r base) (h' : Denotes p c context r base') :
    base = base' := by
  have hsome := h.1.symm.trans h'.1
  exact Option.some.inj (Except.ok.inj hsome)

/-- What a visit makes of a reference. -/
inductive Outcome (p : Program) (c : Catalog) (inv : Inventory) (context : TypeId)
    (r : Reference) : Reference → Prop where
  | kept {type : TypeHandle} : r.resolved = some type → Outcome p c inv context r r
  | found {base type : TypeHandle} : r.resolved = none → Denotes p c context r base →
      inv.tower? r.dimensions base = some type →
      Outcome p c inv context r { r with resolved := some type }
  | missed : r.resolved = none → (∀ base, ¬ Denotes p c context r base) →
      Outcome p c inv context r r

/-- The key is that of an array type in the tower over what an open reference stands for. -/
def IsLayer (p : Program) (c : Catalog) (inv : Inventory) (key : TypeKey) : Prop :=
  ∃ context site r base n layer, OpenAt p context site r ∧ Denotes p c context r base ∧
    n < r.dimensions ∧ inv.tower? n base = some layer ∧ key = .array layer

/-- How things stand when the sites in `done` have been visited. -/
structure Progress (p : Program) (c : Catalog) (done : List Site) (s : Resolution Catalog) :
    Prop where
  /-- Only handles were written. -/
  outline : s.program.outline = p.outline
  /-- The catalog is sound. -/
  sound : s.registry.inventory.Sound
  /-- Only array types were added. -/
  grown : c.GrowsByArrays s.registry
  /-- Other sites are as they were. -/
  waiting : ∀ site, site ∉ done → s.program.reference? site = p.reference? site
  /-- Visited sites have what was known before the pass. -/
  visited : ∀ site ∈ done, ∀ context r, p.siteOwner site = .ok context →
    p.reference? site = .ok (some r) → ∃ now, s.program.reference? site = .ok (some now) ∧
      Outcome p c s.registry.inventory context r now
  /-- New types are layers. -/
  interned : ∀ key i, s.registry.inventory.findKey? key = some i →
    c.inventory.findKey? key = some i ∨ IsLayer p c s.registry.inventory key

theorem Outcome.mono {p : Program} {c : Catalog} {inv inv' : Inventory} {context : TypeId}
    {r now : Reference} (h : Outcome p c inv context r now)
    (hfind : ∀ key i, inv.findKey? key = some i → inv'.findKey? key = some i) :
    Outcome p c inv' context r now := by
  cases h with
  | kept hr => exact .kept hr
  | found hr hdenotes htower => exact .found hr hdenotes (Inventory.tower?_mono hfind htower)
  | missed hr hnone => exact .missed hr hnone

theorem IsLayer.mono {p : Program} {c : Catalog} {inv inv' : Inventory} {key : TypeKey}
    (h : IsLayer p c inv key)
    (hfind : ∀ key i, inv.findKey? key = some i → inv'.findKey? key = some i) :
    IsLayer p c inv' key := by
  obtain ⟨context, site, r, base, n, layer, hopen, hdenotes, hn, htower, hkey⟩ := h
  exact ⟨context, site, r, base, n, layer, hopen, hdenotes, hn,
    Inventory.tower?_mono hfind htower, hkey⟩

variable {p : Program} {c : Catalog} {done : List Site} {s s' : Resolution Catalog}
  {context : TypeId} {site : Site} {r now : Reference}

theorem progress_init (h : c.inventory.Sound) :
    Progress p c [] { program := p, registry := c } where
  outline := rfl
  sound := h
  grown := c.growsByArrays_refl
  waiting := fun _ _ => rfl
  visited := fun site hsite => absurd hsite (by simp)
  interned := fun _ _ hkey => Or.inl hkey

/-- A site where nothing is written, because nothing needs to be. -/
theorem progress_mark (h : Progress p c done s) (howner : p.siteOwner site = .ok context)
    (hr : p.reference? site = .ok (some r)) (hnow : s.program.reference? site = .ok (some now))
    (hout : Outcome p c s.registry.inventory context r now) (hprogram : s'.program = s.program)
    (hregistry : s'.registry = s.registry) : Progress p c (done ++ [site]) s' where
  outline := by rw [hprogram, h.outline]
  sound := by rw [hregistry]; exact h.sound
  grown := by rw [hregistry]; exact h.grown
  waiting := by
    intro other hother
    rw [hprogram]
    exact h.waiting other fun hmem => hother (List.mem_append_left _ hmem)
  visited := by
    intro other hother context' r' howner' hr'
    rw [hprogram, hregistry]
    rcases List.mem_append.mp hother with hdone | hsite
    · exact h.visited other hdone context' r' howner' hr'
    · cases List.mem_singleton.mp hsite
      rw [howner] at howner'
      cases howner'
      rw [hr] at hr'
      cases hr'
      exact ⟨now, hnow, hout⟩
  interned := by rw [hregistry]; exact h.interned

/-- A site where the top of a tower is written. -/
theorem progress_write (h : Progress p c done s) (hopen : OpenAt p context site r)
    (hnow : s.program.reference? site = .ok (some r)) {base type : TypeHandle}
    (hdenotes : Denotes p c context r base) {registry : Catalog}
    (hwrap : wrap s.registry r.dimensions base = (some type, registry)) {tally : Tally} :
    Progress p c (done ++ [site])
      { program := s.program.modifyReference site fun r => (r.resolve type).2
        registry
        tally } := by
  obtain ⟨type', registry', hwrap', hsound, hgrow, htower, honly⟩ := wrap_spec h.sound hdenotes.2
  rw [hwrap] at hwrap'
  cases hwrap'
  refine ⟨?_, hsound, Catalog.growsByArrays_trans h.grown hgrow, ?_, ?_, ?_⟩
  · rw [← h.outline]
    exact outline_modifyReference _ _ (Reference.erase_resolve · type)
  · intro other hother
    have hne : site ≠ other := fun heq => hother (by simp [heq])
    rw [reference?_modifyReference_ne _ hne]
    exact h.waiting other fun hmem => hother (List.mem_append_left _ hmem)
  · intro other hother context' r' howner' hr'
    by_cases heq : site = other
    · -- the site itself, whose owner and reference are known
      subst heq
      have howner := hopen.owner
      have hr := hopen.reference
      rw [howner'] at howner
      cases howner
      rw [hr'] at hr
      cases hr
      refine ⟨{ r with resolved := some type }, ?_, .found hopen.isOpen hdenotes htower⟩
      rw [reference?_modifyReference_self, hnow]
      simp [Except.map, Reference.resolve, hopen.isOpen]
    · rcases List.mem_append.mp hother with hdone | hsite
      · obtain ⟨now, hnow', hout⟩ := h.visited other hdone context' r' howner' hr'
        exact ⟨now, by rw [reference?_modifyReference_ne _ heq, hnow'], hout.mono hgrow.find⟩
      · exact absurd (List.mem_singleton.mp hsite).symm heq
  · intro key i hkey
    rcases honly key i hkey with hold | ⟨n, layer, hn, hlayer, rfl⟩
    · rcases h.interned key i hold with hbefore | hlayer
      · exact Or.inl hbefore
      · exact Or.inr (hlayer.mono hgrow.find)
    · exact Or.inr ⟨context, site, r, base, n, layer, hopen, hdenotes, hn, hlayer, rfl⟩

/-- During a pass names are looked up as before it. -/
theorem lookupName_progress (hc : c.inventory.Sound) (h : Progress p c done s) (context : TypeId)
    (name : String) :
    s.program.lookupName s.registry context name = p.lookupName c context name := by
  rw [← lookupName_outline, h.outline, lookupName_outline]
  exact lookupName_grows hc h.sound h.grown context name

/-- What stands at a site, visited or not: if it is open, it is what stood there before. -/
theorem now_of_progress (h : Progress p c done s) (howner : p.siteOwner site = .ok context)
    (hr : p.reference? site = .ok (some r)) :
    ∃ now, s.program.reference? site = .ok (some now) ∧
      ((now.resolved = none ∧ now = r) ∨
        (∃ type, now.resolved = some type) ∧ Outcome p c s.registry.inventory context r now) := by
  by_cases hdone : site ∈ done
  · -- a visited site is open only if its reference was missed
    obtain ⟨now, hnow, hout⟩ := h.visited site hdone context r howner hr
    refine ⟨now, hnow, ?_⟩
    cases hout with
    | kept hres => exact Or.inr ⟨⟨_, hres⟩, .kept hres⟩
    | found hopen hdenotes htower => exact Or.inr ⟨⟨_, rfl⟩, .found hopen hdenotes htower⟩
    | missed hopen _ => exact Or.inl ⟨hopen, rfl⟩
  · refine ⟨r, (h.waiting site hdone).trans hr, ?_⟩
    cases hres : r.resolved with
    | none => exact Or.inl ⟨rfl, rfl⟩
    | some type => exact Or.inr ⟨⟨type, rfl⟩, .kept hres⟩

/-- A reference is missed if its name means nothing, or an array of `void`. -/
theorem find_missed {found : Option TypeHandle}
    (hfound : p.lookupName c context r.elementName = .ok found)
    (hvoid : ∀ base, found = some base → 0 < r.dimensions ∧ base = .void) :
    find p c context r = .ok (none, c) := by
  cases found with
  | none =>
      simp only [find, hfound, bind, Except.bind]
      rfl
  | some base =>
      obtain ⟨hdims, rfl⟩ := hvoid base rfl
      simp only [find, hfound, bind, Except.bind, wrap_void _ hdims]
      rfl

/-- **One visit.** It succeeds, and then its site has what was known before the pass. -/
theorem progress_visit (hp : p.Reachable) (hc : c.inventory.Sound) (h : Progress p c done s)
    (howner : p.siteOwner site = .ok context) (href : p.HasReference site) :
    ∃ s', s.visit (context, site) = .ok s' ∧ Progress p c (done ++ [site]) s' := by
  obtain ⟨r, hr⟩ := href
  obtain ⟨now, hnow, ⟨hopen, rfl⟩ | ⟨⟨type, hres⟩, hout⟩⟩ := now_of_progress h howner hr
  · have hlookup := lookupName_progress hc h context now.elementName
    obtain ⟨d, hd⟩ := Store.get?_of_lt (siteOwner_lt (rostered_reachable hp) howner ⟨now, hr⟩)
    obtain ⟨found, hfound⟩ := exists_lookupName (signed_reachable hp).signed c hd now.elementName
    -- whatever the reason, a reference that is missed is left as it is
    have hmissed : (∀ base, found = some base → 0 < now.dimensions ∧ base = .void) →
        ∃ s', s.visit (context, site) = .ok s' ∧ Progress p c (done ++ [site]) s' := by
      intro hvoid
      have hnone : ∀ base, ¬ Denotes p c context now base := by
        intro base hbase
        have hsome := hbase.1
        rw [hfound] at hsome
        exact hbase.2 (hvoid base (Except.ok.inj hsome))
      have hfind := find_missed (hlookup.trans hfound) hvoid
      refine ⟨_, (visit_open hnow hopen).trans (resolveOpen_missed hfind), ?_⟩
      exact progress_mark h howner hr hnow (.missed hopen hnone) rfl rfl
    cases found with
    | none => exact hmissed fun base hbase => absurd hbase (by simp)
    | some base =>
        by_cases hvoid : 0 < now.dimensions ∧ base = .void
        · refine hmissed fun base' hbase' => ?_
          cases hbase'
          exact hvoid
        · obtain ⟨type, registry, hwrap, _⟩ := wrap_spec h.sound hvoid
          have hfind : find s.program s.registry context now = .ok (some type, registry) := by
            simp only [find, hlookup, hfound, bind, Except.bind, hwrap]
            rfl
          refine ⟨_, (visit_open hnow hopen).trans (resolveOpen_found hfind), ?_⟩
          exact progress_write h ⟨howner, hr, hopen⟩ hnow ⟨hfound, hvoid⟩ hwrap
  · exact ⟨_, visit_resolved hnow hres, progress_mark h howner hr hnow hout rfl rfl⟩

/-- **Any number of visits, in any order.** -/
theorem progress_foldlM (hp : p.Reachable) (hc : c.inventory.Sound)
    {places : List (TypeId × Site)}
    (hplaces : ∀ place ∈ places, p.siteOwner place.2 = .ok place.1 ∧ p.HasReference place.2)
    (h : Progress p c done s) :
    ∃ s', places.foldlM visit s = .ok s' ∧ Progress p c (done ++ places.map Prod.snd) s' := by
  induction places generalizing done s with
  | nil => exact ⟨s, rfl, by rwa [List.map_nil, List.append_nil]⟩
  | cons place places ih =>
      obtain ⟨howner, href⟩ := hplaces place List.mem_cons_self
      obtain ⟨mid, hvisit, hmid⟩ := progress_visit hp hc h howner href
      obtain ⟨s', hrest, hs'⟩ := ih (fun z hz => hplaces z (List.mem_cons_of_mem place hz)) hmid
      refine ⟨s', ?_, ?_⟩
      · rw [List.foldlM_cons, hvisit]
        exact hrest
      · rwa [List.append_assoc] at hs'

/-! ## The whole pass -/

/-- What a pass makes of a program and a catalog, in terms of what they were before. -/
structure Resolves (p : Program) (c : Catalog) (s : Resolution Catalog) : Prop where
  /-- Nothing but handles is written to the program. -/
  outline : s.program.outline = p.outline
  /-- A reference that has its type keeps it. -/
  kept : ∀ site type, p.handle? site = some type → s.program.handle? site = some type
  /-- An open reference gets a type exactly if its name means one to its owner. -/
  resolved : ∀ context site r, OpenAt p context site r →
    ((∃ type, s.program.handle? site = some type) ↔ ∃ base, Denotes p c context r base)
  /-- What it gets is what its name means, under as many dimensions as it has. -/
  unwraps : ∀ context site r type, OpenAt p context site r → s.program.handle? site = some type →
    ∃ base, Denotes p c context r base ∧
      s.registry.inventory.unwrap r.dimensions type = some base
  /-- References that mean the same, under the same number of dimensions, get the same. -/
  shared : ∀ context context' site site' r r' base, OpenAt p context site r →
    OpenAt p context' site' r' → Denotes p c context r base → Denotes p c context' r' base →
    r.dimensions = r'.dimensions → s.program.handle? site = s.program.handle? site'
  /-- Types stay in the catalog as they are, and under their numbers. -/
  grown : c.GrowsByArrays s.registry
  /-- New types are layers of references that got their types. -/
  interned : ∀ key i, s.registry.inventory.findKey? key = some i →
    c.inventory.findKey? key = some i ∨ IsLayer p c s.registry.inventory key

/-- An open reference that a visit has left behind. -/
theorem handle?_of_progress (h : Progress p c done s) (hdone : site ∈ done)
    (hopen : OpenAt p context site r) :
    (∃ base type, Denotes p c context r base ∧ s.program.handle? site = some type ∧
      s.registry.inventory.tower? r.dimensions base = some type) ∨
    ((∀ base, ¬ Denotes p c context r base) ∧ s.program.handle? site = none) := by
  obtain ⟨now, hnow, hout⟩ := h.visited site hdone context r hopen.owner hopen.reference
  have hhandle := handle?_of_reference hnow
  cases hout with
  | kept hr =>
      rw [hopen.isOpen] at hr
      exact absurd hr (by simp)
  | found _ hdenotes htower => exact Or.inl ⟨_, _, hdenotes, hhandle, htower⟩
  | missed hr hnone => exact Or.inr ⟨hnone, hhandle.trans hr⟩

theorem resolves_of_progress (h : Progress p c done s)
    (hall : ∀ site, p.HasReference site → site ∈ done) : Resolves p c s where
  outline := h.outline
  kept := by
    intro site type htype
    obtain ⟨r, hr, hres⟩ := reference_of_handle? htype
    obtain ⟨context, howner⟩ := exists_siteOwner ⟨r, hr⟩
    obtain ⟨now, hnow, hout⟩ := h.visited site (hall site ⟨r, hr⟩) context r howner hr
    cases hout with
    | kept _ => rw [handle?_of_reference hnow, hres]
    | found hopen _ _ | missed hopen _ =>
        rw [hopen] at hres
        exact absurd hres (by simp)
  resolved := by
    intro context site r hopen
    rcases handle?_of_progress h (hall site ⟨r, hopen.reference⟩) hopen with
      ⟨base, type, hdenotes, hhandle, _⟩ | ⟨hnone, hhandle⟩
    · exact ⟨fun _ => ⟨base, hdenotes⟩, fun _ => ⟨type, hhandle⟩⟩
    · rw [hhandle]
      exact ⟨fun htype => absurd htype (by simp), fun hbase => hbase.elim fun base hb =>
        absurd hb (hnone base)⟩
  unwraps := by
    intro context site r type hopen htype
    rcases handle?_of_progress h (hall site ⟨r, hopen.reference⟩) hopen with
      ⟨base, top, hdenotes, hhandle, htower⟩ | ⟨_, hhandle⟩
    · rw [htype] at hhandle
      cases hhandle
      exact ⟨base, hdenotes, (Inventory.unwrap_eq_some_iff h.sound).mpr htower⟩
    · rw [htype] at hhandle
      exact absurd hhandle (by simp)
  shared := by
    intro context context' site site' r r' base hopen hopen' hbase hbase' hdims
    rcases handle?_of_progress h (hall site ⟨r, hopen.reference⟩) hopen with
      ⟨b, top, hdenotes, hhandle, htower⟩ | ⟨hnone, _⟩
    · rcases handle?_of_progress h (hall site' ⟨r', hopen'.reference⟩) hopen' with
        ⟨b', top', hdenotes', hhandle', htower'⟩ | ⟨hnone, _⟩
      · rw [hdenotes.unique hbase, hdims] at htower
        rw [hdenotes'.unique hbase', htower] at htower'
        rw [hhandle, hhandle', Option.some.inj htower']
      · exact absurd hbase' (hnone base)
    · exact absurd hbase (hnone base)
  grown := h.grown
  interned := h.interned

/--
**A pass resolves every reference as if it were the only one.**

A pass over a reachable program and a reachable catalog succeeds. What it does to each
reference is determined by the program and the catalog as they were before, and so it does
not matter in which order the sites are visited.
-/
theorem resolveAll_correct {p : Program} {c : Catalog} (hp : p.Reachable) (hc : c.Reachable) :
    (∃ s, p.resolveAll c = .ok s ∧ Resolves p c s) ∧
    ∃ places, p.referenceSites = .ok places ∧
      (∀ site, p.HasReference site → ∃ context, (context, site) ∈ places) ∧
      ∀ order : List (TypeId × Site), order.Perm places →
        ∃ s, order.foldlM visit { program := p, registry := c } = .ok s ∧ Resolves p c s := by
  have hsound := Catalog.sound_reachable hc
  obtain ⟨places, hplaces, hmem⟩ := mem_referenceSites (rostered_reachable hp)
  have hall : ∀ site, p.HasReference site → ∃ context, (context, site) ∈ places := by
    intro site href
    obtain ⟨context, howner⟩ := exists_siteOwner href
    exact ⟨context, (hmem context site).mpr ⟨howner, href⟩⟩
  have horders : ∀ order : List (TypeId × Site), order.Perm places →
      ∃ s, order.foldlM visit { program := p, registry := c } = .ok s ∧ Resolves p c s := by
    intro order hperm
    obtain ⟨s, hfold, hs⟩ := progress_foldlM hp hsound
      (fun place hplace => (hmem place.1 place.2).mp (hperm.mem_iff.mp hplace))
      (progress_init hsound)
    refine ⟨s, hfold, resolves_of_progress hs fun site href => ?_⟩
    obtain ⟨context, hplace⟩ := hall site href
    exact List.mem_map.mpr ⟨(context, site), hperm.mem_iff.mpr hplace, rfl⟩
  refine ⟨?_, places, hplaces, hall, horders⟩
  obtain ⟨s, hfold, hs⟩ := horders places (List.Perm.refl places)
  refine ⟨s, ?_, hs⟩
  rw [resolveAll, hplaces]
  exact hfold

/-- The sample has a field of type `Inner[]`, which is resolved, and one that is not. -/
theorem sample_resolves : ∃ s, sample.resolveAll (Catalog.ofCoreNames {}) = .ok s ∧
    Resolves sample (Catalog.ofCoreNames {}) s ∧
    (∃ type, s.program.handle? (.fieldType ⟨0⟩) = some type ∧
      s.registry.inventory.unwrap 1 type = some (.declared ⟨1⟩)) ∧
    s.program.handle? (.fieldType ⟨1⟩) = none := by
  obtain ⟨⟨s, hpass, hs⟩, _⟩ :=
    resolveAll_correct (c := Catalog.ofCoreNames {}) sample_reachable ⟨_, _, .seed rfl rfl⟩
  have hchain : sample.Ancestors ⟨2⟩ [⟨2⟩, ⟨0⟩] "com.app" := .inner rfl rfl (.top rfl rfl)
  have hqueue : OpenAt sample ⟨2⟩ (.fieldType ⟨0⟩) (written "Inner[]") :=
    ⟨Store.get_map .., rfl, rfl⟩
  have hother : OpenAt sample ⟨2⟩ (.fieldType ⟨1⟩) (written "Missing") :=
    ⟨Store.get_map .., rfl, rfl⟩
  have hlookup : ∀ name, SimpleName name →
      sample.lookupName (Catalog.ofCoreNames {}) ⟨2⟩ name = _ := fun name hname =>
    lookupName_simple (signed_reachable sample_reachable).signed _ hchain hname
  have hinner : Denotes sample (Catalog.ofCoreNames {}) ⟨2⟩ (written "Inner[]") (.declared ⟨1⟩) :=
    ⟨hlookup "Inner" (by decide), by decide⟩
  have hmissing : sample.lookupName (Catalog.ofCoreNames {}) ⟨2⟩ "Missing" = .ok none :=
    hlookup "Missing" (by decide)
  refine ⟨s, hpass, hs, ?_, ?_⟩
  · obtain ⟨type, htype⟩ := (hs.resolved _ _ _ hqueue).mpr ⟨_, hinner⟩
    obtain ⟨base, hbase, hunwrap⟩ := hs.unwraps _ _ _ _ hqueue htype
    rw [hbase.unique hinner] at hunwrap
    exact ⟨type, htype, hunwrap⟩
  · cases htype : s.program.handle? (.fieldType ⟨1⟩) with
    | none => rfl
    | some type =>
        obtain ⟨base, hbase⟩ := (hs.resolved _ _ _ hother).mp ⟨type, htype⟩
        have hsome : Except.ok (some base) = Except.ok none := hbase.1.symm.trans hmissing
        exact absurd (Except.ok.inj hsome) (by simp)

end Resolution

end ClassTable

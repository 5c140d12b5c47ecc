import ClassTable.Proofs.Program.Census
import ClassTable.Proofs.Program.Pass

/-!
# Counting, and doing it again

The tally of a pass is exact because the pass visits every reference once: a reference that
was met twice would be counted as resolved before, the second time. The induction is over the
sites visited so far, none of them twice, and says of each counter how many of these sites it
stands for (`Tallied`).

After a pass the open references are those that mean nothing (`Settled`), and they still do:
all that was added to the catalog are array types, which no name leads to. A second pass
therefore finds nothing to do.
-/

namespace ClassTable

open Program

/-! ## One outline, the same sites -/

theorem Reference.eq_of_erase {r r' : Reference} (h : r'.erase = r.erase)
    (hresolved : r'.resolved = r.resolved) : r' = r := by
  have htokens : r'.tokens = r.tokens := (Reference.mk.inj h).1
  cases r
  cases r'
  cases htokens
  cases hresolved
  rfl

namespace Program

theorem reference?_outline (p : Program) (site : Site) :
    p.outline.reference? site = (p.reference? site).map (Option.map Reference.erase) := by
  cases site <;> simp only [reference?, outline, Store.get_map]
  case extendsItem t i | implementsItem t i =>
    cases p.types.get t <;> simp [Except.map, Declaration.outline]
  case fieldType f => cases p.fields.get f <;> simp [Except.map, Field.outline]
  case constructorParameter c i | constructorThrows c i =>
    cases p.constructors.get c <;>
      simp [Except.map, Constructor.outline, Parameter.outline, Parameter.mapType,
        Function.comp_def]
  case methodReturn m | methodParameter m i | methodThrows m i | annotationItem m i =>
    cases p.methods.get m <;>
      simp [Except.map, Method.outline, Parameter.outline, Parameter.mapType,
        AnnotationUse.outline, AnnotationUse.mapType, Function.comp_def]

/-- What stands at a site of one program stands there in the other, up to its handle. -/
theorem reference?_of_outline {p q : Program} (h : q.outline = p.outline) {site : Site}
    {r : Reference} (hr : q.reference? site = .ok (some r)) :
    ∃ r', p.reference? site = .ok (some r') ∧ r'.erase = r.erase := by
  have houtline := p.reference?_outline site
  rw [← h, q.reference?_outline, hr] at houtline
  obtain ⟨found, hfound, hsome⟩ := map_eq_ok.mp houtline.symm
  obtain ⟨r', rfl, herase⟩ := Option.map_eq_some_iff.mp hsome
  exact ⟨r', hfound, herase⟩

theorem hasReference_of_outline {p q : Program} (h : q.outline = p.outline) (site : Site) :
    q.HasReference site ↔ p.HasReference site :=
  ⟨fun href => href.elim fun _ hr => (reference?_of_outline h hr).imp fun _ hr' => hr'.1,
    fun href => href.elim fun _ hr => (reference?_of_outline h.symm hr).imp fun _ hr' => hr'.1⟩

theorem tableSites_perm {p q : Program} (h : q.outline = p.outline) :
    q.tableSites.Perm p.tableSites := by
  refine (List.perm_ext_iff_of_nodup q.tableSites_nodup p.tableSites_nodup).mpr fun site => ?_
  rw [mem_tableSites, mem_tableSites, hasReference_of_outline h]

theorem siteOwner_of_outline {p q : Program} (h : q.outline = p.outline) (site : Site) :
    q.siteOwner site = p.siteOwner site := by
  have howners : ∀ e, q.owners e = p.owners e := fun e => by
    rw [← owners_outline, h, owners_outline]
  unfold siteOwner
  split
  · rfl
  · rw [howners]

theorem handle?_modifyReference_ne (p : Program) {site other : Site} (h : site ≠ other)
    (f : Reference → Reference) :
    (p.modifyReference site f).handle? other = p.handle? other := by
  rw [handle?, handle?, reference?_modifyReference_ne p h]

end Program

/-! ## The tally -/

namespace Resolution

variable {ρ : Type}

/-- What the counters say when the sites in `done` have been visited. -/
structure Tallied (p : Program) (done : List Site) (s : Resolution ρ) : Prop where
  /-- Other sites are as they were. -/
  waiting : ∀ site, site ∉ done → s.program.reference? site = p.reference? site
  /-- Visited sites that had a handle before the pass. -/
  already : s.tally.alreadyResolved = done.countP fun site => (p.handle? site).isSome
  /-- Visited sites that have a handle now. -/
  resolved : s.tally.resolved + s.tally.alreadyResolved =
    done.countP fun site => (s.program.handle? site).isSome
  /-- All visited sites. -/
  total : s.tally.resolved + s.tally.alreadyResolved + s.tally.unresolved = done.length

theorem tallied_init (p : Program) (r : ρ) :
    Tallied p [] { program := p, registry := r } :=
  ⟨fun _ _ => rfl, rfl, rfl, rfl⟩

variable [Registry ρ]

/-- **One visit counts its site once.** -/
theorem tallied_visit {p : Program} {done : List Site} {s s' : Resolution ρ} {context : TypeId}
    {site : Site} (h : Tallied p done s) (hnew : site ∉ done) (href : p.HasReference site)
    (hvisit : s.visit (context, site) = .ok s') : Tallied p (done ++ [site]) s' := by
  have hbefore : p.handle? site = s.program.handle? site := by
    rw [handle?, handle?, h.waiting site hnew]
  have hcount : ∀ q : Program, (done ++ [site]).countP (fun site => (q.handle? site).isSome) =
      done.countP (fun site => (q.handle? site).isSome) +
        if (q.handle? site).isSome then 1 else 0 := by
    intro q
    rw [List.countP_append, List.countP_singleton]
  have hwaiting : ∀ other, other ∉ done ++ [site] →
      s.program.reference? other = p.reference? other :=
    fun other hother => h.waiting other fun hmem => hother (List.mem_append_left _ hmem)
  have halready := h.already
  have hresolved := h.resolved
  have htotal := h.total
  cases visit_cases hvisit with
  | missing hr =>
      obtain ⟨r, hr'⟩ := href
      rw [h.waiting site hnew, hr'] at hr
      exact absurd (Except.ok.inj hr) (by simp)
  | @kept r type hr hres =>
      have hnow := (handle?_of_reference hr).trans hres
      refine ⟨hwaiting, ?_, ?_, ?_⟩
      · rw [hcount, hbefore, hnow, halready]
        rfl
      · rw [hcount, hnow, ← hresolved]
        simp only [Option.isSome_some, if_true]
        omega
      · rw [List.length_append, List.length_singleton]
        show s.tally.resolved + (s.tally.alreadyResolved + 1) + s.tally.unresolved = _
        omega
  | @found r type registry hr hres _ =>
      have hnow := (handle?_of_reference hr).trans hres
      have hother : ∀ other ∈ done, site ≠ other := fun other hother heq => hnew (heq ▸ hother)
      refine ⟨fun other hmem => ?_, ?_, ?_, ?_⟩
      · have hne : site ≠ other := fun heq => hmem (by simp [heq])
        rw [reference?_modifyReference_ne _ hne, hwaiting other hmem]
      · rw [hcount, hbefore, hnow, halready]
        rfl
      · -- the visited sites keep what they have, and this one gets a handle
        have hsite : (s.program.modifyReference site fun r => (r.resolve type).2).handle? site =
            some type := by
          rw [handle?, reference?_modifyReference_self, hr]
          simp [Except.map, Reference.resolve_resolved, hres]
        rw [hcount, hsite, List.countP_congr fun other hmem => by
          rw [handle?_modifyReference_ne _ (hother other hmem)], ← hresolved]
        show s.tally.resolved + 1 + s.tally.alreadyResolved = _
        simp only [Option.isSome_some, if_true]
        omega
      · rw [List.length_append, List.length_singleton]
        show s.tally.resolved + 1 + s.tally.alreadyResolved + s.tally.unresolved = _
        omega
  | @missed r registry hr hres _ =>
      have hnow := (handle?_of_reference hr).trans hres
      refine ⟨hwaiting, ?_, ?_, ?_⟩
      · rw [hcount, hbefore, hnow, halready]
        rfl
      · rw [hcount, hnow, ← hresolved]
        rfl
      · rw [List.length_append, List.length_singleton]
        show s.tally.resolved + s.tally.alreadyResolved + (s.tally.unresolved + 1) = _
        omega

/-- **Any number of visits, none of them to a site that was visited.** -/
theorem tallied_foldlM {p : Program} {done : List Site} {s s' : Resolution ρ}
    {places : List (TypeId × Site)} (h : Tallied p done s)
    (hnodup : (done ++ places.map Prod.snd).Nodup)
    (href : ∀ place ∈ places, p.HasReference place.2) (hfold : places.foldlM visit s = .ok s') :
    Tallied p (done ++ places.map Prod.snd) s' := by
  induction places generalizing done s with
  | nil =>
      cases hfold
      rwa [List.map_nil, List.append_nil]
  | cons place places ih =>
      obtain ⟨context, site⟩ := place
      rw [List.foldlM_cons] at hfold
      obtain ⟨mid, hvisit, hrest⟩ := bind_eq_ok.mp hfold
      have hnew : site ∉ done := by
        rw [List.map_cons, List.nodup_append'] at hnodup
        exact fun hdone => hnodup.2.2 hdone List.mem_cons_self
      have hmid := tallied_visit h hnew (href _ List.mem_cons_self) hvisit
      rw [List.map_cons, ← List.singleton_append, ← List.append_assoc] at hnodup ⊢
      exact ih hmid hnodup (fun z hz => href z (List.mem_cons_of_mem _ hz)) hrest

/-- **The tally of a pass.** It counts the references that had their types, those that have
them now, and all references. -/
theorem tally_resolveAll {p : Program} {r : ρ} {s : Resolution ρ} (hp : p.AllRostered)
    (h : p.resolveAll r = .ok s) :
    s.tally.alreadyResolved = p.references.countP Reference.isResolved ∧
    s.tally.resolved + s.tally.alreadyResolved =
      s.program.references.countP Reference.isResolved ∧
    s.tally.resolved + s.tally.alreadyResolved + s.tally.unresolved = p.references.length := by
  have houtline := outline_resolveAll h
  obtain ⟨places, hplaces, hperm, _⟩ := sites_perm hp
  obtain ⟨places', hplaces', hfold⟩ := bind_eq_ok.mp h
  rw [hplaces] at hplaces'
  cases hplaces'
  have hnodup : (places.map Prod.snd).Nodup := hperm.nodup_iff.mpr p.tableSites_nodup
  have htallied := tallied_foldlM (tallied_init p r) (by simpa using hnodup)
    (fun place hplace => mem_tableSites.mp (hperm.mem_iff.mp (List.mem_map_of_mem hplace))) hfold
  rw [List.nil_append] at htallied
  refine ⟨?_, ?_, ?_⟩
  · rw [htallied.already, hperm.countP_eq, countP_tableSites]
  · rw [htallied.resolved, hperm.countP_eq, ← (tableSites_perm houtline).countP_eq,
      countP_tableSites]
  · rw [htallied.total, hperm.length_eq, length_tableSites]

/-! ## Nothing left to do -/

/-- No open reference means anything. -/
def Settled (p : Program) (c : Catalog) : Prop :=
  ∀ context site r, OpenAt p context site r → ∀ base, ¬ Denotes p c context r base

/-- **A pass leaves nothing to do.** -/
theorem settled_of_resolves {p : Program} {c : Catalog} {s : Resolution Catalog}
    (hc : c.inventory.Sound) (hs : s.registry.inventory.Sound) (h : Resolves p c s) :
    Settled s.program s.registry := by
  intro context site r hopen base hbase
  obtain ⟨r', hr', herase⟩ := reference?_of_outline h.outline hopen.reference
  -- it was open before the pass too, so it is the same reference
  have hopen' : r'.resolved = none := by
    cases hres : r'.resolved with
    | none => rfl
    | some type =>
        have hkept := h.kept site type ((handle?_of_reference hr').trans hres)
        rw [handle?_of_reference hopen.reference, hopen.isOpen] at hkept
        exact absurd hkept (by simp)
  have hsame : r' = r := Reference.eq_of_erase herase (hopen'.trans hopen.isOpen.symm)
  subst hsame
  have howner := (siteOwner_of_outline h.outline site).symm.trans hopen.owner
  have hdenotes : Denotes p c context r' base := by
    refine ⟨?_, hbase.2⟩
    rw [← hbase.1, ← lookupName_outline s.program, h.outline, lookupName_outline,
      lookupName_grows hc hs h.grown]
  obtain ⟨type, htype⟩ := (h.resolved context site r' ⟨howner, hr', hopen'⟩).mpr ⟨base, hdenotes⟩
  rw [handle?_of_reference hopen.reference, hopen.isOpen] at htype
  exact absurd htype (by simp)

/-- A visit with nothing to do. -/
theorem visit_settled {p : Program} {c : Catalog} (hp : p.Reachable) (h : Settled p c)
    {context : TypeId} {site : Site} (howner : p.siteOwner site = .ok context)
    (href : p.HasReference site) (tally : Tally) :
    ∃ tally', visit { program := p, registry := c, tally } (context, site) =
      .ok { program := p, registry := c, tally := tally' } := by
  obtain ⟨r, hr⟩ := href
  cases hres : r.resolved with
  | some type => exact ⟨_, visit_resolved hr hres⟩
  | none =>
      obtain ⟨d, hd⟩ := Store.get?_of_lt (siteOwner_lt (rostered_reachable hp) howner ⟨r, hr⟩)
      obtain ⟨found, hfound⟩ := exists_lookupName (signed_reachable hp).signed c hd r.elementName
      have hfind := find_missed hfound fun base hbase => by
        have hnot := h context site r ⟨howner, hr, hres⟩ base
        rw [hbase] at hfound
        exact Decidable.not_not.mp fun hvoid => hnot ⟨hfound, hvoid⟩
      exact ⟨_, (visit_open hr hres).trans (resolveOpen_missed hfind)⟩

theorem foldlM_settled {p : Program} {c : Catalog} (hp : p.Reachable) (h : Settled p c)
    {places : List (TypeId × Site)}
    (hplaces : ∀ place ∈ places, p.siteOwner place.2 = .ok place.1 ∧ p.HasReference place.2)
    (tally : Tally) :
    ∃ tally', places.foldlM visit { program := p, registry := c, tally } =
      .ok { program := p, registry := c, tally := tally' } := by
  induction places generalizing tally with
  | nil => exact ⟨tally, rfl⟩
  | cons place places ih =>
      obtain ⟨howner, href⟩ := hplaces place List.mem_cons_self
      obtain ⟨mid, hvisit⟩ := visit_settled hp h howner href tally
      obtain ⟨tally', hrest⟩ := ih (fun z hz => hplaces z (List.mem_cons_of_mem place hz)) mid
      exact ⟨tally', by rw [List.foldlM_cons, hvisit]; exact hrest⟩

/-- **A pass with nothing to do** changes nothing, and counts what there is. -/
theorem resolveAll_settled {p : Program} {c : Catalog} (hp : p.Reachable) (h : Settled p c) :
    ∃ tally, p.resolveAll c = .ok { program := p, registry := c, tally } ∧ tally.resolved = 0 := by
  obtain ⟨places, hplaces, hmem⟩ := mem_referenceSites (rostered_reachable hp)
  obtain ⟨tally, hfold⟩ := foldlM_settled hp h
    (fun place hplace => (hmem place.1 place.2).mp hplace) {}
  have hpass : p.resolveAll c = .ok { program := p, registry := c, tally } := by
    rw [resolveAll, hplaces]
    exact hfold
  refine ⟨tally, hpass, ?_⟩
  -- the references with handles are the same before and after
  obtain ⟨halready, hresolved, _⟩ := tally_resolveAll (rostered_reachable hp) hpass
  simp only at halready hresolved
  omega

end Resolution

end ClassTable

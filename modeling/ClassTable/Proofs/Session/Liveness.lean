import ClassTable.Proofs.Program.Attached
import ClassTable.Proofs.Program.Located
import ClassTable.Proofs.Program.Repetition
import ClassTable.Proofs.Session.Operations

/-!
# No dangling handles

A reference keeps its handle for good, so a handle must go on to mean something whatever happens
to the program and to the catalog. Three things see to that. What a name leads to is there, and
so is every array type over it. Programs and catalogs only grow. And a program that was set aside
has only handles that were live in it then, which the catalog, as it is never set back, still
knows.

The catalog may well know more than a program that comes back: arrays of types that this program
has not declared yet. No reference of the program has such a handle.
-/

namespace ClassTable

/-- Every handle that a reference of the program has is live. -/
def Program.HandlesLive (p : Program) (inv : Inventory) : Prop :=
  ∀ r ∈ p.references, ∀ type, r.resolved = some type → p.Live inv type

/-- The references that an operation attaches. -/
def Operation.attached : Operation → List Reference
  | .addExtends _ r | .addImplements _ r => [r]
  | .addField x => [x.type]
  | .addMethod x => x.references
  | .addConstructor x => x.references
  | _ => []

/-- The handles that an operation is given for references. -/
def Operation.supplied : Operation → List TypeHandle
  | .resolveAt _ type => [type]
  | op => op.attached.filterMap Reference.resolved

namespace Session

/-- What happens in a session. -/
inductive Event where
  /-- An operation is performed. -/
  | perform (op : Operation)
  /-- The program is set aside. -/
  | save
  /-- The program set aside last comes back. -/
  | load
  /-- A program comes back and stays set aside. -/
  | goBack (position : Nat)

/-- The handles that come from outside with an event. -/
def Event.supplied : Event → List TypeHandle
  | .perform op => op.supplied
  | _ => []

/-- Goes back to one of the programs set aside. -/
def goBack (s : Session Catalog) (position : Nat) : Session Catalog :=
  match s.checkpoints[position]? with
  | some program => { s with program }
  | none => s

/-- The session after an event. -/
def happen (s : Session Catalog) : Event → Session Catalog
  | .perform op => s.perform op
  | .save => s.save
  | .load => s.load
  | .goBack position => s.goBack position

/-- The session after a sequence of events. -/
def follow (s : Session Catalog) (events : List Event) : Session Catalog := events.foldl happen s

/-- Every handle that comes from outside is live when it is supplied. -/
def Supplied (s : Session Catalog) : List Event → Prop
  | [] => True
  | event :: later =>
    (∀ type ∈ event.supplied, s.program.Live s.registry.inventory type) ∧
      (s.happen event).Supplied later

/-- The catalog and all programs are such as runs lead to, and all handles are live. -/
structure Anchored (s : Session Catalog) : Prop where
  /-- The catalog is one that a run leads to. -/
  registry : s.registry.Reachable
  /-- So are the programs, and their handles are live in them. -/
  programs : ∀ p ∈ s.program :: s.checkpoints,
    p.Reachable ∧ p.HandlesLive s.registry.inventory

end Session

/-! ## Live handles stay live -/

namespace Program

variable {p q : Program} {c c' : Catalog}

theorem Live.grows (hp : p.Grows q) (hc : c.Grows c') {type : TypeHandle}
    (h : p.Live c.inventory type) : q.Live c'.inventory type := by
  refine Live.mono hc.get ?_
  cases type with
  | canonical i => exact h
  | declared id =>
      obtain ⟨d, hd⟩ := Store.get?_of_lt (s := p.types) h
      obtain ⟨d', hd', _⟩ := hp.types id d hd
      exact Store.size_of_get? hd'

/-- An operation that brings live handles. -/
theorem HandlesLive.brings (h : p.HandlesLive c.inventory) (hp : p.Grows q) (hc : c.Grows c')
    {new : List Reference} (hq : p.Brings q new)
    (hnew : ∀ type ∈ new.filterMap Reference.resolved, p.Live c.inventory type) :
    q.HandlesLive c'.inventory := by
  intro r hr type hres
  refine Live.grows hp hc ?_
  rcases hq r hr with hold | hin
  · exact h r hold type hres
  · exact hnew type (List.mem_filterMap.mpr ⟨r, hin, hres⟩)

/-- What stands at a site is what the references have. -/
theorem HandlesLive.handle? {inv : Inventory} (h : p.HandlesLive inv) {site : Site}
    {type : TypeHandle} (hsite : p.handle? site = some type) : p.Live inv type := by
  obtain ⟨r, hr, hres⟩ := exists_handle?_iff.mp ⟨site, hsite⟩
  exact h r hr type hres

theorem handlesLive_of_sites {inv : Inventory}
    (h : ∀ site type, p.handle? site = some type → p.Live inv type) : p.HandlesLive inv := by
  intro r hr type hres
  obtain ⟨site, hsite⟩ := exists_handle?_iff.mpr ⟨r, hr, hres⟩
  exact h site type hsite

/-- What is left when dimensions are taken off is there, so what they were taken off is too. -/
theorem live_of_unwrap {inv : Inventory} (hs : inv.Sound) {dims : Nat} {type base : TypeHandle}
    (h : inv.unwrap dims type = some base) (hbase : p.Live inv base) : p.Live inv type := by
  cases dims with
  | zero =>
      cases h
      exact hbase
  | succ dims =>
      obtain ⟨element, helement, _⟩ := Option.bind_eq_some_iff.mp h
      obtain ⟨i, rfl, hfind⟩ := (Inventory.elementOf_eq_some_iff hs).mp helement
      obtain ⟨e, he, _⟩ := hs.get_of_find _ i hfind
      exact Or.inr (by rw [he]; rfl)

/-- **A pass writes live handles only.** -/
theorem handlesLive_resolveAll (hp : p.Reachable) (hc : c.Reachable)
    (h : p.HandlesLive c.inventory) {s : Resolution Catalog} (hpass : p.resolveAll c = .ok s)
    (hgrows : p.Grows s.program) (hlater : c.Grows s.registry)
    (hsound : s.registry.inventory.Sound) : s.program.HandlesLive s.registry.inventory := by
  obtain ⟨⟨s', hpass', hresolves⟩, _⟩ := Resolution.resolveAll_correct hp hc
  rw [hpass] at hpass'
  cases hpass'
  refine handlesLive_of_sites fun site type htype => ?_
  obtain ⟨now, hnow, _⟩ := reference_of_handle? htype
  obtain ⟨r, hr, _⟩ := reference?_of_outline hresolves.outline hnow
  cases hres : r.resolved with
  | some known =>
      -- the reference had its type before
      have hknown : p.handle? site = some known := by rw [handle?_of_reference hr, hres]
      rw [hresolves.kept site known hknown] at htype
      cases htype
      exact (h.handle? hknown).grows hgrows hlater
  | none =>
      obtain ⟨context, howner⟩ := exists_siteOwner ⟨r, hr⟩
      obtain ⟨base, hdenotes, hunwrap⟩ :=
        hresolves.unwraps context site r type ⟨howner, hr, hres⟩ htype
      have hbase := (located_lookupName hp hdenotes.1).live (Catalog.sound_reachable hc)
      exact live_of_unwrap hsound hunwrap (hbase.grows hgrows hlater)

end Program

namespace Session

open Program

/-! ## One event -/

theorem checkpoints_perform (s : Session Catalog) (op : Operation) :
    (s.perform op).checkpoints = s.checkpoints := by
  have haccept : ∀ result, (s.accept result).checkpoints = s.checkpoints := by
    intro result
    cases result <;> rfl
  cases op with
  | declare scope head => exact haccept _
  | addExtends id r | addImplements id r => exact haccept _
  | addField x | addMethod x | addConstructor x | addInitializer x => exact haccept _
  | resolveAt site type | resolveAll =>
      simp only [perform]
      split <;> rfl
  | request q => rfl
  | supertypes id => rfl

theorem handlesLive_accept {s : Session Catalog} {result : Except Fault Program}
    (h : s.program.HandlesLive s.registry.inventory)
    (hgrows : s.program.Grows (s.accept result).program) {new : List Reference}
    (hnew : ∀ type ∈ new.filterMap Reference.resolved,
      s.program.Live s.registry.inventory type)
    (hresult : ∀ q, result = .ok q → s.program.Brings q new) :
    (s.accept result).program.HandlesLive (s.accept result).registry.inventory := by
  cases result with
  | error fault => exact h
  | ok q => exact h.brings hgrows (Catalog.grows_refl _) (hresult q rfl) hnew

/-- **An operation that is given live handles leaves only live handles.** -/
theorem handlesLive_perform {s : Session Catalog} (hs : s.Anchored) {op : Operation}
    (hop : ∀ type ∈ op.supplied, s.program.Live s.registry.inventory type) :
    (s.perform op).program.HandlesLive (s.perform op).registry.inventory := by
  obtain ⟨hreachable, hlive⟩ := hs.programs _ List.mem_cons_self
  have hadvances := advances_perform s op
  obtain ⟨hlater, hsound⟩ :=
    Catalog.grows_later (Catalog.sound_reachable hs.registry) hadvances.registry
  have hgrows := hadvances.grows
  have hnamed : ∀ {α : Type} {result : Except Fault (α × Program)} {new : List Reference},
      (∀ x q, result = .ok (x, q) → s.program.Brings q new) →
      ∀ q, result.map Prod.snd = .ok q → s.program.Brings q new := by
    intro α result new hresult q hq
    obtain ⟨⟨x, _⟩, hok, rfl⟩ := map_eq_ok.mp hq
    exact hresult x _ hok
  have hsame : s.program.HandlesLive (s.perform op).registry.inventory :=
    fun r hr type hres => (hlive r hr type hres).mono hlater.get
  cases op with
  | declare scope head =>
      exact handlesLive_accept hlive hgrows hop (hnamed fun _ _ h => brings_declare h)
  | addExtends id r => exact handlesLive_accept hlive hgrows hop fun _ h => brings_addExtends h
  | addImplements id r =>
      exact handlesLive_accept hlive hgrows hop fun _ h => brings_addImplements h
  | addField x => exact handlesLive_accept hlive hgrows hop (hnamed fun _ _ h => brings_addField h)
  | addMethod x =>
      exact handlesLive_accept hlive hgrows hop (hnamed fun _ _ h => brings_addMethod h)
  | addConstructor x =>
      exact handlesLive_accept hlive hgrows hop (hnamed fun _ _ h => brings_addConstructor h)
  | addInitializer x =>
      exact handlesLive_accept hlive hgrows hop (hnamed fun _ _ h => brings_addInitializer h)
  | resolveAt site type =>
      simp only [perform] at hgrows ⊢
      split
      · rename_i q hresolve
        simp only [hresolve] at hgrows
        refine handlesLive_of_sites fun other known hknown => ?_
        refine Live.grows hgrows (Catalog.grows_refl _) ?_
        rcases handle?_resolveAt hresolve hknown with hold | rfl
        · exact hlive.handle? hold
        · exact hop _ List.mem_cons_self
      · exact hlive
  | resolveAll =>
      simp only [perform] at hgrows hlater hsound ⊢
      split
      · rename_i pass hpass
        simp only [hpass] at hgrows hlater hsound
        exact handlesLive_resolveAll hreachable hs.registry hlive hpass hgrows hlater hsound
      · exact hlive
  | request q => exact hsame
  | supertypes id => exact hsame

/-- **Every event keeps all handles live,** in the program and in those set aside. -/
theorem anchored_happen {s : Session Catalog} (hs : s.Anchored) {event : Event}
    (hevent : ∀ type ∈ event.supplied, s.program.Live s.registry.inventory type) :
    (s.happen event).Anchored := by
  cases event with
  | perform op =>
      have hadvances := advances_perform s op
      obtain ⟨hlater, _⟩ :=
        Catalog.grows_later (Catalog.sound_reachable hs.registry) hadvances.registry
      refine ⟨Catalog.reachable_later hs.registry hadvances.registry, fun p hp => ?_⟩
      rcases List.mem_cons.mp hp with rfl | hp
      · exact ⟨hadvances.program (hs.programs _ List.mem_cons_self).1,
          handlesLive_perform hs hevent⟩
      · -- a program that is set aside does not change, and the catalog only grows
        rw [show (s.happen (.perform op)).checkpoints = s.checkpoints from
          checkpoints_perform s op] at hp
        obtain ⟨hreachable, hlive⟩ := hs.programs p (List.mem_cons_of_mem _ hp)
        exact ⟨hreachable, fun r hr type hres => (hlive r hr type hres).mono hlater.get⟩
  | save =>
      refine ⟨hs.registry, fun p hp => hs.programs p ?_⟩
      exact (List.mem_cons.mp hp).elim (fun h => h ▸ List.mem_cons_self) id
  | load =>
      simp only [happen, load]
      split
      · exact hs
      · rename_i latest earlier hcheckpoints
        refine ⟨hs.registry, fun p hp => hs.programs p (List.mem_cons_of_mem _ ?_)⟩
        rwa [hcheckpoints]
  | goBack position =>
      simp only [happen, goBack]
      split
      · rename_i program hprogram
        refine ⟨hs.registry, fun p hp => hs.programs p ?_⟩
        rcases List.mem_cons.mp hp with rfl | hp
        · exact List.mem_cons_of_mem _ (List.mem_of_getElem? hprogram)
        · exact List.mem_cons_of_mem _ hp
      · exact hs

/-- **Any number of events.** -/
theorem anchored_follow {s : Session Catalog} {events : List Event} (hs : s.Anchored)
    (hevents : s.Supplied events) : (s.follow events).Anchored := by
  induction events generalizing s with
  | nil => exact hs
  | cons event later ih => exact ih (anchored_happen hs hevents.1) hevents.2

/-- Nothing is declared at the start of a session. -/
theorem anchored_start (names : CoreNames) :
    ({ registry := Catalog.ofCoreNames names } : Session Catalog).Anchored where
  registry := ⟨names, _, .seed rfl rfl⟩
  programs := by
    intro p hp
    cases List.mem_singleton.mp hp
    have hnone : (∅ : Program).references = [] := rfl
    exact ⟨.init, fun r hr => absurd hr (by rw [hnone]; exact List.not_mem_nil)⟩

/--
**Names lead to live types, and handles stay live.**

In a reachable program and a catalog that a run leads to, a declared type that a name leads to is
there, and is the first with its signature. A canonical type that a name leads to is primitive, or
was registered under a signature that no declared type has.

If every handle that comes from outside is live when it is supplied, then all handles of all
references are live, in the program and in those set aside, whatever happens in the session and
whichever program comes back.
-/
theorem handles_stay_live :
    (∀ (p : Program) (names : CoreNames) (log : List Call) (c : Catalog), p.Reachable →
      Catalog.Run names log c → ∀ (context : TypeId) (key : String),
        (∀ id, p.lookupName c context key = .ok (some (.declared id)) → p.FirstDeclared id) ∧
        ∀ i, p.lookupName c context key = .ok (some (.canonical i)) → i.isPrimitive = false →
          ∃ signature, p.Registered log c.inventory i signature) ∧
    ∀ (s : Session Catalog) (events : List Event), s.Anchored → s.Supplied events →
      (s.follow events).Anchored := by
  refine ⟨fun p names log c hp hrun context key => ⟨fun id hid => ?_, fun i hi hprimitive => ?_⟩,
    fun s events hs hevents => anchored_follow hs hevents⟩
  · obtain ⟨signature, hfirst⟩ := located_lookupName hp hid
    exact hfirst.firstDeclared hp
  · rcases located_lookupName hp hi with hyes | ⟨signature, hfind, hforeign⟩
    · rw [hprimitive] at hyes
      exact absurd hyes (by simp)
    · exact ⟨signature, registered_of_find hrun hfind hforeign⟩

/-- A class that extends the root object is set aside. A second class and an array of it are added,
and an attempt to make the first class extend the array comes too late. Then the program that was
set aside comes back. -/
def recalling : List Event := [
  .perform (.declare (.package "com.app") (classNamed "Foo")),
  .perform (.addExtends ⟨0⟩ { written "Object" with resolved := some (.canonical ⟨16⟩) }),
  .save,
  .perform (.declare (.package "com.app") (classNamed "Bar")),
  .perform (.request (.arrayOf (.declared ⟨1⟩))),
  .perform (.resolveAt (.extendsItem ⟨0⟩ 0) (.canonical ⟨18⟩)),
  .goBack 0]

/-- In the sample the name `Inner` leads to the first type of its signature, and handles stay live
while a class is set aside and comes back. -/
theorem recalled_class : sample.FirstDeclared ⟨1⟩ ∧
    ({ registry := Catalog.ofCoreNames {} } : Session Catalog).Supplied recalling ∧
    (({ registry := Catalog.ofCoreNames {} } : Session Catalog).follow recalling).Anchored := by
  have hchain : sample.Ancestors ⟨2⟩ [⟨2⟩, ⟨0⟩] "com.app" := .inner rfl rfl (.top rfl rfl)
  have hinner : sample.lookupName (Catalog.ofCoreNames {}) ⟨2⟩ "Inner" =
      .ok (some (.declared ⟨1⟩)) :=
    lookupName_simple (signed_reachable sample_reachable).signed _ hchain
      (show SimpleName "Inner" by decide)
  have hsupplied :
      ({ registry := Catalog.ofCoreNames {} } : Session Catalog).Supplied recalling := by
    refine ⟨fun _ h => absurd h List.not_mem_nil, fun type h => ?_,
      fun _ h => absurd h List.not_mem_nil, fun _ h => absurd h List.not_mem_nil,
      fun _ h => absurd h List.not_mem_nil, fun type h => ?_,
      fun _ h => absurd h List.not_mem_nil, trivial⟩
    · cases List.mem_singleton.mp h
      exact Or.inr rfl
    · cases List.mem_singleton.mp h
      exact Or.inr rfl
  obtain ⟨hsound, hlive⟩ := handles_stay_live
  exact ⟨(hsound sample {} _ _ sample_reachable (.seed rfl rfl) ⟨2⟩ "Inner").1 _ hinner, hsupplied,
    hlive _ _ (anchored_start {}) hsupplied⟩

end Session

end ClassTable
